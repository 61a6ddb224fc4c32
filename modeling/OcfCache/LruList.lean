import OcfCache.LinkedLists

/-!
# LRU lists

Embedding of the list operations of `ocf_lru.c`. A list has its hot lines at
the head: a line that enters a non-empty list is hot, and balancing keeps half
of the list hot. A list is described by its hot lines followed by its cold
ones. A failed `ENV_BUG_ON` is the result `none`; the module shows what each
operation does to the described list and that no assertion fails on it.
-/

namespace OcfCache.LruList

open LinkedLists
open List (append_assoc length_nil mem_append mem_append_left mem_cons mem_cons_of_mem nodup_append nodup_cons)

/-- `struct ocf_lru_meta`; `end_marker` is `none`. -/
structure LruMeta where
  /-- Neighbour towards the head. -/
  prev : Option Nat
  /-- Neighbour towards the tail. -/
  next : Option Nat
  /-- The line is in the hot part of its list. -/
  hot : Bool
  deriving DecidableEq, Repr

/-- `struct ocf_lru_list`. -/
structure LruHead where
  /-- Number of lines. -/
  numNodes : Nat
  /-- First line. -/
  head : Option Nat
  /-- Last line. -/
  tail : Option Nat
  /-- Number of hot lines. -/
  numHot : Nat
  /-- Last hot line. -/
  lastHot : Option Nat
  /-- The list distinguishes hot lines. -/
  trackHot : Bool
  deriving DecidableEq, Repr

/-- Nodes of all lines. -/
abbrev Nodes := Nat → LruMeta

/-- `OCF_LRU_HOT_RATIO`. -/
def ocfLruHotRatio : Nat := 2

/-- `_lru_init`. -/
def lruInit (trackHot : Bool) : LruHead := ⟨0, none, none, 0, none, trackHot⟩

/-- Update one node. -/
def setNode (nodes : Nodes) (x : Nat) (f : LruMeta → LruMeta) : Nodes :=
  Function.update nodes x (f (nodes x))

/-- Update a node if there is one. -/
def setNode? (nodes : Nodes) (x : Option Nat) (f : LruMeta → LruMeta) : Nodes :=
  match x with
  | none => nodes
  | some x => setNode nodes x f

/-- `balance_update_last_hot`: the new last hot line and the pivot. -/
def balanceUpdateLastHot (nodes : Nodes) (l : LruHead) (change : Int) :
    Option (Option Nat × Option Nat) :=
  if 0 < change then
    if change ≠ 1 then none
    else match l.lastHot with
      | none => some (l.head, l.head)
      | some x => if (nodes x).next = none then none else some ((nodes x).next, (nodes x).next)
  else if change < 0 then
    if change ≠ -1 then none
    else match l.lastHot with
      | none => none
      | some x => some ((nodes x).prev, some x)
  else some (l.lastHot, none)

/-- `balance_lru_list`. -/
def balanceLruList (nodes : Nodes) (l : LruHead) : Option (Nodes × LruHead) :=
  let target := l.numNodes / ocfLruHotRatio
  let change : Int := (target : Int) - l.numHot
  if !l.trackHot then some (nodes, l)
  else (balanceUpdateLastHot nodes l change).map fun r =>
    (setNode? nodes r.2 fun m => { m with hot := decide (0 ≤ change) },
      { l with numHot := target, lastHot := r.1 })

/-- `add_lru_head_nobalance`. -/
def addLruHeadNobalance (nodes : Nodes) (l : LruHead) (x : Nat) : Option (Nodes × LruHead) :=
  let nodes := setNode nodes x fun m => { m with hot := false }
  if l.numNodes = 0 then
    some (setNode nodes x fun m => { m with next := none, prev := none },
      { l with head := some x, tail := some x, numNodes := 1 })
  else
    match l.head with
    | none => none
    | some h =>
      let nodes := setNode nodes x fun m => { m with next := some h, prev := none }
      let nodes := setNode nodes h fun m => { m with prev := some x }
      let nodes := if l.trackHot then setNode nodes x fun m => { m with hot := true } else nodes
      some (nodes,
        { l with
          lastHot := if l.trackHot && !(nodes h).hot then some x else l.lastHot
          numHot := if l.trackHot then l.numHot + 1 else l.numHot
          head := some x
          numNodes := l.numNodes + 1 })

/-- `add_lru_head`. -/
def addLruHead (nodes : Nodes) (l : LruHead) (x : Nat) : Option (Nodes × LruHead) :=
  (addLruHeadNobalance nodes l x).bind fun r => balanceLruList r.1 r.2

/-- `remove_update_ptrs`; an end of the list has no neighbour to update there. -/
def removeUpdatePtrs (nodes : Nodes) (l : LruHead) (x : Nat) : Nodes × LruHead :=
  let node := nodes x
  let nodes := setNode? nodes node.next fun m => { m with prev := node.prev }
  let nodes := setNode? nodes node.prev fun m => { m with next := node.next }
  (nodes,
    { l with
      head := if node.prev = none then node.next else l.head
      tail := if node.next = none then node.prev else l.tail
      lastHot := if l.lastHot = some x then node.prev else l.lastHot })

/-- `remove_lru_list_nobalance`. -/
def removeLruListNobalance (nodes : Nodes) (l : LruHead) (x : Nat) : Option (Nodes × LruHead) :=
  let node := nodes x
  if decide (l.head = some x) = decide (node.prev ≠ none) then none
  else if decide (l.tail = some x) = decide (node.next ≠ none) then none
  else
    let r := removeUpdatePtrs nodes l x
    some (setNode r.1 x fun _ => ⟨none, none, false⟩,
      { r.2 with
        numNodes := l.numNodes - 1
        numHot := if node.hot then l.numHot - 1 else l.numHot })

/-- `ocf_lru_remove_locked`. -/
def ocfLruRemoveLocked (nodes : Nodes) (l : LruHead) (x : Nat) : Option (Nodes × LruHead) :=
  (removeLruListNobalance nodes l x).bind fun r => balanceLruList r.1 r.2

/-- `ocf_lru_set_hot`. -/
def ocfLruSetHot (nodes : Nodes) (l : LruHead) (x : Nat) : Option (Nodes × LruHead) :=
  (removeLruListNobalance nodes l x).bind fun r =>
    (addLruHeadNobalance r.1 r.2 x).bind fun r => balanceLruList r.1 r.2

/-- The list consists of the hot lines followed by the cold lines. -/
structure IsLru (nodes : Nodes) (l : LruHead) (hot cold : List Nat) : Prop where
  /-- The lines are linked in order. -/
  linked : Segment (fun x => (nodes x).prev) (fun x => (nodes x).next) none (hot ++ cold) none
  /-- No line is there twice. -/
  nodup : (hot ++ cold).Nodup
  /-- The head is the first line. -/
  head : l.head = (hot ++ cold).head?
  /-- The tail is the last line. -/
  tail : l.tail = (hot ++ cold).getLast?
  /-- The number of lines. -/
  numNodes : l.numNodes = (hot ++ cold).length
  /-- The number of hot lines. -/
  numHot : l.numHot = hot.length
  /-- The last hot line. -/
  lastHot : l.lastHot = hot.getLast?
  /-- Hot lines have their flag set. -/
  isHot : ∀ x ∈ hot, (nodes x).hot = true
  /-- Cold lines have their flag clear. -/
  isCold : ∀ x ∈ cold, (nodes x).hot = false
  /-- Lists that do not distinguish hot lines have none. -/
  untracked : l.trackHot = false → hot = []

variable {nodes : Nodes} {l : LruHead} {hot cold lines : List Nat} {x y z : Nat} {track : Bool}

theorem IsLru.congr {nodes' : Nodes}
    (h : IsLru nodes l hot cold) (hn : ∀ x ∈ hot ++ cold, nodes' x = nodes x) :
    IsLru nodes' l hot cold where
  linked := h.linked.congr (fun x hx => by rw [hn x hx]) fun x hx => by rw [hn x hx]
  nodup := h.nodup
  head := h.head
  tail := h.tail
  numNodes := h.numNodes
  numHot := h.numHot
  lastHot := h.lastHot
  isHot := fun x hx => by rw [hn x (mem_append_left _ hx)]; exact h.isHot x hx
  isCold := fun x hx => by rw [hn x (List.mem_append_right _ hx)]; exact h.isCold x hx
  untracked := h.untracked

@[simp] theorem setNode_same (nodes : Nodes) (x : Nat) (f : LruMeta → LruMeta) :
    setNode nodes x f x = f (nodes x) := by
  simp [setNode]

variable {f : LruMeta → LruMeta}

theorem setNode_of_ne (h : y ≠ x) : setNode nodes x f y = nodes y := by
  simp [setNode, h]

theorem setNode?_of_ne {x : Option Nat} (h : x ≠ some y) : setNode? nodes x f y = nodes y := by
  cases x with
  | none => rfl
  | some x => exact setNode_of_ne fun hy => h (by rw [hy])

theorem setNode?_same (nodes : Nodes) (x : Nat) (f : LruMeta → LruMeta) :
    setNode? nodes (some x) f x = f (nodes x) := setNode_same nodes x f

theorem removeUpdatePtrs_node (nodes : Nodes) (l : LruHead) (x y : Nat) :
    (removeUpdatePtrs nodes l x).1 y =
      ⟨if (nodes x).next = some y then (nodes x).prev else (nodes y).prev,
        if (nodes x).prev = some y then (nodes x).next else (nodes y).next, (nodes y).hot⟩ := by
  simp only [removeUpdatePtrs]
  by_cases hp : (nodes x).prev = some y
  · by_cases hn : (nodes x).next = some y
    · simp [hp, hn, setNode?_same]
    · rw [hp, setNode?_same, setNode?_of_ne hn]
      simp [hn]
  · by_cases hn : (nodes x).next = some y
    · rw [setNode?_of_ne hp, hn, setNode?_same]
      simp [hp]
    · rw [setNode?_of_ne hp, setNode?_of_ne hn]
      simp [hp, hn]

variable {xs ys : List Nat}

theorem linked_remove
    (h : Segment (fun x => (nodes x).prev) (fun x => (nodes x).next) none (xs ++ x :: ys) none)
    (hd : (xs ++ x :: ys).Nodup) : Segment (fun y => ((removeUpdatePtrs nodes l x).1 y).prev)
      (fun y => ((removeUpdatePtrs nodes l x).1 y).next) none (xs ++ ys) none := by
  refine h.remove hd (fun y _ => ⟨fun hxy => ?_, fun hxy => ?_⟩)
    fun y _ => ⟨fun hxy => ?_, fun hxy => ?_⟩
  · rw [removeUpdatePtrs_node, if_pos hxy]
  · rw [removeUpdatePtrs_node, if_neg hxy]
  · rw [removeUpdatePtrs_node, if_pos hxy]
  · rw [removeUpdatePtrs_node, if_neg hxy]

theorem head_eq_iff (hd : (xs ++ x :: ys).Nodup) : (xs ++ x :: ys).head? = some x ↔ xs = [] := by
  cases xs with
  | nil => simp
  | cons y xs =>
    have hyx : y ≠ x := fun h => (nodup_cons.mp hd).1 (by simp [h])
    simp [hyx]

theorem getLast_eq_iff (hd : (xs ++ x :: ys).Nodup) :
    (xs ++ x :: ys).getLast? = some x ↔ ys = [] := by
  rcases List.eq_nil_or_concat ys with hys | ⟨zs, z, hys⟩
  · simp [hys]
  · rw [List.concat_eq_append] at hys
    have hzx : z ≠ x := by
      intro hzx
      have hx := (nodup_cons.mp (nodup_append.mp hd).2.1).1
      exact hx (by simp [hys, hzx])
    have hlast : (xs ++ x :: (zs ++ [z])).getLast? = some z := by
      rw [List.getLast?_append, ← List.cons_append, List.getLast?_append]
      simp
    rw [hys, hlast]
    simp [hzx]

theorem removeUpdatePtrs_ends (hp : (nodes x).prev = xs.getLast?) (hn : (nodes x).next = ys.head?)
    (hhead : l.head = (xs ++ x :: ys).head?) (htail : l.tail = (xs ++ x :: ys).getLast?) :
    (removeUpdatePtrs nodes l x).2.head = (xs ++ ys).head? ∧
      (removeUpdatePtrs nodes l x).2.tail = (xs ++ ys).getLast? := by
  simp only [removeUpdatePtrs, hp, hn, hhead, htail]
  constructor
  · cases xs with
    | nil => simp
    | cons y xs => simp [List.getLast?_cons]
  · rcases List.eq_nil_or_concat ys with hys | ⟨zs, z, hys⟩
    · simp [hys]
    · rw [List.concat_eq_append] at hys
      have hne : (zs ++ [z]).head? ≠ none := by simp
      rw [hys, if_neg hne]
      have hcons : xs ++ x :: (zs ++ [z]) = (xs ++ x :: zs) ++ [z] := by simp
      rw [hcons, ← append_assoc, List.getLast?_concat, List.getLast?_concat]

theorem removeLruListNobalance_of_split {hot cold hot' cold' xs ys :
    List Nat} (h : IsLru nodes l hot cold) (hsplit : hot ++ cold = xs ++ x :: ys)
    (hnew : hot' ++ cold' = xs ++ ys) (hsubH : ∀ y ∈ hot', y ∈ hot) (hsubC : ∀ y ∈ cold', y ∈ cold)
    (hlen : hot'.length = if (nodes x).hot then hot.length - 1 else hot.length)
    (hlast : (if hot.getLast? = some x then xs.getLast? else hot.getLast?) = hot'.getLast?) :
    ∃ nodes' l', removeLruListNobalance nodes l x = some (nodes', l') ∧
      IsLru nodes' l' hot' cold' ∧ (∀ y ∉ hot ++ cold, nodes' y = nodes y) ∧
      l'.trackHot = l.trackHot := by
  have hd := h.nodup
  have hlink := h.linked
  have hhead := h.head
  have htail := h.tail
  have hnum := h.numNodes
  rw [hsplit] at hd hlink hhead htail hnum
  obtain ⟨hp, hn⟩ := hlink.links
  simp only [Option.or_none] at hp hn
  have hx : x ∉ xs ++ ys := by
    have hperm : (x :: (xs ++ ys)).Nodup := (List.perm_middle.nodup_iff).mp hd
    exact (nodup_cons.mp hperm).1
  have hguard1 : decide (l.head = some x) ≠ decide ((nodes x).prev ≠ none) := by
    intro heq
    rw [decide_eq_decide, hhead, hp, head_eq_iff hd, ne_eq, List.getLast?_eq_none_iff] at heq
    tauto
  have hguard2 : decide (l.tail = some x) ≠ decide ((nodes x).next ≠ none) := by
    intro heq
    rw [decide_eq_decide, htail, hn, getLast_eq_iff hd, ne_eq, List.head?_eq_none_iff] at heq
    tauto
  obtain ⟨hhead', htail'⟩ := removeUpdatePtrs_ends hp hn hhead htail
  have hnode : ∀ y, y ≠ x → ∀ (f : LruMeta → LruMeta),
      setNode (removeUpdatePtrs nodes l x).1 x f y = (removeUpdatePtrs nodes l x).1 y :=
    fun y hy f => setNode_of_ne hy
  have hne : ∀ y ∈ hot' ++ cold', y ≠ x := by
    intro y hy hyx
    rw [hnew, hyx] at hy
    exact hx hy
  have heq : removeLruListNobalance nodes l x =
      some (setNode (removeUpdatePtrs nodes l x).1 x fun _ => ⟨none, none, false⟩,
        { (removeUpdatePtrs nodes l x).2 with
          numNodes := l.numNodes - 1
          numHot := if (nodes x).hot then l.numHot - 1 else l.numHot }) := by
    simp only [removeLruListNobalance, if_neg hguard1, if_neg hguard2]
  refine ⟨_, _, heq, ?_, ?_, rfl⟩
  · refine ⟨?_, ?_, ?_, ?_, ?_, ?_, ?_, ?_, ?_, ?_⟩
    · rw [hnew]
      refine (linked_remove (l := l) hlink hd).congr ?_ ?_
      · intro y hy
        rw [hnode y (hne y (hnew ▸ hy))]
      · intro y hy
        rw [hnode y (hne y (hnew ▸ hy))]
    · rw [hnew]
      exact hd.sublist (List.Sublist.append_left (List.sublist_cons_self x ys) xs)
    · rw [hnew]
      exact hhead'
    · rw [hnew]
      exact htail'
    · simp only [hnum, hnew, List.length_append, List.length_cons]
      omega
    · simp only [h.numHot, hlen]
    · simp only [removeUpdatePtrs, h.lastHot, hp]
      exact hlast
    · intro y hy
      rw [hnode y (hne y (mem_append_left _ hy)), removeUpdatePtrs_node]
      exact h.isHot y (hsubH y hy)
    · intro y hy
      rw [hnode y (hne y (List.mem_append_right _ hy)), removeUpdatePtrs_node]
      exact h.isCold y (hsubC y hy)
    · intro htrack
      have hhot := h.untracked htrack
      cases hot' with
      | nil => rfl
      | cons y ys => exact absurd (hsubH y List.mem_cons_self) (by simp [hhot])
  · intro y hy
    have hyx : y ≠ x := fun hyx => hy (by simp [hsplit, hyx])
    have hyp : (nodes x).prev ≠ some y := by
      intro hpy
      rw [hp] at hpy
      exact hy (hsplit ▸ mem_append_left _ (List.mem_of_mem_getLast? hpy))
    have hyn : (nodes x).next ≠ some y := by
      intro hny
      rw [hn] at hny
      exact hy (hsplit ▸ List.mem_append_right _ (mem_cons_of_mem x (List.mem_of_mem_head? hny)))
    rw [hnode y hyx, removeUpdatePtrs_node, if_neg hyp, if_neg hyn]

theorem removeLruListNobalance_spec (h : IsLru nodes l hot cold) (hx : x ∈ hot ++ cold) :
    ∃ nodes' l' hot' cold', removeLruListNobalance nodes l x = some (nodes', l') ∧
      IsLru nodes' l' hot' cold' ∧ hot' ++ cold' = (hot ++ cold).erase x ∧
      hot'.length ≤ hot.length ∧ hot.length ≤ hot'.length + 1 ∧
      (∀ y ∉ hot ++ cold, nodes' y = nodes y) ∧ l'.trackHot = l.trackHot := by
  have hd := h.nodup
  rcases mem_append.mp hx with hxH | hxC
  · obtain ⟨xs, ys, hsplit⟩ := List.append_of_mem hxH
    have hxxs : x ∉ xs := by
      intro hxs
      rw [hsplit, append_assoc] at hd
      exact (nodup_append.mp hd).2.2 x hxs x (by simp) rfl
    have hdh : (xs ++ x :: ys).Nodup := by
      rw [hsplit] at hd
      exact (nodup_append.mp hd).1
    have hlast : (if hot.getLast? = some x then xs.getLast? else hot.getLast?) =
        (xs ++ ys).getLast? := by
      rw [hsplit]
      by_cases hys : ys = []
      · rw [if_pos ((getLast_eq_iff hdh).mpr hys), hys, List.append_nil]
      · rw [if_neg fun hl => hys ((getLast_eq_iff hdh).mp hl), List.getLast?_append,
          List.getLast?_append, List.getLast?_cons_of_ne_nil hys]
    obtain ⟨nodes', l', heq, hlru, hframe, htrack⟩ :=
      removeLruListNobalance_of_split h
        (show hot ++ cold = xs ++ x :: (ys ++ cold) by simp [hsplit])
        (show (xs ++ ys) ++ cold = xs ++ (ys ++ cold) by simp)
        (fun y hy => by
          rw [hsplit]
          exact mem_append.mpr ((mem_append.mp hy).imp id (mem_cons_of_mem x)))
        (fun y hy => hy) (by simp [h.isHot x hxH, hsplit]) hlast
    refine ⟨nodes', l', xs ++ ys, cold, heq, hlru, ?_, ?_, ?_, hframe, htrack⟩
    · rw [hsplit, append_assoc, append_assoc, List.erase_append_right _ hxxs,
        List.cons_append, List.erase_cons_head]
    · simp [hsplit]
    · simp [hsplit]
      omega
  · obtain ⟨xs, ys, hsplit⟩ := List.append_of_mem hxC
    have hxH : x ∉ hot := fun hxH => (nodup_append.mp hd).2.2 x hxH x hxC rfl
    have hxxs : x ∉ hot ++ xs := by
      intro hxs
      rw [hsplit, ← append_assoc] at hd
      exact (nodup_append.mp hd).2.2 x hxs x (by simp) rfl
    have hlast : (if hot.getLast? = some x then (hot ++ xs).getLast? else hot.getLast?) =
        hot.getLast? := by
      have hne : hot.getLast? ≠ some x := fun hl => hxH (List.mem_of_mem_getLast? hl)
      rw [if_neg hne]
    obtain ⟨nodes', l', heq, hlru, hframe, htrack⟩ :=
      removeLruListNobalance_of_split h
        (show hot ++ cold = (hot ++ xs) ++ x :: ys by simp [hsplit])
        (show hot ++ (xs ++ ys) = (hot ++ xs) ++ ys by simp) (fun y hy => hy)
        (fun y hy => by
          rw [hsplit]
          exact mem_append.mpr ((mem_append.mp hy).imp id (mem_cons_of_mem x)))
        (by simp [h.isCold x hxC]) hlast
    refine ⟨nodes', l', hot, xs ++ ys, heq, hlru, ?_, Nat.le_refl _, by omega, hframe, htrack⟩
    rw [hsplit, ← append_assoc, ← append_assoc, List.erase_append_right _ hxxs,
      List.erase_cons_head]

/-- Nodes after `x` was put before the head `z` of a list. -/
def linkHead (nodes : Nodes) (track : Bool) (x z : Nat) : Nodes :=
  let nodes := setNode (setNode (setNode nodes x fun m => { m with hot := false }) x
    fun m => { m with next := some z, prev := none }) z fun m => { m with prev := some x }
  if track then setNode nodes x fun m => { m with hot := true } else nodes

theorem linkHead_new (h : z ≠ x) : linkHead nodes track x z x = ⟨none, some z, track⟩ := by
  cases track <;> simp [linkHead, setNode, Ne.symm h]

theorem linkHead_head (h : z ≠ x) :
    linkHead nodes track x z z = { nodes z with prev := some x } := by
  cases track <;> simp [linkHead, setNode, h]

theorem linkHead_other (hx : y ≠ x) (hz : y ≠ z) : linkHead nodes track x z y = nodes y := by
  cases track <;> simp [linkHead, setNode, hx, hz]

theorem linkHead_hot (h : z ≠ x) (hx : y ≠ x) :
    (linkHead nodes track x z y).hot = (nodes y).hot := by
  by_cases hyz : y = z
  · rw [hyz, linkHead_head h]
  · rw [linkHead_other hx hyz]

theorem linked_linkHead {zs : List Nat}
    (h : Segment (fun x => (nodes x).prev) (fun x => (nodes x).next) none (z :: zs) none)
    (hd : (z :: zs).Nodup) (hx : x ∉ z :: zs) : Segment (fun y => (linkHead nodes track x z y).prev)
      (fun y => (linkHead nodes track x z y).next) none (x :: z :: zs) none := by
  have hzx : z ≠ x := fun hzx => hx (by simp [hzx])
  have hzs : ∀ y ∈ zs, linkHead nodes track x z y = nodes y := by
    intro y hy
    have hyx : y ≠ x := fun hyx => hx (hyx ▸ mem_cons_of_mem z hy)
    have hyz : y ≠ z := fun hyz => (nodup_cons.mp hd).1 (hyz ▸ hy)
    exact linkHead_other hyx hyz
  refine ⟨by simp [linkHead_new hzx], by simp [linkHead_new hzx], by simp [linkHead_head hzx],
    ?_, ?_⟩
  · simp only [linkHead_head hzx]
    exact h.2.1
  · exact h.2.2.congr (fun y hy => by rw [hzs y hy]) fun y hy => by rw [hzs y hy]

theorem addLruHeadNobalance_nil (h : IsLru nodes l [] []) (x : Nat) :
    ∃ nodes' l', addLruHeadNobalance nodes l x = some (nodes', l') ∧ IsLru nodes' l' [] [x] ∧
      (∀ y, y ≠ x → nodes' y = nodes y) ∧ l'.trackHot = l.trackHot := by
  have hnum : l.numNodes = 0 := h.numNodes
  have heq : addLruHeadNobalance nodes l x =
      some (setNode (setNode nodes x fun m => { m with hot := false }) x
          fun m => { m with next := none, prev := none },
        { l with head := some x, tail := some x, numNodes := 1 }) := by
    simp only [addLruHeadNobalance, if_pos hnum]
  refine ⟨_, _, heq, ⟨?_, by simp, rfl, rfl, rfl, h.numHot, h.lastHot, by simp, ?_, fun _ => rfl⟩,
    fun y hy => ?_, rfl⟩
  · simp [Segment, setNode]
  · simp [setNode]
  · rw [setNode_of_ne hy, setNode_of_ne hy]

theorem addLruHeadNobalance_cons {zs : List Nat}
    (h : IsLru nodes l hot cold) (hx : x ∉ hot ++ cold) (hL : hot ++ cold = z :: zs) :
    ∃ nodes' l', addLruHeadNobalance nodes l x = some (nodes', l') ∧
      (if l.trackHot then IsLru nodes' l' (x :: hot) cold else IsLru nodes' l' [] (x :: cold)) ∧
      (∀ y ∉ x :: (hot ++ cold), nodes' y = nodes y) ∧ l'.trackHot = l.trackHot := by
  have hnum : l.numNodes ≠ 0 := by rw [h.numNodes, hL]; simp
  have hhead : l.head = some z := by rw [h.head, hL]; rfl
  have hzx : z ≠ x := fun hzx => hx (by simp [hL, hzx])
  have hmem : ∀ y ∈ hot ++ cold, y ≠ x := fun y hy hyx => hx (hyx ▸ hy)
  have heq : addLruHeadNobalance nodes l x = some (linkHead nodes l.trackHot x z,
      { l with
        lastHot := if l.trackHot && !(linkHead nodes l.trackHot x z z).hot then some x else l.lastHot
        numHot := if l.trackHot then l.numHot + 1 else l.numHot
        head := some x
        numNodes := l.numNodes + 1 }) := by
    simp only [addLruHeadNobalance, if_neg hnum, hhead]
    rfl
  have hlinked : Segment (fun y => (linkHead nodes l.trackHot x z y).prev)
      (fun y => (linkHead nodes l.trackHot x z y).next) none (x :: (hot ++ cold)) none := by
    have hseg := h.linked
    have hd := h.nodup
    rw [hL] at hseg hd hx ⊢
    exact linked_linkHead hseg hd hx
  have hnodup : (x :: (hot ++ cold)).Nodup := nodup_cons.mpr ⟨hx, h.nodup⟩
  have htail : (x :: (hot ++ cold)).getLast? = l.tail := by
    rw [h.tail, hL, List.getLast?_cons_cons]
  have hhot : ∀ y ∈ hot, (linkHead nodes l.trackHot x z y).hot = true := by
    intro y hy
    rw [linkHead_hot hzx (hmem y (mem_append_left _ hy))]
    exact h.isHot y hy
  have hcold : ∀ y ∈ cold, (linkHead nodes l.trackHot x z y).hot = false := by
    intro y hy
    rw [linkHead_hot hzx (hmem y (List.mem_append_right _ hy))]
    exact h.isCold y hy
  refine ⟨_, _, heq, ?_, fun y hy => ?_, rfl⟩
  · cases htrack : l.trackHot with
    | true =>
      rw [htrack] at hlinked hhot hcold
      have hlast : (if !(linkHead nodes true x z z).hot then some x else l.lastHot) =
          (x :: hot).getLast? := by
        cases hot with
        | nil =>
          have hzcold : z ∈ cold := by
            rw [List.nil_append] at hL
            simp [hL]
          simp [hcold z hzcold]
        | cons y ys =>
          have hyz : y = z := (List.cons.inj hL).1
          have hzhot : (linkHead nodes true x z z).hot = true := hhot z (by simp [hyz])
          simp [hzhot, h.lastHot, List.getLast?_cons]
      refine ⟨hlinked, hnodup, rfl, htail.symm, by simp [h.numNodes], by simp [h.numHot],
        by simpa using hlast, fun y hy => ?_, hcold, by simp⟩
      rcases mem_cons.mp hy with hyx | hy
      · rw [hyx, linkHead_new hzx]
      · exact hhot y hy
    | false =>
      rw [htrack] at hlinked hcold
      have hnil : hot = [] := h.untracked htrack
      rw [hnil] at hlinked hnodup htail
      refine ⟨hlinked, hnodup, rfl, htail.symm, by simp [h.numNodes, hnil], by simp [h.numHot, hnil],
        by simp [h.lastHot, hnil], by simp, fun y hy => ?_, fun _ => rfl⟩
      rcases mem_cons.mp hy with hyx | hy
      · rw [hyx, linkHead_new hzx]
      · exact hcold y hy
  · rw [hL] at hy
    simp only [mem_cons, not_or] at hy
    exact linkHead_other hy.1 hy.2.1

theorem addLruHeadNobalance_spec (h : IsLru nodes l hot cold) (hx : x ∉ hot ++ cold) :
    ∃ nodes' l' hot' cold', addLruHeadNobalance nodes l x = some (nodes', l') ∧
      IsLru nodes' l' hot' cold' ∧ hot' ++ cold' = x :: (hot ++ cold) ∧
      (l.trackHot = true → hot'.length = if hot ++ cold = [] then 0 else hot.length + 1) ∧
      (∀ y ∉ x :: (hot ++ cold), nodes' y = nodes y) ∧ l'.trackHot = l.trackHot := by
  cases hL : hot ++ cold with
  | nil =>
    obtain ⟨rfl, rfl⟩ := List.append_eq_nil_iff.mp hL
    obtain ⟨nodes', l', heq, hlru, hframe, htrack⟩ := addLruHeadNobalance_nil h x
    exact ⟨nodes', l', [], [x], heq, hlru, rfl, by simp, fun y hy => hframe y (by simpa using hy),
      htrack⟩
  | cons z zs =>
    obtain ⟨nodes', l', heq, hlru, hframe, htrack⟩ := addLruHeadNobalance_cons h hx hL
    rw [hL] at hframe
    cases ht : l.trackHot with
    | true =>
      rw [ht, if_pos rfl] at hlru
      exact ⟨nodes', l', x :: hot, cold, heq, hlru, by rw [List.cons_append, hL], by simp, hframe,
        htrack.trans ht⟩
    | false =>
      rw [ht, if_neg Bool.false_ne_true] at hlru
      have hnil : hot = [] := h.untracked ht
      refine ⟨nodes', l', [], x :: cold, heq, hlru, ?_, by simp, hframe, htrack.trans ht⟩
      rw [← hL, hnil]
      rfl

/-- A list of the given lines, half of them hot if the list distinguishes
hot lines. -/
def Lru (nodes : Nodes) (l : LruHead) (lines : List Nat) : Prop :=
  ∃ hot cold, hot ++ cold = lines ∧ IsLru nodes l hot cold ∧
    (l.trackHot = true → hot.length = lines.length / ocfLruHotRatio)

theorem Lru.congr {nodes' : Nodes} (h : Lru nodes l lines)
    (hn : ∀ x ∈ lines, nodes' x = nodes x) : Lru nodes' l lines := by
  obtain ⟨hot, cold, rfl, hlru, hhalf⟩ := h
  exact ⟨hot, cold, rfl, hlru.congr hn, hhalf⟩

theorem lru_lruInit (nodes : Nodes) (track : Bool) : Lru nodes (lruInit track) [] :=
  ⟨[], [], rfl, ⟨trivial, List.nodup_nil, rfl, rfl, rfl, rfl, rfl, by simp, by simp, fun _ => rfl⟩,
    fun _ => rfl⟩

section

variable (h : Lru nodes l lines)
include h

theorem Lru.nodup : lines.Nodup := by
  obtain ⟨hot, cold, rfl, hlru, -⟩ := h
  exact hlru.nodup

theorem Lru.numNodes : l.numNodes = lines.length := by
  obtain ⟨hot, cold, rfl, hlru, -⟩ := h
  exact hlru.numNodes

theorem Lru.walk_eq : walk (fun x => (nodes x).next) l.numNodes l.head = lines := by
  obtain ⟨hot, cold, rfl, hlru, -⟩ := h
  rw [hlru.numNodes, hlru.head]
  exact hlru.linked.walk_eq

theorem Lru.tail_mem (hx : l.tail = some x) : x ∈ lines := by
  obtain ⟨hot, cold, rfl, hlru, -⟩ := h
  rw [hlru.tail] at hx
  exact List.mem_of_mem_getLast? hx

theorem Lru.prev_mem (hx : x ∈ lines) (hy : (nodes x).prev = some y) : y ∈ lines := by
  obtain ⟨hot, cold, rfl, hlru, -⟩ := h
  obtain ⟨xs, ys, hsplit⟩ := List.append_of_mem hx
  have hlink := hlru.linked
  rw [hsplit] at hlink ⊢
  have hp : (nodes x).prev = xs.getLast? := by simpa using hlink.links.1
  rw [hy] at hp
  exact mem_append_left _ (List.mem_of_mem_getLast? hp.symm)

theorem Lru.end_of_none (hx : x ∈ lines) :
    ((nodes x).next = none → l.tail = some x) ∧ ((nodes x).prev = none → l.head = some x) := by
  obtain ⟨hot, cold, rfl, hlru, -⟩ := h
  obtain ⟨xs, ys, hsplit⟩ := List.append_of_mem hx
  have hlink := hlru.linked
  rw [hlru.tail, hlru.head, hsplit]
  rw [hsplit] at hlink
  obtain ⟨hp, hn⟩ := hlink.links
  constructor
  · intro hnone
    rw [hn, Option.or_none, List.head?_eq_none_iff] at hnone
    simp [hnone]
  · intro hnone
    rw [hp, Option.or_none, List.getLast?_eq_none_iff] at hnone
    simp [hnone]

end

theorem linked_setHot {p q : Option Nat} (x : Nat) (b : Bool)
    (h : Segment (fun y => (nodes y).prev) (fun y => (nodes y).next) p lines q) :
    Segment (fun y => (setNode nodes x (fun m => { m with hot := b }) y).prev)
      (fun y => (setNode nodes x (fun m => { m with hot := b }) y).next) p lines q := by
  refine h.congr (fun y _ => ?_) fun y _ => ?_
  · by_cases hy : y = x
    · simp [hy]
    · simp [setNode_of_ne hy]
  · by_cases hy : y = x
    · simp [hy]
    · simp [setNode_of_ne hy]

theorem balance_grow {c : Nat} (h : IsLru nodes l hot (c :: cold)) (htrack : l.trackHot = true) :
    balanceUpdateLastHot nodes l 1 = some (some c, some c) ∧
      IsLru (setNode nodes c fun m => { m with hot := true })
        { l with numHot := hot.length + 1, lastHot := some c } (hot ++ [c]) cold := by
  constructor
  · rcases List.eq_nil_or_concat hot with hhot | ⟨hs, x, hhot⟩
    · have hlast : l.lastHot = none := by simp [h.lastHot, hhot]
      have hhead : l.head = some c := by simp [h.head, hhot]
      simp [balanceUpdateLastHot, hlast, hhead]
    · rw [List.concat_eq_append] at hhot
      have hlast : l.lastHot = some x := by simp [h.lastHot, hhot]
      have hlink := h.linked
      rw [hhot, append_assoc] at hlink
      have hnext : (nodes x).next = some c := by simpa using hlink.links.2
      simp [balanceUpdateLastHot, hlast, hnext]
  · have hL : hot ++ [c] ++ cold = hot ++ c :: cold := by simp
    have hd := h.nodup
    have hc : c ∉ cold := (nodup_cons.mp (nodup_append.mp hd).2.1).1
    refine ⟨?_, ?_, ?_, ?_, ?_, ?_, ?_, ?_, ?_, ?_⟩
    · rw [hL]
      exact linked_setHot c true h.linked
    · rw [hL]
      exact hd
    · rw [hL]
      exact h.head
    · rw [hL]
      exact h.tail
    · rw [hL]
      exact h.numNodes
    · simp
    · simp
    · intro y hy
      by_cases hyc : y = c
      · simp [hyc]
      · rw [setNode_of_ne hyc]
        exact h.isHot y (by simpa [hyc] using hy)
    · intro y hy
      have hyc : y ≠ c := fun hyc => hc (hyc ▸ hy)
      rw [setNode_of_ne hyc]
      exact h.isCold y (mem_cons_of_mem c hy)
    · intro hfalse
      exact absurd hfalse (by simp [htrack])

theorem balance_shrink (h : IsLru nodes l (hot ++ [x]) cold) (htrack : l.trackHot = true) :
    balanceUpdateLastHot nodes l (-1) = some (hot.getLast?, some x) ∧
      IsLru (setNode nodes x fun m => { m with hot := false })
        { l with numHot := hot.length, lastHot := hot.getLast? } hot (x :: cold) := by
  have hL : hot ++ x :: cold = hot ++ [x] ++ cold := by simp
  have hd := h.nodup
  have hlink := h.linked
  rw [← hL] at hd hlink
  constructor
  · have hlast : l.lastHot = some x := by simp [h.lastHot]
    have hprev : (nodes x).prev = hot.getLast? := by simpa using hlink.links.1
    simp [balanceUpdateLastHot, hlast, hprev]
  · have hx : ∀ y ∈ hot, y ≠ x := by
      intro y hy hyx
      exact (nodup_append.mp hd).2.2 y hy x (by simp) hyx
    refine ⟨linked_setHot x false hlink, hd, ?_, ?_, ?_, rfl, rfl, ?_, ?_, ?_⟩
    · rw [hL]
      exact h.head
    · rw [hL]
      exact h.tail
    · rw [hL]
      exact h.numNodes
    · intro y hy
      rw [setNode_of_ne (hx y hy)]
      exact h.isHot y (mem_append_left _ hy)
    · intro y hy
      by_cases hyx : y = x
      · simp [hyx]
      · rw [setNode_of_ne hyx]
        exact h.isCold y (by simpa [hyx] using hy)
    · intro hfalse
      exact absurd hfalse (by simp [htrack])

/-- The hot part is balanced by one step. -/
theorem balanceLruList_spec (h : IsLru nodes l hot cold) (hlines : hot ++ cold = lines)
    (hlow : l.trackHot = true → lines.length / ocfLruHotRatio ≤ hot.length + 1)
    (hhigh : l.trackHot = true → hot.length ≤ lines.length / ocfLruHotRatio + 1) :
    ∃ nodes' l', balanceLruList nodes l = some (nodes', l') ∧ Lru nodes' l' lines ∧
      (∀ y ∉ lines, nodes' y = nodes y) ∧ l'.trackHot = l.trackHot := by
  have hnum : l.numNodes = lines.length := by rw [h.numNodes, hlines]
  have hlen : hot.length + cold.length = lines.length := by rw [← hlines, List.length_append]
  cases htrack : l.trackHot with
  | false =>
    refine ⟨nodes, l, by simp [balanceLruList, htrack], ⟨hot, cold, hlines, h, ?_⟩, by simp, htrack⟩
    intro htrue
    exact absurd htrue (by simp [htrack])
  | true =>
    have hlow := hlow htrack
    have hhigh := hhigh htrack
    have htarget : lines.length / ocfLruHotRatio ≤ lines.length := Nat.div_le_self _ _
    have heq : balanceLruList nodes l = (balanceUpdateLastHot nodes l
        (((lines.length / ocfLruHotRatio : Nat) : Int) - hot.length)).map fun r =>
        (setNode? nodes r.2 fun m =>
            { m with
              hot := decide (0 ≤ ((lines.length / ocfLruHotRatio : Nat) : Int) - hot.length) },
          { l with numHot := lines.length / ocfLruHotRatio, lastHot := r.1 }) := by
      simp [balanceLruList, htrack, hnum, h.numHot]
    generalize htg : lines.length / ocfLruHotRatio = target at hlow hhigh htarget heq
    rcases Nat.lt_trichotomy hot.length target with hlt | hz | hgt
    · -- one line is missing in the hot part
      have hone : target = hot.length + 1 := by omega
      have hchange : (target : Int) - hot.length = 1 := by omega
      cases cold with
      | nil =>
        simp only [length_nil] at hlen
        omega
      | cons c cold =>
        obtain ⟨hlast, hlru⟩ := balance_grow h htrack
        rw [hchange, hlast, hone] at heq
        refine ⟨_, _, heq, ⟨hot ++ [c], cold, by simp [← hlines], hlru, fun _ => ?_⟩,
          fun y hy => ?_, htrack⟩
        · rw [htg, hone, List.length_append, List.length_singleton]
        · refine setNode?_of_ne fun hcy => hy ?_
          have hcy' : c = y := Option.some.inj hcy
          simp [← hlines, hcy']
    · have hchange : (target : Int) - hot.length = 0 := by omega
      have hlast : balanceUpdateLastHot nodes l 0 = some (l.lastHot, none) := by
        simp [balanceUpdateLastHot]
      rw [hchange, hlast, ← hz] at heq
      refine ⟨_, _, heq, ⟨hot, cold, hlines, ?_, fun _ => by rw [htg, hz]⟩, fun _ _ => rfl, htrack⟩
      have hsame : { l with numHot := hot.length, lastHot := l.lastHot } = l := by
        rw [← h.numHot]
      rw [hsame]
      exact h
    · -- one line too many in the hot part
      have hone : hot.length = target + 1 := by omega
      have hchange : (target : Int) - hot.length = -1 := by omega
      rcases List.eq_nil_or_concat hot with hnil | ⟨hs, x, hhot⟩
      · simp only [hnil, length_nil] at hone
        omega
      · rw [List.concat_eq_append] at hhot
        have htlen : target = hs.length := by
          rw [hhot, List.length_append, List.length_singleton] at hone
          omega
        rw [hhot] at h hlines
        obtain ⟨hlast, hlru⟩ := balance_shrink h htrack
        rw [hchange, hlast, htlen] at heq
        refine ⟨_, _, heq, ⟨hs, x :: cold, by simp [← hlines], hlru, fun _ => ?_⟩,
          fun y hy => ?_, htrack⟩
        · rw [htg, htlen]
        · refine setNode?_of_ne fun hxy => hy ?_
          have hxy' : x = y := Option.some.inj hxy
          simp [← hlines, hxy']

theorem addLruHead_spec (h : Lru nodes l lines) (hx : x ∉ lines) :
    ∃ nodes' l', addLruHead nodes l x = some (nodes', l') ∧ Lru nodes' l' (x :: lines) ∧
      (∀ y ∉ x :: lines, nodes' y = nodes y) ∧ l'.trackHot = l.trackHot := by
  obtain ⟨hot, cold, rfl, hlru, hhalf⟩ := h
  obtain ⟨n1, l1, hot', cold', hadd, hlru1, hL, hlen, hframe1, htrack1⟩ :=
    addLruHeadNobalance_spec hlru hx
  have hbound : l1.trackHot = true →
      (x :: (hot ++ cold)).length / ocfLruHotRatio ≤ hot'.length + 1 ∧
        hot'.length ≤ (x :: (hot ++ cold)).length / ocfLruHotRatio + 1 := by
    intro ht
    rw [htrack1] at ht
    have h1 := hlen ht
    have h2 := hhalf ht
    simp only [ocfLruHotRatio, List.length_cons] at h2 ⊢
    split at h1
    · rename_i hnil
      simp only [hnil, length_nil] at h2 ⊢
      omega
    · omega
  obtain ⟨n2, l2, hbal, hres, hframe2, htrack2⟩ :=
    balanceLruList_spec hlru1 hL (fun ht => (hbound ht).1) fun ht => (hbound ht).2
  refine ⟨n2, l2, by rw [addLruHead, hadd]; exact hbal, hres, fun y hy => ?_,
    htrack2.trans htrack1⟩
  rw [hframe2 y hy, hframe1 y hy]

theorem addLruHeadNobalance_untracked
    (h : Lru nodes l lines) (hx : x ∉ lines) (ht : l.trackHot = false) :
    ∃ nodes' l', addLruHeadNobalance nodes l x = some (nodes', l') ∧ Lru nodes' l' (x :: lines) ∧
      (∀ y ∉ x :: lines, nodes' y = nodes y) ∧ l'.trackHot = l.trackHot := by
  obtain ⟨hot, cold, rfl, hlru, -⟩ := h
  obtain ⟨n1, l1, hot', cold', hadd, hlru1, hL, -, hframe, htrack⟩ :=
    addLruHeadNobalance_spec hlru hx
  refine ⟨n1, l1, hadd, ⟨hot', cold', hL, hlru1, fun htrue => ?_⟩, hframe, htrack⟩
  rw [htrack, ht] at htrue
  cases htrue

theorem ocfLruRemoveLocked_spec (h : Lru nodes l lines) (hx : x ∈ lines) :
    ∃ nodes' l', ocfLruRemoveLocked nodes l x = some (nodes', l') ∧
      Lru nodes' l' (lines.erase x) ∧ (∀ y ∉ lines, nodes' y = nodes y) ∧
      l'.trackHot = l.trackHot := by
  obtain ⟨hot, cold, rfl, hlru, hhalf⟩ := h
  obtain ⟨n1, l1, hot', cold', hrem, hlru1, hL, hle, hge, hframe1, htrack1⟩ :=
    removeLruListNobalance_spec hlru hx
  have hbound : l1.trackHot = true →
      ((hot ++ cold).erase x).length / ocfLruHotRatio ≤ hot'.length + 1 ∧
        hot'.length ≤ ((hot ++ cold).erase x).length / ocfLruHotRatio + 1 := by
    intro ht
    rw [htrack1] at ht
    have h2 := hhalf ht
    have hpos : 0 < (hot ++ cold).length := List.length_pos_of_mem hx
    simp only [ocfLruHotRatio, List.length_erase_of_mem hx] at h2 ⊢
    omega
  obtain ⟨n2, l2, hbal, hres, hframe2, htrack2⟩ :=
    balanceLruList_spec hlru1 hL (fun ht => (hbound ht).1) fun ht => (hbound ht).2
  refine ⟨n2, l2, by rw [ocfLruRemoveLocked, hrem]; exact hbal, hres, fun y hy => ?_,
    htrack2.trans htrack1⟩
  rw [hframe2 y fun hm => hy (List.mem_of_mem_erase hm), hframe1 y hy]

theorem ocfLruSetHot_spec (h : Lru nodes l lines) (hx : x ∈ lines) :
    ∃ nodes' l', ocfLruSetHot nodes l x = some (nodes', l') ∧
      Lru nodes' l' (x :: lines.erase x) ∧ (∀ y ∉ lines, nodes' y = nodes y) ∧
      l'.trackHot = l.trackHot := by
  obtain ⟨hot, cold, rfl, hlru, hhalf⟩ := h
  have hnotin : x ∉ (hot ++ cold).erase x := hlru.nodup.not_mem_erase
  obtain ⟨n1, l1, hot1, cold1, hrem, hlru1, hL1, hle, hge, hframe1, htrack1⟩ :=
    removeLruListNobalance_spec hlru hx
  rw [← hL1] at hnotin
  obtain ⟨n2, l2, hot2, cold2, hadd, hlru2, hL2, hlen, hframe2, htrack2⟩ :=
    addLruHeadNobalance_spec hlru1 hnotin
  rw [hL1] at hL2 hframe2 hlen
  have hbound : l2.trackHot = true →
      (x :: (hot ++ cold).erase x).length / ocfLruHotRatio ≤ hot2.length + 1 ∧
        hot2.length ≤ (x :: (hot ++ cold).erase x).length / ocfLruHotRatio + 1 := by
    intro ht
    rw [htrack2] at ht
    have h1 := hlen ht
    rw [htrack1] at ht
    have h2 := hhalf ht
    have hpos : 0 < (hot ++ cold).length := List.length_pos_of_mem hx
    have hdec := List.length_erase_of_mem hx
    simp only [ocfLruHotRatio, List.length_cons] at h2 ⊢
    split at h1
    · rename_i hnil
      simp only [hnil, length_nil] at hdec ⊢
      omega
    · omega
  obtain ⟨n3, l3, hbal, hres, hframe3, htrack3⟩ :=
    balanceLruList_spec hlru2 hL2 (fun ht => (hbound ht).1) fun ht => (hbound ht).2
  refine ⟨n3, l3, ?_, hres, fun y hy => ?_, htrack3.trans (htrack2.trans htrack1)⟩
  · rw [ocfLruSetHot, hrem, Option.bind_some, hadd]
    exact hbal
  · have hy' : y ∉ x :: (hot ++ cold).erase x := by
      intro hm
      rcases mem_cons.mp hm with hyx | hm
      · exact hy (hyx ▸ hx)
      · exact hy (List.mem_of_mem_erase hm)
    rw [hframe3 y hy', hframe2 y hy', hframe1 y hy]

end OcfCache.LruList
