import OcfCache.Alru

/-!
# Link operations of the ALRU lists

A chain is a list of lines whose links, first line and last line are as the
policy keeps them. A family of chains has one chain for each key, and every
wanted line is on the chain of its key. The operations on the links are
described by what they do to the wanted lines of a family, so that a caller
does not see links at all.
-/

namespace OcfCache.Alru

open Function Metadata LinkedLists

section Fields

variable (links : Nat → AlruMeta) (x v y : Nat)

@[simp] theorem setPrev_lruPrev :
    (setPrev links x v y).lruPrev = if y = x then v else (links y).lruPrev := by
  rw [setPrev, update_apply]
  by_cases h : y = x <;> simp [h]

@[simp] theorem setPrev_lruNext : (setPrev links x v y).lruNext = (links y).lruNext := by
  rw [setPrev, update_apply]
  by_cases h : y = x <;> simp [h]

@[simp] theorem setNext_lruNext :
    (setNext links x v y).lruNext = if y = x then v else (links y).lruNext := by
  rw [setNext, update_apply]
  by_cases h : y = x <;> simp [h]

@[simp] theorem setNext_lruPrev : (setNext links x v y).lruPrev = (links y).lruPrev := by
  rw [setNext, update_apply]
  by_cases h : y = x <;> simp [h]

variable {links x y}

theorem setPrev_of_ne (h : y ≠ x) : setPrev links x v y = links y := update_of_ne h ..

theorem setNext_of_ne (h : y ≠ x) : setNext links x v y = links y := update_of_ne h ..

theorem links_eq {a b : Nat} (hp : (links x).lruPrev = a) (hn : (links x).lruNext = b) :
    links x = ⟨a, b⟩ := by
  rw [← hp, ← hn]

end Fields

/-- A link as a line, with `n` for no line. -/
def node (n v : Nat) : Option Nat := if v = n then none else some v

@[simp] theorem node_self (n : Nat) : node n n = none := if_pos rfl

theorem node_of_ne {n v : Nat} (h : v ≠ n) : node n v = some v := if_neg h

theorem node_eq_none {n v : Nat} : node n v = none ↔ v = n := by
  simp [node]

theorem node_eq_some {n v x : Nat} : node n v = some x ↔ v = x ∧ v ≠ n := by
  rw [node]
  by_cases h : v = n <;> simp [h]

/-- Predecessors of the lines. -/
def prevOf (n : Nat) (links : Nat → AlruMeta) (x : Nat) : Option Nat := node n (links x).lruPrev

/-- Successors of the lines. -/
def nextOf (n : Nat) (links : Nat → AlruMeta) (x : Nat) : Option Nat := node n (links x).lruNext

/-- The lines `xs` are linked from `head` to `tail`. -/
structure Chain (n : Nat) (links : Nat → AlruMeta) (head tail : Nat) (xs : List Nat) : Prop where
  /-- The lines exist. -/
  lt : ∀ x ∈ xs, x < n
  /-- Every line is there once. -/
  nodup : xs.Nodup
  /-- The first line. -/
  head_eq : node n head = xs.head?
  /-- The last line. -/
  tail_eq : node n tail = xs.getLast?
  /-- The links. -/
  seg : Segment (prevOf n links) (nextOf n links) none xs none

section Chains

variable {n head tail : Nat} {links links' : Nat → AlruMeta} {xs : List Nat}

theorem Chain.congr (h : Chain n links head tail xs) (heq : ∀ x ∈ xs, links' x = links x) :
    Chain n links' head tail xs where
  lt := h.lt
  nodup := h.nodup
  head_eq := h.head_eq
  tail_eq := h.tail_eq
  seg := h.seg.congr (fun x hx => by rw [prevOf, heq x hx, prevOf])
    fun x hx => by rw [nextOf, heq x hx, nextOf]

theorem Chain.nil (n : Nat) (links : Nat → AlruMeta) : Chain n links n n [] where
  lt := by simp
  nodup := List.nodup_nil
  head_eq := node_self n
  tail_eq := node_self n
  seg := trivial

theorem Chain.eq_nil (h : Chain n links head tail xs) (hn : head = n) : xs = [] := by
  have hhead := h.head_eq
  rw [hn, node_self] at hhead
  exact List.head?_eq_none_iff.mp hhead.symm

theorem Chain.tail_of_nil (h : Chain n links head tail []) : tail = n := node_eq_none.mp h.tail_eq

theorem Chain.head_mem (h : Chain n links head tail xs) (hn : head ≠ n) : head ∈ xs := by
  have hhead := h.head_eq
  rw [node_of_ne hn] at hhead
  exact List.mem_of_mem_head? hhead.symm

theorem Chain.tail_mem (h : Chain n links head tail xs) (hn : tail ≠ n) : tail ∈ xs := by
  have htail := h.tail_eq
  rw [node_of_ne hn] at htail
  exact List.mem_of_mem_getLast? htail.symm

variable {x : Nat}

theorem Chain.single (hx : x < n) (hlinks : links x = ⟨n, n⟩) : Chain n links x x [x] where
  lt := by simpa using hx
  nodup := List.nodup_singleton x
  head_eq := node_of_ne (Nat.ne_of_lt hx)
  tail_eq := node_of_ne (Nat.ne_of_lt hx)
  seg := by
    refine ⟨?_, ?_, trivial⟩
    · rw [prevOf, hlinks, node_self]
    · rw [nextOf, hlinks, node_self]
      rfl

theorem Chain.alone_of_links (h : Chain n links head tail xs) (hx : x ∈ xs)
    (hlinks : links x = ⟨n, n⟩) : head = x ∧ tail = x := by
  have hfirst := h.seg.head_of_prev hx (by rw [prevOf, hlinks, node_self])
  have hlast := h.seg.getLast_of_next hx (by rw [nextOf, hlinks, node_self])
  rw [← h.head_eq, node_eq_some] at hfirst
  rw [← h.tail_eq, node_eq_some] at hlast
  exact ⟨hfirst.1, hlast.1⟩

theorem Chain.splice {head' tail' : Nat} {ys : List Nat} (hy : Chain n links head' tail' ys)
    (hx : Chain n links head tail xs) (hhead' : head' ≠ n) (hhead : head ≠ n)
    (hdis : ∀ y ∈ ys, y ∉ xs) :
    Chain n (setNext (setPrev links head tail') tail' head) head' tail (ys ++ xs) := by
  have hyne : ys ≠ [] := List.ne_nil_of_mem (hy.head_mem hhead')
  have hxmem := hx.head_mem hhead
  have htail' : tail' ≠ n := by
    intro hn
    have h := hy.tail_eq
    rw [hn, node_self] at h
    exact hyne (List.getLast?_eq_none_iff.mp h.symm)
  have htmem := hy.tail_mem htail'
  have hne : tail' ≠ head := fun heq => hdis tail' htmem (heq ▸ hxmem)
  have hprev : ∀ z, prevOf n (setNext (setPrev links head tail') tail' head) z =
      if z = head then some tail' else prevOf n links z := by
    intro z
    rw [prevOf, setNext_lruPrev, setPrev_lruPrev, prevOf]
    split
    · exact node_of_ne htail'
    · rfl
  have hnext : ∀ z, nextOf n (setNext (setPrev links head tail') tail' head) z =
      if z = tail' then some head else nextOf n links z := by
    intro z
    rw [nextOf, setNext_lruNext, setPrev_lruNext, nextOf]
    split
    · exact node_of_ne hhead
    · rfl
  have hys : Segment (prevOf n (setNext (setPrev links head tail') tail' head))
      (nextOf n (setNext (setPrev links head tail') tail' head)) none ys (some head) := by
    obtain ⟨zs, hzs⟩ := List.getLast?_eq_some_iff.mp (hy.tail_eq.symm.trans (node_of_ne htail'))
    have hseg := hy.seg
    have hd := hy.nodup
    rw [hzs] at hseg hd
    have hnew := hseg.relinkLast (hnext tail' |>.trans (if_pos rfl)) fun y hyz => by
      rw [hnext, if_neg]
      exact fun heq => (List.nodup_append.mp hd).2.2 y hyz tail' (by simp) heq
    rw [hzs]
    refine hnew.congr (fun y hyz => ?_) fun _ _ => rfl
    rw [hprev, if_neg]
    exact fun heq => hdis y (hzs ▸ hyz) (heq ▸ hxmem)
  have hxs : Segment (prevOf n (setNext (setPrev links head tail') tail' head))
      (nextOf n (setNext (setPrev links head tail') tail' head)) (some tail') xs none := by
    obtain ⟨zs, hzs⟩ := List.head?_eq_some_iff.mp (hx.head_eq.symm.trans (node_of_ne hhead))
    have hseg := hx.seg
    have hd := hx.nodup
    rw [hzs] at hseg hd
    have hnew := hseg.relinkHead (hprev head |>.trans (if_pos rfl)) fun y hyz => by
      rw [hprev, if_neg]
      exact fun heq => (List.nodup_cons.mp hd).1 (heq ▸ hyz)
    rw [hzs]
    refine hnew.congr (fun _ _ => rfl) fun y hyz => ?_
    rw [hnext, if_neg]
    exact fun heq => hdis tail' htmem (hzs ▸ heq ▸ hyz)
  refine ⟨?_, ?_, ?_, ?_, ?_⟩
  · intro z hz
    rcases List.mem_append.mp hz with h | h
    · exact hy.lt z h
    · exact hx.lt z h
  · refine List.nodup_append.mpr ⟨hy.nodup, hx.nodup, fun a ha b hb heq => ?_⟩
    exact hdis a ha (heq ▸ hb)
  · rw [List.head?_append_of_ne_nil _ hyne]
    exact hy.head_eq
  · rw [List.getLast?_append_of_ne_nil _ (List.ne_nil_of_mem hxmem)]
    exact hx.tail_eq
  · refine segment_append.mpr ⟨?_, ?_⟩
    · rw [← hx.head_eq, node_of_ne hhead]
      exact hys
    · rw [← hy.tail_eq, node_of_ne htail']
      exact hxs

theorem Chain.prev_cases (h : Chain n links head tail xs) (hx : x ∈ xs) :
    (links x).lruPrev = n ∧ head = x ∨ (links x).lruPrev ∈ xs ∧ (links x).lruPrev ≠ x ∧ head ≠ x := by
  by_cases hp : (links x).lruPrev = n
  · have hfirst := h.seg.head_of_prev hx (node_eq_none.mpr hp)
    rw [← h.head_eq, node_eq_some] at hfirst
    exact .inl ⟨hp, hfirst.1⟩
  · right
    have hprev : prevOf n links x = some (links x).lruPrev := node_of_ne hp
    obtain ⟨as, bs, hxs⟩ := List.append_of_mem hx
    have hseg := h.seg
    have hd := h.nodup
    rw [hxs] at hseg hd
    have hlast : as.getLast? = some (links x).lruPrev := by
      rw [← hprev, hseg.links.1, Option.or_none]
    have hmem : (links x).lruPrev ∈ as := List.mem_of_mem_getLast? hlast
    have hnot : x ∉ as := fun hin => (List.nodup_append.mp hd).2.2 x hin x (by simp) rfl
    refine ⟨by simp [hxs, hmem], fun heq => hnot (heq ▸ hmem), fun heq => ?_⟩
    have hhead := h.head_eq
    rw [heq, node_of_ne (Nat.ne_of_lt (h.lt x hx)), hxs,
      List.head?_append_of_ne_nil _ (List.ne_nil_of_mem hmem)] at hhead
    exact hnot (List.mem_of_mem_head? hhead.symm)

theorem Chain.next_cases (h : Chain n links head tail xs) (hx : x ∈ xs) :
    (links x).lruNext = n ∧ tail = x ∨ (links x).lruNext ∈ xs ∧ (links x).lruNext ≠ x ∧ tail ≠ x := by
  by_cases hn : (links x).lruNext = n
  · have hlast := h.seg.getLast_of_next hx (node_eq_none.mpr hn)
    rw [← h.tail_eq, node_eq_some] at hlast
    exact .inl ⟨hn, hlast.1⟩
  · right
    have hnext : nextOf n links x = some (links x).lruNext := node_of_ne hn
    obtain ⟨as, bs, hxs⟩ := List.append_of_mem hx
    have hseg := h.seg
    have hd := h.nodup
    rw [hxs] at hseg hd
    have hfirst : bs.head? = some (links x).lruNext := by
      rw [← hnext, hseg.links.2, Option.or_none]
    have hmem : (links x).lruNext ∈ bs := List.mem_of_mem_head? hfirst
    have hnot : x ∉ bs := (List.nodup_cons.mp (List.nodup_append.mp hd).2.1).1
    refine ⟨by simp [hxs, hmem], fun heq => hnot (heq ▸ hmem), fun heq => ?_⟩
    have htail := h.tail_eq
    rw [heq, node_of_ne (Nat.ne_of_lt (h.lt x hx)), hxs, List.append_cons,
      List.getLast?_append_of_ne_nil _ (List.ne_nil_of_mem hmem)] at htail
    exact hnot (List.mem_of_mem_getLast? htail.symm)

/-- The links and ends after a line was taken out. -/
structure Unlinked (n : Nat) (links : Nat → AlruMeta) (head tail x : Nat) (links' : Nat → AlruMeta)
    (head' tail' : Nat) : Prop where
  /-- The line has no links. -/
  self : links' x = ⟨n, n⟩
  /-- The successor gets the predecessor. -/
  prev : ∀ y < n, y ≠ x →
    (links' y).lruPrev = if y = (links x).lruNext then (links x).lruPrev else (links y).lruPrev
  /-- The predecessor gets the successor. -/
  next : ∀ y < n, y ≠ x →
    (links' y).lruNext = if y = (links x).lruPrev then (links x).lruNext else (links y).lruNext
  /-- The successor may become the first line. -/
  head_eq : head' = if head = x then (links x).lruNext else head
  /-- The predecessor may become the last line. -/
  tail_eq : tail' = if tail = x then (links x).lruPrev else tail

theorem Chain.remove {head' tail' x : Nat} (h : Chain n links head tail xs) (hx : x ∈ xs)
    (hu : Unlinked n links head tail x links' head' tail') : Chain n links' head' tail' (xs.erase x) := by
  obtain ⟨as, bs, hxs⟩ := List.append_of_mem hx
  have hd := h.nodup
  have hseg := h.seg
  rw [hxs] at hd hseg
  have hnot : x ∉ as := fun hin => (List.nodup_append.mp hd).2.2 x hin x (by simp) rfl
  have hnotb : x ∉ bs := (List.nodup_cons.mp (List.nodup_append.mp hd).2.1).1
  have herase : xs.erase x = as ++ bs := by
    rw [hxs, List.erase_append_right _ hnot, List.erase_cons_head]
  obtain ⟨hprev, hnext⟩ := hseg.links
  rw [Option.or_none] at hprev hnext
  have hmem : ∀ y ∈ as ++ bs, y < n ∧ y ≠ x := by
    intro y hy
    refine ⟨h.lt y ?_, fun heq => ?_⟩
    · rw [hxs]
      rcases List.mem_append.mp hy with hy | hy
      · exact List.mem_append_left _ hy
      · exact List.mem_append_right _ (List.mem_cons_of_mem x hy)
    · rw [heq] at hy
      rcases List.mem_append.mp hy with hy | hy
      · exact hnot hy
      · exact hnotb hy
  rw [herase]
  refine ⟨fun y hy => (hmem y hy).1, herase ▸ h.nodup.erase x, ?_, ?_, ?_⟩
  · -- the first line is another one exactly if nothing is before the line
    rw [hu.head_eq]
    cases as with
    | nil =>
      have hhead := h.head_eq
      rw [hxs] at hhead
      have heq : head = x := (node_eq_some.mp hhead).1
      rw [if_pos heq]
      exact hnext
    | cons a as =>
      have hhead := h.head_eq
      rw [hxs] at hhead
      have heq : head = a := (node_eq_some.mp hhead).1
      have hax : head ≠ x := fun hax => hnot (by simp [← hax, heq])
      rw [if_neg hax]
      exact hhead
  · rw [hu.tail_eq]
    have htail := h.tail_eq
    rw [hxs, List.append_cons] at htail
    cases bs with
    | nil =>
      rw [List.append_nil, List.getLast?_concat] at htail
      have heq : tail = x := (node_eq_some.mp htail).1
      rw [if_pos heq, List.append_nil]
      exact hprev
    | cons b bs =>
      rw [List.getLast?_append_of_ne_nil _ (List.cons_ne_nil b bs)] at htail
      have htn : tail ≠ n := by
        intro hn
        rw [hn, node_self] at htail
        exact List.cons_ne_nil b bs (List.getLast?_eq_none_iff.mp htail.symm)
      have hlt : tail ∈ b :: bs := List.mem_of_mem_getLast? (htail ▸ node_of_ne htn)
      have hax : tail ≠ x := fun heq => hnotb (heq ▸ hlt)
      rw [if_neg hax, List.getLast?_append_of_ne_nil _ (List.cons_ne_nil b bs)]
      exact htail
  · refine hseg.remove hd (fun y hy => ?_) fun y hy => ?_
    · obtain ⟨hlt, hne⟩ := hmem y hy
      refine ⟨fun heq => ?_, fun heq => ?_⟩
      · rw [prevOf, hu.prev y hlt hne, if_pos (node_eq_some.mp heq).1.symm, prevOf]
      · have hyx : y ≠ (links x).lruNext := fun hyx =>
          heq (node_eq_some.mpr ⟨hyx.symm, hyx ▸ Nat.ne_of_lt hlt⟩)
        rw [prevOf, hu.prev y hlt hne, if_neg hyx, prevOf]
    · obtain ⟨hlt, hne⟩ := hmem y hy
      refine ⟨fun heq => ?_, fun heq => ?_⟩
      · rw [nextOf, hu.next y hlt hne, if_pos (node_eq_some.mp heq).1.symm, nextOf]
      · have hyx : y ≠ (links x).lruPrev := fun hyx =>
          heq (node_eq_some.mpr ⟨hyx.symm, hyx ▸ Nat.ne_of_lt hlt⟩)
        rw [nextOf, hu.next y hlt hne, if_neg hyx, nextOf]

theorem Unlinked.other {head' tail' x : Nat} (hu : Unlinked n links head tail x links' head' tail')
    (h : Chain n links head tail xs) (hx : x ∈ xs) {y : Nat} (hlt : y < n) (hy : y ∉ xs) :
    links' y = links y := by
  have hne : y ≠ x := fun heq => hy (heq ▸ hx)
  have hprev : (links' y).lruPrev = (links y).lruPrev := by
    rw [hu.prev y hlt hne, if_neg]
    intro heq
    rcases h.next_cases hx with ⟨hn, -⟩ | ⟨hmem, -⟩
    · omega
    · exact hy (heq ▸ hmem)
  have hnext : (links' y).lruNext = (links y).lruNext := by
    rw [hu.next y hlt hne, if_neg]
    intro heq
    rcases h.prev_cases hx with ⟨hp, -⟩ | ⟨hmem, -⟩
    · omega
    · exact hy (heq ▸ hmem)
  calc links' y = ⟨(links' y).lruPrev, (links' y).lruNext⟩ := rfl
    _ = links y := by rw [hprev, hnext]

end Chains

theorem removeAlruList_of_mem (g : Geometry) (s : State) (p x : Nat) {xs : List Nat}
    (h : Chain g.collisionEntries s.links (s.part p).lruHead (s.part p).lruTail xs) (hx : x ∈ xs) :
    ∃ links head tail, removeAlruList g s p x =
        some { s with links, part := update s.part p ⟨(s.part p).size - 1, head, tail⟩ } ∧
      Unlinked g.collisionEntries s.links (s.part p).lruHead (s.part p).lruTail x links head tail := by
  have hlt := h.lt x hx
  rw [removeAlruList, if_neg (not_not.mpr hlt)]
  rcases h.prev_cases hx with ⟨hp, hhead⟩ | ⟨hpm, hpx, hhead⟩
  · rcases h.next_cases hx with ⟨hn, htail⟩ | ⟨hnm, hnx, htail⟩
    · refine ⟨update s.links x ⟨g.collisionEntries, g.collisionEntries⟩, g.collisionEntries,
        g.collisionEntries, ?_, ?_⟩
      · rw [if_neg (fun hc => hc.2.2.1 hhead), if_pos ⟨hhead, htail⟩]
      · refine ⟨update_self .., fun y hy hyx => ?_, fun y hy hyx => ?_, ?_, ?_⟩
        · rw [update_of_ne hyx, if_neg (by omega)]
        · rw [update_of_ne hyx, if_neg (by omega)]
        · rw [if_pos hhead, hn]
        · rw [if_pos htail, hp]
    · have hnlt := h.lt _ hnm
      refine ⟨setPrev (setNext s.links x g.collisionEntries) (s.links x).lruNext g.collisionEntries,
        (s.links x).lruNext, (s.part p).lruTail, ?_, ?_⟩
      · rw [if_neg (fun hc => hc.2.2.1 hhead), if_neg (fun hc => htail hc.2), if_pos ⟨htail, hhead⟩,
          if_neg (not_not.mpr hnlt)]
      · refine ⟨?_, fun y hy hyx => ?_, fun y hy hyx => ?_, ?_, ?_⟩
        · rw [setPrev_of_ne _ (Ne.symm hnx)]
          exact links_eq (by simp [hp]) (by simp)
        · rw [setPrev_lruPrev, setNext_lruPrev, hp]
        · rw [if_neg (by omega), setPrev_lruNext, setNext_lruNext, if_neg hyx]
        · rw [if_pos hhead]
        · rw [if_neg htail]
  · have hplt := h.lt _ hpm
    rcases h.next_cases hx with ⟨hn, htail⟩ | ⟨hnm, hnx, htail⟩
    · refine ⟨setNext (setPrev s.links x g.collisionEntries) (s.links x).lruPrev g.collisionEntries,
        (s.part p).lruHead, (s.links x).lruPrev, ?_, ?_⟩
      · rw [if_neg (fun hc => hc.2.2.2 htail), if_neg (fun hc => hhead hc.1), if_neg (fun hc => hc.1 htail),
          if_pos ⟨hhead, htail⟩, if_neg (not_not.mpr hplt)]
      · refine ⟨?_, fun y hy hyx => ?_, fun y hy hyx => ?_, ?_, ?_⟩
        · rw [setNext_of_ne _ (Ne.symm hpx)]
          exact links_eq (by simp) (by simp [hn])
        · rw [if_neg (by omega), setNext_lruPrev, setPrev_lruPrev, if_neg hyx]
        · rw [setNext_lruNext, setPrev_lruNext, hn]
        · rw [if_neg hhead]
        · rw [if_pos htail]
    · have hnlt := h.lt _ hnm
      refine ⟨update (setPrev (setNext s.links (s.links x).lruPrev (s.links x).lruNext)
          (s.links x).lruNext (s.links x).lruPrev) x ⟨g.collisionEntries, g.collisionEntries⟩,
        (s.part p).lruHead, (s.part p).lruTail, ?_, ?_⟩
      · rw [if_neg (by omega), if_neg (fun hc => hhead hc.1), if_neg (fun hc => hhead hc.2),
          if_neg (fun hc => htail hc.2), if_neg (by omega)]
      · refine ⟨update_self .., fun y hy hyx => ?_, fun y hy hyx => ?_, ?_, ?_⟩
        · rw [update_of_ne hyx, setPrev_lruPrev, setNext_lruPrev]
        · rw [update_of_ne hyx, setPrev_lruNext, setNext_lruNext]
        · rw [if_neg hhead]
        · rw [if_neg htail]

/-- Links and ends after the chain from `head` to `tail` was put before the one
with the given ends. -/
def push (n : Nat) (links : Nat → AlruMeta) (ends : Nat × Nat) (head tail : Nat) :
    (Nat → AlruMeta) × (Nat × Nat) :=
  if ends.1 = n then (links, (head, tail))
  else (setNext (setPrev links ends.1 tail) tail ends.1, (head, ends.2))

section Push

variable {n head tail : Nat} {links : Nat → AlruMeta} {ends : Nat × Nat} {xs ys : List Nat}

theorem Chain.push (hy : Chain n links head tail ys) (hx : Chain n links ends.1 ends.2 xs)
    (hhead : head ≠ n) (hdis : ∀ y ∈ ys, y ∉ xs) :
    Chain n (push n links ends head tail).1 (push n links ends head tail).2.1
      (push n links ends head tail).2.2 (ys ++ xs) := by
  unfold Alru.push
  split
  next h =>
    rw [hx.eq_nil h, List.append_nil]
    exact hy
  next h => exact hy.splice hx hhead h hdis

theorem push_other (hy : Chain n links head tail ys) (hx : Chain n links ends.1 ends.2 xs)
    (hhead : head ≠ n) {z : Nat} (hzy : z ∉ ys) (hzx : z ∉ xs) :
    (push n links ends head tail).1 z = links z := by
  unfold Alru.push
  split
  · rfl
  next h =>
    have htail : tail ≠ n := by
      intro hn
      have heq := hy.tail_eq
      rw [hn, node_self] at heq
      exact List.ne_nil_of_mem (hy.head_mem hhead) (List.getLast?_eq_none_iff.mp heq.symm)
    have hzt : z ≠ tail := fun heq => hzy (heq ▸ hy.tail_mem htail)
    have hzh : z ≠ ends.1 := fun heq => hzx (heq ▸ hx.head_mem h)
    exact (setNext_of_ne _ hzt).trans (setPrev_of_ne _ hzh)

end Push

/-- One chain for each key: the wanted lines are on the chains of their keys,
and the lines that are not wanted but cared for have no links. -/
structure Family {ι : Type*} (n : Nat) (links : Nat → AlruMeta) (ends : ι → Nat × Nat) (dom : ι → Prop)
    (key : Nat → ι) (want care : Nat → Prop) (lists : ι → List Nat) : Prop where
  /-- The chain of a key. -/
  chain : ∀ i, dom i → Chain n links (ends i).1 (ends i).2 (lists i)
  /-- The lines of a chain. -/
  mem : ∀ i, dom i → ∀ x, x ∈ lists i ↔ want x ∧ key x = i
  /-- A wanted line has a chain. -/
  dom_key : ∀ x, want x → dom (key x)
  /-- Other lines have no links. -/
  off : ∀ x, care x → ¬want x → links x = ⟨n, n⟩

section Families

variable {ι : Type*} {n : Nat} {links links' : Nat → AlruMeta} {ends ends' : ι → Nat × Nat} {dom : ι → Prop}
  {key key' : Nat → ι} {want want' care care' : Nat → Prop} {lists : ι → List Nat}

theorem Family.congr (h : Family n links ends dom key want care lists) (hwant : ∀ x, want' x ↔ want x)
    (hkey : ∀ x, want x → key' x = key x) (hcare : ∀ x, care' x → ¬want x → care x) :
    Family n links ends dom key' want' care' lists where
  chain := h.chain
  mem := by
    intro i hi x
    rw [h.mem i hi x, hwant x]
    constructor
    · exact fun hx => ⟨hx.1, (hkey x hx.1).trans hx.2⟩
    · exact fun hx => ⟨hx.1, (hkey x hx.1).symm.trans hx.2⟩
  dom_key := by
    intro x hx
    rw [hkey x ((hwant x).mp hx)]
    exact h.dom_key x ((hwant x).mp hx)
  off := by
    intro x hx hnot
    have hnot : ¬want x := fun hc => hnot ((hwant x).mpr hc)
    exact h.off x (hcare x hx hnot) hnot

variable {x : Nat}

section

variable (h : Family n links ends dom key want care lists)
include h

theorem Family.mem_key (hx : want x) : x ∈ lists (key x) :=
  (h.mem (key x) (h.dom_key x hx) x).mpr ⟨hx, rfl⟩

theorem Family.lt (hx : want x) : x < n :=
  (h.chain (key x) (h.dom_key x hx)).lt x (h.mem_key hx)

theorem Family.not_end (hlt : x < n)
    (hx : ¬want x) {i : ι} (hi : dom i) : (ends i).1 ≠ x ∧ (ends i).2 ≠ x := by
  have hnot : x ∉ lists i := fun hin => hx ((h.mem i hi x).mp hin).1
  have hne : x ≠ n := Nat.ne_of_lt hlt
  constructor
  · intro heq
    exact hnot (heq ▸ (h.chain i hi).head_mem (heq ▸ hne))
  · intro heq
    exact hnot (heq ▸ (h.chain i hi).tail_mem (heq ▸ hne))

theorem Family.clear (hx : ¬want x) :
    Family n (update links x ⟨n, n⟩) ends dom key want (fun y => care y ∨ y = x) lists where
  chain := by
    intro i hi
    refine (h.chain i hi).congr fun y hy => update_of_ne ?_ ..
    intro heq
    exact hx ((h.mem i hi x).mp (heq ▸ hy)).1
  mem := h.mem
  dom_key := h.dom_key
  off := by
    intro y hy hnot
    rw [update_apply]
    split
    · rfl
    next hne => exact h.off y (hy.resolve_right hne) hnot

/-- A line joins its list. -/
theorem Family.add [DecidableEq ι] (key' : Nat → ι) (hlt : x < n)
    (hx : ¬want x) (hdom : dom (key' x)) (hkey : ∀ y, want y → key' y = key y)
    (hlinks : links' = (push n (update links x ⟨n, n⟩) (ends (key' x)) x x).1)
    (hends : ends' = update ends (key' x) (push n (update links x ⟨n, n⟩) (ends (key' x)) x x).2) :
    Family n links' ends' dom key' (fun y => want y ∨ y = x) care
      (update lists (key' x) (x :: lists (key' x))) := by
  have hc := h.clear hx
  have hone : Chain n (update links x ⟨n, n⟩) x x [x] := Chain.single hlt (update_self ..)
  have hnot : ∀ i, dom i → x ∉ lists i := fun i hi hin => hx ((h.mem i hi x).mp hin).1
  have hother : ∀ z, z ≠ x → z ∉ lists (key' x) → links' z = links z := by
    intro z hzx hz
    rw [hlinks, push_other hone (hc.chain _ hdom) (Nat.ne_of_lt hlt) (by simpa using hzx) hz,
      update_of_ne hzx]
  refine ⟨fun i hi => ?_, fun i hi y => ?_, fun y hy => ?_, fun y hy hny => ?_⟩
  · by_cases hix : i = key' x
    · subst hix
      rw [hends, hlinks, update_self, update_self]
      exact hone.push (hc.chain _ hdom) (Nat.ne_of_lt hlt) (by simpa using hnot _ hdom)
    · rw [hends, update_of_ne hix, update_of_ne hix]
      refine (h.chain i hi).congr fun y hy => hother y (fun heq => hnot i hi (heq ▸ hy)) fun hin => hix ?_
      exact ((h.mem i hi y).mp hy).2.symm.trans ((h.mem _ hdom y).mp hin).2
  · by_cases hix : i = key' x
    · subst hix
      rw [update_self, List.mem_cons, h.mem _ hdom y]
      constructor
      · rintro (rfl | ⟨hw, hk⟩)
        · exact ⟨.inr rfl, rfl⟩
        · exact ⟨.inl hw, (hkey y hw).trans hk⟩
      · rintro ⟨hw | hw, hk⟩
        · exact .inr ⟨hw, (hkey y hw).symm.trans hk⟩
        · exact .inl hw
    · rw [update_of_ne hix, h.mem i hi y]
      constructor
      · rintro ⟨hw, hk⟩
        exact ⟨.inl hw, (hkey y hw).trans hk⟩
      · rintro ⟨hw | hw, hk⟩
        · exact ⟨hw, (hkey y hw).symm.trans hk⟩
        · exact absurd (hk.symm.trans (congrArg key' hw)) hix
  · rcases hy with hy | hy
    · rw [hkey y hy]
      exact h.dom_key y hy
    · rw [hy]
      exact hdom
  · rw [not_or] at hny
    rw [hother y hny.2 fun hin => hny.1 ((h.mem _ hdom y).mp hin).1]
    exact h.off y hy hny.1

theorem Family.remove [DecidableEq ι] {x head' tail' : Nat}
    (hx : want x) (hu : Unlinked n links (ends (key x)).1 (ends (key x)).2 x links' head' tail')
    (hends : ends' = update ends (key x) (head', tail')) (hlt : ∀ y, care y → y < n) :
    Family n links' ends' dom key (fun y => want y ∧ y ≠ x) (fun y => care y ∨ y = x)
      (update lists (key x) ((lists (key x)).erase x)) := by
  have hdom := h.dom_key x hx
  have hc := h.chain _ hdom
  have hmem := h.mem_key hx
  refine ⟨fun i hi => ?_, fun i hi y => ?_, fun y hy => h.dom_key y hy.1, fun y hy hny => ?_⟩
  · by_cases hix : i = key x
    · subst hix
      rw [hends, update_self, update_self]
      exact hc.remove hmem hu
    · rw [hends, update_of_ne hix, update_of_ne hix]
      refine (h.chain i hi).congr fun y hy => hu.other hc hmem ((h.chain i hi).lt y hy) fun hin => hix ?_
      exact ((h.mem i hi y).mp hy).2.symm.trans ((h.mem _ hdom y).mp hin).2
  · by_cases hix : i = key x
    · subst hix
      rw [update_self, hc.nodup.mem_erase_iff, h.mem _ hdom y]
      tauto
    · rw [update_of_ne hix, h.mem i hi y]
      constructor
      · rintro ⟨hw, hk⟩
        exact ⟨⟨hw, fun heq => hix (hk.symm.trans (congrArg key heq))⟩, hk⟩
      · rintro ⟨⟨hw, -⟩, hk⟩
        exact ⟨hw, hk⟩
  · by_cases hyx : y = x
    · rw [hyx]
      exact hu.self
    · have hcare := hy.resolve_right hyx
      have hnw : ¬want y := fun hw => hny ⟨hw, hyx⟩
      rw [hu.other hc hmem (hlt y hcare) fun hin => hnw ((h.mem _ hdom y).mp hin).1]
      exact h.off y hcare hnw

theorem Family.restrict {dom' : ι → Prop}
    (hdom : ∀ i, dom' i → dom i) (hkey : ∀ x, want x → dom' (key x)) :
    Family n links ends dom' key want care lists where
  chain := fun i hi => h.chain i (hdom i hi)
  mem := fun i hi => h.mem i (hdom i hi)
  dom_key := hkey
  off := h.off

theorem Family.extend (ends' : ι → Nat × Nat) (dom' : ι → Prop)
    (hold : ∀ i, dom i → dom' i) (hends : ∀ i, dom i → ends' i = ends i)
    (hnew : ∀ i, dom' i → ¬dom i → ends' i = (n, n)) :
    ∃ lists', Family n links ends' dom' key want care lists' := by
  classical
  refine ⟨fun i => if dom i then lists i else [], fun i hi => ?_, fun i hi x => ?_,
    fun x hx => hold _ (h.dom_key x hx), h.off⟩
  · by_cases hd : dom i
    · rw [if_pos hd, hends i hd]
      exact h.chain i hd
    · rw [if_neg hd, hnew i hi hd]
      exact Chain.nil n links
  · by_cases hd : dom i
    · rw [if_pos hd]
      exact h.mem i hd x
    · rw [if_neg hd]
      refine ⟨fun hx => absurd hx (List.not_mem_nil), fun hx => absurd ?_ hd⟩
      exact hx.2 ▸ h.dom_key x hx.1

/-- Two lists of a family become one. -/
theorem Family.merge [DecidableEq ι] (links' : Nat → AlruMeta)
    (ends' : ι → Nat × Nat) (dom' : ι → Prop) (key' : Nat → ι) {i k : ι} (hi : dom i) (hk : dom k) (hik : i ≠ k) (hdom' : ∀ j, dom' j ↔ dom j ∧ j ≠ k)
    (hkey : ∀ x, want x → key' x = if key x = k then i else key x)
    (hlinks : links' = if (ends k).1 = n then links else (push n links (ends i) (ends k).1 (ends k).2).1)
    (hendsi : ends' i = if (ends k).1 = n then ends i else (push n links (ends i) (ends k).1 (ends k).2).2)
    (hends : ∀ j, dom' j → j ≠ i → ends' j = ends j) :
    Family n links' ends' dom' key' want care (update lists i (lists k ++ lists i)) := by
  have hck := h.chain k hk
  have hci := h.chain i hi
  have hdis : ∀ y ∈ lists k, y ∉ lists i := by
    intro y hy hyi
    exact hik (((h.mem i hi y).mp hyi).2.symm.trans ((h.mem k hk y).mp hy).2)
  have hother : ∀ z, z ∉ lists k → z ∉ lists i → links' z = links z := by
    intro z hzk hzi
    rw [hlinks]
    split
    · rfl
    next hne => exact push_other hck hci hne hzk hzi
  refine ⟨fun j hj => ?_, fun j hj y => ?_, fun y hy => ?_, fun y hy hny => ?_⟩
  · by_cases hji : j = i
    · subst hji
      rw [update_self, hendsi, hlinks]
      split
      next hn =>
        rw [hck.eq_nil hn, List.nil_append]
        exact hci
      next hne => exact hck.push hci hne hdis
    · have hjd := (hdom' j).mp hj
      rw [update_of_ne hji, hends j hj hji]
      refine (h.chain j hjd.1).congr fun y hy => hother y (fun hin => hjd.2 ?_) fun hin => hji ?_
      · exact ((h.mem j hjd.1 y).mp hy).2.symm.trans ((h.mem k hk y).mp hin).2
      · exact ((h.mem j hjd.1 y).mp hy).2.symm.trans ((h.mem i hi y).mp hin).2
  · have hjd := (hdom' j).mp hj
    by_cases hji : j = i
    · subst hji
      rw [update_self, List.mem_append, h.mem k hk y, h.mem j hi y]
      constructor
      · rintro (⟨hw, hky⟩ | ⟨hw, hky⟩)
        · exact ⟨hw, by rw [hkey y hw, if_pos hky]⟩
        · refine ⟨hw, ?_⟩
          rw [hkey y hw, if_neg (hky ▸ hik)]
          exact hky
      · rintro ⟨hw, hky⟩
        rw [hkey y hw] at hky
        split at hky
        next heq => exact .inl ⟨hw, heq⟩
        · exact .inr ⟨hw, hky⟩
    · rw [update_of_ne hji, h.mem j hjd.1 y]
      refine and_congr_right fun hw => ?_
      rw [hkey y hw]
      split
      next heq =>
        rw [heq]
        exact ⟨fun hc => absurd hc.symm hjd.2, fun hc => absurd hc.symm hji⟩
      · exact Iff.rfl
  · rw [hkey y hy, hdom']
    split
    · exact ⟨hi, hik⟩
    next hne => exact ⟨h.dom_key y hy, hne⟩
  · rw [hother y (fun hin => hny ((h.mem k hk y).mp hin).1) fun hin => hny ((h.mem i hi y).mp hin).1]
    exact h.off y hy hny

end

end Families

/-- First and last lines of the partitions. -/
def endsOf (part : Nat → PartAlru) (p : Nat) : Nat × Nat := ((part p).lruHead, (part p).lruTail)

/-- The lists of the user partitions hold the wanted lines. -/
structure Tracks (g : Geometry) (s : State) (key : Nat → Nat) (want care : Nat → Prop)
    (lists : Nat → List Nat) : Prop where
  /-- The lists. -/
  family : Family g.collisionEntries s.links (endsOf s.part) (· < ocfUserIoClassMax) key want care lists
  /-- The lines cared for exist. -/
  care_lt : ∀ x, care x → x < g.collisionEntries
  /-- The counters. -/
  size : ∀ p < ocfUserIoClassMax, (s.part p).size = (lists p).length

section Operations

variable {g : Geometry} {s : State} {key key' : Nat → Nat} {want want' care care' : Nat → Prop}
  {lists : Nat → List Nat}

theorem Tracks.congr (h : Tracks g s key want care lists) (hwant : ∀ x, want' x ↔ want x)
    (hkey : ∀ x, want x → key' x = key x) (hcare : ∀ x, care' x → x < g.collisionEntries ∧ (¬want x → care x))
    (md : LineTable) : Tracks g { s with md } key' want' care' lists where
  family := h.family.congr hwant hkey fun x hx hnot => (hcare x hx).2 hnot
  care_lt := fun x hx => (hcare x hx).1
  size := h.size

theorem endsOf_update (part : Nat → PartAlru) (p : Nat) (v : PartAlru) :
    endsOf (update part p v) = update (endsOf part) p (v.lruHead, v.lruTail) := by
  funext q
  simp only [endsOf, update_apply]
  split <;> rfl

variable {x : Nat}

/-- `cleaning_policy_alru_init_cache_block` on a line that is on no list. -/
theorem Tracks.initCacheBlock (h : Tracks g s key want care lists) (hlt : x < g.collisionEntries)
    (hx : ¬want x) :
    Tracks g (cleaningPolicyAlruInitCacheBlock g s x) key want (fun y => care y ∨ y = x) lists where
  family := h.family.clear hx
  care_lt := fun y hy => hy.elim (h.care_lt y) fun heq => heq ▸ hlt
  size := h.size

/-- `append_alru_head` for a chain that is not empty. -/
theorem appendAlruHead_eq (g : Geometry) (s : State) {p head tail : Nat} (hhead : head ≠ g.collisionEntries)
    (htail : tail ≠ g.collisionEntries) : appendAlruHead g s p head tail = some { s with
      links := (push g.collisionEntries s.links (endsOf s.part p) head tail).1
      part := update s.part p ⟨(s.part p).size,
        (push g.collisionEntries s.links (endsOf s.part p) head tail).2.1,
        (push g.collisionEntries s.links (endsOf s.part p) head tail).2.2⟩ } := by
  rw [appendAlruHead, if_neg (fun hc => hhead hc.1), if_neg (by tauto), push]
  by_cases hp : (s.part p).lruHead = g.collisionEntries
  · have hends : (endsOf s.part p).1 = g.collisionEntries := hp
    simp only [if_pos hp, if_pos hends]
  · have hends : ¬(endsOf s.part p).1 = g.collisionEntries := hp
    simp only [if_neg hp, if_neg hends]
    rfl

section

variable (h : Tracks g s key want care lists)
include h

/-- `add_alru_head` puts a line on the list of a partition. -/
theorem Tracks.addAlruHead {p x : Nat} (hp : p < ocfUserIoClassMax)
    (hlt : x < g.collisionEntries) (hx : ¬want x) (hkx : key' x = p) (hkey : ∀ y, want y → key' y = key y) :
    ∃ s', addAlruHead g s p x = some s' ∧ s'.md = s.md ∧
      Tracks g s' key' (fun y => want y ∨ y = x) care (update lists p (x :: lists p)) := by
  subst hkx
  have hne : x ≠ g.collisionEntries := Nat.ne_of_lt hlt
  rw [Alru.addAlruHead, if_neg (not_not.mpr hlt)]
  dsimp only
  rw [appendAlruHead_eq g _ hne hne]
  refine ⟨_, rfl, rfl, ?_, h.care_lt, fun q hq => ?_⟩
  · refine h.family.add key' hlt hx hp hkey rfl ?_
    dsimp only
    rw [update_self, update_idem, endsOf_update]
  · have hsize := h.size q hq
    dsimp only
    rw [update_self, update_idem]
    by_cases hqp : q = key' x
    · subst hqp
      simp [hsize]
    · rw [update_of_ne hqp, update_of_ne hqp, hsize]

/-- `remove_alru_list` on a line of the list of its partition. -/
theorem Tracks.removeAlruList (hx : want x) :
    ∃ s', removeAlruList g s (key x) x = some s' ∧ s'.md = s.md ∧
      Tracks g s' key (fun y => want y ∧ y ≠ x) (fun y => care y ∨ y = x)
        (update lists (key x) ((lists (key x)).erase x)) := by
  have hdom := h.family.dom_key x hx
  have hmem := h.family.mem_key hx
  obtain ⟨links, head, tail, heq, hu⟩ :=
    removeAlruList_of_mem g s (key x) x (h.family.chain (key x) hdom) hmem
  refine ⟨_, heq, rfl, ?_, fun y hy => ?_, fun q hq => ?_⟩
  · exact h.family.remove hx hu (endsOf_update ..) h.care_lt
  · exact hy.elim (h.care_lt y) fun hyx => hyx ▸ h.family.lt hx
  · have hsize := h.size q hq
    change (update s.part _ _ q).size = _
    by_cases hqx : q = key x
    · subst hqx
      have hpos := List.length_pos_of_mem hmem
      rw [update_self, update_self, List.length_erase_of_mem hmem]
      change (s.part (key x)).size - 1 = _
      omega
    · rw [update_of_ne hqx, update_of_ne hqx, hsize]

/-- `remove_alru_list` leaves a line alone that is on no list. -/
theorem Tracks.removeAlruList_off {p x : Nat} (hp : p < ocfUserIoClassMax)
    (hx : ¬want x) (hc : care x) : Alru.removeAlruList g s p x = some s := by
  have hlinks := h.family.off x hc hx
  obtain ⟨hhead, htail⟩ := h.family.not_end (h.care_lt x hc) hx hp
  rw [Alru.removeAlruList, if_neg (not_not.mpr (h.care_lt x hc)), if_pos]
  rw [hlinks]
  exact ⟨rfl, rfl, hhead, htail⟩

theorem Tracks.isOnAlruList_iff (hp : key x < ocfUserIoClassMax)
    (hc : care x) : isOnAlruList g s (key x) x = true ↔ want x := by
  simp only [isOnAlruList, Bool.or_eq_true, decide_eq_true_eq]
  constructor
  · intro hon
    by_contra hx
    have hlinks := h.family.off x hc hx
    obtain ⟨hhead, htail⟩ := h.family.not_end (h.care_lt x hc) hx hp
    rw [hlinks] at hon
    rcases hon with ((hon | hon) | hon) | hon
    · exact htail hon
    · exact hhead hon
    · exact hon rfl
    · exact hon rfl
  · intro hx
    by_contra hon
    simp only [not_or, not_not] at hon
    have halone := (h.family.chain (key x) hp).alone_of_links (h.family.mem_key hx) (links_eq hon.2 hon.1.2)
    exact hon.1.1.2 halone.1

end

/-- `cleaning_policy_alru_set_hot_cache_line` puts a line on the list of its
partition. -/
theorem Tracks.setHot (h : Tracks g s s.md.partitionId want care lists)
    (hp : s.md.partitionId x < ocfUserIoClassMax) (hc : care x) :
    ∃ s' lists', cleaningPolicyAlruSetHotCacheLine g s x = some s' ∧ s'.md = s.md ∧
      Tracks g s' s.md.partitionId (fun y => want y ∨ y = x) care lists' := by
  have hlt := h.care_lt x hc
  rw [cleaningPolicyAlruSetHotCacheLine]
  by_cases hx : want x
  · have hcond : (s.links x).lruNext ≠ g.collisionEntries ∨ (s.links x).lruPrev ≠ g.collisionEntries ∨
        (s.part (s.md.partitionId x)).lruHead = x ∧ (s.part (s.md.partitionId x)).lruTail = x := by
      by_contra hcon
      simp only [not_or, not_not] at hcon
      exact hcon.2.2 ((h.family.chain _ hp).alone_of_links (h.family.mem_key hx) (links_eq hcon.2.1 hcon.1))
    obtain ⟨t, ht, hmd, htr⟩ := h.removeAlruList hx
    obtain ⟨s', hs', hmd', htr'⟩ := htr.addAlruHead hp hlt (fun hc => hc.2 rfl) rfl fun _ _ => rfl
    have hwant : ∀ y, (want y ∨ y = x) ↔ want y ∧ y ≠ x ∨ y = x := by
      intro y
      by_cases hyx : y = x <;> simp [hyx]
    refine ⟨s', _, ?_, hmd'.trans hmd, htr'.congr hwant (fun _ _ => rfl)
      (fun y hy => ⟨h.care_lt y hy, fun _ => .inl hy⟩) s'.md⟩
    rw [if_pos hcond, ht]
    exact hs'
  · have hlinks := h.family.off x hc hx
    obtain ⟨hhead, -⟩ := h.family.not_end hlt hx hp
    obtain ⟨s', hs', hmd', htr'⟩ := h.addAlruHead hp hlt hx rfl fun _ _ => rfl
    refine ⟨s', _, ?_, hmd', htr'⟩
    rw [if_neg]
    · exact hs'
    · rw [hlinks]
      rintro (hc | hc | hc)
      · exact hc rfl
      · exact hc rfl
      · exact hhead hc.1

/-- `cleaning_policy_alru_purge_cache_block` takes a line off the lists. -/
theorem Tracks.purge (h : Tracks g s s.md.partitionId want care lists)
    (hp : s.md.partitionId x < ocfUserIoClassMax) (hc : care x) :
    ∃ s' lists', cleaningPolicyAlruPurgeCacheBlock g s x = some s' ∧ s'.md = s.md ∧
      Tracks g s' s.md.partitionId (fun y => want y ∧ y ≠ x) care lists' := by
  by_cases hx : want x
  · obtain ⟨s', hs', hmd, htr⟩ := h.removeAlruList hx
    exact ⟨s', _, hs', hmd, htr.congr (fun _ => Iff.rfl) (fun _ _ => rfl)
      (fun y hy => ⟨h.care_lt y hy, fun _ => .inl hy⟩) s'.md⟩
  · refine ⟨s, lists, h.removeAlruList_off hp hx hc, rfl, ?_⟩
    refine h.congr (fun y => ?_) (fun _ _ => rfl) (fun y hy => ⟨h.care_lt y hy, fun _ => hy⟩) s.md
    constructor
    · exact fun hy => hy.1
    · exact fun hy => ⟨hy, fun heq => hx (heq ▸ hy)⟩

end Operations

end OcfCache.Alru
