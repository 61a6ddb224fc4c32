import OcfCache.LinkedLists
import OcfCache.Loops

/-!
# Lists rebuilt from their links

The heads, tails and lengths of doubly linked lists are rebuilt by one pass
over nodes `0, 1, …` that know their neighbours and the list they are on. The
pass checks neighbours against each other and that a list has one head and one
tail. The module says what such a pass finds, and when the lists it finds are
lists: when no link leaves a list and no links form a cycle.
-/

namespace OcfCache.ListRestore

open LinkedLists Loops

section Depth

variable {α : Type*}

/-- Following the predecessors leaves the list after this many steps. -/
def Depth (prev : α → Option α) : Nat → α → Prop
  | 0, x => prev x = none
  | d + 1, x => ∃ y, prev x = some y ∧ Depth prev d y

theorem Depth.unique {prev : α → Option α} {d e : Nat} {x : α} (h : Depth prev d x)
    (h' : Depth prev e x) : d = e := by
  induction d generalizing e x with
  | zero =>
    cases e with
    | zero => rfl
    | succ e =>
      obtain ⟨y, hy, -⟩ := h'
      rw [h] at hy
      cases hy
  | succ d ih =>
    obtain ⟨y, hy, hd⟩ := h
    cases e with
    | zero =>
      rw [h'] at hy
      cases hy
    | succ e =>
      obtain ⟨z, hz, he⟩ := h'
      rw [hy] at hz
      cases hz
      rw [ih hd he]

theorem Segment.depths {prev next : α → Option α} {p q : Option α} {xs : List α} {d : Nat}
    (h : Segment prev next p xs q) (hd : ∀ x, prev x = p → Depth prev d x) :
    xs.Nodup ∧ ∀ x ∈ xs, ∃ e, d ≤ e ∧ Depth prev e x := by
  induction xs generalizing p d with
  | nil => exact ⟨List.nodup_nil, nofun⟩
  | cons x xs ih =>
    obtain ⟨hp, -, hrest⟩ := h
    have hx : Depth prev d x := hd x hp
    obtain ⟨hnodup, hdepth⟩ := ih (d := d + 1) hrest fun y hy => ⟨x, hy, hx⟩
    constructor
    · refine List.nodup_cons.mpr ⟨fun hin => ?_, hnodup⟩
      obtain ⟨e, he, hxe⟩ := hdepth x hin
      have := hx.unique hxe
      omega
    · intro y hy
      rcases List.mem_cons.mp hy with rfl | hy
      · exact ⟨d, Nat.le_refl d, hx⟩
      · obtain ⟨e, he, hye⟩ := hdepth y hy
        exact ⟨e, by omega, hye⟩

theorem Segment.nodup {prev next : α → Option α} {q : Option α} {xs : List α}
    (h : Segment prev next none xs q) : xs.Nodup :=
  (Segment.depths h (d := 0) fun _ hx => hx).1

theorem Segment.depth {prev next : α → Option α} {q : Option α} {xs : List α}
    (h : Segment prev next none xs q) {x : α} (hx : x ∈ xs) : ∃ d, Depth prev d x := by
  obtain ⟨d, -, hd⟩ := (Segment.depths h (d := 0) fun _ hx => hx).2 x hx
  exact ⟨d, hd⟩

theorem Segment.eq_of_head {prev next : α → Option α} {p p' : Option α} {xs ys : List α}
    (h : Segment prev next p xs none) (h' : Segment prev next p' ys none)
    (hhead : xs.head? = ys.head?) : xs = ys := by
  induction xs generalizing p p' ys with
  | nil =>
    exact (List.head?_eq_none_iff.mp hhead.symm).symm
  | cons x xs ih =>
    cases ys with
    | nil => cases hhead
    | cons y ys =>
      cases hhead
      obtain ⟨-, hn, hrest⟩ := h
      obtain ⟨-, hn', hrest'⟩ := h'
      simp only [Option.or_none] at hn hn'
      rw [ih hrest hrest' (hn.symm.trans hn')]

end Depth

/-- Ends and length of a list. -/
structure Ends where
  /-- First node. -/
  head : Option Nat
  /-- Last node. -/
  tail : Option Nat
  /-- Number of nodes. -/
  numNodes : Nat

variable {κ : Type*} {listed : κ → Prop} {key : Nat → κ} {prev next : Nat → Option Nat}
  {ends : κ → Ends} {n : Nat}

/-- What the pass checks before it adds a node to a list. -/
structure Admits (prev next : Nat → Option Nat) (e : Ends) (x : Nat) : Prop where
  /-- The predecessor points back. -/
  prevOk : ∀ p, prev x = some p → next p = some x
  /-- The successor points back. -/
  nextOk : ∀ q, next x = some q → prev q = some x
  /-- A first node is the only one. -/
  headOk : prev x = none → e.head = none
  /-- A last node is the only one. -/
  tailOk : next x = none → e.tail = none

/-- The list with one more node. -/
def Ends.add (prev next : Nat → Option Nat) (e : Ends) (x : Nat) : Ends where
  head := if prev x = none then some x else e.head
  tail := if next x = none then some x else e.tail
  numNodes := e.numNodes + 1

variable (listed key prev next) in
/-- The pass over the first nodes has found their lists. -/
structure Scanned [DecidableEq κ] (n : Nat) (ends : κ → Ends) : Prop where
  /-- Predecessors point back. -/
  prevOk : ∀ x < n, ∀ p, prev x = some p → next p = some x
  /-- Successors point back. -/
  nextOk : ∀ x < n, ∀ q, next x = some q → prev q = some x
  /-- The head of a list is its node without predecessor. -/
  head : ∀ k, listed k → ∀ x, (ends k).head = some x ↔ x < n ∧ key x = k ∧ prev x = none
  /-- The tail of a list is its node without successor. -/
  tail : ∀ k, listed k → ∀ x, (ends k).tail = some x ↔ x < n ∧ key x = k ∧ next x = none
  /-- The length of a list is the number of its nodes. -/
  numNodes : ∀ k, listed k → (ends k).numNodes = countBelow (fun x => decide (key x = k)) n

variable [DecidableEq κ]

theorem scanned_zero (h : ∀ k, listed k → ends k = ⟨none, none, 0⟩) :
    Scanned listed key prev next 0 ends := by
  refine ⟨nofun, nofun, fun k hk x => ?_, fun k hk x => ?_, fun k hk => ?_⟩
  · simp [h k hk]
  · simp [h k hk]
  · rw [h k hk]
    rfl

omit [DecidableEq κ] in
theorem only_step {p : Nat → Prop} [DecidablePred p] {found : Option Nat}
    (h : ∀ x, found = some x ↔ x < n ∧ p x) (hone : p n → found = none) (x : Nat) :
    (if p n then some n else found) = some x ↔ x < n + 1 ∧ p x := by
  by_cases hn : p n
  · rw [if_pos hn]
    constructor
    · intro hx
      cases hx
      exact ⟨Nat.lt_succ_self n, hn⟩
    · rintro ⟨hx, hpx⟩
      by_cases hxn : x = n
      · rw [hxn]
      · have hfound := (h x).mpr ⟨by omega, hpx⟩
        rw [hone hn] at hfound
        cases hfound
  · rw [if_neg hn, h x]
    constructor
    · exact fun hx => ⟨Nat.lt_succ_of_lt hx.1, hx.2⟩
    · rintro ⟨hx, hpx⟩
      have hxn : x ≠ n := fun heq => hn (heq ▸ hpx)
      exact ⟨by omega, hpx⟩

theorem Scanned.step {ends' : κ → Ends} (h : Scanned listed key prev next n ends)
    ( hadmit : Admits prev next (ends (key n)) n)
    (hends : ∀ k, listed k → ends' k = if k = key n then (ends k).add prev next n else ends k) :
    Scanned listed key prev next (n + 1) ends' := by
  have hends' : ∀ k, listed k →
      (ends' k).head = (if key n = k ∧ prev n = none then some n else (ends k).head) ∧
      (ends' k).tail = (if key n = k ∧ next n = none then some n else (ends k).tail) ∧
      (ends' k).numNodes = (ends k).numNodes + (decide (key n = k)).toNat := by
    intro k hk
    rw [hends k hk]
    by_cases hkey : k = key n
    · subst hkey
      simp [Ends.add]
    · simp [hkey, Ne.symm hkey]
  refine ⟨fun x hx => ?_, fun x hx => ?_, fun k hk x => ?_, fun k hk x => ?_, fun k hk => ?_⟩
  · rcases Nat.lt_succ_iff_lt_or_eq.mp hx with hx | rfl
    · exact h.prevOk x hx
    · exact hadmit.prevOk
  · rcases Nat.lt_succ_iff_lt_or_eq.mp hx with hx | rfl
    · exact h.nextOk x hx
    · exact hadmit.nextOk
  · rw [(hends' k hk).1]
    refine only_step (h.head k hk) ?_ x
    rintro ⟨rfl, hp⟩
    exact hadmit.headOk hp
  · rw [(hends' k hk).2.1]
    refine only_step (h.tail k hk) ?_ x
    rintro ⟨rfl, hn⟩
    exact hadmit.tailOk hn
  · rw [(hends' k hk).2.2, countBelow_succ, h.numNodes k hk]

/-- Nodes of a list as its links give them. -/
def nodesOn (next : Nat → Option Nat) (e : Ends) : List Nat := walk next e.numNodes e.head

variable (key prev next) in
/-- Following the successors from the head visits as many different nodes of the
list as it has, ends at its tail, and the predecessors invert the successors. -/
structure WellFormed (n : Nat) (k : κ) (e : Ends) : Prop where
  /-- Nodes are different. -/
  nodup : (nodesOn next e).Nodup
  /-- They are as many as counted. -/
  length : (nodesOn next e).length = e.numNodes
  /-- They belong to the list. -/
  mem : ∀ x ∈ nodesOn next e, x < n ∧ key x = k
  /-- The last one is the tail. -/
  tail : e.tail = (nodesOn next e).getLast?
  /-- Predecessors and successors agree. -/
  linked : Segment prev next none (nodesOn next e) none

theorem Scanned.path (h : Scanned listed key prev next n ends)
    (hrange : ∀ x < n, ∀ y, prev x = some y → y < n)
    (hcross : ∀ x < n, ∀ y, next x = some y → key y = key x) {d x : Nat} (hx : x < n)
    (hd : Depth prev d x) : ∃ xs, Segment prev next none (xs ++ [x]) (next x) ∧
      ∀ y ∈ xs ++ [x], y < n ∧ key y = key x := by
  induction d generalizing x with
  | zero =>
    refine ⟨[], ⟨hd, by simp, trivial⟩, fun y hy => ?_⟩
    simp only [List.nil_append, List.mem_singleton] at hy
    subst hy
    exact ⟨hx, rfl⟩
  | succ d ih =>
    obtain ⟨y, hy, hdy⟩ := hd
    have hyn := hrange x hx y hy
    have hnext := h.prevOk x hx y hy
    have hkey := hcross y hyn x hnext
    obtain ⟨xs, hseg, hmem⟩ := ih hyn hdy
    refine ⟨xs ++ [y], ?_, fun z hz => ?_⟩
    · rw [hnext] at hseg
      rw [segment_append]
      refine ⟨by simpa using hseg, ?_, by simp, trivial⟩
      rw [List.getLast?_concat]
      exact hy
    · rcases List.mem_append.mp hz with hz | hz
      · exact ⟨(hmem z hz).1, (hmem z hz).2.trans hkey.symm⟩
      · rw [List.mem_singleton.mp hz]
        exact ⟨hx, rfl⟩

omit [DecidableEq κ] in
theorem length_le_of_nodup {xs : List Nat} (hd : xs.Nodup) (h : ∀ x ∈ xs, x < n) :
    xs.length ≤ n := by
  have hsub : xs.Subperm (List.range n) := List.subperm_of_subset hd fun x hx => List.mem_range.mpr (h x hx)
  have hlen := hsub.length_le
  rwa [List.length_range] at hlen

variable {k : κ}

section

variable (h : Scanned listed key prev next n ends)
include h

theorem Scanned.toTail (hnext : ∀ x < n, ∀ y, next x = some y → y < n)
    (hcross : ∀ x < n, ∀ y, next x = some y → key y = key x) (m : Nat) {xs : List Nat}
    {x : Nat} (hseg : Segment prev next none (xs ++ [x]) (next x))
    (hmem : ∀ y ∈ xs ++ [x], y < n ∧ key y = k) (hm : n ≤ xs.length + m) :
    ∃ ys, x ∈ ys ∧ Segment prev next none ys none ∧ ∀ y ∈ ys, y < n ∧ key y = k := by
  induction m generalizing xs x with
  | zero =>
    have hlen := length_le_of_nodup (Segment.nodup hseg) fun y hy => (hmem y hy).1
    rw [List.length_append, List.length_singleton] at hlen
    omega
  | succ m ih =>
    have hx := hmem x (by simp)
    cases hn : next x with
    | none => exact ⟨xs ++ [x], by simp, hn ▸ hseg, hmem⟩
    | some y =>
      have hyn := hnext x hx.1 y hn
      have hmem' : ∀ z ∈ (xs ++ [x]) ++ [y], z < n ∧ key z = k := by
        intro z hz
        rcases List.mem_append.mp hz with hz | hz
        · exact hmem z hz
        · rw [List.mem_singleton.mp hz]
          exact ⟨hyn, (hcross x hx.1 y hn).trans hx.2⟩
      have hseg' : Segment prev next none ((xs ++ [x]) ++ [y]) (next y) := by
        rw [segment_append]
        refine ⟨by simpa [hn] using hseg, ?_, by simp, trivial⟩
        rw [List.getLast?_concat]
        exact h.nextOk x hx.1 y hn
      have hlen : n ≤ (xs ++ [x]).length + m := by
        rw [List.length_append, List.length_singleton]
        omega
      obtain ⟨ys, hy, hys, hysmem⟩ := ih hseg' hmem' hlen
      refine ⟨ys, ?_, hys, hysmem⟩
      exact (hys.of_prev hy (h.nextOk x hx.1 y hn)).1

theorem Scanned.ends_of_lines
    (hk : listed k) {xs : List Nat} (hseg : Segment prev next none xs none)
    (hmem : ∀ x, x ∈ xs ↔ x < n ∧ key x = k) :
    (ends k).head = xs.head? ∧ (ends k).tail = xs.getLast? ∧ (ends k).numNodes = xs.length := by
  refine ⟨Option.ext fun x => ?_, Option.ext fun x => ?_, ?_⟩
  · rw [h.head k hk x]
    constructor
    · rintro ⟨hx, hkey, hp⟩
      exact hseg.head_of_prev ((hmem x).mpr ⟨hx, hkey⟩) hp
    · intro hx
      have hin := (hmem x).mp (List.mem_of_mem_head? hx)
      refine ⟨hin.1, hin.2, ?_⟩
      obtain ⟨ys, rfl⟩ := List.head?_eq_some_iff.mp hx
      exact hseg.1
  · rw [h.tail k hk x]
    constructor
    · rintro ⟨hx, hkey, hn⟩
      exact hseg.getLast_of_next ((hmem x).mpr ⟨hx, hkey⟩) hn
    · intro hx
      have hin := (hmem x).mp (List.mem_of_mem_getLast? hx)
      refine ⟨hin.1, hin.2, ?_⟩
      obtain ⟨ys, rfl⟩ := List.getLast?_eq_some_iff.mp hx
      exact hseg.links.2
  · rw [h.numNodes k hk]
    refine (length_eq_countBelow (Segment.nodup hseg) fun x => ?_).symm
    rw [hmem x, decide_eq_true_eq]

theorem Scanned.wellFormed_of_lines
    (hk : listed k) {xs : List Nat} (hseg : Segment prev next none xs none)
    (hmem : ∀ x, x ∈ xs ↔ x < n ∧ key x = k) : WellFormed key prev next n k (ends k) := by
  obtain ⟨hhead, htail, hlen⟩ := h.ends_of_lines hk hseg hmem
  have hnodes : nodesOn next (ends k) = xs := by
    rw [nodesOn, hlen, hhead]
    exact hseg.walk_eq
  refine ⟨?_, ?_, ?_, ?_, ?_⟩
  · rw [hnodes]
    exact Segment.nodup hseg
  · rw [hnodes, hlen]
  · rw [hnodes]
    exact fun x hx => (hmem x).mp hx
  · rw [hnodes]
    exact htail
  · rw [hnodes]
    exact hseg

theorem Scanned.mem_nodesOn (hk : listed k)
    (hwf : WellFormed key prev next n k (ends k)) {x : Nat} (hx : x < n) (hkey : key x = k) :
    x ∈ nodesOn next (ends k) := by
  have hsub : (nodesOn next (ends k)).Subperm
      ((List.range n).filter fun x => decide (key x = k)) := by
    refine List.subperm_of_subset hwf.nodup fun y hy => ?_
    simpa using hwf.mem y hy
  have hlen : ((List.range n).filter fun x => decide (key x = k)).length ≤
      (nodesOn next (ends k)).length := by
    rw [hwf.length, h.numNodes k hk, countBelow, List.countP_eq_length_filter]
  rw [(hsub.perm_of_length_le hlen).mem_iff]
  simp [hx, hkey]

theorem Scanned.wellFormed_iff
    (hkey : ∀ x < n, listed (key x)) (hprev : ∀ x < n, ∀ y, prev x = some y → y < n)
    (hnext : ∀ x < n, ∀ y, next x = some y → y < n) :
    (∀ k, listed k → WellFormed key prev next n k (ends k)) ↔
      (∀ x < n, ∀ y, next x = some y → key y = key x) ∧ ∀ x < n, ∃ d, Depth prev d x := by
  constructor
  · intro hwf
    refine ⟨fun x hx y hy => ?_, fun x hx => ?_⟩
    · have hlist := hwf (key x) (hkey x hx)
      have hin := h.mem_nodesOn (hkey x hx) hlist hx rfl
      exact (hlist.mem y (hlist.linked.of_next hin hy).1).2
    · have hlist := hwf (key x) (hkey x hx)
      exact Segment.depth hlist.linked (h.mem_nodesOn (hkey x hx) hlist hx rfl)
  · rintro ⟨hcross, hdepth⟩ k hk
    -- any node of the list lies on a complete one, and all of these are the same
    have hfull : ∀ x < n, key x = k → ∃ ys, x ∈ ys ∧ Segment prev next none ys none ∧
        ∀ y ∈ ys, y < n ∧ key y = k := by
      intro x hx hkx
      obtain ⟨d, hd⟩ := hdepth x hx
      obtain ⟨xs, hseg, hmem⟩ := h.path hprev hcross hx hd
      rw [hkx] at hmem
      exact h.toTail hnext hcross n hseg hmem (Nat.le_add_left n _)
    have hhead : ∀ {ys : List Nat} {x : Nat}, x ∈ ys → Segment prev next none ys none →
        (∀ y ∈ ys, y < n ∧ key y = k) → ys.head? = (ends k).head := by
      intro ys x hx hseg hmem
      cases ys with
      | nil => cases hx
      | cons y ys =>
        have hy := hmem y List.mem_cons_self
        exact ((h.head k hk y).mpr ⟨hy.1, hy.2, hseg.1⟩).symm
    by_cases hsome : ∃ x < n, key x = k
    · obtain ⟨x, hx, hkx⟩ := hsome
      obtain ⟨xs, hin, hseg, hmem⟩ := hfull x hx hkx
      refine h.wellFormed_of_lines hk hseg fun y => ⟨hmem y, fun ⟨hy, hky⟩ => ?_⟩
      obtain ⟨ys, hyin, hyseg, hymem⟩ := hfull y hy hky
      have heq : xs = ys := Segment.eq_of_head hseg hyseg
        ((hhead hin hseg hmem).trans (hhead hyin hyseg hymem).symm)
      rw [heq]
      exact hyin
    · push Not at hsome
      have hnil : Segment prev next none [] none := trivial
      refine h.wellFormed_of_lines hk hnil fun y => ⟨nofun, fun ⟨hy, hky⟩ => ?_⟩
      exact absurd hky (hsome y hy)

end

end OcfCache.ListRestore
