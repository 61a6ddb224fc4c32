import OcfCache.LruList
import OcfCache.Runs

/-!
# Runs of the LRU list operations

The abstract list is the sequence of its lines, most recently used first. Every
sequence of insertions, removals and moves to the head keeps the linked list,
the hot prefix and the boundary pointer in step with it, and the balancing that
ends each operation never has more than one line to move.
-/

namespace OcfCache.LruList

open LinkedLists Runs

/-- One list, the nodes of all lines, and the lines on the list. -/
structure ListState where
  /-- Nodes of all lines. -/
  nodes : Nodes
  /-- The list. -/
  list : LruHead
  /-- Ghost lines of the list, head first. -/
  lines : List Nat

/-- A list that tracks hot lines after `_lru_init`, over arbitrary nodes. -/
def emptyList (nodes : Nodes) : ListState := ⟨nodes, lruInit true, []⟩

/-- Operations on the list. -/
inductive Act
  /-- `add_lru_head`. -/
  | add (x : Nat)
  /-- `ocf_lru_remove_locked`. -/
  | remove (x : Nat)
  /-- `ocf_lru_set_hot`. -/
  | setHot (x : Nat)
  deriving DecidableEq, Repr

/-- Lines enter once, and only members are removed or moved. -/
def guard (s : ListState) : Act → Prop
  | .add x => x ∉ s.lines
  | .remove x => x ∈ s.lines
  | .setHot x => x ∈ s.lines

/-- What an operation does before it balances the list. -/
def unbalanced (s : ListState) : Act → Option (Nodes × LruHead)
  | .add x => addLruHeadNobalance s.nodes s.list x
  | .remove x => removeLruListNobalance s.nodes s.list x
  | .setHot x =>
    (removeLruListNobalance s.nodes s.list x).bind fun r => addLruHeadNobalance r.1 r.2 x

/-- The operation as the source calls it. -/
def operation (s : ListState) : Act → Option (Nodes × LruHead)
  | .add x => addLruHead s.nodes s.list x
  | .remove x => ocfLruRemoveLocked s.nodes s.list x
  | .setHot x => ocfLruSetHot s.nodes s.list x

/-- Order of the lines after an operation. -/
def reorder (lines : List Nat) : Act → List Nat
  | .add x => x :: lines
  | .remove x => lines.erase x
  | .setHot x => x :: lines.erase x

/-- One operation; `none` is a fired `ENV_BUG_ON`. -/
def step (s : ListState) (a : Act) : Option ListState :=
  (operation s a).map fun r => ⟨r.1, r.2, reorder s.lines a⟩

/-- A list under any sequence of operations. -/
def system : System ListState Act := ⟨guard, step⟩

/-- The variable `change` of `balance_lru_list`. -/
def balanceChange (l : LruHead) : Int := ((l.numNodes / ocfLruHotRatio : Nat) : Int) - l.numHot

/-- The list and its nodes represent the sequence of lines. -/
structure Represents (nodes : Nodes) (l : LruHead) (lines : List Nat) : Prop where
  /-- No line is there twice. -/
  nodup : lines.Nodup
  /-- Following `next` from the head visits the lines in order. -/
  order : walk (fun x => (nodes x).next) l.numNodes l.head = lines
  /-- `next` and `prev` are inverse. -/
  inverse : ∀ x ∈ lines, ∀ y ∈ lines, (nodes x).next = some y ↔ (nodes y).prev = some x
  /-- Neighbours are lines of the list. -/
  closed : ∀ x ∈ lines, ∀ y, (nodes x).next = some y ∨ (nodes x).prev = some y → y ∈ lines
  /-- The head is the first line, the one without predecessor. -/
  head : l.head = lines.head? ∧ ∀ x ∈ lines, (nodes x).prev = none ↔ l.head = some x
  /-- The tail is the last line, the one without successor. -/
  tail : l.tail = lines.getLast? ∧ ∀ x ∈ lines, (nodes x).next = none ↔ l.tail = some x
  /-- The counter of lines. -/
  numNodes : l.numNodes = lines.length
  /-- The hot lines are the first `num_hot` ones. -/
  hot : ∀ x ∈ lines, (nodes x).hot = true ↔ x ∈ lines.take l.numHot
  /-- As many as balancing wants. -/
  numHot : l.numHot = l.numNodes / ocfLruHotRatio
  /-- `last_hot` is the last of them. -/
  lastHot : l.lastHot = (lines.take l.numHot).getLast?

section Spec

variable {s s' : ListState} {a : Act}

theorem operation_eq (s : ListState) (a : Act) :
    operation s a = (unbalanced s a).bind fun r => balanceLruList r.1 r.2 := by
  cases a with
  | add x => rfl
  | remove x => rfl
  | setHot x =>
    change ((removeLruListNobalance s.nodes s.list x).bind fun r =>
      (addLruHeadNobalance r.1 r.2 x).bind fun r => balanceLruList r.1 r.2) = _
    exact (Option.bind_assoc _ _ _).symm

theorem operation_spec (h : Lru s.nodes s.list s.lines) (hg : guard s a) :
    ∃ nodes l, operation s a = some (nodes, l) ∧ Lru nodes l (reorder s.lines a) ∧
      l.trackHot = s.list.trackHot := by
  cases a with
  | add x =>
    obtain ⟨nodes, l, heq, hlru, -, htrack⟩ := addLruHead_spec h hg
    exact ⟨nodes, l, heq, hlru, htrack⟩
  | remove x =>
    obtain ⟨nodes, l, heq, hlru, -, htrack⟩ := ocfLruRemoveLocked_spec h hg
    exact ⟨nodes, l, heq, hlru, htrack⟩
  | setHot x =>
    obtain ⟨nodes, l, heq, hlru, -, htrack⟩ := ocfLruSetHot_spec h hg
    exact ⟨nodes, l, heq, hlru, htrack⟩

theorem balanceLruList_trackHot {nodes nodes' : Nodes} {l l' : LruHead}
    (h : balanceLruList nodes l = some (nodes', l')) : l'.trackHot = l.trackHot := by
  unfold balanceLruList at h
  cases ht : l.trackHot with
  | false =>
    simp only [ht, Bool.not_false, if_true, Option.some.injEq, Prod.mk.injEq] at h
    rw [← h.2, ht]
  | true =>
    simp only [ht, Bool.not_true, Bool.false_eq_true, if_false, Option.map_eq_some_iff,
      Prod.mk.injEq] at h
    obtain ⟨r, -, -, hl⟩ := h
    rw [← hl]

theorem balanceUpdateLastHot_change {nodes : Nodes} {l : LruHead} {change : Int}
    {r : Option Nat × Option Nat} (h : balanceUpdateLastHot nodes l change = some r) :
    change = -1 ∨ change = 0 ∨ change = 1 := by
  unfold balanceUpdateLastHot at h
  by_cases hpos : 0 < change
  · rw [if_pos hpos] at h
    by_cases hone : change = 1
    · exact .inr (.inr hone)
    · rw [if_pos hone] at h
      exact nomatch h
  · rw [if_neg hpos] at h
    by_cases hneg : change < 0
    · rw [if_pos hneg] at h
      by_cases hone : change = -1
      · exact .inl hone
      · rw [if_pos hone] at h
        exact nomatch h
    · omega

theorem balanceLruList_change {nodes : Nodes} {l : LruHead} {r : Nodes × LruHead}
    (h : balanceLruList nodes l = some r) (ht : l.trackHot = true) :
    balanceChange l = -1 ∨ balanceChange l = 0 ∨ balanceChange l = 1 := by
  unfold balanceLruList at h
  simp only [ht, Bool.not_true, Bool.false_eq_true, if_false, Option.map_eq_some_iff] at h
  obtain ⟨p, hp, -⟩ := h
  exact balanceUpdateLastHot_change hp

end Spec

section Representation

variable {nodes : Nodes} {l : LruHead} {lines : List Nat}

theorem Lru.represents (h : Lru nodes l lines) (ht : l.trackHot = true) :
    Represents nodes l lines := by
  have horder := h.walk_eq
  have hnodup := h.nodup
  have hnum := h.numNodes
  have hends := fun x hx => h.end_of_none (x := x) hx
  obtain ⟨hot, cold, hlines, hlru, hhalf⟩ := h
  have hlinked := hlru.linked
  have hhead := hlru.head
  have htail := hlru.tail
  have hlast := hlru.lastHot
  have htake : lines.take l.numHot = hot := by
    rw [hlru.numHot, ← hlines, List.take_left]
  have hdisjoint : ∀ x ∈ cold, x ∉ hot := by
    intro x hc hh
    exact (List.nodup_append.mp hlru.nodup).2.2 x hh x hc rfl
  rw [hlines] at hlinked hhead htail
  refine ⟨hnodup, horder, ?_, ?_, ⟨hhead, ?_⟩, ⟨htail, ?_⟩, hnum, ?_, ?_, ?_⟩
  · intro x hx y hy
    constructor
    · intro hxy
      exact (hlinked.of_next hx hxy).2
    · intro hyx
      exact (hlinked.of_prev hy hyx).2
  · intro x hx y hxy
    rcases hxy with hnext | hprev
    · exact (hlinked.of_next hx hnext).1
    · exact (hlinked.of_prev hx hprev).1
  · intro x hx
    constructor
    · exact (hends x hx).2
    · intro hfirst
      rw [hhead] at hfirst
      obtain ⟨zs, hzs⟩ := List.head?_eq_some_iff.mp hfirst
      rw [hzs] at hlinked
      exact hlinked.1
  · intro x hx
    constructor
    · exact (hends x hx).1
    · intro hlast
      rw [htail] at hlast
      obtain ⟨zs, hzs⟩ := List.getLast?_eq_some_iff.mp hlast
      rw [hzs] at hlinked
      exact hlinked.links.2
  · intro x hx
    rw [htake]
    constructor
    · intro hhot
      rw [← hlines] at hx
      rcases List.mem_append.mp hx with hxh | hxc
      · exact hxh
      · rw [hlru.isCold x hxc] at hhot
        exact nomatch hhot
    · exact hlru.isHot x
  · rw [hnum, ← hhalf ht, hlru.numHot]
  · rw [htake]
    exact hlast

end Representation

/-- What holds of the list in every run. -/
def Inv (s : ListState) : Prop := Lru s.nodes s.list s.lines ∧ s.list.trackHot = true

/-- An operation on the list keeps its representation. -/
theorem Inv.step {s : ListState} {a : Act} (h : Inv s) (hg : guard s a) :
    ∃ s', step s a = some s' ∧ Inv s' := by
  obtain ⟨nodes, l, heq, hlru, htrack⟩ := operation_spec h.1 hg
  refine ⟨⟨nodes, l, reorder s.lines a⟩, ?_, hlru, ?_⟩
  · rw [LruList.step, heq]
    rfl
  · rw [← h.2]
    exact htrack

theorem Inv.of_reachable {nodes : Nodes} {s : ListState}
    (h : Reachable system (emptyList nodes) s) : Inv s := by
  apply h.invariant (fun _ => ⟨lru_lruInit nodes true, rfl⟩)
  intro s a s' hinv _ hg hs _
  obtain ⟨t, ht, hnext⟩ := hinv.step hg
  have heq : t = s' := Option.some.inj (ht.symm.trans hs)
  rw [← heq]
  exact hnext

theorem Inv.unbalanced {s : ListState} {a : Act} (h : Inv s) (hg : guard s a) :
    ∃ r, unbalanced s a = some r ∧
      (balanceChange r.2 = -1 ∨ balanceChange r.2 = 0 ∨ balanceChange r.2 = 1) := by
  obtain ⟨nodes, l, heq, -, htrack⟩ := operation_spec h.1 hg
  rw [operation_eq] at heq
  obtain ⟨r, hr, hbal⟩ := Option.bind_eq_some_iff.mp heq
  have hsame := balanceLruList_trackHot hbal
  have ht : r.2.trackHot = true := by
    rw [← hsame, htrack]
    exact h.2
  exact ⟨r, hr, balanceLruList_change hbal ht⟩

/-- After any sequence of operations from the empty list the links, the counters,
the hot prefix and its boundary are those of the lines, and every further
operation succeeds with a balancing change of at most one. -/
theorem lru_list_represents (nodes : Nodes) {s : ListState}
    (h : Reachable system (emptyList nodes) s) : Represents s.nodes s.list s.lines ∧
      ∀ a, guard s a → (∃ s', step s a = some s') ∧ ∃ r, unbalanced s a = some r ∧
          (balanceChange r.2 = -1 ∨ balanceChange r.2 = 0 ∨ balanceChange r.2 = 1) := by
  have hinv := Inv.of_reachable h
  refine ⟨hinv.1.represents hinv.2, fun a hg => ⟨?_, hinv.unbalanced hg⟩⟩
  obtain ⟨s', hs, -⟩ := hinv.step hg
  exact ⟨s', hs⟩

/-- Three lines, of which the first is hot. -/
theorem lru_list_represents_three : ∃ s : ListState, s.lines = [2, 3, 1] ∧ s.list.lastHot = some 2 ∧
      Represents s.nodes s.list s.lines ∧ ∀ a, guard s a → (∃ s', step s a = some s') ∧
          ∃ r, unbalanced s a = some r ∧
            (balanceChange r.2 = -1 ∨ balanceChange r.2 = 0 ∨ balanceChange r.2 = 1) := by
  have h0 : Reachable system (emptyList fun _ => ⟨none, none, false⟩)
      (emptyList fun _ => ⟨none, none, false⟩) := .refl trivial
  have h1 := h0.next (.add 1) nofun rfl
  have h2 := h1.next (.add 2) (show 2 ∉ [1] by decide) rfl
  have h3 := h2.next (.add 3) (show 3 ∉ [2, 1] by decide) rfl
  have h4 := h3.next (.setHot 2) (show 2 ∈ [3, 2, 1] by decide) rfl
  exact ⟨_, rfl, rfl, lru_list_represents _ h4⟩

end OcfCache.LruList
