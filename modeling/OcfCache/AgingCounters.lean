import Mathlib.Data.List.Basic

/-!
# Counters of which the oldest give way

Accesses to keys are counted in a bounded number of counters. The first access
to a key makes a counter for it, and a counter goes after as many others have
been made as there are counters. A key can be purged: its counter stays and
starts again at zero. As long as the counter of a key lives, it is the number
of accesses since the key was first seen or last purged.
-/

namespace OcfCache.AgingCounters

/-- A counter. -/
structure Entry where
  /-- Accesses. -/
  count : Nat
  /-- Counters made since. -/
  age : Nat

/-- What happens to a key. -/
inductive Event (ι : Type*)
  /-- The key is accessed. -/
  | access (x : ι)
  /-- The key is purged. -/
  | purge (x : ι)
  deriving DecidableEq

/-- Key of an event. -/
def Event.key {ι : Type*} : Event ι → ι
  | .access x => x
  | .purge x => x

/-- The living counters. -/
abbrev Counters (ι : Type*) := ι → Option Entry

variable {ι : Type*} [DecidableEq ι] (cap : Nat)

/-- No counter is living. -/
def empty : Counters ι := fun _ => none

/-- A counter when another one is made. -/
def grow (e : Entry) : Option Entry := if e.age + 1 < cap then some ⟨e.count, e.age + 1⟩ else none

/-- An access to a key. -/
def touch (A : Counters ι) (x : ι) : Counters ι := fun y =>
  if A x = none then if y = x then some ⟨1, 0⟩ else (A y).bind (grow cap)
  else if y = x then (A x).map fun e => ⟨e.count + 1, e.age⟩ else A y

/-- A purge of a key. -/
def clear (A : Counters ι) (x : ι) : Counters ι := fun y =>
  if y = x then (A x).map fun e => ⟨0, e.age⟩ else A y

/-- The counters after an event. -/
def apply (A : Counters ι) : Event ι → Counters ι
  | .access x => touch cap A x
  | .purge x => clear A x

/-- The counters after a run. -/
def run (A : Counters ι) (es : List (Event ι)) : Counters ι := es.foldl (apply cap) A

/-- Number of counters that an event makes. -/
def makes (A : Counters ι) : Event ι → Nat
  | .access x => if A x = none then 1 else 0
  | .purge _ => 0

/-- Number of counters that a run makes. -/
def misses (A : Counters ι) : List (Event ι) → Nat
  | [] => 0
  | e :: es => makes A e + misses (apply cap A e) es

/-- Number of accesses to a key after an event. -/
def countStep (x : ι) (c : Nat) (e : Event ι) : Nat :=
  if e = .access x then c + 1 else if e = .purge x then 0 else c

/-- Number of accesses to a key since the last purge, on top of a number. -/
def countFrom (x : ι) (c : Nat) (es : List (Event ι)) : Nat := es.foldl (countStep x) c

/-- Number of accesses to a key since it was first seen or last purged. -/
def hits (x : ι) (es : List (Event ι)) : Nat := countFrom x 0 es

variable {cap} {A : Counters ι} {x : ι} {es fs : List (Event ι)}

theorem run_append (A : Counters ι) (es fs : List (Event ι)) :
    run cap A (es ++ fs) = run cap (run cap A es) fs := List.foldl_append

theorem countFrom_append (x : ι) (c : Nat) (es fs : List (Event ι)) :
    countFrom x c (es ++ fs) = countFrom x (countFrom x c es) fs := List.foldl_append

theorem misses_append (A : Counters ι) (es fs : List (Event ι)) :
    misses cap A (es ++ fs) = misses cap A es + misses cap (run cap A es) fs := by
  induction es generalizing A with
  | nil => exact (Nat.zero_add _).symm
  | cons e es ih =>
    have hrest := ih (apply cap A e)
    simp only [List.cons_append, misses, run, List.foldl_cons] at hrest ⊢
    omega

theorem apply_live {e : Entry} (he : A x = some e) (ev : Event ι) (hage : e.age + makes A ev < cap) :
    apply cap A ev x = some ⟨countStep x e.count ev, e.age + makes A ev⟩ := by
  cases ev with
  | access y =>
    by_cases hxy : y = x
    · simp [apply, touch, countStep, makes, hxy, he]
    · have hyx : x ≠ y := fun h => hxy h.symm
      by_cases hnone : A y = none
      · have hlt : e.age + 1 < cap := by simpa [makes, hnone] using hage
        simp [apply, touch, countStep, makes, hxy, hyx, hnone, he, grow, hlt]
      · simp [apply, touch, countStep, makes, hxy, hyx, hnone, he]
  | purge y =>
    by_cases hxy : y = x
    · simp [apply, clear, countStep, makes, hxy, he]
    · have hyx : x ≠ y := fun h => hxy h.symm
      simp [apply, clear, countStep, makes, hxy, hyx, he]

/-- A counter lives while fewer counters than there are have been made since, and
counts the accesses since the last purge. -/
theorem run_live {e : Entry} (he : A x = some e) (hage : e.age + misses cap A es < cap) :
    run cap A es x = some ⟨countFrom x e.count es, e.age + misses cap A es⟩ := by
  induction es generalizing A e with
  | nil => exact he
  | cons ev es ih =>
    simp only [misses] at hage ⊢
    have hmade : e.age + makes A ev < cap := by omega
    have hstep := apply_live he ev hmade
    have hrest := ih hstep (by simpa only [Nat.add_assoc] using hage)
    simp only [run, countFrom, List.foldl_cons] at hrest ⊢
    rw [hrest, Nat.add_assoc]

theorem apply_none (hx : A x = none) {ev : Event ι} (hev : ev ≠ .access x) : apply cap A ev x = none := by
  cases ev with
  | access y =>
    have hyx : x ≠ y := fun h => hev (h ▸ rfl)
    by_cases hnone : A y = none
    · simp [apply, touch, hyx, hnone, hx]
    · simp [apply, touch, hyx, hnone, hx]
  | purge y =>
    by_cases hxy : x = y
    · simp [apply, clear, ← hxy, hx]
    · simp [apply, clear, hxy, hx]

theorem run_none (hx : A x = none) (hes : .access x ∉ es) : run cap A es x = none := by
  induction es generalizing A with
  | nil => exact hx
  | cons ev es ih =>
    have hev : ev ≠ .access x := fun h => hes (h ▸ List.mem_cons_self)
    exact ih (apply_none hx hev) fun h => hes (List.mem_cons_of_mem ev h)

theorem hits_of_not_mem (hes : .access x ∉ es) : hits x es = 0 := by
  unfold hits countFrom
  induction es with
  | nil => rfl
  | cons ev es ih =>
    have hev : ev ≠ .access x := fun h => hes (h ▸ List.mem_cons_self)
    have hzero : countStep x 0 ev = 0 := by simp [countStep, hev]
    rw [List.foldl_cons, hzero]
    exact ih fun h => hes (List.mem_cons_of_mem ev h)

/-- Since a key was first seen, fewer counters have been made than there are. -/
def Young (cap : Nat) (x : ι) (es : List (Event ι)) : Prop :=
  ∀ i < es.length, es[i]? = some (.access x) → .access x ∉ es.take i →
    misses cap empty es - misses cap empty (es.take (i + 1)) < cap

/-- The counter of a young key is the number of accesses since it was first seen
or last purged; a key that was not seen has none. -/
theorem run_young (h : Young cap x es) : run cap empty es x = none ∧ hits x es = 0 ∨
      ∃ age, run cap empty es x = some ⟨hits x es, age⟩ := by
  by_cases hseen : .access x ∈ es
  · -- the run after the first access
    obtain ⟨pre, mid, rfl, hfirst⟩ := List.eq_append_cons_of_mem hseen
    have hage := h pre.length (by simp) (by simp) (by simpa using hfirst)
    have hsplit : pre ++ .access x :: mid = pre ++ [.access x] ++ mid := by simp
    have htake : (pre ++ .access x :: mid).take (pre.length + 1) = pre ++ [.access x] := by
      rw [hsplit]
      exact List.take_left' (by simp)
    have hmade : run cap empty (pre ++ [.access x]) x = some ⟨1, 0⟩ := by
      have hnone : run cap empty pre x = none := run_none rfl hfirst
      rw [run_append]
      change touch cap (run cap empty pre) x x = _
      simp [touch, hnone]
    rw [htake, hsplit, misses_append, Nat.add_sub_cancel_left] at hage
    have hlive := run_live hmade (by simpa using hage)
    refine .inr ⟨misses cap (run cap empty (pre ++ [.access x])) mid, ?_⟩
    have hhits : hits x (pre ++ [.access x] ++ mid) = countFrom x 1 mid := by
      have hzero := hits_of_not_mem hfirst
      unfold hits at hzero ⊢
      rw [countFrom_append, countFrom_append, hzero]
      simp [countFrom, countStep]
    rw [hsplit, run_append, hlive, hhits]
    simp
  · exact .inl ⟨run_none rfl hseen, hits_of_not_mem hseen⟩

end OcfCache.AgingCounters
