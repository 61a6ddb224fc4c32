import Mathlib.Data.List.Basic

/-!
# Runs of consecutive numbers in a list

A list of numbers is cut into maximal runs of consecutive numbers. The runs give
the list back, and each segment of consecutive numbers lies in one of them. Cells
of one size, one for each number, are covered by the runs as often as by the list.
-/

namespace OcfCache.ConsecutiveRuns

/-- A run: its first number and its length. -/
structure Run where
  /-- The first number. -/
  first : Nat
  /-- How many numbers there are. -/
  length : Nat

/-- The numbers of a run. -/
def Run.numbers (r : Run) : List Nat := List.range' r.first r.length

/-- A number is put before runs. -/
def push (x : Nat) : List Run → List Run
  | [] => [⟨x, 1⟩]
  | r :: rs => if x + 1 = r.first then ⟨x, r.length + 1⟩ :: rs else ⟨x, 1⟩ :: r :: rs

/-- The maximal runs of a list. -/
def runs : List Nat → List Run
  | [] => []
  | x :: xs => push x (runs xs)

theorem push_joins {x : Nat} {r : Run} (h : x + 1 = r.first) (rs : List Run) : push x (r :: rs) = ⟨x, r.length + 1⟩ :: rs :=
  if_pos h

theorem push_starts {x : Nat} {r : Run} (h : ¬x + 1 = r.first) (rs : List Run) : push x (r :: rs) = ⟨x, 1⟩ :: r :: rs :=
  if_neg h

theorem flatMap_push (x : Nat) (rs : List Run) : (push x rs).flatMap Run.numbers = x :: rs.flatMap Run.numbers := by
  cases rs with
  | nil => rfl
  | cons r rs =>
    by_cases h : x + 1 = r.first
    · rw [push_joins h, List.flatMap_cons, List.flatMap_cons, Run.numbers, Run.numbers, List.range'_succ, h, List.cons_append]
    · rw [push_starts h, List.flatMap_cons]
      rfl

theorem flatMap_runs (xs : List Nat) : (runs xs).flatMap Run.numbers = xs := by
  induction xs with
  | nil => rfl
  | cons x xs ih => rw [runs, flatMap_push, ih]

theorem push_eq_cons (x : Nat) (rs : List Run) : ∃ n rest, push x rs = ⟨x, n + 1⟩ :: rest := by
  cases rs with
  | nil => exact ⟨0, [], rfl⟩
  | cons r rs =>
    by_cases h : x + 1 = r.first
    · exact ⟨r.length, rs, push_joins h rs⟩
    · exact ⟨0, r :: rs, push_starts h rs⟩

theorem le_of_mem {rs : List Run} {r : Run} (hr : r ∈ rs) (x : Nat) : ∃ r' ∈ push x rs, r.length ≤ r'.length := by
  cases rs with
  | nil => exact absurd hr List.not_mem_nil
  | cons s rs =>
    by_cases h : x + 1 = s.first
    · rw [push_joins h]
      cases List.mem_cons.mp hr with
      | inl heq => exact ⟨_, List.mem_cons_self, by rw [heq]; exact Nat.le_succ _⟩
      | inr hmem => exact ⟨r, List.mem_cons_of_mem _ hmem, Nat.le_refl _⟩
    · rw [push_starts h]
      exact ⟨r, List.mem_cons_of_mem _ hr, Nat.le_refl _⟩

theorem le_of_prefix {xs : List Nat} {first n : Nat} (h : List.range' first (n + 1) <+: xs) :
    ∃ k rest, runs xs = ⟨first, k⟩ :: rest ∧ n + 1 ≤ k := by
  induction n generalizing xs first with
  | zero =>
    cases xs with
    | nil => exact absurd (List.prefix_nil.mp h) nofun
    | cons x xs =>
      have hx : first = x := (List.cons_prefix_cons.mp h).1
      obtain ⟨n, rest, hpush⟩ := push_eq_cons x (runs xs)
      exact ⟨n + 1, rest, by rw [runs, hpush, hx], Nat.le_add_left 1 n⟩
  | succ n ih =>
    cases xs with
    | nil => exact absurd (List.prefix_nil.mp h) nofun
    | cons x xs =>
      rw [List.range'_succ, List.cons_prefix_cons] at h
      obtain ⟨k, rest, hruns, hk⟩ := ih h.2
      have hjoin : x + 1 = first + 1 := by rw [h.1]
      exact ⟨k + 1, rest, by rw [runs, hruns, push_joins hjoin, h.1], Nat.succ_le_succ hk⟩

theorem le_of_infix {xs : List Nat} {first n : Nat} (h : List.range' first (n + 1) <:+: xs) : ∃ r ∈ runs xs, n + 1 ≤ r.length := by
  induction xs with
  | nil => exact absurd (List.infix_nil.mp h) nofun
  | cons x xs ih =>
    cases List.infix_cons_iff.mp h with
    | inl hprefix =>
      obtain ⟨k, rest, hruns, hk⟩ := le_of_prefix hprefix
      exact ⟨⟨first, k⟩, by rw [hruns]; exact List.mem_cons_self, hk⟩
    | inr hinfix =>
      obtain ⟨r, hr, hle⟩ := ih hinfix
      obtain ⟨r', hr', hle'⟩ := le_of_mem hr x
      exact ⟨r', hr', Nat.le_trans hle hle'⟩

theorem infix_of_mem {xs : List Nat} {r : Run} (hr : r ∈ runs xs) : List.range' r.first r.length <:+: xs := by
  obtain ⟨before, after, hsplit⟩ := List.append_of_mem hr
  have hxs := flatMap_runs xs
  rw [hsplit, List.flatMap_append, List.flatMap_cons, ← List.append_assoc] at hxs
  exact ⟨_, _, hxs⟩

theorem length_push_le (x : Nat) (rs : List Run) : (push x rs).length ≤ rs.length + 1 := by
  cases rs with
  | nil => exact Nat.le_refl 1
  | cons r rs =>
    by_cases h : x + 1 = r.first
    · rw [push_joins h]
      exact Nat.le_succ _
    · rw [push_starts h]
      exact Nat.le_refl _

theorem length_runs_le (xs : List Nat) : (runs xs).length ≤ xs.length := by
  induction xs with
  | nil => exact Nat.le_refl 0
  | cons x xs ih => exact Nat.le_trans (length_push_le x (runs xs)) (Nat.succ_le_succ ih)

section Cells

variable (base size : Nat)

/-- A position lies in the cell of a number. -/
def InCell (p x : Nat) : Prop := base + x * size ≤ p ∧ p < base + (x + 1) * size

/-- A position lies in the cells of a run. -/
def InRun (p : Nat) (r : Run) : Prop := base + r.first * size ≤ p ∧ p < base + (r.first + r.length) * size

instance (p x : Nat) : Decidable (InCell base size p x) := inferInstanceAs (Decidable (_ ∧ _))

instance (p : Nat) (r : Run) : Decidable (InRun base size p r) := inferInstanceAs (Decidable (_ ∧ _))

theorem countP_numbers (p first n : Nat) :
    (List.range' first n).countP (InCell base size p) = if InRun base size p ⟨first, n⟩ then 1 else 0 := by
  induction n generalizing first with
  | zero =>
    have hout : ¬InRun base size p ⟨first, 0⟩ := fun h => Nat.not_lt.mpr h.1 h.2
    rw [if_neg hout]
    rfl
  | succ n ih =>
    have hend : (first + 1 + n) * size = (first + (n + 1)) * size := by rw [Nat.add_right_comm, Nat.add_assoc]
    have hmid : (first + 1) * size ≤ (first + (n + 1)) * size := Nat.mul_le_mul_right size (by omega)
    have hfirst : first * size ≤ (first + 1) * size := Nat.mul_le_mul_right size (Nat.le_succ first)
    rw [List.range'_succ, List.countP_cons, ih (first + 1)]
    unfold InRun InCell
    simp only [hend]
    by_cases hlow : base + first * size ≤ p
    · by_cases hcell : p < base + (first + 1) * size
      · have hnext : ¬base + (first + 1) * size ≤ p := Nat.not_le.mpr hcell
        have hin : p < base + (first + (n + 1)) * size := by omega
        simp [hlow, hcell, hnext, hin]
      · simp [hlow, hcell, Nat.not_lt.mp hcell]
    · have hnext : ¬base + (first + 1) * size ≤ p := by omega
      simp [hlow, hnext]

theorem countP_runs (p : Nat) (xs : List Nat) : (runs xs).countP (InRun base size p) = xs.countP (InCell base size p) := by
  have hsum : ∀ rs : List Run, rs.countP (InRun base size p) = (rs.flatMap Run.numbers).countP (InCell base size p) := by
    intro rs
    induction rs with
    | nil => rfl
    | cons r rs ih =>
      rw [List.flatMap_cons, List.countP_append, List.countP_cons, ih, Run.numbers, countP_numbers, Nat.add_comm]
      simp only [decide_eq_true_eq]
  rw [hsum, flatMap_runs]

end Cells

end OcfCache.ConsecutiveRuns
