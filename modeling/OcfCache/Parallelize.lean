import Mathlib.Algebra.Order.BigOperators.Group.Finset
import Mathlib.Data.Fintype.Option
import OcfCache.Loops
import OcfCache.Runs

/-!
# Work on parallel shards

Embedding of `utils_parallelize.c`. The caller pushes one request for every
shard, queue threads handle them in any order, and whoever brings the counter
`remaining` to zero calls the finish callback. Every atomic operation is one
step. The finish callback may free the object, so nothing may follow it.
-/

namespace OcfCache.Parallelize

open Function Runs Loops
open Option (ite_none_right_eq_some)

/-- Where the caller or the handler of a shard is. -/
inductive Pc
  /-- In the loop of `ocf_parallelize_run`, or before the call of `handle`. -/
  | work
  /-- At the decrement of `_ocf_parallelize_finish`. -/
  | dec
  /-- The decrement reached zero. -/
  | last
  /-- Returned. -/
  | done
  deriving DecidableEq, Repr

/-- `struct ocf_parallelize` with its threads: the caller is `none`. -/
structure State (n : Nat) where
  /-- `remaining`. -/
  remaining : Int
  /-- `error`. -/
  error : Int
  /-- Number of pushed requests. -/
  pushed : Nat
  /-- Places of the caller and the handlers. -/
  pc : Option (Fin n) → Pc
  /-- What `handle` returned for the shards. -/
  results : Fin n → Int
  /-- Error codes that `finish` was called with. -/
  finishes : List Int

/-- The object of `ocf_parallelize_create` as `ocf_parallelize_run` begins. -/
def start (n : Nat) : State n := ⟨n + 1, 0, 0, fun _ => .work, fun _ => 0, []⟩

/-- Steps of the caller and of the handlers. -/
inductive Act (n : Nat)
  /-- One round of the loop of `ocf_parallelize_run`. -/
  | push
  /-- The end of that loop. -/
  | pushed
  /-- `_ocf_parallelize_hndl` up to the exchange of `error`, with the result of `handle`. -/
  | handle (t : Fin n) (result : Int)
  /-- The decrement of `remaining`. -/
  | dec (t : Option (Fin n))
  /-- The call of `finish`, with the `error` that is read for it. -/
  | finish (t : Option (Fin n))

variable {n : Nat}

/-- The places after a thread moved on. -/
def State.goto (s : State n) (t : Option (Fin n)) (p : Pc) : Option (Fin n) → Pc :=
  update s.pc t p

/-- Effect of one step; `none` where no thread is at it. -/
def step (s : State n) : Act n → Option (State n)
  | .push =>
    if s.pc none = .work ∧ s.pushed < n then some { s with pushed := s.pushed + 1 } else none
  | .pushed => if s.pc none = .work ∧ n ≤ s.pushed then some { s with pc := s.goto none .dec } else none
  | .handle t result =>
    if s.pc (some t) = .work ∧ t < s.pushed then
      some { s with
        pc := s.goto (some t) .dec
        results := update s.results t result
        error := if s.error = 0 then result else s.error }
    else none
  | .dec t =>
    if s.pc t = .dec then
      some { s with
        pc := s.goto t (if s.remaining - 1 = 0 then .last else .done)
        remaining := s.remaining - 1 }
    else none
  | .finish t =>
    if s.pc t = .last then some { s with pc := s.goto t .done, finishes := s.finishes ++ [s.error] }
    else none

/-- The threads as a system. -/
def parallelize (n : Nat) : System (State n) (Act n) := ⟨fun _ _ => True, step⟩

/-- The thread has its decrement ahead. -/
def Pc.ahead (pc : Pc) : Int := if pc = .work ∨ pc = .dec then 1 else 0

/-- The thread has its call of `finish` ahead. -/
def Pc.due (pc : Pc) : Int := if pc = .last then 1 else 0

/-- Steps that a thread takes at most. -/
def Pc.left : Pc → Nat
  | .work => 3
  | .dec => 2
  | .last => 1
  | .done => 0

/-- Bound on the number of steps ahead. -/
def State.left (s : State n) : Nat := ∑ t, (s.pc t).left + (n - s.pushed)

/-- The counter and the calls of `finish`. -/
structure Counts (s : State n) : Prop where
  /-- `remaining` counts the threads in front of their decrement. -/
  remaining : s.remaining = ∑ t, (s.pc t).ahead
  /-- One call of `finish` is ahead or over as soon as nothing remains. -/
  once : (s.finishes.length : Int) + ∑ t, (s.pc t).due = if s.remaining = 0 then 1 else 0

/-- The results of the shards and the error code. -/
structure Results (s : State n) : Prop where
  /-- The caller leaves its loop behind the last shard. -/
  loop : s.pc none ≠ .work → n ≤ s.pushed
  /-- A shard that was not handled has no result. -/
  fresh : ∀ t, s.pc (some t) = .work → s.results t = 0
  /-- An error is kept. -/
  zero : s.error = 0 ↔ ∀ t, s.results t = 0
  /-- `error` is the result of a shard. -/
  source : s.error ≠ 0 → ∃ t, s.results t = s.error
  /-- `finish` got the error that is final. -/
  reported : ∀ e ∈ s.finishes, e = s.error

variable {s s' : State n} {act : Act n} {t : Option (Fin n)} {p : Pc}

theorem sum_goto (w : Pc → Int) :
    ∑ u, w (s.goto t p u) = ∑ u, w (s.pc u) + w p - w (s.pc t) := sum_update w s.pc t p

theorem Pc.ahead_nonneg (p : Pc) : 0 ≤ p.ahead := by
  cases p <;> decide

theorem Pc.due_nonneg (p : Pc) : 0 ≤ p.due := by
  cases p <;> decide

/-- With a thread in front of its decrement `finish` was not called. -/
theorem Counts.of_ahead (h : Counts s) (ht : (s.pc t).ahead = 1) :
    0 < s.remaining ∧ s.finishes = [] ∧ ∑ u, (s.pc u).due = 0 := by
  have hle := Finset.single_le_sum (fun u _ => (s.pc u).ahead_nonneg) (Finset.mem_univ t)
  have hdue : 0 ≤ ∑ u, (s.pc u).due := Finset.sum_nonneg fun u _ => (s.pc u).due_nonneg
  have hrem := h.remaining
  have honce := h.once
  rw [if_neg (by omega)] at honce
  exact ⟨by omega, List.eq_nil_of_length_eq_zero (by omega), by omega⟩

theorem counts_goto (h : Counts s) (ha : p.ahead = (s.pc t).ahead) (hd : p.due = (s.pc t).due) :
    Counts { s with pc := s.goto t p } := by
  refine ⟨?_, ?_⟩
  · rw [sum_goto, ha, ← h.remaining]
    exact (Int.add_sub_cancel ..).symm
  · rw [sum_goto, hd, Int.add_sub_cancel]
    exact h.once

/-- A step keeps the counter of open shards. -/
theorem counts_step (h : Counts s) (hs : step s act = some s') : Counts s' := by
  cases act with
  | push =>
    obtain ⟨-, ⟨⟩⟩ := ite_none_right_eq_some.mp hs
    exact ⟨h.remaining, h.once⟩
  | pushed =>
    obtain ⟨⟨hpc, -⟩, ⟨⟩⟩ := ite_none_right_eq_some.mp hs
    exact counts_goto h (by rw [hpc]; rfl) (by rw [hpc]; rfl)
  | handle u result =>
    obtain ⟨⟨hpc, -⟩, ⟨⟩⟩ := ite_none_right_eq_some.mp hs
    have hgoto := @counts_goto n s (some u) .dec h (by rw [hpc]; rfl) (by rw [hpc]; rfl)
    exact ⟨hgoto.remaining, hgoto.once⟩
  | dec u =>
    obtain ⟨hpc, ⟨⟩⟩ := ite_none_right_eq_some.mp hs
    obtain ⟨hpos, hnil, hdue⟩ := @Counts.of_ahead n s u h (by rw [hpc]; rfl)
    refine ⟨?_, ?_⟩
    · have hzero : (if s.remaining - 1 = 0 then Pc.last else Pc.done).ahead = 0 := by split <;> rfl
      have hone : (s.pc u).ahead = 1 := by rw [hpc]; rfl
      rw [sum_goto, ← h.remaining, hzero, hone]
      exact congrArg (· - 1) (Int.add_zero _).symm
    · have hnew : (if s.remaining - 1 = 0 then Pc.last else Pc.done).due =
          if s.remaining - 1 = 0 then 1 else 0 := by split <;> rfl
      have hold : (s.pc u).due = 0 := by rw [hpc]; rfl
      rw [sum_goto, hdue, hnew, hold]
      simp [hnil]
  | finish u =>
    obtain ⟨hpc, ⟨⟩⟩ := ite_none_right_eq_some.mp hs
    have hone : (s.pc u).due = 1 := by rw [hpc]; rfl
    have hzero : (s.pc u).ahead = 0 := by rw [hpc]; rfl
    refine ⟨?_, ?_⟩
    · rw [sum_goto, ← h.remaining, hzero]
      simp [Pc.ahead]
    · have honce := h.once
      have hdone : Pc.done.due = 0 := rfl
      rw [sum_goto, hone, hdone]
      refine Eq.trans ?_ honce
      simp only [List.length_append, List.length_singleton]
      omega

theorem goto_work (hp : p ≠ .work) {u : Option (Fin n)} (h : s.goto t p u = .work) :
    s.pc u = .work := by
  by_cases hu : u = t
  · rw [hu, State.goto, update_self] at h
    exact absurd h hp
  · rwa [State.goto, update_of_ne hu] at h

/-- A thread that moves on between its decrement and its return. -/
theorem results_goto (h : Results s) (hp : p ≠ .work) (hpc : s.pc t ≠ .work) :
    Results { s with pc := s.goto t p } := by
  refine ⟨fun hne => h.loop fun he => hne ?_, fun u hu => h.fresh u (goto_work hp hu), h.zero, h.source,
    h.reported⟩
  have hnone : none ≠ t := by
    rintro rfl
    exact hpc he
  exact (update_of_ne hnone ..).trans he

/-- A step keeps the error that is reported. -/
theorem results_step (h : Results s) (hc : Counts s) (hs : step s act = some s') : Results s' := by
  cases act with
  | push =>
    obtain ⟨⟨hpc, -⟩, ⟨⟩⟩ := ite_none_right_eq_some.mp hs
    exact ⟨fun hne => absurd hpc hne, h.fresh, h.zero, h.source, h.reported⟩
  | pushed =>
    obtain ⟨⟨hpc, hn⟩, ⟨⟩⟩ := ite_none_right_eq_some.mp hs
    exact ⟨fun _ => hn, fun u hu => h.fresh u (@goto_work n s none .dec (by decide) _ hu), h.zero, h.source, h.reported⟩
  | handle u result =>
    obtain ⟨⟨hpc, -⟩, ⟨⟩⟩ := ite_none_right_eq_some.mp hs
    obtain ⟨-, hnil, -⟩ := @Counts.of_ahead n s (some u) hc (by rw [hpc]; rfl)
    have hother : s.error ≠ 0 → ∃ v, v ≠ u ∧ s.results v = s.error := by
      intro hne
      obtain ⟨v, hv⟩ := h.source hne
      refine ⟨v, ?_, hv⟩
      rintro rfl
      exact hne (hv.symm.trans (h.fresh v hpc))
    refine ⟨h.loop, fun v hv => ?_, ?_, fun hne => ?_, by simp [hnil]⟩
    · have hvu : v ≠ u := by
        rintro rfl
        simp [State.goto] at hv
      simpa [hvu] using h.fresh v (goto_work (by decide) hv)
    · by_cases hzero : s.error = 0
      · have hall := h.zero.mp hzero
        refine ⟨fun hr v => ?_, fun hall' => ?_⟩
        · by_cases hvu : v = u
          · simpa [hvu, hzero] using hr
          · simpa [hvu] using hall v
        · simpa [hzero] using hall' u
      · obtain ⟨v, hvu, hv⟩ := hother hzero
        simp only [hzero, if_false, false_iff, not_forall]
        exact ⟨v, by simpa [hvu, hv] using hzero⟩
    · by_cases hzero : s.error = 0
      · exact ⟨u, by simp [hzero]⟩
      · obtain ⟨v, hvu, hv⟩ := hother hzero
        exact ⟨v, by simpa [hvu, hzero] using hv⟩
  | dec u =>
    obtain ⟨hpc, ⟨⟩⟩ := ite_none_right_eq_some.mp hs
    have hgoto := results_goto h (t := u) (p := if s.remaining - 1 = 0 then .last else .done)
      (by split <;> decide) (by simp [hpc])
    exact ⟨hgoto.loop, hgoto.fresh, h.zero, h.source, h.reported⟩
  | finish u =>
    obtain ⟨hpc, ⟨⟩⟩ := ite_none_right_eq_some.mp hs
    have hgoto := results_goto h (t := u) (p := .done) (by decide) (by simp [hpc])
    refine ⟨hgoto.loop, hgoto.fresh, h.zero, h.source, fun e he => ?_⟩
    rcases List.mem_append.mp he with hold | hnew
    · exact h.reported e hold
    · exact List.mem_singleton.mp hnew

theorem left_goto (h : p.left < (s.pc t).left) : ∑ u, (s.goto t p u).left < ∑ u, (s.pc u).left := by
  have hsum : ((∑ u, (s.goto t p u).left : Nat) : Int) =
      (∑ u, (s.pc u).left : Nat) + (p.left : Int) - ((s.pc t).left : Int) := by
    push_cast
    exact sum_goto fun p => (p.left : Int)
  omega

/-- Every step leaves less to do. -/
theorem left_step (hs : step s act = some s') : s'.left < s.left := by
  cases act with
  | push =>
    obtain ⟨⟨-, hlt⟩, ⟨⟩⟩ := ite_none_right_eq_some.mp hs
    simp only [State.left]
    omega
  | pushed =>
    obtain ⟨⟨hpc, -⟩, ⟨⟩⟩ := ite_none_right_eq_some.mp hs
    exact Nat.add_lt_add_right (left_goto (by rw [hpc]; decide)) _
  | handle u result =>
    obtain ⟨⟨hpc, -⟩, ⟨⟩⟩ := ite_none_right_eq_some.mp hs
    exact Nat.add_lt_add_right (left_goto (by rw [hpc]; decide)) _
  | dec u =>
    obtain ⟨hpc, ⟨⟩⟩ := ite_none_right_eq_some.mp hs
    exact Nat.add_lt_add_right (left_goto (by rw [hpc]; split <;> decide)) _
  | finish u =>
    obtain ⟨hpc, ⟨⟩⟩ := ite_none_right_eq_some.mp hs
    exact Nat.add_lt_add_right (left_goto (by rw [hpc]; decide)) _

theorem reachable_inv (h : Reachable (parallelize n) (start n) s) : Counts s ∧ Results s := by
  induction h with
  | refl =>
    have hne : (n : Int) + 1 ≠ 0 := by omega
    refine ⟨⟨?_, ?_⟩, ⟨fun hpc => absurd rfl hpc, fun _ _ => rfl, ?_, fun he => absurd rfl he, ?_⟩⟩
    · simp [start, Pc.ahead]
    · simp [start, Pc.due, hne]
    · simp [start]
    · simp [start]
  | snoc _ _ hs _ ih => exact ⟨counts_step ih.1 hs, results_step ih.2 ih.1 hs⟩

/-- No step is possible exactly when every thread has returned. -/
theorem stuck_iff (h : Results s) : (∀ act, step s act = none) ↔ ∀ t, s.pc t = .done := by
  constructor
  · intro hstuck t
    have hcaller : s.pc none ≠ .work := by
      intro hpc
      rcases Nat.lt_or_ge s.pushed n with hlt | hge
      · simpa [step, hpc, hlt] using hstuck .push
      · simpa [step, hpc, hge] using hstuck .pushed
    have hdec : s.pc t ≠ .dec := fun hpc => by simpa [step, hpc] using hstuck (.dec t)
    have hlast : s.pc t ≠ .last := fun hpc => by simpa [step, hpc] using hstuck (.finish t)
    have hwork : s.pc t ≠ .work := by
      cases t with
      | none => exact hcaller
      | some u =>
        have hlt : u < s.pushed := Nat.lt_of_lt_of_le u.isLt (h.loop hcaller)
        exact fun hpc => by simpa [step, hpc, hlt] using hstuck (.handle u 0)
    cases hpc : s.pc t <;> simp_all
  · intro hdone act
    cases act <;> simp [step, hdone]

/-- In every order of pushes, handlers and decrements `finish` is called at most
once, and it was called exactly in the states in which no thread has a step left,
so that none follows the call. It gets zero if every `handle` returned zero, and
else the code of a shard that failed. Every step brings the run closer to its end. -/
theorem finish_called_once (h : Reachable (parallelize n) (start n) s) :
    s.finishes.length ≤ 1 ∧ (s.finishes ≠ [] ↔ ∀ act, step s act = none) ∧
      (∀ e ∈ s.finishes, (e = 0 ↔ ∀ t, s.results t = 0) ∧ (e ≠ 0 → ∃ t, s.results t = e)) ∧
      ∀ act s', step s act = some s' → s'.left < s.left := by
  obtain ⟨hc, hr⟩ := reachable_inv h
  have hdue : 0 ≤ ∑ u, (s.pc u).due := Finset.sum_nonneg fun u _ => (s.pc u).due_nonneg
  have honce := hc.once
  have hlen : s.finishes ≠ [] ↔ 0 < s.finishes.length := List.length_pos_iff.symm
  rw [stuck_iff hr, hlen]
  refine ⟨?_, ⟨fun hpos t => ?_, fun hdone => ?_⟩, fun e he => ?_, fun _ _ hs => left_step hs⟩
  · split at honce <;> omega
  · have hahead : (s.pc t).ahead ≠ 1 := fun ht => hlen.mpr hpos (hc.of_ahead ht).2.1
    have hle := Finset.single_le_sum (fun u _ => (s.pc u).due_nonneg) (Finset.mem_univ t)
    have hnone : (s.pc t).due = 0 := by
      have hnonneg := (s.pc t).due_nonneg
      split at honce <;> omega
    cases hpc : s.pc t <;> simp_all [Pc.ahead, Pc.due]
  · have hrem := hc.remaining
    simp only [hdone] at hrem honce
    rw [hrem] at honce
    simp [Pc.ahead, Pc.due] at honce
    omega
  · rw [hr.reported e he]
    exact ⟨hr.zero, hr.source⟩

/-- The first of two shards fails while the second is still queued. -/
def twoShards : List (Act 2) :=
  [.push, .push, .handle 0 5, .pushed, .dec none, .dec (some 0), .handle 1 0, .dec (some 1), .finish (some 1)]

/-- The thread that handles the second shard comes last, calls `finish` with the
code of the first one, and no step is left behind the call. -/
theorem finish_called_once_twoShards : ∃ s, twoShards.foldlM step (start 2) = some s ∧
    s.finishes = [5] ∧ s.results 0 = 5 ∧ ∀ act, step s act = none := by
  have hreach : ∀ s, twoShards.foldlM (checkedStep (parallelize 2) fun _ _ => true) (start 2) = some s →
      Reachable (parallelize 2) (start 2) s := fun _ h => .of_checked (fun _ _ _ => trivial) h
  exact ⟨_, rfl, rfl, rfl, (finish_called_once (hreach _ rfl)).2.1.mp (by decide)⟩

end OcfCache.Parallelize
