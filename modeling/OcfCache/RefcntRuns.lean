import Mathlib.Algebra.Order.BigOperators.Group.Finset
import OcfCache.Refcnt

/-!
# Runs of the freezable reference counter

The counter is the number of references and of the increments that are still
to be undone, and at most one registration has its callback ahead. The
callback finds no reference, unless a decrement to zero looks for it too late:
after a reference was taken and the callback armed.
-/

namespace OcfCache.Refcnt

open Function Loops Runs

variable {ι : Type*}

/-- What a thread has added to the counter and will take back. -/
def Pc.held : Pc → Int
  | .incTest _ => 1
  | .incUndo => 1
  | .regStore _ => 1
  | .regArm => 1
  | .regDec => 1
  | _ => 0

/-- A thread at this place has a registration of its own, or a callback to call. -/
def Pc.due (pc : Pc) : Int := if pc.pending then 1 else 0

/-- What holds when a thread is at some place. -/
def PcOk (s : State ι) : Pc → Prop
  | .incTest val => 0 < val
  | .regTest n => n + 1 = s.registered
  | .regAdd n => n + 1 = s.registered
  | .regStore n => n + 1 = s.registered
  | .regArm => s.rc.cb + 1 = s.registered
  | .decTest => s.rc.callback = true → s.holders = 0
  | .decCall => s.holders = 0 ∧ s.rc.cb + 1 = s.registered
  | _ => True

section Counting

theorem forall_goto [DecidableEq ι] {s : State ι} {t : ι} {q : Pc} {P : Pc → Prop} (h : ∀ u, u ≠ t → P (s.pc u))
    (hq : P q) : ∀ u, P ((s.goto t q).pc u) := by
  intro u
  change P (update s.pc t q u)
  by_cases hu : u = t
  · rw [hu, update_self]
    exact hq
  · rw [update_of_ne hu]
    exact h u hu

theorem exists_goto [DecidableEq ι] {s : State ι} {t : ι} {q : Pc} (ht : s.pc t ≠ .decTest)
    (h : ∃ u, s.pc u = .decTest) : ∃ u, (s.goto t q).pc u = .decTest := by
  obtain ⟨u, hu⟩ := h
  have hne : u ≠ t := by
    intro heq
    rw [heq] at hu
    exact ht hu
  refine ⟨u, ?_⟩
  change update s.pc t q u = _
  rw [update_of_ne hne]
  exact hu

/-- What users of the counter rely on. -/
structure Safe (s : State ι) : Prop where
  /-- The counter is not negative. -/
  counter_nonneg : 0 ≤ s.rc.counter
  /-- A callback is called at most once. -/
  once : ∀ n, s.invoked n ≤ 1
  /-- It was called if there is no reference and nothing is in progress. -/
  called : s.holders = 0 → (∀ u, s.pc u = .idle) → ∀ n < s.registered, s.invoked n = 1
  /-- When it is called there is no reference. -/
  alone : ∀ u, s.pc u = .decCall → s.holders = 0
  /-- After that there is none as long as the counter stays frozen. -/
  quiet : s.quiet = true → s.holders = 0

theorem PcOk.other {s s' : State ι} {p : Pc} (h : PcOk s p) (hp : p.pending = false)
    (hcb : s'.rc.callback = true → s.rc.callback = true ∨ s'.holders = 0) (hh : s'.holders = s.holders) :
    PcOk s' p := by
  cases p with
  | decTest => exact fun hc => (hcb hc).elim (fun hc => hh.trans (h hc)) id
  | incTest val => exact h
  | regTest n => cases hp
  | regAdd n => cases hp
  | regStore n => cases hp
  | regArm => cases hp
  | decCall => cases hp
  | idle => trivial
  | incAdd => trivial
  | incUndo => trivial
  | regDec => trivial

variable [Fintype ι]

/-- Registered callbacks that were not called yet. -/
def ahead (s : State ι) : Int := ∑ u, (s.pc u).due + if s.rc.callback then 1 else 0

/-- The invariant without the counter. -/
structure Core (s : State ι) : Prop where
  /-- Freezes are undone once. -/
  freeze_nonneg : 0 ≤ s.rc.freeze
  /-- Callbacks are registered one at a time. -/
  ahead_le : ahead s ≤ 1
  /-- All registered callbacks but the one ahead were called. -/
  invoked_eq : ∀ n, (s.invoked n : Int) = if (n : Int) < s.registered - ahead s then 1 else 0
  /-- The armed callback is the last one. -/
  cb_eq : s.rc.callback = true → s.rc.cb + 1 = s.registered
  /-- Every thread. -/
  threads : ∀ u, PcOk s (s.pc u)
  /-- A callback that was called keeps references away. -/
  quiet : s.quiet = true → 0 < s.rc.freeze ∧ s.holders = 0

/-- The invariant of a run. -/
structure Inv (s : State ι) : Prop extends Core s where
  /-- The counter. -/
  counter_eq : s.rc.counter = s.holders + ∑ u, (s.pc u).held
  /-- An armed callback is not forgotten. -/
  armed : s.rc.callback = true → 0 < s.rc.counter ∨ ∃ u, s.pc u = .decTest

theorem held_nonneg (pc : Pc) : 0 ≤ pc.held := by
  cases pc <;> simp [Pc.held]

theorem due_nonneg (pc : Pc) : 0 ≤ pc.due := by
  rw [Pc.due]
  split <;> decide

theorem held_le (s : State ι) (t : ι) : (s.pc t).held ≤ ∑ u, (s.pc u).held :=
  Finset.single_le_sum (fun u _ => held_nonneg (s.pc u)) (Finset.mem_univ t)

theorem Inv.counter_nonneg {s : State ι} (h : Inv s) : 0 ≤ s.rc.counter := by
  have hsum : 0 ≤ ∑ u, (s.pc u).held := Finset.sum_nonneg fun u _ => held_nonneg (s.pc u)
  rw [h.counter_eq]
  omega

theorem ahead_eq_zero {s : State ι} (h : ¬Pending s) : ahead s = 0 := by
  rw [Pending, not_or] at h
  have hsum : ∑ u, (s.pc u).due = 0 := by
    refine Finset.sum_eq_zero fun u _ => ?_
    rw [Pc.due, if_neg fun hp => h.2 ⟨u, hp⟩]
  rw [ahead, hsum, if_neg h.1]
  rfl

theorem Inv.safe {s : State ι} (h : Inv s) : Safe s where
  counter_nonneg := h.counter_nonneg
  once := by
    intro n
    have hn := h.invoked_eq n
    split at hn <;> omega
  called := by
    intro hz hidle n hlt
    have hheld : ∑ u, (s.pc u).held = 0 := Finset.sum_eq_zero fun u _ => by rw [hidle u]; rfl
    have hcb : ¬s.rc.callback = true := by
      intro hcb
      rcases h.armed hcb with hpos | ⟨u, hu⟩
      · have hc := h.counter_eq
        omega
      · rw [hidle u] at hu
        cases hu
    have hp : ¬Pending s := by
      rintro (hc | ⟨u, hu⟩)
      · exact hcb hc
      · rw [hidle u] at hu
        cases hu
    have hn := h.invoked_eq n
    rw [ahead_eq_zero hp, if_pos (by omega)] at hn
    omega
  alone := by
    intro u hu
    have hok := h.threads u
    rw [hu] at hok
    exact hok.1
  quiet := fun hq => (h.quiet hq).2

theorem inv_init : Inv (envRefcntInit (ι := ι)) := by
  have hdue : ∑ u : ι, ((envRefcntInit (ι := ι)).pc u).due = 0 := Finset.sum_eq_zero fun _ _ => rfl
  have hahead : ahead (envRefcntInit (ι := ι)) = 0 := by
    rw [ahead, hdue]
    rfl
  refine ⟨⟨le_rfl, hahead.trans_le (by decide), fun n => ?_, nofun, fun _ => trivial, nofun⟩, ?_, nofun⟩
  · rw [hahead, if_neg]
    · rfl
    · change ¬(n : Int) < 0 - 0
      omega
  · have hheld : ∑ u : ι, ((envRefcntInit (ι := ι)).pc u).held = 0 := Finset.sum_eq_zero fun _ _ => rfl
    rw [hheld]
    rfl

variable [DecidableEq ι] {s s' : State ι} {t : ι} {q : Pc}

theorem Core.alone (h : Core s) (ht : (s.pc t).pending = true) :
    s.rc.callback = false ∧ ∀ u, u ≠ t → (s.pc u).pending = false := by
  have hle := h.ahead_le
  rw [ahead] at hle
  have hone : (s.pc t).due = 1 := by rw [Pc.due, if_pos ht]
  have hsplit := Finset.add_sum_erase Finset.univ (fun u => (s.pc u).due) (Finset.mem_univ t)
  have hrest : 0 ≤ ∑ u ∈ Finset.univ.erase t, (s.pc u).due := Finset.sum_nonneg fun u _ => due_nonneg (s.pc u)
  constructor
  · cases hcb : s.rc.callback with
    | false => rfl
    | true =>
      rw [hcb, if_pos rfl] at hle
      omega
  · intro u hu
    have hmem : u ∈ Finset.univ.erase t := Finset.mem_erase.mpr ⟨hu, Finset.mem_univ u⟩
    have hone' := Finset.single_le_sum (f := fun u => (s.pc u).due) (fun u _ => due_nonneg (s.pc u)) hmem
    cases hp : (s.pc u).pending with
    | false => rfl
    | true =>
      have hdue : (s.pc u).due = 1 := by rw [Pc.due, if_pos hp]
      split at hle <;> omega

theorem held_goto (s : State ι) (t : ι) (q : Pc) :
    ∑ u, ((s.goto t q).pc u).held = ∑ u, (s.pc u).held + q.held - (s.pc t).held :=
  sum_update Pc.held s.pc t q

theorem due_goto (s : State ι) (t : ι) (q : Pc) :
    ∑ u, ((s.goto t q).pc u).due = ∑ u, (s.pc u).due + q.due - (s.pc t).due :=
  sum_update Pc.due s.pc t q

theorem Core.goto (h : Core s) (hq : PcOk s q) (hdue : q.due = (s.pc t).due) : Core (s.goto t q) := by
  have hahead : ahead (s.goto t q) = ahead s := by
    rw [ahead, due_goto, hdue, ahead]
    change _ + (if s.rc.callback then 1 else 0) = _
    omega
  refine ⟨h.freeze_nonneg, hahead ▸ h.ahead_le, fun n => ?_, h.cb_eq, ?_, h.quiet⟩
  · rw [hahead]
    exact h.invoked_eq n
  · exact forall_goto (P := PcOk s) (fun u _ => h.threads u) hq

theorem Inv.goto (h : Inv s) (hq : PcOk s q) (hdue : q.due = (s.pc t).due) (hheld : q.held = (s.pc t).held)
    (ht : s.pc t ≠ .decTest) : Inv (s.goto t q) where
  toCore := h.toCore.goto hq hdue
  counter_eq := by
    rw [held_goto, hheld]
    change s.rc.counter = s.holders + _
    have hc := h.counter_eq
    omega
  armed := fun hcb => (h.armed hcb).imp_right (exists_goto ht)

/-- `env_refcnt_dec` takes one unit of the counter back. -/
theorem Core.dec (h : Core s) (hdue : (s.pc t).due = 0)
    (hc : s.rc.counter = s.holders + ∑ u, (s.pc u).held - (s.pc t).held + 1) :
    ∃ s', envRefcntDec s t = some s' ∧ Inv s' := by
  have hle := held_le s t
  have hnonneg : ¬s.rc.counter - 1 < 0 := by omega
  obtain ⟨q, hq⟩ : ∃ q : Pc, (if s.rc.counter - 1 = 0 then .decTest else .idle) = q := ⟨_, rfl⟩
  have hqdue : q.due = 0 := by
    rw [← hq]
    split <;> rfl
  have hqheld : q.held = 0 := by
    rw [← hq]
    split <;> rfl
  have hok : PcOk s q := by
    rw [← hq]
    split
    next hz =>
      intro _
      omega
    · trivial
  refine ⟨_, by rw [envRefcntDec, if_neg hnonneg, hq], ?_⟩
  have hcore : Core { s with rc := { s.rc with counter := s.rc.counter - 1 } } :=
    ⟨h.freeze_nonneg, h.ahead_le, h.invoked_eq, h.cb_eq, h.threads, h.quiet⟩
  refine ⟨hcore.goto hok (hqdue.trans hdue.symm), ?_, fun _ => ?_⟩
  · rw [held_goto, hqheld]
    change s.rc.counter - 1 = s.holders + _
    change _ = _ + (∑ u, (s.pc u).held + 0 - (s.pc t).held)
    omega
  · change 0 < s.rc.counter - 1 ∨ _
    by_cases hz : s.rc.counter - 1 = 0
    · refine .inr ⟨t, ?_⟩
      rw [if_pos hz] at hq
      change update s.pc t q t = _
      rw [update_self, ← hq]
    · exact .inl (by omega)

theorem Core.ahead_eq_one (h : Core s) (ht : (s.pc t).pending = true) : ahead s = 1 := by
  have hle := h.ahead_le
  have hone : (s.pc t).due = 1 := by rw [Pc.due, if_pos ht]
  have hsum := Finset.single_le_sum (f := fun u => (s.pc u).due) (fun u _ => due_nonneg (s.pc u)) (Finset.mem_univ t)
  rw [ahead, (h.alone ht).1] at hle ⊢
  omega

/-- `ahead` after a thread moved. -/
theorem ahead_goto (s : State ι) (t : ι) (q : Pc) : ahead (s.goto t q) = ahead s + q.due - (s.pc t).due := by
  rw [ahead, due_goto, ahead]
  change _ + (if s.rc.callback then 1 else 0) = _
  omega

theorem Inv.register (h : Inv s) (hidle : s.pc t = .idle) (hp : ¬Pending s) :
    Inv ({ s with registered := s.registered + 1 }.goto t (.regTest s.registered)) := by
  have hzero := ahead_eq_zero hp
  have hone : ahead ({ s with registered := s.registered + 1 }.goto t (.regTest s.registered)) = 1 := by
    rw [ahead_goto]
    change ahead s + 1 - (s.pc t).due = 1
    rw [hzero, hidle]
    rfl
  rw [Pending, not_or] at hp
  refine ⟨⟨h.freeze_nonneg, hone.le, fun n => ?_, fun hc => absurd hc hp.1, ?_, h.quiet⟩, ?_, fun hc => absurd hc hp.1⟩
  · rw [hone]
    have hn := h.invoked_eq n
    rw [hzero] at hn
    change (s.invoked n : Int) = if (n : Int) < ((s.registered + 1 : Nat) : Int) - 1 then 1 else 0
    have hreg : ((s.registered + 1 : Nat) : Int) - 1 = s.registered - 0 := by omega
    rw [hreg]
    exact hn
  · refine forall_goto (s := { s with registered := s.registered + 1 })
      (P := PcOk { s with registered := s.registered + 1 }) (fun u _ => ?_) rfl
    refine (h.threads u).other ?_ .inl rfl
    exact Bool.not_eq_true _ ▸ fun hu => hp.2 ⟨u, hu⟩
  · rw [held_goto]
    change s.rc.counter = s.holders + (∑ u, (s.pc u).held + 0 - (s.pc t).held)
    have hc := h.counter_eq
    rw [hidle]
    change _ = _ + (_ + 0 - 0)
    omega

/-- `env_refcnt_inc` and `env_refcnt_register_zero_cb` increment the counter. -/
theorem Inv.add (h : Inv s) (hq : PcOk s q) (hdue : q.due = (s.pc t).due) (hheld : q.held = (s.pc t).held + 1) :
    Inv ({ s with rc := { s.rc with counter := s.rc.counter + 1 } }.goto t q) := by
  have hcore : Core { s with rc := { s.rc with counter := s.rc.counter + 1 } } :=
    ⟨h.freeze_nonneg, h.ahead_le, h.invoked_eq, h.cb_eq, h.threads, h.quiet⟩
  have hnonneg := h.counter_nonneg
  refine ⟨hcore.goto (by cases q <;> exact hq) hdue, ?_, fun _ => .inl ?_⟩
  · rw [held_goto, hheld]
    change s.rc.counter + 1 = s.holders + (∑ u, (s.pc u).held + ((s.pc t).held + 1) - (s.pc t).held)
    have hc := h.counter_eq
    omega
  · change 0 < s.rc.counter + 1
    omega

/-- `env_refcnt_inc` returns true. -/
theorem Inv.hold (h : Inv s) {val : Int} (ht : s.pc t = .incTest val) (hf : s.rc.freeze = 0)
    (htest : s.rc.callback = true → ∀ u, s.pc u ≠ .decTest) (hcall : ∀ u, s.pc u ≠ .decCall) :
    Inv ({ s with holders := s.holders + 1 }.goto t .idle) := by
  have hcore : Core { s with holders := s.holders + 1 } := by
    refine ⟨h.freeze_nonneg, h.ahead_le, h.invoked_eq, h.cb_eq, fun u => ?_, fun hq => ?_⟩
    · have hu := h.threads u
      change PcOk _ (s.pc u)
      obtain ⟨p, hp⟩ : ∃ p, s.pc u = p := ⟨_, rfl⟩
      rw [hp] at hu ⊢
      cases p with
      | decTest => exact fun hc => absurd hp (htest hc u)
      | decCall => exact absurd hp (hcall u)
      | _ => exact hu
    · have hpos := (h.quiet hq).1
      omega
  have hdue : Pc.idle.due = (s.pc t).due := by
    rw [ht]
    rfl
  refine ⟨hcore.goto trivial hdue, ?_, fun hc => (h.armed hc).imp_right (exists_goto ?_)⟩
  · rw [held_goto]
    change s.rc.counter = (s.holders + 1 : Nat) + (∑ u, (s.pc u).held + 0 - (s.pc t).held)
    have hc := h.counter_eq
    rw [ht]
    change _ = _ + (_ + 0 - 1)
    omega
  · exact ht ▸ fun hd => by cases hd

/-- `env_refcnt_register_zero_cb` stores the callback. -/
theorem Inv.store (h : Inv s) {n : Nat} (ht : s.pc t = .regStore n) :
    Inv ({ s with rc := { s.rc with cb := n } }.goto t .regArm) := by
  have hpend : (s.pc t).pending = true := by
    rw [ht]
    rfl
  obtain ⟨hcb, halone⟩ := h.toCore.alone hpend
  have hn : n + 1 = s.registered := by
    have hok := h.threads t
    rw [ht] at hok
    exact hok
  have hahead : ahead ({ s with rc := { s.rc with cb := n } }.goto t .regArm) = ahead s := by
    rw [ahead_goto]
    change ahead s + 1 - (s.pc t).due = _
    rw [ht]
    change ahead s + 1 - 1 = _
    omega
  refine ⟨⟨h.freeze_nonneg, hahead ▸ h.ahead_le, fun m => hahead ▸ h.invoked_eq m, fun _ => hn, ?_, h.quiet⟩, ?_,
    fun hc => (h.armed hc).imp_right (exists_goto ?_)⟩
  · refine forall_goto (s := { s with rc := { s.rc with cb := n } })
      (P := PcOk { s with rc := { s.rc with cb := n } }) (fun u hu => ?_) hn
    exact (h.threads u).other (halone u hu) .inl rfl
  · rw [held_goto]
    change s.rc.counter = s.holders + (∑ u, (s.pc u).held + 1 - (s.pc t).held)
    have hc := h.counter_eq
    rw [ht]
    change _ = _ + (_ + 1 - 1)
    omega
  · exact ht ▸ fun hd => by cases hd

/-- `env_refcnt_register_zero_cb` arms the callback while no decrement to zero
is on its way, or there is no reference. -/
theorem Inv.arm (h : Inv s) (ht : s.pc t = .regArm) (hin : s.holders = 0 ∨ ∀ u, s.pc u ≠ .decTest) :
    Inv ({ s with rc := { s.rc with callback := true } }.goto t .regDec) := by
  have hpend : (s.pc t).pending = true := by
    rw [ht]
    rfl
  obtain ⟨hcb, halone⟩ := h.toCore.alone hpend
  have hahead : ahead ({ s with rc := { s.rc with callback := true } }.goto t .regDec) = ahead s := by
    rw [ahead, due_goto, ahead, hcb]
    change (∑ u, (s.pc u).due + 0 - (s.pc t).due) + 1 = _ + 0
    rw [ht]
    change (_ + 0 - 1) + 1 = _
    omega
  have hcbeq : s.rc.cb + 1 = s.registered := by
    have hok := h.threads t
    rw [ht] at hok
    exact hok
  refine ⟨⟨h.freeze_nonneg, hahead ▸ h.ahead_le, fun m => hahead ▸ h.invoked_eq m, fun _ => hcbeq, ?_, h.quiet⟩, ?_,
    fun _ => .inl ?_⟩
  · refine forall_goto (s := { s with rc := { s.rc with callback := true } })
      (P := PcOk { s with rc := { s.rc with callback := true } }) (fun u hu => ?_) trivial
    rcases hin with hz | hnone
    · exact (h.threads u).other (halone u hu) (fun _ => .inr hz) rfl
    · have hok := h.threads u
      have hother := halone u hu
      have hne := hnone u
      obtain ⟨p, hp⟩ : ∃ p, s.pc u = p := ⟨_, rfl⟩
      rw [hp] at hok hother hne ⊢
      cases p with
      | decTest => exact absurd rfl hne
      | decCall => cases hother
      | _ => exact hok
  · rw [held_goto]
    change s.rc.counter = s.holders + (∑ u, (s.pc u).held + 1 - (s.pc t).held)
    have hc := h.counter_eq
    rw [ht]
    change _ = _ + (_ + 1 - 1)
    omega
  · change 0 < s.rc.counter
    have hle := held_le s t
    have hc := h.counter_eq
    rw [ht] at hle
    change 1 ≤ _ at hle
    omega

/-- `env_refcnt_dec` takes the callback. -/
theorem Inv.take (h : Inv s) (ht : s.pc t = .decTest) (hcb : s.rc.callback = true) :
    Inv ({ s with rc := { s.rc with callback := false } }.goto t .decCall) := by
  have hahead : ahead ({ s with rc := { s.rc with callback := false } }.goto t .decCall) = ahead s := by
    rw [ahead, due_goto, ahead, hcb]
    change (∑ u, (s.pc u).due + 1 - (s.pc t).due) + 0 = _ + 1
    rw [ht]
    change (_ + 1 - 0) + 0 = _
    omega
  have hzero : s.holders = 0 := by
    have hok := h.threads t
    rw [ht] at hok
    exact hok hcb
  have hcall : PcOk s .decCall := ⟨hzero, h.cb_eq hcb⟩
  have hno : (s.goto t .decCall).rc.callback = true := hcb
  refine ⟨⟨h.freeze_nonneg, hahead ▸ h.ahead_le, fun m => hahead ▸ h.invoked_eq m, fun hc => ?_, ?_, h.quiet⟩, ?_,
    fun hc => ?_⟩
  · cases hc
  · refine forall_goto (s := { s with rc := { s.rc with callback := false } })
      (P := PcOk { s with rc := { s.rc with callback := false } }) (fun u hu => ?_) hcall
    have hok := h.threads u
    obtain ⟨p, hp⟩ : ∃ p, s.pc u = p := ⟨_, rfl⟩
    rw [hp] at hok
    change PcOk _ (s.pc u)
    rw [hp]
    cases p with
    | decTest => exact fun hc => by cases hc
    | _ => exact hok
  · rw [held_goto]
    change s.rc.counter = s.holders + (∑ u, (s.pc u).held + 0 - (s.pc t).held)
    have hc := h.counter_eq
    rw [ht]
    change _ = _ + (_ + 0 - 0)
    omega
  · cases hc

theorem Inv.call (h : Inv s) (ht : s.pc t = .decCall) : Inv ({ s with
    invoked := update s.invoked s.rc.cb (s.invoked s.rc.cb + 1)
    quiet := decide (0 < s.rc.freeze) }.goto t .idle) := by
  have hpend : (s.pc t).pending = true := by
    rw [ht]
    rfl
  obtain ⟨hcb, halone⟩ := h.toCore.alone hpend
  have hone := h.toCore.ahead_eq_one hpend
  obtain ⟨hzero, hreg⟩ : s.holders = 0 ∧ s.rc.cb + 1 = s.registered := by
    have hok := h.threads t
    rw [ht] at hok
    exact hok
  have hahead : ahead ({ s with
      invoked := update s.invoked s.rc.cb (s.invoked s.rc.cb + 1)
      quiet := decide (0 < s.rc.freeze) }.goto t .idle) = 0 := by
    rw [ahead_goto]
    change ahead s + 0 - (s.pc t).due = 0
    rw [hone, ht]
    rfl
  refine ⟨⟨h.freeze_nonneg, hahead.trans_le (by decide), fun n => ?_, fun hc => ?_, ?_, fun hq => ?_⟩, ?_, fun hc => ?_⟩
  · rw [hahead]
    change ((update s.invoked s.rc.cb (s.invoked s.rc.cb + 1) n : Nat) : Int) =
      if (n : Int) < s.registered - 0 then 1 else 0
    have hn := h.invoked_eq n
    by_cases heq : n = s.rc.cb
    · rw [heq] at hn ⊢
      rw [update_self, if_pos (by omega)]
      omega
    · rw [update_of_ne heq]
      by_cases hlt : (n : Int) < s.registered - 0
      · rw [if_pos hlt]
        rw [if_pos (by omega)] at hn
        exact hn
      · rw [if_neg hlt]
        rw [if_neg (by omega)] at hn
        exact hn
  · exact hreg
  · refine forall_goto (s := { s with
      invoked := update s.invoked s.rc.cb (s.invoked s.rc.cb + 1)
      quiet := decide (0 < s.rc.freeze) }) (P := PcOk { s with
      invoked := update s.invoked s.rc.cb (s.invoked s.rc.cb + 1)
      quiet := decide (0 < s.rc.freeze) }) (fun u hu => ?_) trivial
    exact (h.threads u).other (halone u hu) .inl rfl
  · exact ⟨of_decide_eq_true hq, hzero⟩
  · rw [held_goto]
    change s.rc.counter = s.holders + (∑ u, (s.pc u).held + 0 - (s.pc t).held)
    have hc := h.counter_eq
    rw [ht]
    change _ = _ + (_ + 0 - 0)
    omega
  · change s.rc.callback = true at hc
    rw [hcb] at hc
    cases hc

/-- `env_refcnt_inc` is about to look at `freeze` again. -/
def Pc.testing : Pc → Bool
  | .incTest _ => true
  | _ => false

/-- No decrement to zero looks for the callback too late: a callback is not
armed while there is a reference and an `env_refcnt_dec` stands between its
decrement to zero and its look at the callback, and no reference is taken (when
the freeze was lifted early) while such a decrement may still take an armed
callback or a callback was taken and is not called yet. -/
def InTime (s : State ι) : Act ι → Prop
  | .next t =>
    (s.pc t = .regArm → s.holders = 0 ∨ ∀ u, s.pc u ≠ .decTest) ∧
    ((s.pc t).testing = true → s.rc.freeze = 0 →
      (s.rc.callback = true → ∀ u, s.pc u ≠ .decTest) ∧ ∀ u, s.pc u ≠ .decCall)
  | _ => True

theorem Inv.next (h : Inv s) (ht : s.pc t ≠ .idle) (hin : InTime s (.next t)) :
    ∃ s', next s t = some s' ∧ Inv s' := by
  have hok := h.threads t
  have hc := h.counter_eq
  obtain ⟨harm, hhold⟩ := hin
  rw [Refcnt.next]
  cases hp : s.pc t with
  | idle => exact absurd hp ht
  | incAdd =>
    have hnonneg := h.counter_nonneg
    have hpos : 0 < s.rc.counter + 1 := by omega
    exact ⟨_, rfl, h.add hpos (by rw [hp]; rfl) (by rw [hp]; rfl)⟩
  | incTest val =>
    rw [hp] at hok
    by_cases hf : s.rc.freeze = 0
    · obtain ⟨htest, hcall⟩ := hhold (by rw [hp]; rfl) hf
      dsimp only
      rw [if_pos hf, if_pos (Int.ne_of_gt hok)]
      exact ⟨_, rfl, h.hold hp hf htest hcall⟩
    · dsimp only
      rw [if_neg hf]
      exact ⟨_, rfl, h.goto trivial (by rw [hp]; rfl) (by rw [hp]; rfl) (by rw [hp]; nofun)⟩
  | incUndo =>
    refine h.toCore.dec (by rw [hp]; rfl) ?_
    rw [hp]
    change _ = _ - 1 + 1
    omega
  | regTest n =>
    obtain ⟨hcb, -⟩ := h.toCore.alone (t := t) (by rw [hp]; rfl)
    rw [hp] at hok
    dsimp only
    rw [if_neg (by rw [hcb]; exact Bool.false_ne_true)]
    exact ⟨_, rfl, h.goto hok (by rw [hp]; rfl) (by rw [hp]; rfl) (by rw [hp]; nofun)⟩
  | regAdd n =>
    rw [hp] at hok
    exact ⟨_, rfl, h.add hok (by rw [hp]; rfl) (by rw [hp]; rfl)⟩
  | regStore n => exact ⟨_, rfl, h.store hp⟩
  | regArm => exact ⟨_, rfl, h.arm hp (harm hp)⟩
  | regDec =>
    refine h.toCore.dec (by rw [hp]; rfl) ?_
    rw [hp]
    change _ = _ - 1 + 1
    omega
  | decTest =>
    by_cases hcb : s.rc.callback = true
    · rw [if_pos hcb]
      exact ⟨_, rfl, h.take hp hcb⟩
    · rw [if_neg hcb]
      refine ⟨_, rfl, h.toCore.goto trivial (by rw [hp]; rfl), ?_, fun hc => absurd hc hcb⟩
      rw [held_goto, hp]
      change s.rc.counter = s.holders + (∑ u, (s.pc u).held + 0 - 0)
      omega
  | decCall => exact ⟨_, rfl, h.call hp⟩

/-- An atomic step keeps the counter and the callback. -/
theorem step_inv (h : Inv s) {act : Act ι} (hg : guard s act) (hin : InTime s act) :
    ∃ s', step s act = some s' ∧ Inv s' := by
  cases act with
  | inc t =>
    rw [step]
    split
    · have hidle : s.pc t = .idle := hg
      exact ⟨_, rfl, h.goto trivial (by rw [hidle]; rfl) (by rw [hidle]; rfl) (by rw [hidle]; decide)⟩
    · exact ⟨s, rfl, h⟩
  | dec t =>
    obtain ⟨hidle, hpos⟩ := hg
    have hcore : Core { s with holders := s.holders - 1 } := by
      refine ⟨h.freeze_nonneg, h.ahead_le, h.invoked_eq, h.cb_eq, fun u => ?_, fun hq => ?_⟩
      · have hu := h.threads u
        change PcOk _ (s.pc u)
        obtain ⟨p, hp⟩ : ∃ p, s.pc u = p := ⟨_, rfl⟩
        rw [hp] at hu ⊢
        cases p with
        | decTest =>
          intro hcb
          have hz := hu hcb
          omega
        | decCall =>
          have hz := hu.1
          omega
        | _ => exact hu
      · have hz := (h.quiet hq).2
        omega
    refine hcore.dec (by change (s.pc t).due = 0; rw [hidle]; rfl) ?_
    change s.rc.counter = (s.holders - 1 : Nat) + ∑ u, (s.pc u).held - (s.pc t).held + 1
    have hc := h.counter_eq
    rw [hidle]
    change _ = _ - 0 + 1
    omega
  | freeze t =>
    have hf := h.freeze_nonneg
    refine ⟨_, rfl, ⟨?_, h.ahead_le, h.invoked_eq, h.cb_eq, h.threads, fun hq => ⟨?_, (h.quiet hq).2⟩⟩, h.counter_eq,
      h.armed⟩
    · change 0 ≤ s.rc.freeze + 1
      omega
    · change 0 < s.rc.freeze + 1
      omega
  | unfreeze t =>
    obtain ⟨-, hpos⟩ := hg
    refine ⟨_, if_neg (by omega), ⟨?_, h.ahead_le, h.invoked_eq, h.cb_eq, h.threads, fun hq => ?_⟩, h.counter_eq,
      h.armed⟩
    · change 0 ≤ s.rc.freeze - 1
      omega
    · obtain ⟨hquiet, hlt⟩ := Bool.and_eq_true_iff.mp hq
      exact ⟨of_decide_eq_true hlt, (h.quiet hquiet).2⟩
  | register t =>
    obtain ⟨hidle, hpos, hp⟩ := hg
    exact ⟨_, if_neg (by omega), h.register hidle hp⟩
  | next t => exact h.next hg hin

/-- In every run in which no decrement to zero is late the counter is safe,
and no step of a thread aborts. -/
theorem refcnt_safe (h : Reachable (system InTime) (envRefcntInit (ι := ι)) s) :
    Safe s ∧ ∀ act, guard s act → InTime s act → ∃ s', step s act = some s' := by
  have hinv : Inv s := h.invariant (fun _ => inv_init) fun s a s' hs _ hg hstep _ => by
    obtain ⟨t, ht, hinv⟩ := step_inv hs hg.1 hg.2
    cases ht.symm.trans hstep
    exact hinv
  exact ⟨hinv.safe, fun act hg hin => (step_inv hinv hg hin).imp fun _ => And.left⟩

end Counting

section Tests

variable [Fintype ι] [DecidableEq ι]

instance (s : State ι) (act : Act ι) : Decidable (guard s act) := by
  cases act <;> unfold guard <;> try unfold Pending
  all_goals infer_instance

instance (s : State ι) (act : Act ι) : Decidable (InTime s act) := by
  cases act <;> unfold InTime <;> infer_instance

/-- A sequence of steps, each of them allowed. -/
def runActs (ok : State ι → Act ι → Bool) (acts : List (Act ι)) : Option (State ι) :=
  acts.foldlM (checkedStep (system fun _ _ => True) fun s act => decide (guard s act) && ok s act) envRefcntInit

theorem runActs_reachable {ok : State ι → Act ι → Bool} {acts : List (Act ι)} {s : State ι}
    {allowed : State ι → Act ι → Prop} (hok : ∀ s act, ok s act = true → allowed s act)
    (h : runActs ok acts = some s) : Reachable (system allowed) envRefcntInit s := by
  refine Reachable.of_checked (fun s act hcheck => ?_) h
  obtain ⟨hg, ha⟩ := Bool.and_eq_true_iff.mp hcheck
  exact ⟨of_decide_eq_true hg, hok s act ha⟩

end Tests

/-- A reference is taken, the counter frozen, a callback registered and the
reference dropped: the callback is called once. -/
theorem refcnt_safe_callback : ∃ s : State (Fin 1), Reachable (system InTime) envRefcntInit s ∧
    s.invoked 0 = 1 ∧ s.quiet = true ∧ Safe s := by
  have hrun : (runActs (ι := Fin 1) (fun s act => decide (InTime s act))
      [.inc 0, .next 0, .next 0, .freeze 0, .register 0, .next 0, .next 0, .next 0, .next 0, .next 0, .dec 0,
        .next 0, .next 0]).map (fun s => (s.invoked 0, s.quiet)) = some (1, true) := by decide +kernel
  obtain ⟨s, hs, heq⟩ := Option.map_eq_some_iff.mp hrun
  obtain ⟨hinvoked, hquiet⟩ := Prod.mk.inj heq
  have hreach : Reachable (system InTime) envRefcntInit s :=
    runActs_reachable (fun _ _ hok => of_decide_eq_true hok) hs
  exact ⟨s, hreach, hinvoked, hquiet, (refcnt_safe hreach).1⟩

/-- One thread decrements to zero and pauses; another takes a reference,
freezes the counter and registers a callback; the first thread takes the
callback, and it will be called while there is a reference. -/
theorem late_decrement_calls_early : ∃ s : State (Fin 2), Reachable (system fun _ _ => True) envRefcntInit s ∧
    s.pc 0 = .decCall ∧ s.holders = 1 ∧ ¬Safe s := by
  have hrun : (runActs (ι := Fin 2) (fun _ _ => true)
      [.inc 0, .next 0, .next 0, .dec 0, .inc 1, .next 1, .next 1, .freeze 1, .register 1, .next 1, .next 1, .next 1,
        .next 1, .next 0]).map (fun s => (s.pc 0, s.holders)) = some (.decCall, 1) := by decide +kernel
  obtain ⟨s, hs, heq⟩ := Option.map_eq_some_iff.mp hrun
  obtain ⟨hpc, hholders⟩ := Prod.mk.inj heq
  refine ⟨s, runActs_reachable (fun _ _ _ => trivial) hs, hpc, hholders, fun h => ?_⟩
  have hzero := h.alone 0 hpc
  omega

end OcfCache.Refcnt
