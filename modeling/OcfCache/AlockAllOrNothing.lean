import Mathlib.Data.List.Nodup
import OcfCache.AlockRequests

/-!
# All lines of a request or none

The locks that a request holds and waits for are, at every point of the call,
those of the indices behind it. A grant moves a lock from one kind to the
other, and `lock_remaining` counts the awaited locks, the indices ahead and the
call itself. An error path that meets its condition undoes the indices one by
one and leaves nothing.
-/

namespace OcfCache.AlockAllOrNothing

open Runs Requests Alock AlockExclusion AlockWakeup AlockClient AlockRequests
open List (append_assoc append_nil mem_filter)

/-- Locks for the indices below a bound. -/
def wanted (cl : Client) (i : Nat) : List Lock :=
  ((List.range i).filter (ocfClLockLineNeedsLock cl)).map (lockOf cl)

variable {cl : Client}

theorem wanted_succ {i : Nat} (h : ocfClLockLineNeedsLock cl i = true) :
    wanted cl (i + 1) = wanted cl i ++ [lockOf cl i] := by
  rw [wanted, List.range_succ, List.filter_append, List.map_append, List.filter_cons_of_pos h]
  rfl

theorem wanted_skip {i : Nat} (h : ocfClLockLineNeedsLock cl i = false) :
    wanted cl (i + 1) = wanted cl i := by
  rw [wanted, List.range_succ, List.filter_append,
    List.filter_cons_of_neg (by rw [h]; exact Bool.false_ne_true), List.filter_nil, append_nil]
  rfl

variable {l : Lock} {pc : Pc} {lock : State}

theorem mem_wanted {i : Nat} :
    l ∈ wanted cl i ↔ ∃ j < i, ocfClLockLineNeedsLock cl j = true ∧ lockOf cl j = l := by
  simp only [wanted, List.mem_map, mem_filter, List.mem_range, and_assoc]

theorem nodup_wanted (cl : Client) (i : Nat) : (wanted cl i).Nodup :=
  List.Nodup.map (fun _ _ h => congrArg Lock.idx h) (List.nodup_range.filter _)

/-- The request holds its base locks; it holds or awaits the given ones. -/
def Owns (cl : Client) (base : List Lock) (s : State) (mine : List Lock) : Prop :=
  ∃ got, (heldBy cl.id s).Perm (base ++ got) ∧ (got ++ waitingBy cl.lists cl.id s).Perm mine

/-- Base locks are not for lines that the call is to lock. -/
def Apart (cl : Client) (base : List Lock) : Prop :=
  ∀ h ∈ base, ¬(h.idx < cl.count ∧ ocfClLockLineNeedsLock cl h.idx = true)

/-- Number of locks that the request waits for. -/
def waitingNo (cl : Client) (s : State) : Nat := (waitingBy cl.lists cl.id s).length

section Owns

variable {cl : Client} {base mine : List Lock} {s s' : State} {i k : Nat}

theorem Owns.granting (h : Owns cl base s mine) {given : List Lock}
    (hg : Granting cl.lists cl.id s s' given) : Owns cl base s' mine := by
  obtain ⟨got, hheld, hmine⟩ := h
  refine ⟨got ++ given, ?_, ?_⟩
  · rw [← append_assoc]
    exact hg.held.trans (hheld.append_right given)
  · rw [append_assoc]
    exact (hg.waiting.symm.append_left got).trans hmine

theorem Owns.took (h : Owns cl base s mine) (ht : TookLock cl.lists s s' (lockOf cl i)) :
    Owns cl base s' (mine ++ [lockOf cl i]) := by
  obtain ⟨got, hheld, hmine⟩ := h
  have hheld' : heldBy cl.id s' = heldBy cl.id s ++ [lockOf cl i] := ht.held
  have hwait : waitingBy cl.lists cl.id s' = waitingBy cl.lists cl.id s := ht.waiting
  refine ⟨got ++ [lockOf cl i], ?_, ?_⟩
  · rw [hheld', ← append_assoc]
    exact hheld.append_right _
  · rw [hwait, append_assoc]
    refine List.Perm.trans (List.Perm.append_left got List.perm_append_comm) ?_
    rw [← append_assoc]
    exact hmine.append_right _

theorem Owns.queue (h : Owns cl base s mine) :
    Owns cl base (s.waitlistAdd cl.lists (lockOf cl i)) (mine ++ [lockOf cl i]) := by
  obtain ⟨got, hheld, hmine⟩ := h
  have hadd := @waitingBy_waitlistAdd cl.lists s (lockOf cl i) cl.lists_pos
  refine ⟨got, hheld, (hadd.append_left got).trans ?_⟩
  rw [← append_assoc]
  exact hmine.append_right _

theorem Owns.of_held (hbase : Apart cl base) (h : Owns cl base s mine) (hsub : mine ⊆ wanted cl k)
    (hi : i < cl.count) (hneeds : ocfClLockLineNeedsLock cl i = true)
    (hl : l ∈ s.holders) (hr : l.req = cl.id) (hidx : l.idx = i) :
    l = lockOf cl i ∧ i < k ∧ ∃ got, l ∈ got ∧ (heldBy cl.id s).Perm (base ++ got) ∧
      (got ++ waitingBy cl.lists cl.id s).Perm mine := by
  obtain ⟨got, hheld, hmine⟩ := h
  have hmem : l ∈ base ++ got :=
    hheld.subset (mem_filter.mpr ⟨hl, decide_eq_true hr⟩)
  rcases List.mem_append.mp hmem with hb | hgot
  · refine absurd ?_ (hbase l hb)
    rw [hidx]
    exact ⟨hi, hneeds⟩
  · obtain ⟨j, hj, -, rfl⟩ := mem_wanted.mp (hsub (hmine.subset (List.mem_append_left _ hgot)))
    have hji : j = i := hidx
    subst hji
    exact ⟨rfl, hj, got, hgot, hheld, hmine⟩

theorem isLocked_of_mem (h : lockOf cl i ∈ s.holders) : isLocked cl s i = true :=
  isIndexLocked_iff.mpr ⟨lockOf cl i, mem_filter.mpr ⟨h, decide_eq_true rfl⟩, rfl⟩

theorem Owns.of_locked (hbase : Apart cl base) (h : Owns cl base s mine)
    (hsub : mine ⊆ wanted cl k) (hi : i < cl.count) (hneeds : ocfClLockLineNeedsLock cl i = true)
    (hlock : isLocked cl s i = true) : lockOf cl i ∈ s.holders ∧ i < k ∧ ∃ got, lockOf cl i ∈ got ∧
      (heldBy cl.id s).Perm (base ++ got) ∧ (got ++ waitingBy cl.lists cl.id s).Perm mine := by
  obtain ⟨l, hl, hidx⟩ := isIndexLocked_iff.mp hlock
  obtain ⟨hmem, hr⟩ := mem_filter.mp hl
  obtain ⟨rfl, hik, hgot⟩ := h.of_held hbase hsub hi hneeds hmem (of_decide_eq_true hr) hidx
  exact ⟨hmem, hik, hgot⟩

theorem Owns.unused (hbase : Apart cl base) (hq : Queued cl.lists s) (h : Owns cl base s mine)
    (hsub : mine ⊆ wanted cl i) (hi : i < cl.count)
    (hneeds : ocfClLockLineNeedsLock cl i = true) : Unused s (lockOf cl i) := by
  constructor
  · rintro l hl ⟨hr, hidx⟩
    have hlt := (h.of_held hbase hsub hi hneeds hl hr hidx).2.1
    exact Nat.lt_irrefl i hlt
  · rintro j w hw ⟨hr, hidx⟩
    obtain ⟨got, -, hmine⟩ := h
    have hmem : w.toLock ∈ waitingBy cl.lists cl.id s :=
      List.mem_map_of_mem ((mem_queuedBy cl.lists_pos hq hw).mpr hr)
    obtain ⟨j', hj', -, heq⟩ :=
      mem_wanted.mp (hsub (hmine.subset (List.mem_append_right _ hmem)))
    have hidx' : (lockOf cl j').idx = i := by
      rw [heq]
      exact hidx
    exact Nat.ne_of_lt hj' hidx'

theorem Owns.not_locked (hbase : Apart cl base) (h : Owns cl base s mine)
    (hsub : mine ⊆ wanted cl k) (hi : i < cl.count) (hneeds : ocfClLockLineNeedsLock cl i = true)
    (hk : k ≤ i) : isLocked cl s i = false := by
  rw [← Bool.not_eq_true]
  intro hlock
  have hlt := (h.of_locked hbase hsub hi hneeds hlock).2.1
  omega

theorem Owns.unlock {got given : List Lock} (hgot : lockOf cl k ∈ got)
    (hheld : (heldBy cl.id s).Perm (base ++ got))
    (hmine : (got ++ waitingBy cl.lists cl.id s).Perm mine)
    (hheld' : (heldBy cl.id s ++ given).Perm (lockOf cl k :: heldBy cl.id s'))
    (hwait : (waitingBy cl.lists cl.id s).Perm (given ++ waitingBy cl.lists cl.id s')) :
    ∃ mine', mine.Perm (lockOf cl k :: mine') ∧ Owns cl base s' mine' := by
  have hsplit := List.perm_cons_erase hgot
  refine ⟨got.erase (lockOf cl k) ++ given ++ waitingBy cl.lists cl.id s', ?_,
    got.erase (lockOf cl k) ++ given, ?_, List.Perm.refl _⟩
  · refine hmine.symm.trans ((hsplit.append_right _).trans ?_)
    rw [List.cons_append, append_assoc]
    exact (hwait.append_left _).cons _
  · have hcons : (lockOf cl k :: heldBy cl.id s').Perm
        (lockOf cl k :: (base ++ (got.erase (lockOf cl k) ++ given))) := by
      refine hheld'.symm.trans ((hheld.append_right given).trans ?_)
      refine (((hsplit.append_left base).append_right given)).trans ?_
      refine (List.perm_middle.append_right given).trans ?_
      rw [List.cons_append, append_assoc]
    exact hcons.cons_inv

theorem Owns.unlink {w : Waiter} (h : Owns cl base s mine)
    (hwait : (waitingBy cl.lists cl.id s).Perm (w.toLock :: waitingBy cl.lists cl.id s'))
    (hheld : heldBy cl.id s' = heldBy cl.id s) :
    ∃ mine', mine.Perm (w.toLock :: mine') ∧ Owns cl base s' mine' := by
  obtain ⟨got, hgot, hmine⟩ := h
  refine ⟨got ++ waitingBy cl.lists cl.id s', ?_, got, by rw [hheld]; exact hgot, List.Perm.refl _⟩
  exact hmine.symm.trans ((hwait.append_left got).trans List.perm_middle)

theorem Owns.nil (h : Owns cl base s []) :
    (heldBy cl.id s).Perm base ∧ waitingBy cl.lists cl.id s = [] := by
  obtain ⟨got, hheld, hmine⟩ := h
  obtain ⟨rfl, hwait⟩ := List.append_eq_nil_iff.mp hmine.eq_nil
  rw [append_nil] at hheld
  exact ⟨hheld, hwait⟩

end Owns

theorem iterate_entryLocked (c : Call) (m : Nat) :
    (Nat.iterate ocfAlockEntryLocked m c).lockRemaining = c.lockRemaining - m ∧
      (Nat.iterate ocfAlockEntryLocked m c).cmplCalls =
        c.cmplCalls + (if 0 < c.lockRemaining ∧ c.lockRemaining ≤ m then 1 else 0) ∧
      (Nat.iterate ocfAlockEntryLocked m c).lock = c.lock ∧
      (Nat.iterate ocfAlockEntryLocked m c).pc = c.pc := by
  induction m generalizing c with
  | zero =>
    refine ⟨by simp, ?_, rfl, rfl⟩
    rw [if_neg (by omega)]
    rfl
  | succ m ih =>
    obtain ⟨hrem, hcalls, hlock, hpc⟩ := ih (ocfAlockEntryLocked c)
    have hrem1 : (ocfAlockEntryLocked c).lockRemaining = c.lockRemaining - 1 := rfl
    have hcalls1 : (ocfAlockEntryLocked c).cmplCalls =
        if c.lockRemaining - 1 = 0 then c.cmplCalls + 1 else c.cmplCalls := rfl
    rw [hrem1] at hrem hcalls
    rw [Function.iterate_succ_apply]
    refine ⟨?_, ?_, hlock, hpc⟩
    · rw [hrem]
      push_cast
      omega
    · rw [hcalls, hcalls1]
      by_cases hzero : c.lockRemaining - 1 = 0
      · rw [if_pos hzero, if_neg (by omega), if_pos (by omega)]
      · rw [if_neg hzero]
        by_cases hin : 0 < c.lockRemaining - 1 ∧ c.lockRemaining - 1 ≤ m
        · rw [if_pos hin, if_pos (by omega)]
        · rw [if_neg hin, if_neg (by omega)]

/-- Distinct locks for indices below a bound. -/
def Part (cl : Client) (mine : List Lock) (k : Nat) : Prop := mine.Nodup ∧ mine ⊆ wanted cl k

section Part

variable {cl : Client} {mine mine' : List Lock} {k : Nat}

theorem Part.tail (h : Part cl mine k) (hp : mine.Perm (l :: mine')) :
    Part cl mine' k ∧ l ∉ mine' := by
  have hnodup := hp.nodup_iff.mp h.1
  obtain ⟨hnot, hrest⟩ := List.nodup_cons.mp hnodup
  exact ⟨⟨hrest, fun x hx => h.2 (hp.symm.subset (List.mem_cons_of_mem _ hx))⟩, hnot⟩

theorem Part.of_not_mem (h : Part cl mine (k + 1)) (hnot : lockOf cl k ∉ mine) :
    Part cl mine k := by
  refine ⟨h.1, fun x hx => ?_⟩
  obtain ⟨j, hj, hneeds, rfl⟩ := mem_wanted.mp (h.2 hx)
  have hne : j ≠ k := by
    rintro rfl
    exact hnot hx
  exact mem_wanted.mpr ⟨j, by omega, hneeds, rfl⟩

theorem Part.of_cons (h : Part cl mine (k + 1)) (hp : mine.Perm (lockOf cl k :: mine')) :
    Part cl mine' k := by
  obtain ⟨hpart, hnot⟩ := h.tail hp
  exact hpart.of_not_mem hnot

theorem Part.skip (h : Part cl mine (k + 1)) (hskip : ocfClLockLineNeedsLock cl k = false) :
    Part cl mine k := by
  rw [Part, wanted_skip hskip] at h
  exact h

theorem Part.zero (h : Part cl mine 0) : mine = [] := by
  refine List.eq_nil_iff_forall_not_mem.mpr fun x hx => ?_
  obtain ⟨j, hj, -⟩ := mem_wanted.mp (h.2 hx)
  exact Nat.not_lt_zero j hj

theorem part_wanted : Part cl (wanted cl k) k := ⟨nodup_wanted cl k, List.Subset.refl _⟩

theorem Part.succ (h : Part cl mine k) : Part cl mine (k + 1) := by
  refine ⟨h.1, fun x hx => ?_⟩
  obtain ⟨j, hj, hneeds, rfl⟩ := mem_wanted.mp (h.2 hx)
  exact mem_wanted.mpr ⟨j, by omega, hneeds, rfl⟩

end Part

/-- The locks that the request holds or awaits, by where the call is. -/
def Held (cl : Client) (mine : List Lock) : Pc → Prop
  | .fast i => i ≤ cl.count ∧ mine = wanted cl i
  | .undo k => k ≤ cl.count ∧ Part cl mine k
  | .prepare => mine = []
  | .slow i => i ≤ cl.count ∧ mine = wanted cl i
  | .queue i => i < cl.count ∧ ocfClLockLineNeedsLock cl i = true ∧ mine = wanted cl i
  | .rollback k => k ≤ cl.count ∧ Part cl mine k
  | .finish => mine = wanted cl cl.count
  | .fail => mine = []
  | .done .acquired => mine = wanted cl cl.count
  | .done .notAcquired => mine = wanted cl cl.count
  | .done .noMem => mine = []

/-- `lock_remaining` and the completion calls, by the number of awaited locks. -/
def Counts (cl : Client) (waiting : Nat) (remaining : Int) (calls : Nat) : Pc → Prop
  | .fast _ => waiting = 0 ∧ remaining = 0 ∧ calls = 0
  | .undo _ => waiting = 0 ∧ remaining = 0 ∧ calls = 0
  | .prepare => waiting = 0 ∧ remaining = 0 ∧ calls = 0
  | .slow i => remaining = 1 + waiting + (cl.count - i : Nat) ∧ calls = 0
  | .queue i => remaining = 1 + waiting + (cl.count - i : Nat) ∧ calls = 0
  | .rollback _ => 2 + waiting ≤ remaining ∧ calls = 0
  | .finish => remaining = 1 + waiting ∧ calls = 0
  | .fail => waiting = 0 ∧ calls = 0
  | .done .acquired => waiting = 0 ∧ remaining = 0 ∧ calls = 0
  | .done .notAcquired => remaining = waiting ∧ calls = if waiting = 0 then 1 else 0
  | .done .noMem => waiting = 0 ∧ remaining = 0 ∧ calls = 0

/-- What holds along a call that started with the base locks. -/
structure Inv (cl : Client) (base : List Lock) (c : Call) : Prop where
  /-- Access words tell their holders. -/
  words : WordsTrue c.lock
  /-- Waiters lists are in order. -/
  queued : Queued cl.lists c.lock
  /-- Own locks. -/
  mine : ∃ mine, Owns cl base c.lock mine ∧ Held cl mine c.pc
  /-- Counters. -/
  counts : Counts cl (waitingNo cl c.lock) c.lockRemaining c.cmplCalls c.pc

theorem Counts.grant {g waiting calls : Nat} {remaining : Int}
    (h : Counts cl (g + waiting) remaining calls pc) : Counts cl waiting (remaining - g)
      (calls + if 0 < remaining ∧ remaining ≤ g then 1 else 0) pc := by
  cases pc with
  | done result =>
    cases result with
    | notAcquired =>
      obtain ⟨hrem, hcalls⟩ := h
      refine ⟨by omega, ?_⟩
      by_cases hw : waiting = 0
      · by_cases hg : g = 0
        · rw [hcalls, if_pos (by omega), if_neg (by omega), if_pos hw]
        · rw [hcalls, if_neg (by omega), if_pos (by omega), if_pos hw]
      · rw [hcalls, if_neg (by omega), if_neg (by omega), if_neg hw]
    | acquired =>
      simp only [Counts] at h ⊢
      split <;> omega
    | noMem =>
      simp only [Counts] at h ⊢
      split <;> omega
  | _ =>
    simp only [Counts] at h ⊢
    split <;> omega

section Call

variable {cl : Client} {base : List Lock} {c : Call}

theorem counts_after {given : Nat}
    (h : Counts cl (waitingNo cl c.lock) c.lockRemaining c.cmplCalls pc)
    (hwait : waitingNo cl c.lock = given + waitingNo cl lock)
    (hres : resumed cl.id c.lock lock = given) :
    Counts cl (waitingNo cl lock) (c.after cl lock).lockRemaining (c.after cl lock).cmplCalls pc ∧
      (c.after cl lock).lock = lock ∧ (c.after cl lock).pc = c.pc := by
  obtain ⟨hrem, hcalls, hlock, hpc⟩ :=
    iterate_entryLocked { c with lock := lock } (resumed cl.id c.lock lock)
  rw [hwait] at h
  rw [Call.after, hrem, hcalls, hres]
  exact ⟨h.grant, hres ▸ hlock, hres ▸ hpc⟩

theorem inv_other {act : Action} (h : Inv cl base c)
    (hg : (actionLock act).req ≠ cl.id ∧ Permitted c.lock act)
    (hs : step cl.lists c.lock act = some lock) (hfew : FewReaders lock) :
    Inv cl base (c.after cl lock) := by
  obtain ⟨given, hgrant⟩ := granting_of_other cl.lists_pos hg.1 hs
  obtain ⟨lock', hlock', hwords⟩ := step_spec cl.lists h.words hg.2
  obtain rfl : lock' = lock := Option.some.inj (hlock'.symm.trans hs)
  have hwait : waitingNo cl c.lock = given.length + waitingNo cl lock' := by
    rw [waitingNo, hgrant.waiting.length_eq, List.length_append]
    rfl
  obtain ⟨hcounts, hlk, hpc⟩ := counts_after h.counts hwait hgrant.resumed
  obtain ⟨mine, hown, hheld⟩ := h.mine
  refine ⟨?_, ?_, ?_, ?_⟩
  · rw [hlk]
    exact hwords hfew
  · rw [hlk]
    exact step_queued h.queued hs
  · rw [hlk, hpc]
    exact ⟨mine, hown.granting hgrant, hheld⟩
  · rw [hlk, hpc]
    exact hcounts

end Call

variable {s : State}

theorem permitted_tryAct (h : Unused s l) : Permitted s (tryAct l) := by
  cases hrw : l.rw with
  | read =>
    simp only [tryAct, hrw]
    exact ⟨hrw, h⟩
  | write =>
    simp only [tryAct, hrw]
    exact ⟨hrw, h⟩

theorem permitted_lockAct (h : Unused s l) : Permitted s (lockAct l) := by
  cases hrw : l.rw with
  | read =>
    simp only [lockAct, hrw]
    exact ⟨hrw, h⟩
  | write =>
    simp only [lockAct, hrw]
    exact ⟨hrw, h⟩

theorem permitted_unlockAct (h : l ∈ s.holders) : Permitted s (unlockAct l) := by
  cases hrw : l.rw with
  | read =>
    simp only [unlockAct, hrw]
    exact ⟨hrw, h⟩
  | write =>
    simp only [unlockAct, hrw]
    exact ⟨hrw, h⟩

section Run

variable {cl : Client} {base : List Lock} {c : Call}

/-- A step of the call: it succeeds, comes closer to the end and keeps the
invariant under the condition. -/
def Goes (cl : Client) (base : List Lock) (alloc : Bool) (c : Call) : Prop :=
  ∃ c', run cl alloc c = some c' ∧ left cl c'.pc < left cl c.pc ∧
    (OwnWaiterFirst cl c → FewReaders c'.lock → Inv cl base c')

/-- A permitted step of the lock succeeds and keeps its words and queues. -/
theorem Inv.lock_step (h : Inv cl base c) {act : Action} (hp : Permitted c.lock act) :
    ∃ lock, step cl.lists c.lock act = some lock ∧ (FewReaders lock → WordsTrue lock) ∧
      Queued cl.lists lock := by
  obtain ⟨lock, hs, hwords⟩ := step_spec cl.lists h.words hp
  exact ⟨lock, hs, hwords, step_queued h.queued hs⟩

theorem Inv.of_same (h : Inv cl base c) {c' : Call} (hlock : c'.lock = c.lock)
    (hmine : ∀ mine, Owns cl base c.lock mine → Held cl mine c.pc → Held cl mine c'.pc)
    (hcounts : Counts cl (waitingNo cl c.lock) c'.lockRemaining c'.cmplCalls c'.pc) :
    Inv cl base c' := by
  obtain ⟨mine, hown, hheld⟩ := h.mine
  refine ⟨?_, ?_, ⟨mine, ?_, hmine mine hown hheld⟩, ?_⟩
  · rw [hlock]
    exact h.words
  · rw [hlock]
    exact h.queued
  · rw [hlock]
    exact hown
  · rw [hlock]
    exact hcounts

variable {mine : List Lock} {i : Nat}

theorem Inv.next_unused (hbase : Apart cl base) (h : Inv cl base c)
    (hown : Owns cl base c.lock mine) (hmine : mine = wanted cl i) (hi : i < cl.count)
    (hneeds : ocfClLockLineNeedsLock cl i = true) :
    Unused c.lock (lockOf cl i) ∧ isLocked cl c.lock i = false := by
  have hsub : mine ⊆ wanted cl i := by
    rw [hmine]
    exact List.Subset.refl _
  exact ⟨hown.unused hbase h.queued hsub hi hneeds,
    hown.not_locked hbase hsub hi hneeds (Nat.le_refl i)⟩

theorem goes_fast (hbase : Apart cl base) (h : Inv cl base c) (hpc : c.pc = .fast i)
    (alloc : Bool) : Goes cl base alloc c := by
  obtain ⟨mine, hown, hheld⟩ := h.mine
  have hcounts := h.counts
  rw [hpc] at hheld hcounts
  obtain ⟨hi, hmine⟩ := hheld
  by_cases hend : cl.count ≤ i
  · have hlast : i = cl.count := by omega
    refine ⟨{ c with pc := .done .acquired }, by simp only [run, hpc, if_pos hend], ?_, ?_⟩
    · rw [hpc]
      simp only [left]
      omega
    · intro _ _
      refine h.of_same rfl (fun m _ hm => ?_) hcounts
      rw [hpc, hlast] at hm
      exact hm.2
  by_cases hneeds : ocfClLockLineNeedsLock cl i = false
  · refine ⟨{ c with pc := .fast (i + 1) },
      by simp only [run, hpc, if_neg hend, if_pos hneeds], ?_, ?_⟩
    · rw [hpc]
      simp only [left]
      omega
    · intro _ _
      refine h.of_same rfl (fun m _ hm => ?_) hcounts
      rw [hpc] at hm
      refine ⟨by omega, ?_⟩
      rw [wanted_skip hneeds]
      exact hm.2
  have hneeds' : ocfClLockLineNeedsLock cl i = true := by simpa using hneeds
  obtain ⟨hunused, hnot⟩ := h.next_unused hbase hown hmine (by omega) hneeds'
  obtain ⟨lock, hs, hwords, hqueued⟩ := h.lock_step (permitted_tryAct hunused)
  refine ⟨{ c with lock := lock, pc := if isLocked cl lock i then .fast (i + 1) else .undo (i + 1) },
    by simp [run, hpc, hend, hneeds', hnot, hs], ?_, ?_⟩
  · rw [hpc]
    dsimp only
    split
    · simp only [left]
      omega
    · simp only [left]
      omega
  · intro _ hfew
    rcases tryAct_cases hs with rfl | htook
    · -- the trylock failed: nothing but the indices behind is locked
      rw [hnot]
      refine ⟨h.words, h.queued, ⟨mine, hown, by omega, ?_⟩, hcounts⟩
      rw [hmine]
      exact part_wanted.succ
    · have hlocked : isLocked cl lock i = true := htook.locked
      rw [hlocked]
      refine ⟨hwords hfew, hqueued, ⟨_, hown.took htook, by omega, ?_⟩, ?_⟩
      · rw [wanted_succ hneeds', hmine]
      · have hwait : waitingBy cl.lists cl.id lock = waitingBy cl.lists cl.id c.lock :=
          htook.waiting
        rw [waitingNo, hwait]
        exact hcounts

theorem Inv.of_after {given : Nat} {pc' : Pc}
    (hwords : WordsTrue lock) (hqueued : Queued cl.lists lock)
    (hown : Owns cl base lock mine) (hheld : Held cl mine pc')
    (hcounts : Counts cl (waitingNo cl c.lock) c.lockRemaining c.cmplCalls pc)
    (hwait : waitingNo cl c.lock = given + waitingNo cl lock)
    (hres : resumed cl.id c.lock lock = given)
    (hpc : ∀ w r k, Counts cl w r k pc → Counts cl w r k pc') :
    Inv cl base { c.after cl lock with pc := pc' } := by
  obtain ⟨hcounts', hlk, -⟩ := counts_after hcounts hwait hres
  refine ⟨?_, ?_, ⟨mine, ?_, hheld⟩, ?_⟩
  · rw [hlk]
    exact hwords
  · rw [hlk]
    exact hqueued
  · rw [hlk]
    exact hown
  · rw [hlk]
    exact hpc _ _ _ hcounts'

variable {k : Nat}

theorem inv_unlock {mine got : List Lock}
    {pc' : Pc} (hmine : Part cl mine (k + 1)) (hk : k + 1 ≤ cl.count)
    (hgot : lockOf cl k ∈ got) (hheld : (heldBy cl.id c.lock).Perm (base ++ got))
    (hperm : (got ++ waitingBy cl.lists cl.id c.lock).Perm mine)
    (hs : (unlockOneCommon (opsOf cl.rw) cl.lists c.lock (lockOf cl k).entry).map
      (·.clear (lockOf cl k)) = some lock)
    (hl : lockOf cl k ∈ c.lock.holders) (hwords : WordsTrue lock) (hqueued : Queued cl.lists lock)
    (hcounts : Counts cl (waitingNo cl c.lock) c.lockRemaining c.cmplCalls pc)
    (hpart : ∀ m, k ≤ cl.count → Part cl m k → Held cl m pc')
    (hpc : ∀ w r n, Counts cl w r n pc → Counts cl w r n pc') :
    Inv cl base { c.after cl lock with pc := pc' } := by
  obtain ⟨given, hheld', hwait, hres⟩ := unlock_own cl.lists_pos hl hs
  obtain ⟨mine', hsplit, hown'⟩ := Owns.unlock hgot hheld hperm hheld' hwait
  have hlen := hwait.length_eq
  rw [List.length_append] at hlen
  exact Inv.of_after hwords hqueued hown' (hpart mine' (by omega) (hmine.of_cons hsplit)) hcounts
    hlen hres hpc

/-- Undoing goes on to its end. -/
theorem goes_undo (hbase : Apart cl base) (h : Inv cl base c) (hpc : c.pc = .undo k)
    (alloc : Bool) : Goes cl base alloc c := by
  obtain ⟨mine, hown, hheld⟩ := h.mine
  have hcounts := h.counts
  rw [hpc] at hheld hcounts
  obtain ⟨hk, hmine⟩ := hheld
  cases k with
  | zero =>
    refine ⟨{ c with pc := .prepare }, by simp only [run, hpc], ?_, ?_⟩
    · rw [hpc]
      simp only [left]
      omega
    · intro _ _
      refine h.of_same rfl (fun m _ hm => ?_) hcounts
      rw [hpc] at hm
      exact hm.2.zero
  | succ k =>
    by_cases hlock : (ocfClLockLineNeedsLock cl k && isLocked cl c.lock k) = true
    · obtain ⟨hneeds, hlocked⟩ := Bool.and_eq_true_iff.mp hlock
      obtain ⟨hl, -, got, hgot, hheld, hperm⟩ :=
        hown.of_locked hbase hmine.2 (by omega) hneeds hlocked
      obtain ⟨lock, hs, hwords, hqueued⟩ := h.lock_step (permitted_unlockAct hl)
      refine ⟨{ c.after cl lock with pc := .undo k }, by simp [run, hpc, hlock, hs], ?_, ?_⟩
      · rw [hpc]
        simp only [left]
        omega
      · intro _ hfew
        have hafter : (c.after cl lock).lock = lock :=
          (iterate_entryLocked { c with lock := lock } _).2.2.1
        exact inv_unlock hmine hk hgot hheld hperm (step_unlockAct.symm.trans hs) hl
          (hwords (hafter ▸ hfew)) hqueued hcounts (fun m hle hm => ⟨hle, hm⟩) (fun _ _ _ hc => hc)
    · refine ⟨{ c with pc := .undo k }, by simp only [run, hpc, if_neg hlock], ?_, ?_⟩
      · rw [hpc]
        simp only [left]
        omega
      · intro _ _
        refine ⟨h.words, h.queued, ⟨mine, hown, by omega, ?_⟩, hcounts⟩
        by_cases hneeds : ocfClLockLineNeedsLock cl k = true
        · refine hmine.of_not_mem fun hmem => ?_
          -- nothing waits in the fast path, so an own lock is a held one
          obtain ⟨got, hheld, hperm⟩ := hown
          have hnil : waitingBy cl.lists cl.id c.lock = [] :=
            List.eq_nil_of_length_eq_zero hcounts.1
          rw [hnil, append_nil] at hperm
          have hheld' := hheld.symm.subset (List.mem_append_right _ (hperm.symm.subset hmem))
          have hlocked := isLocked_of_mem (mem_filter.mp hheld').1
          rw [hneeds, hlocked] at hlock
          exact hlock rfl
        · exact hmine.skip (by simpa using hneeds)

theorem goes_prepare (h : Inv cl base c) (hpc : c.pc = .prepare) (alloc : Bool) :
    Goes cl base alloc c := by
  have hcounts := h.counts
  rw [hpc] at hcounts
  obtain ⟨hwait, hrem, hcalls⟩ := hcounts
  refine ⟨{ c with lockRemaining := cl.count + 1, pc := .slow 0 }, by simp [run, hpc, hrem], ?_, ?_⟩
  · rw [hpc]
    simp only [left]
    omega
  · intro _ _
    refine h.of_same rfl (fun m _ hm => ?_) ⟨?_, hcalls⟩
    · rw [hpc] at hm
      exact ⟨Nat.zero_le _, hm⟩
    · rw [hwait]
      simp only [Nat.sub_zero]
      omega

theorem inv_slow_took (hi : i < cl.count)
    (hneeds : ocfClLockLineNeedsLock cl i = true) (hwords : WordsTrue lock)
    (hqueued : Queued cl.lists lock) (hown : Owns cl base c.lock (wanted cl i))
    (hrem : c.lockRemaining = 1 + waitingNo cl c.lock + (cl.count - i : Nat))
    (hcalls : c.cmplCalls = 0) (htook : TookLock cl.lists c.lock lock (lockOf cl i)) :
    Inv cl base { ocfAlockEntryLocked { c with lock := lock } with pc := .slow (i + 1) } := by
  have hwait : waitingBy cl.lists cl.id lock = waitingBy cl.lists cl.id c.lock := htook.waiting
  refine ⟨hwords, hqueued, ⟨_, hown.took htook, hi, (wanted_succ hneeds).symm⟩, ?_, ?_⟩
  · have hno : waitingNo cl lock = waitingNo cl c.lock := by rw [waitingNo, hwait, waitingNo]
    simp only [ocfAlockEntryLocked]
    omega
  · simp only [ocfAlockEntryLocked]
    rw [if_neg (by omega)]
    exact hcalls

/-- The slow path goes on. -/
theorem goes_slow (hbase : Apart cl base) (h : Inv cl base c) (hpc : c.pc = .slow i)
    (alloc : Bool) : Goes cl base alloc c := by
  obtain ⟨mine, hown, hheld⟩ := h.mine
  have hcounts := h.counts
  rw [hpc] at hheld hcounts
  obtain ⟨hi, hmine⟩ := hheld
  obtain ⟨hrem, hcalls⟩ := hcounts
  by_cases hend : cl.count ≤ i
  · refine ⟨{ c with pc := .finish }, by simp only [run, hpc, if_pos hend], ?_, ?_⟩
    · rw [hpc]
      simp only [left]
      omega
    · intro _ _
      have hlast : i = cl.count := by omega
      refine h.of_same rfl (fun m _ hm => ?_) ⟨by dsimp only; omega, hcalls⟩
      rw [hpc, hlast] at hm
      exact hm.2
  by_cases hneeds : ocfClLockLineNeedsLock cl i = false
  · refine ⟨{ c with lockRemaining := c.lockRemaining - 1, pc := .slow (i + 1) },
      by simp only [run, hpc, if_neg hend, if_pos hneeds], ?_, ?_⟩
    · rw [hpc]
      simp only [left]
      omega
    · intro _ _
      refine h.of_same rfl (fun m _ hm => ?_) ⟨by dsimp only; omega, hcalls⟩
      rw [hpc] at hm
      refine ⟨by omega, ?_⟩
      rw [wanted_skip hneeds]
      exact hm.2
  have hneeds' : ocfClLockLineNeedsLock cl i = true := by simpa using hneeds
  obtain ⟨hunused, hnot⟩ := h.next_unused hbase hown hmine (by omega) hneeds'
  obtain ⟨lock, hs, hwords, hqueued⟩ := h.lock_step (permitted_tryAct hunused)
  have hrun : run cl alloc c = some (if isLocked cl lock i then
      { ocfAlockEntryLocked { c with lock := lock } with pc := .slow (i + 1) }
    else { c with lock := lock, pc := if alloc then .queue i else .rollback (i + 1) }) := by
    simp [run, hpc, hend, hneeds', hnot, hs]
  refine ⟨_, hrun, ?_, ?_⟩
  · rw [hpc]
    split
    · simp only [left]
      omega
    · cases alloc with
      | false =>
        simp only [left, Bool.false_eq_true, if_false]
        omega
      | true =>
        simp only [left, if_true]
        omega
  · intro _ hfew
    rcases tryAct_cases hs with rfl | htook
    · have hroom : 2 + (waitingNo cl c.lock : Int) ≤ c.lockRemaining := by omega
      rw [hnot]
      refine ⟨h.words, h.queued, ⟨mine, hown, ?_⟩, ?_⟩
      · cases alloc with
        | false =>
          refine ⟨by omega, ?_⟩
          rw [hmine]
          exact part_wanted.succ
        | true => exact ⟨by omega, hneeds', hmine⟩
      · cases alloc with
        | false => exact ⟨hroom, hcalls⟩
        | true => exact ⟨hrem, hcalls⟩
    · have hlocked : isLocked cl lock i = true := htook.locked
      rw [hlocked] at hfew ⊢
      rw [hmine] at hown
      exact inv_slow_took (by omega) hneeds' (hwords hfew) hqueued hown hrem hcalls htook

theorem goes_queue (hbase : Apart cl base) (h : Inv cl base c) (hpc : c.pc = .queue i)
    (alloc : Bool) : Goes cl base alloc c := by
  obtain ⟨mine, hown, hheld⟩ := h.mine
  have hcounts := h.counts
  rw [hpc] at hheld hcounts
  obtain ⟨hi, hneeds, hmine⟩ := hheld
  obtain ⟨hrem, hcalls⟩ := hcounts
  obtain ⟨hunused, hnot⟩ := h.next_unused hbase hown hmine hi hneeds
  obtain ⟨lock, hs, hwords, hqueued⟩ := h.lock_step (permitted_lockAct hunused)
  have hrun : run cl alloc c = some (if isLocked cl lock i then
      { ocfAlockEntryLocked { c with lock := lock } with pc := .slow (i + 1) }
    else { c with lock := lock, pc := .slow (i + 1) }) := by
    simp [run, hpc, hs]
  refine ⟨_, hrun, ?_, ?_⟩
  · rw [hpc]
    split
    · simp only [left]
      omega
    · simp only [left]
      omega
  · intro _ hfew
    rw [hmine] at hown
    rcases lockAct_cases hs with rfl | htook
    · have hnot' : isLocked cl (c.lock.waitlistAdd cl.lists (lockOf cl i)) i = false := hnot
      have hwait : waitingNo cl (c.lock.waitlistAdd cl.lists (lockOf cl i)) =
          waitingNo cl c.lock + 1 := by
        have hadd := @waitingBy_waitlistAdd cl.lists c.lock (lockOf cl i) cl.lists_pos
        have hlen := hadd.length_eq
        rw [List.length_append] at hlen
        exact hlen
      rw [hnot'] at hfew ⊢
      refine ⟨hwords hfew, hqueued, ⟨_, hown.queue, hi, (wanted_succ hneeds).symm⟩, ?_, hcalls⟩
      change c.lockRemaining = 1 + (waitingNo cl (c.lock.waitlistAdd cl.lists (lockOf cl i)) : Int) +
        (cl.count - (i + 1) : Nat)
      rw [hwait]
      omega
    · have hlocked : isLocked cl lock i = true := htook.locked
      rw [hlocked] at hfew ⊢
      exact inv_slow_took hi hneeds (hwords hfew) hqueued hown hrem hcalls htook

variable {s : State}

theorem Owns.waiting (h : Owns cl base s mine)
    (hl : l ∈ mine) (hnot : l ∉ s.holders) : l ∈ waitingBy cl.lists cl.id s := by
  obtain ⟨got, hheld, hperm⟩ := h
  rcases List.mem_append.mp (hperm.symm.subset hl) with hgot | hwait
  · have hmem := hheld.symm.subset (List.mem_append_right base hgot)
    exact absurd (mem_filter.mp hmem).1 hnot
  · exact hwait

theorem not_waiting (hq : Queued cl.lists s)
    (hnone : findWaiter cl.id (s.waitersLsts (l.entry % cl.lists)) = none) :
    l ∉ waitingBy cl.lists cl.id s := by
  intro hl
  obtain ⟨w, hw, rfl⟩ := List.mem_map.mp hl
  obtain ⟨hmem, hreq⟩ := home_of_queuedBy hq hw
  have hno := List.find?_eq_none.mp hnone w hmem
  exact hno (decide_eq_true hreq)

theorem part_unlink (hown : Owns cl base c.lock mine) (hmine : Part cl mine (k + 1))
    (hnot : lockOf cl k ∉ c.lock.holders) {w : Waiter}
    (hw : findWaiter cl.id (c.lock.waitersLsts ((lockOf cl k).entry % cl.lists)) = some w)
    (hfirst : lockOf cl k ∈ waitingBy cl.lists cl.id c.lock → w.idx = k) :
    ∃ mine', Owns cl base (c.lock.unlink cl.lists (lockOf cl k).entry cl.id) mine' ∧
      Part cl mine' k := by
  have hwait := waitingBy_unlink cl.lists_pos hw
  have hheld : heldBy cl.id (c.lock.unlink cl.lists (lockOf cl k).entry cl.id) =
      heldBy cl.id c.lock := by
    simp only [State.unlink, hw]
    rfl
  obtain ⟨mine', hsplit, hown'⟩ := hown.unlink hwait hheld
  refine ⟨mine', hown', ?_⟩
  by_cases hk : lockOf cl k ∈ mine
  · obtain ⟨j, -, -, hj⟩ := mem_wanted.mp (hmine.2 (hsplit.symm.subset List.mem_cons_self))
    have hjk : j = k := by
      have hidx : (lockOf cl j).idx = w.idx := congrArg Lock.idx hj
      exact hidx.trans (hfirst (hown.waiting hk hnot))
    rw [← hj, hjk] at hsplit
    exact hmine.of_cons hsplit
  · exact ((hmine.of_not_mem hk).tail hsplit).1

theorem after_eq (h : resumed cl.id c.lock lock = 0) :
    c.after cl lock = { c with lock := lock } := by
  rw [Call.after, h]
  rfl

/-- A rollback goes on to its end. -/
theorem goes_rollback (hbase : Apart cl base) (h : Inv cl base c)
    (hpc : c.pc = .rollback k) (alloc : Bool) : Goes cl base alloc c := by
  obtain ⟨mine, hown, hheld⟩ := h.mine
  have hcounts := h.counts
  rw [hpc] at hheld hcounts
  obtain ⟨hk, hmine⟩ := hheld
  cases k with
  | zero =>
    have hnil : mine = [] := hmine.zero
    rw [hnil] at hown
    refine ⟨{ c with pc := .fail }, by simp only [run, hpc], ?_, ?_⟩
    · rw [hpc]
      simp only [left]
      omega
    · intro _ _
      refine ⟨h.words, h.queued, ⟨[], hown, rfl⟩, ?_, hcounts.2⟩
      exact List.length_eq_zero_iff.mpr hown.nil.2
  | succ k =>
    by_cases hneeds : ocfClLockLineNeedsLock cl k = true
    · have hperm : Permitted c.lock (.waitlistRemoveEntry (lockOf cl k)) := by
        intro l hl hr hidx
        exact (hown.of_held hbase hmine.2 (by omega) hneeds hl hr hidx).1
      obtain ⟨lock, hs, hwords, hqueued⟩ := h.lock_step hperm
      refine ⟨{ c.after cl lock with pc := .rollback k }, by simp [run, hpc, hneeds, hs], ?_, ?_⟩
      · rw [hpc]
        simp only [left]
        omega
      · intro hfirst hfew
        have hafter : (c.after cl lock).lock = lock :=
          (iterate_entryLocked { c with lock := lock } _).2.2.1
        have hwords' := hwords (hafter ▸ hfew)
        simp only [step, ocfAlockWaitlistRemoveEntry] at hs
        split at hs
        · rename_i hlocked
          obtain ⟨hl, -, got, hgot, hheld, hmineperm⟩ :=
            hown.of_locked hbase hmine.2 (by omega) hneeds hlocked
          exact inv_unlock hmine hk hgot hheld hmineperm hs hl hwords' hqueued hcounts
            (fun m hle hm => ⟨hle, hm⟩) (fun _ _ _ hc => hc)
        · rename_i hlocked
          have hnot : lockOf cl k ∉ c.lock.holders := fun hl => hlocked (isLocked_of_mem hl)
          obtain rfl := Option.some.inj hs
          rw [OwnWaiterFirst, hpc] at hfirst
          cases hw : findWaiter cl.id (c.lock.waitersLsts ((lockOf cl k).entry % cl.lists)) with
          | none =>
            have hsame : c.lock.unlink cl.lists (lockOf cl k).entry (lockOf cl k).req = c.lock := by
              simp only [State.unlink]
              rw [show (lockOf cl k).req = cl.id from rfl, hw]
            rw [hsame, after_eq (resumed_eq_zero rfl)]
            refine ⟨h.words, h.queued, ⟨mine, hown, by omega, ?_⟩, hcounts⟩
            exact hmine.of_not_mem fun hmem => not_waiting h.queued hw (hown.waiting hmem hnot)
          | some w =>
            obtain ⟨mine', hown', hpart⟩ :=
              part_unlink hown hmine hnot hw (fun hwait => hfirst hwait w hw)
            have hgr : (c.lock.unlink cl.lists (lockOf cl k).entry (lockOf cl k).req).granted =
                c.lock.granted := by
              simp only [State.unlink]
              split <;> rfl
            have hlen := (waitingBy_unlink cl.lists_pos hw).length_eq
            rw [List.length_cons] at hlen
            rw [after_eq (resumed_eq_zero hgr)]
            refine ⟨hwords', hqueued, ⟨mine', hown', by omega, hpart⟩, ?_, hcounts.2⟩
            have hroom := hcounts.1
            rw [waitingNo, hlen] at hroom
            change 2 + (waitingNo cl (c.lock.unlink cl.lists (lockOf cl k).entry cl.id) : Int) ≤
              c.lockRemaining
            rw [waitingNo]
            omega
    · refine ⟨{ c with pc := .rollback k }, by simp only [run, hpc, if_neg hneeds], ?_, ?_⟩
      · rw [hpc]
        simp only [left]
        omega
      · intro _ _
        refine ⟨h.words, h.queued, ⟨mine, hown, by omega, ?_⟩, hcounts⟩
        exact hmine.skip (by simpa using hneeds)

theorem goes_finish (h : Inv cl base c) (hpc : c.pc = .finish) (alloc : Bool) :
    Goes cl base alloc c := by
  obtain ⟨mine, hown, hheld⟩ := h.mine
  have hcounts := h.counts
  rw [hpc] at hheld hcounts
  obtain ⟨hrem, hcalls⟩ := hcounts
  refine ⟨{ c with
    lockRemaining := c.lockRemaining - 1
    pc := .done (if c.lockRemaining - 1 = 0 then .acquired else .notAcquired) },
    by simp only [run, hpc], ?_, ?_⟩
  · rw [hpc]
    simp only [left]
    omega
  · intro _ _
    by_cases hzero : c.lockRemaining - 1 = 0
    · rw [if_pos hzero]
      exact ⟨h.words, h.queued, ⟨mine, hown, hheld⟩, by dsimp only; omega, hzero, hcalls⟩
    · rw [if_neg hzero]
      have hwait : waitingNo cl c.lock ≠ 0 := by omega
      refine ⟨h.words, h.queued, ⟨mine, hown, hheld⟩, by dsimp only; omega, ?_⟩
      rw [if_neg hwait]
      exact hcalls

theorem goes_fail (h : Inv cl base c) (hpc : c.pc = .fail) (alloc : Bool) :
    Goes cl base alloc c := by
  have hcounts := h.counts
  rw [hpc] at hcounts
  refine ⟨{ c with lockRemaining := 0, pc := .done .noMem }, by simp only [run, hpc], ?_, ?_⟩
  · rw [hpc]
    simp only [left]
    omega
  · intro _ _
    refine h.of_same rfl (fun m _ hm => ?_) ⟨hcounts.1, rfl, hcounts.2⟩
    rw [hpc] at hm
    exact hm

theorem goes (hbase : Apart cl base) (h : Inv cl base c) (alloc : Bool)
    (hpc : ∀ result, c.pc ≠ .done result) : Goes cl base alloc c := by
  cases hcase : c.pc with
  | fast i => exact goes_fast hbase h hcase alloc
  | undo k => exact goes_undo hbase h hcase alloc
  | prepare => exact goes_prepare h hcase alloc
  | slow i => exact goes_slow hbase h hcase alloc
  | queue i => exact goes_queue hbase h hcase alloc
  | rollback k => exact goes_rollback hbase h hcase alloc
  | finish => exact goes_finish h hcase alloc
  | fail => exact goes_fail h hcase alloc
  | done result => exact absurd hcase (hpc result)

theorem Owns.all_held (h : Owns cl base s mine)
    (hwait : waitingNo cl s = 0) (hl : l ∈ mine) : l ∈ s.holders := by
  by_contra hnot
  have hmem := h.waiting hl hnot
  rw [List.eq_nil_of_length_eq_zero hwait] at hmem
  exact List.not_mem_nil hmem

theorem Owns.exists_waiting (hbase : Apart cl base)
    (h : Owns cl base s (wanted cl k)) (hk : k ≤ cl.count) (hwait : waitingNo cl s ≠ 0) :
    ∃ i < k, ocfClLockLineNeedsLock cl i = true ∧ lockOf cl i ∉ s.holders := by
  obtain ⟨got, hheld, hperm⟩ := h
  obtain ⟨l, hl⟩ := List.exists_mem_of_ne_nil _ (List.length_pos_iff.mp (Nat.pos_of_ne_zero hwait))
  obtain ⟨i, hi, hneeds, rfl⟩ := mem_wanted.mp (hperm.subset (List.mem_append_right got hl))
  refine ⟨i, hi, hneeds, fun hmem => ?_⟩
  have hown := hheld.subset (mem_filter.mpr ⟨hmem, decide_eq_true rfl⟩)
  rcases List.mem_append.mp hown with hb | hgot
  · have hlt : i < cl.count := Nat.lt_of_lt_of_le hi hk
    exact hbase _ hb ⟨hlt, hneeds⟩
  · have hnodup := hperm.nodup_iff.mpr (nodup_wanted cl k)
    exact (List.nodup_append.mp hnodup).2.2 _ hgot _ hl rfl

theorem Inv.outcome (hbase : Apart cl base) (h : Inv cl base c) : Outcome cl c := by
  obtain ⟨mine, hown, hheld⟩ := h.mine
  have hcounts := h.counts
  unfold Outcome
  split
  · rename_i hpc
    rw [hpc] at hheld hcounts
    refine ⟨fun i hi hneeds => hown.all_held hcounts.1 ?_, hcounts.2.2⟩
    rw [hheld]
    exact mem_wanted.mpr ⟨i, hi, hneeds, rfl⟩
  · rename_i hpc
    rw [hpc] at hheld hcounts
    rw [hheld] at hown
    obtain ⟨-, hcalls⟩ := hcounts
    refine ⟨fun i hi hneeds => ?_, ?_⟩
    · rw [or_iff_not_imp_left]
      exact hown.waiting (mem_wanted.mpr ⟨i, hi, hneeds, rfl⟩)
    by_cases hwait : waitingNo cl c.lock = 0
    · rw [if_pos hwait] at hcalls
      refine .inl ⟨fun i hi hneeds => hown.all_held hwait ?_, hcalls⟩
      exact mem_wanted.mpr ⟨i, hi, hneeds, rfl⟩
    · rw [if_neg hwait] at hcalls
      refine .inr ⟨fun hall => ?_, hcalls⟩
      obtain ⟨i, hi, hneeds, hnot⟩ := hown.exists_waiting hbase (Nat.le_refl _) hwait
      exact hnot (hall i hi hneeds)
  · rename_i hpc
    rw [hpc] at hheld hcounts
    rw [hheld] at hown
    refine ⟨hcounts.2.2, fun i w hw hreq => ?_, fun i hi hneeds => ?_, hcounts.2.1⟩
    · have hmem := (mem_queuedBy cl.lists_pos h.queued hw).mpr hreq
      have hnil := List.map_eq_nil_iff.mp hown.nil.2
      rw [hnil] at hmem
      exact List.not_mem_nil hmem
    · exact hown.not_locked hbase (List.nil_subset (wanted cl 0)) hi hneeds (Nat.zero_le i)
  · cases hpc : c.pc with
    | done result =>
      cases result with
      | acquired => contradiction
      | notAcquired => contradiction
      | noMem => contradiction
    | fast i =>
      rw [hpc] at hcounts
      exact hcounts.2.2
    | undo k =>
      rw [hpc] at hcounts
      exact hcounts.2.2
    | prepare =>
      rw [hpc] at hcounts
      exact hcounts.2.2
    | _ =>
      rw [hpc] at hcounts
      exact hcounts.2

theorem Inv.advances (hbase : Apart cl base) (h : Inv cl base c) : Advances cl c := by
  by_cases hdone : ∃ result, c.pc = .done result
  · exact .inl hdone
  · refine .inr fun alloc => ?_
    obtain ⟨c', hrun, hleft, -⟩ := goes hbase h alloc fun result hpc => hdone ⟨result, hpc⟩
    exact ⟨c', hrun, hleft⟩

theorem inv_next {act : Act} {c' : Call} (hbase : Apart cl base) (h : Inv cl base c)
    (hg : Guard cl c act) (hs : next cl c act = some c') (hfew : FewReaders c'.lock) :
    Inv cl base c' := by
  cases act with
  | other act =>
    obtain ⟨lock, hlock, rfl⟩ := Option.map_eq_some_iff.mp hs
    have hafter : (c.after cl lock).lock = lock :=
      (iterate_entryLocked { c with lock := lock } _).2.2.1
    rw [hafter] at hfew
    exact inv_other h hg hlock hfew
  | run alloc =>
    have hpc : ∀ result, c.pc ≠ .done result := by
      intro result hpc
      simp only [next, run, hpc] at hs
      cases hs
    obtain ⟨c'', hrun, -, hinv⟩ := goes hbase h alloc hpc
    have heq : c'' = c' := Option.some.inj (hrun.symm.trans hs)
    rw [heq] at hinv
    exact hinv hg hfew

theorem inv_start (h : Start cl c) :
    Apart cl (heldBy cl.id c.lock) ∧ Inv cl (heldBy cl.id c.lock) c := by
  obtain ⟨hrun, hpc, hrem, hcalls, hfree, hbase⟩ := h
  have hwait : waitingBy cl.lists cl.id c.lock = [] := by
    rw [waitingBy, List.map_eq_nil_iff, queuedBy, List.filter_eq_nil_iff]
    intro w hw
    obtain ⟨i, -, hi⟩ := List.mem_flatMap.mp hw
    simpa using hfree i w hi
  refine ⟨fun l hl => ?_, wordsTrue_of_run hrun,
    queued_of_reachable (hrun.mono fun _ _ => trivial), ⟨[], ⟨[], ?_, ?_⟩, ?_⟩, ?_⟩
  · obtain ⟨hmem, hr⟩ := mem_filter.mp hl
    exact hbase l hmem (of_decide_eq_true hr)
  · rw [append_nil]
  · rw [hwait]
    exact List.Perm.refl _
  · rw [hpc]
    exact ⟨Nat.zero_le _, rfl⟩
  · rw [hpc]
    exact ⟨List.length_eq_zero_iff.mpr hwait, hrem, hcalls⟩

end Run

/-- Along every run in which the error path finds its own waiters first, the
call locks all lines of the request or none of them, its completion is called
when the last awaited line is locked and at no other time, and every step that
is left to the call succeeds and brings it closer to its return. -/
theorem lock_all_or_nothing {cl : Client} {start c : Call} (h0 : Start cl start)
    (h : RunIn (callSystem cl) (fun c => FewReaders c.lock) start c) :
    Outcome cl c ∧ Advances cl c := by
  obtain ⟨hbase, hinv⟩ := inv_start h0
  have hinv' : Inv cl (heldBy cl.id start.lock) c := by
    refine h.invariant (fun _ => hinv) ?_
    intro s act s' hs _ hg hstep hfew
    exact inv_next hbase hs hg hstep hfew
  exact ⟨hinv'.outcome hbase, hinv'.advances hbase⟩

/-- A write of three hits whose first two lines share a waiters list. -/
def threeHits : Client where
  lists := 699050
  lists_pos := waitersLists_pos
  id := 1
  rw := .write
  count := 3
  map i := ⟨i, i % 2 * 699050 + i / 2, i, 0, .hit, false, false, false⟩

/-- Another request's lock of one of these lines. -/
def lockElsewhere (i : Nat) : Lock := ⟨(threeHits.map i).collIdx, i, 0, .write⟩

/-- The other request holds the three lines. -/
def lockedElsewhere : State :=
  ((init.hold (lockElsewhere 0) accessWr).hold (lockElsewhere 1) accessWr).hold
    (lockElsewhere 2) accessWr

/-- The call begins. -/
def threeHitsStart : Call := ⟨lockedElsewhere, .fast 0, 0, 0⟩

theorem fewReaders_of_length (h : s.holders.length ≤ 254) : FewReaders s :=
  fun _ => Nat.le_trans List.countP_le_length h

theorem threeHitsStart_start : Start threeHits threeHitsStart := by
  have hrun : RunIn (alock 699050) FewReaders init init :=
    .refl (fewReaders_of_length (by decide))
  have hone : RunIn (alock 699050) FewReaders init (init.hold (lockElsewhere 0) accessWr) :=
    hrun.step (.trylockEntryWr (lockElsewhere 0)) ⟨rfl, by simp [Unused, init]⟩ rfl
      (fewReaders_of_length (by decide))
  have htwo : RunIn (alock 699050) FewReaders init
      ((init.hold (lockElsewhere 0) accessWr).hold (lockElsewhere 1) accessWr) :=
    hone.step (.trylockEntryWr (lockElsewhere 1))
      ⟨rfl, by simp [Unused, init, State.hold, lockElsewhere]⟩ rfl
      (fewReaders_of_length (by decide))
  have hthree : RunIn (alock 699050) FewReaders init lockedElsewhere :=
    htwo.step (.trylockEntryWr (lockElsewhere 2))
      ⟨rfl, by simp [Unused, init, State.hold, lockElsewhere]⟩ rfl
      (fewReaders_of_length (by decide))
  refine ⟨hthree, rfl, rfl, rfl, ?_, ?_⟩
  · intro i w hw
    cases hw
  · simp [threeHitsStart, lockedElsewhere, State.hold, init, lockElsewhere, threeHits]

/-- Other requests keep the contract of the lock; the call takes any step. -/
def AnyGuard (cl : Client) (c : Call) : Act → Prop
  | .other act => (actionLock act).req ≠ cl.id ∧ Permitted c.lock act
  | .run _ => True

/-- The call among other requests, without the condition. -/
def anySystem (cl : Client) : System Call Act := ⟨AnyGuard cl, next cl⟩

/-- Unlocks of held locks by others and steps of the call, with few holders. -/
def unlocksOnly (cl : Client) (c : Call) (act : Act) : Bool :=
  (match act with
    | .other (.unlockOneWr l) =>
      decide (l.req ≠ cl.id) && decide (l.rw = .write ∧ l ∈ c.lock.holders)
    | .other _ => false
    | .run _ => true) &&
  (next cl c act).all fun c' => decide (c'.lock.holders.length ≤ 254)

theorem anyGuard_of_unlocksOnly {c c' : Call} {act : Act}
    (h : unlocksOnly cl c act = true) (hs : next cl c act = some c') :
    AnyGuard cl c act ∧ FewReaders c'.lock := by
  obtain ⟨hact, hlen⟩ := Bool.and_eq_true_iff.mp h
  rw [hs] at hlen
  refine ⟨?_, fewReaders_of_length (of_decide_eq_true hlen)⟩
  cases act with
  | run alloc => trivial
  | other act =>
    cases act with
    | unlockOneWr l =>
      obtain ⟨hne, hheld⟩ := Bool.and_eq_true_iff.mp hact
      have hheld' : l.rw = .write ∧ l ∈ c.lock.holders := of_decide_eq_true hheld
      exact ⟨of_decide_eq_true hne, hheld'⟩
    | _ => cases hact

/-- The call is not in its error path. -/
def noError (c : Call) : Bool :=
  match c.pc with
  | .rollback _ => false
  | _ => true

theorem ownWaiterFirst_of_noError {c : Call} (h : noError c = true) : OwnWaiterFirst cl c := by
  unfold OwnWaiterFirst
  split
  · rename_i hpc
    rw [noError, hpc] at h
    cases h
  · trivial

/-- The call waits for all three lines; then the other request releases them. -/
def waitForAll : List Act :=
  List.replicate 12 (.run true) ++
    [.other (.unlockOneWr (lockElsewhere 0)), .other (.unlockOneWr (lockElsewhere 1)),
      .other (.unlockOneWr (lockElsewhere 2))]

theorem lock_all_or_nothing_threeHits :
    ∃ c, RunIn (callSystem threeHits) (fun c => FewReaders c.lock) threeHitsStart c ∧
      c.pc = .done .notAcquired ∧ c.cmplCalls = 1 ∧ Outcome threeHits c ∧ Advances threeHits c := by
  have hview : (waitForAll.foldlM (checkedStep (callSystem threeHits) fun c act =>
      unlocksOnly threeHits c act && noError c) threeHitsStart).map
        (fun c => (c.pc, c.cmplCalls)) = some (.done .notAcquired, 1) := by
    decide +kernel
  obtain ⟨c, hc, hpair⟩ := Option.map_eq_some_iff.mp hview
  obtain ⟨hpc, hcalls⟩ := Prod.mk.inj hpair
  have hrun : RunIn (callSystem threeHits) (fun c => FewReaders c.lock) threeHitsStart c := by
    refine RunIn.of_checked (fewReaders_of_length (by decide)) ?_ hc
    intro s act s' _ hok hs
    obtain ⟨hunlocks, herr⟩ := Bool.and_eq_true_iff.mp hok
    obtain ⟨hguard, hfew⟩ := anyGuard_of_unlocksOnly hunlocks hs
    refine ⟨?_, hfew⟩
    cases act with
    | other act => exact hguard
    | run alloc => exact ownWaiterFirst_of_noError herr
  exact ⟨c, hrun, hpc, hcalls, lock_all_or_nothing threeHitsStart_start hrun⟩

/-- The waiter of the third line cannot be allocated. The error path unlinks
the waiter of the first line for the second, which is granted afterwards. -/
def rollbackRace : List Act :=
  List.replicate 8 (.run true) ++ [.run false, .run true, .run true,
    .other (.unlockOneWr (lockElsewhere 1)), .run true, .run true, .run true]

/-- After the error the second line is still locked for the request. -/
theorem rollback_leaves_lock :
    ∃ c, RunIn (anySystem threeHits) (fun c => FewReaders c.lock) threeHitsStart c ∧
      c.pc = .done .noMem ∧ isLocked threeHits c.lock 1 = true ∧ ¬Outcome threeHits c := by
  have hview : (rollbackRace.foldlM (checkedStep (anySystem threeHits) (unlocksOnly threeHits))
      threeHitsStart).map (fun c => (c.pc, isLocked threeHits c.lock 1)) =
        some (.done .noMem, true) := by
    decide +kernel
  obtain ⟨c, hc, hpair⟩ := Option.map_eq_some_iff.mp hview
  obtain ⟨hpc, hlocked⟩ := Prod.mk.inj hpair
  refine ⟨c, ?_, hpc, hlocked, fun hout => ?_⟩
  · refine RunIn.of_checked (fewReaders_of_length (by decide)) ?_ hc
    intro s act s' _ hok hs
    exact anyGuard_of_unlocksOnly hok hs
  · rw [Outcome, hpc] at hout
    have hnot := hout.2.2.1 1 (by decide) rfl
    rw [hlocked] at hnot
    cases hnot

end OcfCache.AlockAllOrNothing
