import Mathlib.Data.List.Nodup
import OcfCache.AsyncLock

/-!
# Runs of the management lock

A hand-over takes one writer or the readers at the head of the queue. The
waiters are granted in the order of their arrival, and each of them is in one
place: in the queue, on the list of a thread, or completed.
-/

namespace OcfCache.AsyncLock

open Function Runs
open List (append_nil filter_cons length_append length_eq_zero_iff mem_append mem_cons)

/-- Waiters of a call in a queue. -/
def waiting (q : List Waiter) (id : Nat) : Nat := q.countP fun w => decide (w.id = id)

/-- Completions of a call that are still on the lists of threads. -/
def pending (lists : List (List Waiter × Int)) (id : Nat) : Nat := (lists.map fun l => waiting l.1 id).sum

/-- What a waiter is completed with. -/
def statusOf (s : State) (w : Waiter) : Int := if w ∈ s.granted then 0 else errNoLock

/-- The waiters of a run. -/
structure Queue (s : State) : Prop where
  /-- The order of the grants. -/
  order : s.live = true → s.arrived = s.granted ++ s.lock.waiters
  /-- Behind `ocf_async_lock_deinit` nobody waits. -/
  dead : s.live = false → s.lock.waiters = [] ∧ ∃ dropped, s.arrived = s.granted ++ dropped
  /-- Calls have numbers of their own. -/
  nodup : (s.arrived.map Waiter.id).Nodup
  /-- The numbers were given. -/
  id_lt : ∀ w ∈ s.arrived, w.id < s.calls
  /-- A waiter is in one place. -/
  total : ∀ id, (s.completed id).length + pending s.lists id + waiting s.lock.waiters id = waiting s.arrived id
  /-- Statuses of the completions that were called. -/
  told : ∀ id, ∀ st ∈ s.completed id, ∃ w ∈ s.arrived, w.id = id ∧ st = statusOf s w
  /-- Statuses of the others. -/
  listed : ∀ l ∈ s.lists, ∀ w ∈ l.1, w ∈ s.arrived ∧ l.2 = statusOf s w

/-- The invariant of a run. -/
structure Inv (s : State) : Prop extends Queue s where
  /-- Read holders. -/
  rd_eq : s.lock.rd = s.readers.length
  /-- Write holders. -/
  wr_eq : s.lock.wr = s.writers.length
  /-- A writer is alone. -/
  alone : s.lock.wr = 0 ∨ s.lock.wr = 1 ∧ s.lock.rd = 0
  /-- Without a writer only a writer is at the head of the queue, behind readers. -/
  head : s.lock.wr = 0 → ∀ w, s.lock.waiters.head? = some w → w.writeLock = true ∧ s.lock.rd ≠ 0

section Queues

variable {l : OcfAsyncLock} {q m : List Waiter}

theorem waiting_append (q q' : List Waiter) (id : Nat) : waiting (q ++ q') id = waiting q id + waiting q' id :=
  List.countP_append

theorem waiting_cons (w : Waiter) (q : List Waiter) (id : Nat) :
    waiting (w :: q) id = waiting q id + if w.id = id then 1 else 0 := by
  rw [waiting, List.countP_cons]
  simp only [decide_eq_true_eq]
  rfl

theorem waiting_pos {w : Waiter} (h : w ∈ q) : 0 < waiting q w.id :=
  List.countP_pos_iff.mpr ⟨w, h, decide_eq_true rfl⟩

theorem pending_cons (l : List Waiter × Int) (lists : List (List Waiter × Int)) (id : Nat) :
    pending (l :: lists) id = waiting l.1 id + pending lists id := by
  rw [pending, List.map_cons, List.sum_cons, pending]

variable {lists : List (List Waiter × Int)}

theorem pending_pos {l : List Waiter × Int} {w : Waiter} (hl : l ∈ lists)
    (hw : w ∈ l.1) : 0 < pending lists w.id := by
  induction lists with
  | nil => cases hl
  | cons l' lists ih =>
    rw [pending_cons]
    rcases mem_cons.mp hl with heq | hin
    · have hpos := waiting_pos (heq ▸ hw)
      omega
    · have hpos := ih hin
      omega

theorem pending_eq_zero (h : ∀ l ∈ lists, l.1 = []) (id : Nat) : pending lists id = 0 := by
  induction lists with
  | nil => rfl
  | cons l lists ih =>
    rw [pending_cons, h l List.mem_cons_self, ih fun l' hl => h l' (List.mem_cons_of_mem l hl)]
    rfl

theorem pending_set {i : Nat} {iter : Waiter} {temp : List Waiter} {status : Int}
    (h : lists[i]? = some (iter :: temp, status)) (id : Nat) :
    pending lists id = pending (lists.set i (temp, status)) id + if iter.id = id then 1 else 0 := by
  induction lists generalizing i with
  | nil => cases h
  | cons l lists ih =>
    cases i with
    | zero =>
      cases h
      rw [List.set_cons_zero, pending_cons, pending_cons]
      dsimp only
      rw [waiting_cons]
      omega
    | succ i =>
      have hrest := ih h
      rw [List.set_cons_succ, pending_cons, pending_cons, hrest]
      omega

/-- A hand-over takes one writer, or readers and no writer behind them. -/
structure HandOver (lock lock' : OcfAsyncLock) (q batch : List Waiter) : Prop where
  /-- The head of the queue. -/
  split : q = batch ++ lock'.waiters
  /-- Readers. -/
  rd_eq : lock'.rd = lock.rd + (batch.filter (!·.writeLock)).length
  /-- Writers. -/
  wr_eq : lock'.wr = (batch.filter (·.writeLock)).length
  /-- One writer or readers. -/
  cases : (∃ w, batch = [w] ∧ w.writeLock = true ∧ lock'.rd = 0) ∨ (∀ w ∈ batch, w.writeLock = false) ∧
    ∀ w, lock'.waiters.head? = some w → w.writeLock = true ∧ lock'.rd ≠ 0

/-- `_ocf_async_lock_collect_waiters`. -/
theorem collectFrom_spec (hwr : l.wr = 0) :
    ∃ batch, (collectFrom m l q).1 = m ++ batch ∧ HandOver l (collectFrom m l q).2 q batch := by
  induction q generalizing m l with
  | nil =>
    refine ⟨[], (append_nil m).symm, rfl, rfl, hwr, .inr ⟨nofun, nofun⟩⟩
  | cons iter temp ih =>
    rw [collectFrom]
    by_cases hread : iter.writeLock = false
    · rw [if_pos hread]
      obtain ⟨batch, hmoved, hsplit, hrd, hwr', hcases⟩ := ih (m := m ++ [iter])
        (l := { l with rd := l.rd + 1 }) hwr
      refine ⟨iter :: batch, by rw [hmoved, List.append_assoc]; rfl, by rw [List.cons_append, ← hsplit], ?_, ?_, ?_⟩
      · rw [hrd, filter_cons, hread]
        change l.rd + 1 + _ = l.rd + (_ + 1)
        omega
      · rw [hwr', filter_cons, hread]
        rfl
      · rcases hcases with ⟨w, -, -, hzero⟩ | ⟨hall, hhead⟩
        · change _ = l.rd + 1 + _ at hrd
          omega
        · refine .inr ⟨fun w hw => ?_, hhead⟩
          rcases mem_cons.mp hw with heq | hin
          · rw [heq]
            exact hread
          · exact hall w hin
    · rw [if_neg hread]
      have hwrite : iter.writeLock = true := Bool.not_eq_false _ ▸ hread
      by_cases hz : l.rd = 0
      · rw [if_pos hz]
        refine ⟨[iter], rfl, rfl, ?_, ?_, .inl ⟨iter, rfl, hwrite, hz⟩⟩
        · rw [filter_cons, hwrite]
          rfl
        · rw [filter_cons, hwrite]
          rfl
      · rw [if_neg hz]
        refine ⟨[], (append_nil m).symm, rfl, rfl, hwr, .inr ⟨nofun, fun w hw => ?_⟩⟩
        cases hw
        exact ⟨hwrite, hz⟩

end Queues

section Steps

variable {s s' : State} {id : Nat} {b : List Waiter} {l : OcfAsyncLock}

theorem Queue.waiting_le (h : Queue s) (id : Nat) : waiting s.arrived id ≤ 1 := by
  have hcount : waiting s.arrived id = (s.arrived.map Waiter.id).count id := by
    rw [List.count, List.countP_map, waiting]
    refine List.countP_congr fun w _ => ?_
    simp
  rw [hcount]
  exact List.nodup_iff_count_le_one.mp h.nodup id

variable {w : Waiter}

theorem Queue.queued (h : Queue s) (hw : w ∈ s.lock.waiters) :
    s.completed w.id = [] ∧ ∀ l ∈ s.lists, w ∉ l.1 := by
  have htotal := h.total w.id
  have hle := h.waiting_le w.id
  have hpos := waiting_pos hw
  refine ⟨length_eq_zero_iff.mp (by omega), fun l hl hin => ?_⟩
  have hpend := pending_pos hl hin
  omega

theorem statusOf_grant (hw : w ∉ b) : statusOf (s.grant b) w = statusOf s w := by
  have hmem : w ∈ s.granted ++ b ↔ w ∈ s.granted := by
    rw [mem_append, or_iff_left hw]
  exact if_congr hmem rfl rfl

theorem Queue.grant (h : Queue s) (hlive : s.live = true) (hsplit : s.lock.waiters = b ++ l.waiters) :
    Queue ({ s with lock := l }.grant b) := by
  have hsub : ∀ w ∈ b, w ∈ s.lock.waiters := by
    intro w hw
    rw [hsplit]
    exact List.mem_append_left _ hw
  refine ⟨fun _ => ?_, fun hd => ?_, h.nodup, h.id_lt, fun id => ?_, fun id st hst => ?_, fun ws hl w hw => ?_⟩
  · change s.arrived = (s.granted ++ b) ++ l.waiters
    rw [h.order hlive, List.append_assoc, ← hsplit]
  · change s.live = false at hd
    rw [hlive] at hd
    cases hd
  · change (s.completed id).length + pending ((b, 0) :: s.lists) id + waiting l.waiters id = waiting s.arrived id
    have htotal := h.total id
    rw [hsplit, waiting_append] at htotal
    rw [pending_cons]
    dsimp only
    omega
  · obtain ⟨w, hw, hid, heq⟩ := h.told id st hst
    have hnot : w ∉ b := by
      intro hin
      have hnone := (h.queued (hsub w hin)).1
      rw [hid] at hnone
      change st ∈ s.completed id at hst
      rw [hnone] at hst
      cases hst
    exact ⟨w, hw, hid, heq.trans (statusOf_grant (s := { s with lock := l }) hnot).symm⟩
  · rcases mem_cons.mp hl with heq | hin
    · rw [heq] at hw ⊢
      refine ⟨?_, (if_pos (List.mem_append_right _ hw)).symm⟩
      change w ∈ s.arrived
      rw [h.order hlive]
      exact List.mem_append_right _ (hsub w hw)
    · obtain ⟨harr, heq⟩ := h.listed ws hin w hw
      have hnot : w ∉ b := fun hb => (h.queued (hsub w hb)).2 ws hin hw
      exact ⟨harr, heq.trans (statusOf_grant (s := { s with lock := l }) hnot).symm⟩

theorem Queue.handOver (h : Queue s) (hlive : s.live = true) (hrd : s.lock.rd = s.readers.length)
    (hwr : s.lock.wr = 0) (hnone : s.writers = []) :
    Inv ({ s with lock := (ocfAsyncLockCollectWaiters s.lock).2 }.grant (ocfAsyncLockCollectWaiters s.lock).1) := by
  obtain ⟨batch, hbatch, hspec⟩ := collectFrom_spec (m := []) (q := s.lock.waiters) hwr
  rw [List.nil_append] at hbatch
  rw [ocfAsyncLockCollectWaiters, hbatch]
  obtain ⟨lock, hlock⟩ : ∃ lock, (collectFrom [] s.lock s.lock.waiters).2 = lock := ⟨_, rfl⟩
  rw [hlock] at hspec ⊢
  refine ⟨h.grant hlive hspec.split, ?_, ?_, ?_, fun hz => ?_⟩
  · change lock.rd = (s.readers ++ _).length
    rw [hspec.rd_eq, hrd, length_append, List.length_map]
  · change lock.wr = (s.writers ++ _).length
    rw [hspec.wr_eq, hnone, List.nil_append, List.length_map]
  · change lock.wr = 0 ∨ lock.wr = 1 ∧ lock.rd = 0
    rcases hspec.cases with ⟨w, hb, hw, hzero⟩ | ⟨hall, -⟩
    · refine .inr ⟨?_, hzero⟩
      rw [hspec.wr_eq, hb, filter_cons, hw]
      rfl
    · refine .inl ?_
      rw [hspec.wr_eq, length_eq_zero_iff, List.filter_eq_nil_iff]
      intro w hw
      rw [hall w hw]
      exact Bool.false_ne_true
  · rcases hspec.cases with ⟨w, hb, hw, -⟩ | ⟨-, hhead⟩
    · change lock.wr = 0 at hz
      rw [hspec.wr_eq, hb, filter_cons, hw] at hz
      cases hz
    · exact hhead

theorem Queue.congr (h : Queue s) (hwaiters : s'.lock.waiters = s.lock.waiters) (hlists : s'.lists = s.lists)
    (hcalls : s.calls ≤ s'.calls) (harrived : s'.arrived = s.arrived) (hgranted : s'.granted = s.granted)
    (hcompleted : s'.completed = s.completed) (hlive : s'.live = s.live) : Queue s' := by
  have hstatus : ∀ w, statusOf s' w = statusOf s w := by
    intro w
    rw [statusOf, hgranted, statusOf]
  refine ⟨?_, ?_, ?_, fun w hw => ?_, fun id => ?_, fun id st hst => ?_, fun l hl w hw => ?_⟩
  · rw [hlive, harrived, hgranted, hwaiters]
    exact h.order
  · rw [hlive, harrived, hgranted, hwaiters]
    exact h.dead
  · rw [harrived]
    exact h.nodup
  · rw [harrived] at hw
    exact Nat.lt_of_lt_of_le (h.id_lt w hw) hcalls
  · rw [hcompleted, hlists, hwaiters, harrived]
    exact h.total id
  · rw [hcompleted] at hst
    rw [harrived]
    simp only [hstatus]
    exact h.told id st hst
  · rw [hlists] at hl
    rw [harrived, hstatus]
    exact h.listed l hl w hw

theorem Queue.arrive (h : Queue s) (hlive : s.live = true) (writeLock : Bool) : Queue { s with
    calls := s.calls + 1
    arrived := s.arrived ++ [⟨s.calls, writeLock⟩]
    lock := { s.lock with waiters := s.lock.waiters ++ [⟨s.calls, writeLock⟩] } } := by
  refine ⟨fun _ => ?_, fun hd => ?_, ?_, fun w hw => ?_, fun id => ?_, fun id st hst => ?_, fun l hl w hw => ?_⟩
  · change s.arrived ++ _ = s.granted ++ (s.lock.waiters ++ _)
    rw [h.order hlive, List.append_assoc]
  · change s.live = false at hd
    rw [hlive] at hd
    cases hd
  · change ((s.arrived ++ _).map Waiter.id).Nodup
    rw [List.map_append, List.nodup_append]
    refine ⟨h.nodup, List.nodup_singleton _, fun a ha b hb => ?_⟩
    obtain ⟨w, hw, rfl⟩ := List.mem_map.mp ha
    have hlt := h.id_lt w hw
    rw [List.mem_singleton.mp hb]
    exact Nat.ne_of_lt hlt
  · change w.id < s.calls + 1
    rcases mem_append.mp hw with hin | hin
    · exact Nat.lt_succ_of_lt (h.id_lt w hin)
    · rw [List.mem_singleton.mp hin]
      exact Nat.lt_succ_self _
  · change (s.completed id).length + pending s.lists id + waiting (s.lock.waiters ++ _) id = waiting (s.arrived ++ _) id
    have htotal := h.total id
    rw [waiting_append, waiting_append]
    omega
  · obtain ⟨w, hw, hid⟩ := h.told id st hst
    exact ⟨w, List.mem_append_left _ hw, hid⟩
  · obtain ⟨harr, heq⟩ := h.listed l hl w hw
    exact ⟨List.mem_append_left _ harr, heq⟩

section

variable (h : Inv s)
include h

theorem Inv.free (hwr : s.lock.wr = 0) (hrd : s.lock.rd = 0) : s.lock.waiters = [] := by
  cases hq : s.lock.waiters with
  | nil => rfl
  | cons w q =>
    have hhead := h.head hwr w
    rw [hq] at hhead
    exact absurd hrd (hhead rfl).2

/-- `ocf_async_lock`. -/
theorem Inv.lock (hlive : s.live = true) : Inv (lockWith ocfAsyncTrylock true s) := by
  have harrive := h.toQueue.arrive hlive true
  rw [lockWith, ocfAsyncTrylock]
  by_cases hheld : s.lock.wr ≠ 0 ∨ s.lock.rd ≠ 0
  · rw [if_pos hheld]
    refine ⟨harrive, h.rd_eq, h.wr_eq, h.alone, fun hwr w hw => ?_⟩
    change s.lock.wr = 0 at hwr
    change (s.lock.waiters ++ _).head? = some w at hw
    cases hq : s.lock.waiters with
    | nil =>
      rw [hq] at hw
      cases hw
      exact ⟨rfl, hheld.resolve_left (not_not.mpr hwr)⟩
    | cons v q =>
      have hhead := h.head hwr v
      rw [hq] at hw hhead
      cases hw
      exact hhead rfl
  · rw [if_neg hheld]
    obtain ⟨hwr, hrd⟩ : s.lock.wr = 0 ∧ s.lock.rd = 0 := by omega
    have hempty := h.free hwr hrd
    have hgrant := harrive.grant (b := [⟨s.calls, true⟩]) (l := { s.lock with wr := 1 }) hlive
      (by change s.lock.waiters ++ _ = _ ++ s.lock.waiters; rw [hempty]; rfl)
    refine ⟨hgrant, ?_, ?_, .inr ⟨rfl, hrd⟩, nofun⟩
    · change s.lock.rd = (s.readers ++ []).length
      rw [append_nil]
      exact h.rd_eq
    · change 1 = (s.writers ++ [s.calls]).length
      have hlen := h.wr_eq
      rw [length_append, List.length_singleton]
      omega

/-- `ocf_async_read_lock`. -/
theorem Inv.readLock (hlive : s.live = true) : Inv (lockWith ocfAsyncReadTrylock false s) := by
  have harrive := h.toQueue.arrive hlive false
  rw [lockWith, ocfAsyncReadTrylock]
  by_cases hheld : s.lock.wr ≠ 0 ∨ s.lock.waiters ≠ []
  · rw [if_pos hheld]
    refine ⟨harrive, h.rd_eq, h.wr_eq, h.alone, fun hwr w hw => ?_⟩
    change s.lock.wr = 0 at hwr
    change (s.lock.waiters ++ _).head? = some w at hw
    cases hq : s.lock.waiters with
    | nil => exact absurd hq (hheld.resolve_left (not_not.mpr hwr))
    | cons v q =>
      have hhead := h.head hwr v
      rw [hq] at hw hhead
      cases hw
      exact hhead rfl
  · rw [if_neg hheld]
    rw [not_or, not_not, not_not] at hheld
    obtain ⟨hwr, hempty⟩ := hheld
    have hgrant := harrive.grant (b := [⟨s.calls, false⟩]) (l := { s.lock with rd := s.lock.rd + 1 }) hlive
      (by change s.lock.waiters ++ _ = _ ++ s.lock.waiters; rw [hempty]; rfl)
    refine ⟨hgrant, ?_, ?_, .inl hwr, fun _ w hw => ?_⟩
    · change s.lock.rd + 1 = (s.readers ++ [s.calls]).length
      rw [length_append, List.length_singleton, h.rd_eq]
    · change s.lock.wr = (s.writers ++ []).length
      rw [append_nil]
      exact h.wr_eq
    · change s.lock.waiters.head? = some w at hw
      rw [hempty] at hw
      cases hw

/-- `ocf_async_trylock`. -/
theorem Inv.trylock (hs : step s .trylock = some s') : Inv s' := by
  cases hs
  rw [ocfAsyncTrylock]
  by_cases hheld : s.lock.wr ≠ 0 ∨ s.lock.rd ≠ 0
  · rw [if_pos hheld]
    exact ⟨h.toQueue.congr rfl rfl (Nat.le_succ _) rfl rfl rfl rfl, h.rd_eq, h.wr_eq, h.alone, h.head⟩
  · rw [if_neg hheld]
    obtain ⟨hwr, hrd⟩ : s.lock.wr = 0 ∧ s.lock.rd = 0 := by omega
    refine ⟨h.toQueue.congr rfl rfl (Nat.le_succ _) rfl rfl rfl rfl, h.rd_eq, ?_, .inr ⟨rfl, hrd⟩, nofun⟩
    change 1 = (s.writers ++ [s.calls]).length
    have hlen := h.wr_eq
    rw [length_append, List.length_singleton]
    omega

/-- `ocf_async_read_trylock`. -/
theorem Inv.readTrylock (hs : step s .readTrylock = some s') : Inv s' := by
  cases hs
  rw [ocfAsyncReadTrylock]
  by_cases hheld : s.lock.wr ≠ 0 ∨ s.lock.waiters ≠ []
  · rw [if_pos hheld]
    exact ⟨h.toQueue.congr rfl rfl (Nat.le_succ _) rfl rfl rfl rfl, h.rd_eq, h.wr_eq, h.alone, h.head⟩
  · rw [if_neg hheld]
    rw [not_or, not_not, not_not] at hheld
    obtain ⟨hwr, hempty⟩ := hheld
    refine ⟨h.toQueue.congr rfl rfl (Nat.le_succ _) rfl rfl rfl rfl, ?_, h.wr_eq, .inl hwr, fun _ w hw => ?_⟩
    · change s.lock.rd + 1 = (s.readers ++ [s.calls]).length
      rw [length_append, List.length_singleton, h.rd_eq]
    · change s.lock.waiters.head? = some w at hw
      rw [hempty] at hw
      cases hw

/-- `ocf_async_unlock`. -/
theorem Inv.unlock (hlive : s.live = true) (hid : id ∈ s.writers) :
    ∃ s', step s (.unlock id) = some s' ∧ Inv s' := by
  have hpos : 0 < s.writers.length := List.length_pos_of_mem hid
  have hlen := h.wr_eq
  obtain ⟨hwr, hrd⟩ : s.lock.wr = 1 ∧ s.lock.rd = 0 := by
    rcases h.alone with hz | hone
    · omega
    · exact hone
  have hstep : step s (.unlock id) = some ({ s with
      lock := (ocfAsyncLockCollectWaiters { s.lock with wr := 0 }).2
      writers := s.writers.erase id }.grant (ocfAsyncLockCollectWaiters { s.lock with wr := 0 }).1) := by
    rw [step, ocfAsyncUnlock, if_neg (not_not.mpr hrd), if_neg (by omega)]
    rfl
  refine ⟨_, hstep, ?_⟩
  · have herase : s.writers.erase id = [] := by
      rw [← length_eq_zero_iff, List.length_erase_of_mem hid]
      omega
    have hqueue : Queue { s with lock := { s.lock with wr := 0 }, writers := s.writers.erase id } :=
      h.toQueue.congr rfl rfl (Nat.le_refl _) rfl rfl rfl rfl
    exact hqueue.handOver hlive h.rd_eq rfl herase

/-- `ocf_async_read_unlock`. -/
theorem Inv.readUnlock (hlive : s.live = true) (hid : id ∈ s.readers) :
    ∃ s', step s (.readUnlock id) = some s' ∧ Inv s' := by
  have hpos : 0 < s.readers.length := List.length_pos_of_mem hid
  have hlen := h.rd_eq
  have hwr : s.lock.wr = 0 := by
    rcases h.alone with hz | ⟨-, hz⟩ <;> omega
  have hnone : s.writers = [] := length_eq_zero_iff.mp (h.wr_eq ▸ hwr)
  have herase : s.lock.rd - 1 = (s.readers.erase id).length := by
    rw [List.length_erase_of_mem hid, hlen]
  have hqueue : Queue { s with lock := { s.lock with rd := s.lock.rd - 1 }, readers := s.readers.erase id } :=
    h.toQueue.congr rfl rfl (Nat.le_refl _) rfl rfl rfl rfl
  rw [step, ocfAsyncReadUnlock, if_neg (by omega), if_neg (not_not.mpr hwr)]
  by_cases hrest : s.lock.rd - 1 ≠ 0
  · refine ⟨_, congrArg _ (if_pos hrest), ?_⟩
    have hgrant := hqueue.grant (b := []) (l := { s.lock with rd := s.lock.rd - 1 }) hlive rfl
    refine ⟨hgrant, ?_, ?_, .inl hwr, fun _ w hw => ⟨(h.head hwr w hw).1, hrest⟩⟩
    · change s.lock.rd - 1 = (s.readers.erase id ++ []).length
      rw [append_nil]
      exact herase
    · change s.lock.wr = (s.writers ++ []).length
      rw [append_nil]
      exact h.wr_eq
  · refine ⟨_, congrArg _ (if_neg hrest), ?_⟩
    exact hqueue.handOver hlive herase hwr hnone

/-- `ocf_async_lock_deinit`. -/
theorem Inv.deinit (hlive : s.live = true) (hs : step s .deinit = some s') : Inv s' := by
  cases hs
  have horder := h.order hlive
  refine ⟨⟨nofun, fun _ => ⟨rfl, s.lock.waiters, horder⟩, h.nodup, h.id_lt, fun id => ?_, h.told, fun l hl w hw => ?_⟩,
    h.rd_eq, h.wr_eq, h.alone, fun _ w hw => ?_⟩
  · change (s.completed id).length + pending ((s.lock.waiters, errNoLock) :: s.lists) id + 0 = waiting s.arrived id
    have htotal := h.total id
    rw [pending_cons]
    dsimp only
    omega
  · rcases mem_cons.mp hl with heq | hin
    · rw [heq] at hw ⊢
      refine ⟨?_, (if_neg fun hg => ?_).symm⟩
      · change w ∈ s.arrived
        rw [horder]
        exact List.mem_append_right _ hw
      · have hnodup := List.Nodup.of_map _ h.nodup
        rw [horder, List.nodup_append] at hnodup
        exact hnodup.2.2 w hg w hw rfl
    · exact h.listed l hin w hw
  · cases hw

theorem Inv.cmpl {i : Nat} {iter : Waiter} {temp : List Waiter} {status : Int}
    (hi : s.lists[i]? = some (iter :: temp, status)) : Inv { s with
      lists := s.lists.set i (temp, status)
      completed := update s.completed iter.id (s.completed iter.id ++ [status]) } := by
  have hmem : (iter :: temp, status) ∈ s.lists := List.mem_of_getElem? hi
  refine ⟨⟨h.order, h.dead, h.nodup, h.id_lt, fun id => ?_, fun id st hst => ?_, fun l hl w hw => ?_⟩,
    h.rd_eq, h.wr_eq, h.alone, h.head⟩
  · change (update s.completed iter.id _ id).length + pending (s.lists.set i (temp, status)) id +
      waiting s.lock.waiters id = waiting s.arrived id
    have htotal := h.total id
    rw [pending_set hi id] at htotal
    by_cases hid : iter.id = id
    · rw [if_pos hid] at htotal
      rw [hid, update_self, length_append, List.length_singleton]
      omega
    · rw [if_neg hid] at htotal
      rw [update_of_ne (Ne.symm hid)]
      omega
  · change st ∈ update s.completed iter.id _ id at hst
    by_cases hid : id = iter.id
    · rw [hid, update_self] at hst
      rcases mem_append.mp hst with hin | hin
      · rw [hid]
        exact h.told iter.id st hin
      · obtain ⟨harr, heq⟩ := h.listed _ hmem iter List.mem_cons_self
        exact ⟨iter, harr, hid.symm, (List.mem_singleton.mp hin).trans heq⟩
    · rw [update_of_ne hid] at hst
      exact h.told id st hst
  · rcases List.mem_or_eq_of_mem_set hl with hin | heq
    · exact h.listed l hin w hw
    · rw [heq] at hw ⊢
      exact h.listed _ hmem w (List.mem_cons_of_mem iter hw)

/-- Every step succeeds and keeps the lock and its waiters. -/
theorem step_inv {act : Act} (hg : guard s act) : ∃ s', step s act = some s' ∧ Inv s' := by
  cases act with
  | lock => exact ⟨_, rfl, h.lock hg⟩
  | readLock => exact ⟨_, rfl, h.readLock hg⟩
  | trylock => exact ⟨_, rfl, h.trylock rfl⟩
  | readTrylock => exact ⟨_, rfl, h.readTrylock rfl⟩
  | unlock id => exact h.unlock hg.1 hg.2.1
  | readUnlock id => exact h.readUnlock hg.1 hg.2.1
  | deinit => exact ⟨_, rfl, h.deinit hg rfl⟩
  | cmpl i =>
    obtain ⟨iter, temp, status, hi⟩ := hg
    exact ⟨_, by rw [step, hi], h.cmpl hi⟩

end

theorem inv_init : Inv ocfAsyncLockInit :=
  ⟨⟨fun _ => rfl, nofun, List.nodup_nil, nofun, fun _ => rfl, nofun, nofun⟩, rfl, rfl, .inl rfl, nofun⟩

theorem Inv.of_reachable (h : Reachable system ocfAsyncLockInit s) : Inv s :=
  h.invariant (fun _ => inv_init) fun _ _ _ hs _ hg hstep _ => by
    obtain ⟨t, ht, hinv⟩ := step_inv hs hg
    cases ht.symm.trans hstep
    exact hinv

theorem Queue.once (h : Queue s) (hw : w ∈ s.arrived) :
    s.completed w.id = [] ∨ s.completed w.id = [statusOf s w] := by
  have htotal := h.total w.id
  have hle := h.waiting_le w.id
  cases hc : s.completed w.id with
  | nil => exact .inl rfl
  | cons st rest =>
    rw [hc, List.length_cons] at htotal
    have hrest : rest = [] := length_eq_zero_iff.mp (by omega)
    obtain ⟨v, hv, hid, heq⟩ := h.told w.id st (by rw [hc]; exact List.mem_cons_self)
    have hvw : v = w := List.inj_on_of_nodup_map h.nodup hv hw hid
    rw [hrest, heq, hvw]
    exact .inr rfl

theorem Queue.settled (h : Queue s) (hnone : ∀ l ∈ s.lists, l.1 = []) (hw : w ∈ s.arrived)
    (hnot : w ∉ s.lock.waiters) : s.completed w.id = [statusOf s w] := by
  have htotal := h.total w.id
  have hpos := waiting_pos hw
  have hpend := pending_eq_zero hnone w.id
  have hwait : waiting s.lock.waiters w.id = 0 := by
    rw [waiting, List.countP_eq_zero]
    intro v hv heq
    have hvarr : v ∈ s.arrived := by
      cases hlive : s.live with
      | true =>
        rw [h.order hlive]
        exact List.mem_append_right _ hv
      | false =>
        rw [(h.dead hlive).1] at hv
        cases hv
    have hvw : v = w := List.inj_on_of_nodup_map h.nodup hvarr hw (of_decide_eq_true heq)
    exact hnot (hvw ▸ hv)
  refine (h.once hw).resolve_left fun hc => ?_
  rw [hc, List.length_nil] at htotal
  omega

theorem step_granted {act : Act} (hs : step s act = some s') :
    ∃ b, s'.granted = s.granted ++ b ∧ ((∃ w, b = [w]) ∨ ∀ w ∈ b, w.writeLock = false) := by
  have hnone : ∃ b, s.granted = s.granted ++ b ∧ ((∃ w, b = [w]) ∨ ∀ w ∈ b, w.writeLock = false) :=
    ⟨[], (append_nil _).symm, .inr nofun⟩
  have hover (l : OcfAsyncLock) (hwr : l.wr = 0) : (∃ w, (ocfAsyncLockCollectWaiters l).1 = [w]) ∨
      ∀ w ∈ (ocfAsyncLockCollectWaiters l).1, w.writeLock = false := by
    obtain ⟨b, hb, hspec⟩ := collectFrom_spec (m := []) (q := l.waiters) hwr
    rw [ocfAsyncLockCollectWaiters, hb]
    exact hspec.cases.imp (fun ⟨w, heq, _⟩ => ⟨w, heq⟩) And.left
  cases act with
  | lock =>
    cases hs
    rw [lockWith]
    split
    · exact ⟨_, rfl, .inl ⟨_, rfl⟩⟩
    · exact hnone
  | readLock =>
    cases hs
    rw [lockWith]
    split
    · exact ⟨_, rfl, .inl ⟨_, rfl⟩⟩
    · exact hnone
  | trylock =>
    cases hs
    split <;> exact hnone
  | readTrylock =>
    cases hs
    dsimp only
    split <;> exact hnone
  | unlock id =>
    obtain ⟨r, hr, rfl⟩ := Option.map_eq_some_iff.mp hs
    rw [ocfAsyncUnlock] at hr
    split at hr
    · cases hr
    split at hr
    · cases hr
    cases hr
    exact ⟨_, rfl, hover { s.lock with wr := 0 } rfl⟩
  | readUnlock id =>
    obtain ⟨r, hr, rfl⟩ := Option.map_eq_some_iff.mp hs
    rw [ocfAsyncReadUnlock] at hr
    split at hr
    · cases hr
    split at hr
    · cases hr
    next hwr =>
      dsimp only at hr
      split at hr
      · cases hr
        exact ⟨[], rfl, .inr nofun⟩
      · cases hr
        exact ⟨_, rfl, hover { s.lock with rd := s.lock.rd - 1 } (not_not.mp hwr)⟩
  | deinit =>
    cases hs
    exact hnone
  | cmpl i =>
    rw [step] at hs
    split at hs
    · cases hs
      exact hnone
    · cases hs

/-- What users of the lock rely on. -/
structure Fair (s : State) : Prop where
  /-- There is at most one writer, and no reader with it. -/
  excl : s.writers.length ≤ 1 ∧ (s.writers ≠ [] → s.readers = [])
  /-- `rd` counts the read holders. -/
  rd_eq : s.lock.rd = s.readers.length
  /-- The waiters get the lock in the order of their arrival. -/
  order : s.live = true → s.arrived = s.granted ++ s.lock.waiters
  /-- A reader at the head of the queue is not left behind by readers. -/
  together : s.writers = [] → ∀ w, s.lock.waiters.head? = some w → w.writeLock = true
  /-- Nobody waits for a free lock. -/
  free : s.readers = [] → s.writers = [] → s.lock.waiters = []
  /-- A waiter is completed at most once: with zero if it got the lock, otherwise with an error. -/
  once : ∀ w ∈ s.arrived, s.completed w.id = [] ∨ s.completed w.id = [if w ∈ s.granted then 0 else errNoLock]
  /-- It is completed when it left the queue and no thread is in between. -/
  settled : (∀ l ∈ s.lists, l.1 = []) → ∀ w ∈ s.arrived, w ∉ s.lock.waiters →
    s.completed w.id = [if w ∈ s.granted then 0 else errNoLock]
  /-- Errors come from `ocf_async_lock_deinit`. -/
  refused : ∀ w ∈ s.arrived, w ∉ s.granted → s.completed w.id ≠ [] → s.live = false

theorem Inv.fair (h : Inv s) : Fair s where
  excl := by
    have hwr := h.wr_eq
    rcases h.alone with hz | ⟨hone, hrd⟩
    · exact ⟨by omega, fun hne => absurd (length_eq_zero_iff.mp (by omega)) hne⟩
    · exact ⟨by omega, fun _ => length_eq_zero_iff.mp (h.rd_eq ▸ hrd)⟩
  rd_eq := h.rd_eq
  order := h.order
  together := fun hnone w hw => (h.head (by rw [h.wr_eq, hnone]; rfl) w hw).1
  free := fun hr hw => h.free (by rw [h.wr_eq, hw]; rfl) (by rw [h.rd_eq, hr]; rfl)
  once := fun _ hw => h.toQueue.once hw
  settled := fun hnone _ hw hnot => h.toQueue.settled hnone hw hnot
  refused := by
    intro w hw hnot hc
    cases hlive : s.live with
    | false => rfl
    | true =>
      rw [h.order hlive] at hw
      exact absurd (h.toQueue.queued ((mem_append.mp hw).resolve_left hnot)).1 hc

/-- The management lock is a fair lock for readers and writers: in every run,
every step succeeds and gives the lock to one waiter or to readers only. -/
theorem lock_fair (h : Reachable system ocfAsyncLockInit s) : Fair s ∧
    ∀ act, guard s act → ∃ s', step s act = some s' ∧
      ∃ b, s'.granted = s.granted ++ b ∧ ((∃ w, b = [w]) ∨ ∀ w ∈ b, w.writeLock = false) := by
  have hinv := Inv.of_reachable h
  refine ⟨hinv.fair, fun act hg => ?_⟩
  obtain ⟨s', hs', -⟩ := step_inv hinv hg
  exact ⟨s', hs', step_granted hs'⟩

/-- A writer, a reader and a writer come; the first writer unlocks, and the
reader is completed. -/
theorem lock_fair_handOver : ∃ s, Reachable system ocfAsyncLockInit s ∧ s.granted = [⟨0, true⟩, ⟨1, false⟩] ∧
    s.lock.waiters = [⟨2, true⟩] ∧ s.completed 1 = [0] ∧ Fair s := by
  have h0 : Reachable system ocfAsyncLockInit ocfAsyncLockInit := .refl trivial
  have h1 := h0.next .lock rfl rfl
  have h2 := h1.next (.cmpl 0) ⟨⟨0, true⟩, [], 0, rfl⟩ rfl
  have h3 := h2.next .readLock rfl rfl
  have h4 := h3.next .lock rfl rfl
  have hhead (v : Int) : [v] ≠ [] := List.cons_ne_nil v []
  have h5 := h4.next (.unlock 0) ⟨rfl, List.mem_singleton_self 0, fun _ _ _ => hhead 0⟩ rfl
  have h6 := h5.next (.cmpl 0) ⟨⟨1, false⟩, [], 0, rfl⟩ rfl
  exact ⟨_, h6, rfl, rfl, rfl, (lock_fair h6).1⟩

end Steps

end OcfCache.AsyncLock
