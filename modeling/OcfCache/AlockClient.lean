import OcfCache.AlockWakeup

/-!
# One request at the cache line lock

What a step of the lock does to the locks that one request holds and to those
that it waits for. Steps of other requests only move locks of the request from
waiting to held. The counter of granted waiters is the number of locks that
moved, which is how often the resume code of the request runs.
-/

namespace OcfCache.AlockClient

open Function Alock AlockExclusion AlockWakeup
open List (append_nil filter_append mem_filter)

theorem waitersLists_pos : 0 < 699050 := by decide

/-- The locks that a request holds. -/
def heldBy (r : Nat) (s : State) : List Lock := s.holders.filter fun l => decide (l.req = r)

/-- The waiters of a request, over all lists. -/
def queuedBy (n r : Nat) (s : State) : List Waiter :=
  ((List.range n).flatMap s.waitersLsts).filter fun w => decide (w.req = r)

/-- The locks that a request waits for. -/
def waitingBy (n r : Nat) (s : State) : List Lock := (queuedBy n r s).map Waiter.toLock

/-- Number of waiters of a request that a step granted. -/
def resumed (r : Nat) (s s' : State) : Nat :=
  (s'.granted.drop s.granted.length).countP fun w => decide (w.req = r)

/-- A step that moved the given locks of the request from waiting to held. -/
structure Granting (n r : Nat) (s s' : State) (given : List Lock) : Prop where
  /-- Held locks. -/
  held : (heldBy r s').Perm (heldBy r s ++ given)
  /-- Awaited locks. -/
  waiting : (waitingBy n r s).Perm (given ++ waitingBy n r s')
  /-- Number of locks. -/
  resumed : resumed r s s' = given.length

theorem range_split {n j : Nat} (hj : j < n) : ∃ rest : List Nat, j ∉ rest ∧
    ∀ {α : Type} (f : Nat → List α), ((List.range n).flatMap f).Perm (f j ++ rest.flatMap f) := by
  have hmem : j ∈ List.range n := List.mem_range.mpr hj
  refine ⟨(List.range n).erase j, List.nodup_range.not_mem_erase, fun f => ?_⟩
  have hperm := (List.perm_cons_erase hmem).flatMap_right f
  rw [List.flatMap_cons] at hperm
  exact hperm

theorem queuedBy_update {n r j : Nat} {s s' : State} {ws : List Waiter} (hj : j < n)
    (hlst : s'.waitersLsts = update s.waitersLsts j ws) : ∃ rest, (queuedBy n r s).Perm
        ((s.waitersLsts j).filter (fun w => decide (w.req = r)) ++ rest) ∧
      (queuedBy n r s').Perm (ws.filter (fun w => decide (w.req = r)) ++ rest) := by
  obtain ⟨others, hnot, hsplit⟩ := range_split hj
  refine ⟨(others.flatMap s.waitersLsts).filter fun w => decide (w.req = r), ?_, ?_⟩
  · have hold := (hsplit s.waitersLsts).filter fun w => decide (w.req = r)
    rw [filter_append] at hold
    exact hold
  · have hnew := (hsplit s'.waitersLsts).filter fun w => decide (w.req = r)
    have hsame : others.flatMap s'.waitersLsts = others.flatMap s.waitersLsts := by
      refine List.flatMap_congr fun i hi => ?_
      have hij : i ≠ j := by
        rintro rfl
        exact hnot hi
      rw [hlst, update_of_ne hij]
    rw [filter_append, hsame, hlst, update_self] at hnew
    rw [queuedBy, hlst]
    exact hnew

theorem resumed_eq_zero {r : Nat} {s s' : State} (h : s'.granted = s.granted) :
    resumed r s s' = 0 := by
  rw [resumed, h, List.drop_length]
  rfl

theorem Granting.of_same {n r : Nat} {s s' : State} (hheld : (heldBy r s').Perm (heldBy r s))
    (hwait : (queuedBy n r s').Perm (queuedBy n r s)) (hgr : s'.granted = s.granted) :
    Granting n r s s' [] := by
  refine ⟨?_, ?_, resumed_eq_zero hgr⟩
  · rw [append_nil]
    exact hheld
  · rw [List.nil_append]
    exact (hwait.map _).symm

theorem mem_queuedBy {n r : Nat} {s : State} {w : Waiter} (hn : 0 < n) (hq : Queued n s) {i : Nat}
    (hw : w ∈ s.waitersLsts i) : w ∈ queuedBy n r s ↔ w.req = r := by
  have hi : i < n := by
    rw [← hq.home i w hw]
    exact Nat.mod_lt _ hn
  rw [queuedBy, mem_filter, decide_eq_true_eq]
  exact ⟨fun h => h.2, fun h => ⟨List.mem_flatMap.mpr ⟨i, List.mem_range.mpr hi, hw⟩, h⟩⟩

theorem home_of_queuedBy {n r : Nat} {s : State} {w : Waiter} (hq : Queued n s)
    (hw : w ∈ queuedBy n r s) : w ∈ s.waitersLsts (w.entry % n) ∧ w.req = r := by
  obtain ⟨hmem, hr⟩ := mem_filter.mp hw
  obtain ⟨i, -, hi⟩ := List.mem_flatMap.mp hmem
  have hhome := hq.home i w hi
  rw [hhome]
  exact ⟨hi, of_decide_eq_true hr⟩

section Steps

variable {n r : Nat} {s s' : State} {l : Lock}

theorem granting_commit {e : Nat} {d : Rw} {walk : Walk} {v : BitVec 8} (hn : 0 < n)
    (hwalk : unlockWalk (opsOf d) e true (s.access e) (s.waitersLsts (e % n)) = some walk) :
    Granting n r s (s.commit n e walk v)
      ((walk.woken.filter fun w => decide (w.req = r)).map Waiter.toLock) := by
  obtain ⟨-, -, hperm, -⟩ := unlockWalk_split hwalk
  obtain ⟨rest, hold, hnew⟩ := @queuedBy_update n r (e % n) s (s.commit n e walk v) walk.kept
    (Nat.mod_lt _ hn) rfl
  have hfilter := hperm.filter fun w => decide (w.req = r)
  rw [filter_append] at hfilter
  refine ⟨?_, ?_, ?_⟩
  · have hmap : (walk.woken.map Waiter.toLock).filter (fun l => decide (l.req = r)) =
        (walk.woken.filter fun w => decide (w.req = r)).map Waiter.toLock := List.filter_map
    rw [heldBy, State.commit, filter_append, hmap]
    exact List.Perm.refl _
  · rw [waitingBy, waitingBy, ← List.map_append]
    refine List.Perm.map _ ?_
    calc (queuedBy n r s).Perm _ := hold
      _ |>.Perm ((walk.woken.filter (fun w => decide (w.req = r)) ++
          walk.kept.filter fun w => decide (w.req = r)) ++ rest) := hfilter.symm.append_right rest
      _ |>.Perm _ := by
        rw [List.append_assoc]
        exact hnew.symm.append_left _
  · rw [AlockClient.resumed, State.commit, List.drop_left, List.length_map,
      List.countP_eq_length_filter]

theorem heldBy_clear (h : l.req ≠ r) : (heldBy r (s.clear l)).Perm (heldBy r s) := by
  by_cases hl : l ∈ s.holders
  · have hperm := (List.perm_cons_erase hl).filter fun l => decide (l.req = r)
    rw [List.filter_cons_of_neg (by simpa using h)] at hperm
    exact hperm.symm
  · rw [heldBy, State.clear, List.erase_of_not_mem hl]
    exact List.Perm.refl _

theorem heldBy_clear_self (h : l.req = r) (hl : l ∈ s.holders) :
    (heldBy r s).Perm (l :: heldBy r (s.clear l)) := by
  have hperm := (List.perm_cons_erase hl).filter fun l => decide (l.req = r)
  rw [List.filter_cons_of_pos (by simpa using h)] at hperm
  exact hperm

theorem queuedBy_waitlistAdd (hn : 0 < n) : (queuedBy n r (s.waitlistAdd n l)).Perm
    (queuedBy n r s ++ if l.req = r then [⟨l, s.nextTicket⟩] else []) := by
  obtain ⟨rest, hold, hnew⟩ := @queuedBy_update n r (l.entry % n) s (s.waitlistAdd n l)
    (s.waitersLsts (l.entry % n) ++ [⟨l, s.nextTicket⟩]) (Nat.mod_lt _ hn) rfl
  rw [filter_append] at hnew
  have hone : [(⟨l, s.nextTicket⟩ : Waiter)].filter (fun w => decide (w.req = r)) =
      if l.req = r then [⟨l, s.nextTicket⟩] else [] := by
    by_cases hr : l.req = r
    · simp [hr]
    · simp [hr]
  rw [hone, List.append_assoc] at hnew
  refine hnew.trans ?_
  refine List.Perm.trans (List.Perm.append_left _ List.perm_append_comm) ?_
  rw [← List.append_assoc]
  exact hold.symm.append_right _

theorem heldBy_hold {v : BitVec 8} :
    heldBy r (s.hold l v) = heldBy r s ++ if l.req = r then [l] else [] := by
  rw [heldBy, State.hold, filter_append]
  by_cases hr : l.req = r
  · simp [heldBy, hr]
  · simp [heldBy, hr]

theorem queuedBy_unlink {e r' : Nat} (hn : 0 < n) (hne : r' ≠ r) :
    (queuedBy n r (s.unlink n e r')).Perm (queuedBy n r s) := by
  unfold State.unlink
  split
  · exact List.Perm.refl _
  · rename_i w hw
    obtain ⟨rest, hold, hnew⟩ := @queuedBy_update n r (e % n) s
      { s with
        waitersLsts := update s.waitersLsts (e % n)
          ((s.waitersLsts (e % n)).eraseP fun w => decide (w.req = r'))
        removed := s.removed ++ [w] }
      ((s.waitersLsts (e % n)).eraseP fun w => decide (w.req = r')) (Nat.mod_lt _ hn) rfl
    have hfilter : ((s.waitersLsts (e % n)).eraseP fun w => decide (w.req = r')).filter
        (fun w => decide (w.req = r)) =
        (s.waitersLsts (e % n)).filter fun w => decide (w.req = r) := by
      rcases List.exists_or_eq_self_of_eraseP (fun w : Waiter => decide (w.req = r'))
        (s.waitersLsts (e % n)) with heq | ⟨a, l1, l2, -, ha, hlst, heq⟩
      · rw [heq]
      · have hskip : ¬decide (a.req = r) = true := by
          rw [of_decide_eq_true ha]
          simpa using hne
        rw [heq, hlst, filter_append, filter_append, List.filter_cons, if_neg hskip]
    rw [hfilter] at hnew
    exact hnew.trans hold.symm

theorem waitingBy_unlink {e : Nat} {w : Waiter} (hn : 0 < n)
    (hw : findWaiter r (s.waitersLsts (e % n)) = some w) :
    (waitingBy n r s).Perm (w.toLock :: waitingBy n r (s.unlink n e r)) := by
  obtain ⟨rest, hold, hnew⟩ := @queuedBy_update n r (e % n) s (s.unlink n e r)
    ((s.waitersLsts (e % n)).eraseP fun w => decide (w.req = r)) (Nat.mod_lt _ hn)
    (by simp only [State.unlink, hw])
  have herase : ((s.waitersLsts (e % n)).filter fun w => decide (w.req = r)).Perm
      (w :: ((s.waitersLsts (e % n)).eraseP fun w => decide (w.req = r)).filter
        fun w => decide (w.req = r)) := by
    obtain ⟨hp, as, bs, hlst, has⟩ := List.find?_eq_some_iff_append.mp hw
    have has' : ∀ a ∈ as, ¬decide (a.req = r) = true := by
      intro a ha hpa
      have hna := has a ha
      rw [hpa] at hna
      cases hna
    have hmid : (as ++ w :: bs).eraseP (fun w => decide (w.req = r)) = as ++ bs := by
      rw [List.eraseP_append_right _ has', List.eraseP_cons, hp]
      rfl
    rw [hlst, hmid, filter_append, filter_append, List.filter_cons, if_pos hp]
    exact List.perm_middle
  have hall : (queuedBy n r s).Perm (w :: queuedBy n r (s.unlink n e r)) := by
    refine hold.trans ((herase.append_right rest).trans ?_)
    rw [List.cons_append]
    exact (hnew.symm).cons w
  exact hall.map Waiter.toLock

theorem granting_unlock {d : Rw} (hn : 0 < n)
    (hs : (unlockOneCommon (opsOf d) n s l.entry).map (·.clear l) = some s') :
    ∃ s1 given, Granting n r s s1 given ∧ s' = s1.clear l ∧ ∀ h ∈ s.holders, h ∈ s1.holders := by
  obtain ⟨r, v, hwalk, -, rfl⟩ := unlock_cases hs
  exact ⟨_, _, granting_commit hn hwalk, rfl, fun h hh => List.mem_append_left _ hh⟩

theorem granting_unlock_other {d : Rw} (hn : 0 < n) (hne : l.req ≠ r)
    (hs : (unlockOneCommon (opsOf d) n s l.entry).map (·.clear l) = some s') :
    ∃ given, Granting n r s s' given := by
  obtain ⟨s1, given, hgrant, rfl, -⟩ := granting_unlock (r := r) hn hs
  refine ⟨given, (heldBy_clear hne).trans hgrant.held, ?_, hgrant.resumed⟩
  exact hgrant.waiting

theorem granting_tryWith_other {op : WordOp} (hne : l.req ≠ r) (hs : s.tryWith op l = some s') :
    Granting n r s s' [] := by
  unfold State.tryWith at hs
  split at hs
  · cases hs
  · cases hs
    refine Granting.of_same ?_ (List.Perm.refl _) rfl
    rw [heldBy_hold, if_neg hne, append_nil]
  · cases hs
    exact Granting.of_same (List.Perm.refl _) (List.Perm.refl _) rfl

theorem granting_waitlistAdd_other (hn : 0 < n) (hne : l.req ≠ r) :
    Granting n r s (s.waitlistAdd n l) [] := by
  refine Granting.of_same (List.Perm.refl _) ?_ rfl
  have hadd := @queuedBy_waitlistAdd n r s l hn
  rw [if_neg hne, append_nil] at hadd
  exact hadd

theorem granting_tryOrAdd_other {op : WordOp} (hn : 0 < n) (hne : l.req ≠ r)
    (hs : s.tryOrAdd n op l = some s') : Granting n r s s' [] := by
  unfold State.tryOrAdd at hs
  split at hs
  · cases hs
  · cases hs
    refine Granting.of_same ?_ (List.Perm.refl _) rfl
    rw [heldBy_hold, if_neg hne, append_nil]
  · cases hs
    exact granting_waitlistAdd_other hn hne

end Steps

/-- The lock that a step is about. -/
def actionLock : Action → Lock
  | .trylockEntryWr l => l
  | .trylockEntryRdIdle l => l
  | .lockOneWr l => l
  | .lockOneRd l => l
  | .unlockOneRd l => l
  | .unlockOneWr l => l
  | .waitlistRemoveEntry l => l

theorem granting_of_other {n r : Nat} {s s' : State} {act : Action} (hn : 0 < n)
    (hne : (actionLock act).req ≠ r) (hs : step n s act = some s') :
    ∃ given, Granting n r s s' given := by
  cases act with
  | trylockEntryWr l => exact ⟨[], granting_tryWith_other hne hs⟩
  | trylockEntryRdIdle l => exact ⟨[], granting_tryWith_other hne hs⟩
  | lockOneWr l => exact ⟨[], granting_tryOrAdd_other hn hne hs⟩
  | lockOneRd l =>
    simp only [step, ocfAlockLockOneRd] at hs
    split at hs
    · exact ⟨[], granting_tryOrAdd_other hn hne hs⟩
    · cases hs
      exact ⟨[], granting_waitlistAdd_other hn hne⟩
  | unlockOneRd l =>
    exact granting_unlock_other (d := .read) hn hne hs
  | unlockOneWr l =>
    exact granting_unlock_other (d := .write) hn hne hs
  | waitlistRemoveEntry l =>
    simp only [step, ocfAlockWaitlistRemoveEntry] at hs
    split at hs
    · exact granting_unlock_other hn hne hs
    · cases hs
      refine ⟨[], Granting.of_same ?_ (queuedBy_unlink hn hne) ?_⟩
      · simp only [State.unlink]
        split <;> exact List.Perm.refl _
      · simp only [State.unlink]
        split <;> rfl

/-- The first attempt to take a lock. -/
def tryAct (l : Lock) : Action :=
  match l.rw with
  | .write => .trylockEntryWr l
  | .read => .trylockEntryRdIdle l

/-- The attempt under the waiters list lock. -/
def lockAct (l : Lock) : Action :=
  match l.rw with
  | .write => .lockOneWr l
  | .read => .lockOneRd l

/-- The release of a lock. -/
def unlockAct (l : Lock) : Action :=
  match l.rw with
  | .write => .unlockOneWr l
  | .read => .unlockOneRd l

section Own

variable {n : Nat} {s s' : State} {l : Lock}

theorem isIndexLocked_iff {r i : Nat} :
    ocfAlockIsIndexLocked s r i = true ↔ ∃ h ∈ heldBy r s, h.idx = i := by
  rw [ocfAlockIsIndexLocked, List.any_eq_true]
  constructor
  · rintro ⟨h, hh, hri⟩
    obtain ⟨hr, hi⟩ := of_decide_eq_true hri
    exact ⟨h, mem_filter.mpr ⟨hh, decide_eq_true hr⟩, hi⟩
  · rintro ⟨h, hh, hi⟩
    obtain ⟨hmem, hr⟩ := mem_filter.mp hh
    exact ⟨h, hmem, decide_eq_true ⟨of_decide_eq_true hr, hi⟩⟩

/-- The lock was taken. -/
structure TookLock (n : Nat) (s s' : State) (l : Lock) : Prop where
  /-- One more lock is held. -/
  held : heldBy l.req s' = heldBy l.req s ++ [l]
  /-- Awaited locks are the same. -/
  waiting : waitingBy n l.req s' = waitingBy n l.req s

theorem TookLock.locked (h : TookLock n s s' l) : ocfAlockIsIndexLocked s' l.req l.idx = true := by
  refine isIndexLocked_iff.mpr ⟨l, ?_, rfl⟩
  rw [h.held]
  exact List.mem_append_right _ List.mem_cons_self

theorem tookLock_hold {v : BitVec 8} : TookLock n s (s.hold l v) l := by
  refine ⟨?_, rfl⟩
  rw [heldBy_hold, if_pos rfl]

theorem tryAct_cases (hs : step n s (tryAct l) = some s') : s' = s ∨ TookLock n s s' l := by
  have htry : ∀ op : WordOp, s.tryWith op l = some s' → s' = s ∨ TookLock n s s' l := by
    intro op hop
    unfold State.tryWith at hop
    split at hop
    · cases hop
    · cases hop
      exact .inr tookLock_hold
    · cases hop
      exact .inl rfl
  cases hrw : l.rw with
  | write =>
    simp only [tryAct, hrw] at hs
    exact htry _ hs
  | read =>
    simp only [tryAct, hrw] at hs
    exact htry _ hs

theorem lockAct_cases (hs : step n s (lockAct l) = some s') :
    s' = s.waitlistAdd n l ∨ TookLock n s s' l := by
  have htry : ∀ op : WordOp, s.tryOrAdd n op l = some s' →
      s' = s.waitlistAdd n l ∨ TookLock n s s' l := by
    intro op hop
    unfold State.tryOrAdd at hop
    split at hop
    · cases hop
    · cases hop
      exact .inr tookLock_hold
    · cases hop
      exact .inl rfl
  cases hrw : l.rw with
  | write =>
    simp only [lockAct, hrw] at hs
    exact htry _ hs
  | read =>
    simp only [lockAct, hrw, step, ocfAlockLockOneRd] at hs
    split at hs
    · exact htry _ hs
    · cases hs
      exact .inl rfl

theorem waitingBy_waitlistAdd (hn : 0 < n) :
    (waitingBy n l.req (s.waitlistAdd n l)).Perm (waitingBy n l.req s ++ [l]) := by
  have hadd := (@queuedBy_waitlistAdd n l.req s l hn).map Waiter.toLock
  rw [if_pos rfl, List.map_append] at hadd
  exact hadd

theorem unlock_own {d : Rw} (hn : 0 < n) (hl : l ∈ s.holders)
    (hs : (unlockOneCommon (opsOf d) n s l.entry).map (·.clear l) = some s') :
    ∃ given, (heldBy l.req s ++ given).Perm (l :: heldBy l.req s') ∧
      (waitingBy n l.req s).Perm (given ++ waitingBy n l.req s') ∧
      resumed l.req s s' = given.length := by
  obtain ⟨s1, given, hgrant, rfl, hmem⟩ := granting_unlock (r := l.req) hn hs
  refine ⟨given, ?_, hgrant.waiting, hgrant.resumed⟩
  exact hgrant.held.symm.trans (heldBy_clear_self rfl (hmem l hl))

theorem step_unlockAct : step n s (unlockAct l) =
    (unlockOneCommon (opsOf l.rw) n s l.entry).map (·.clear l) := by
  cases hrw : l.rw with
  | write =>
    simp only [unlockAct, hrw]
    rfl
  | read =>
    simp only [unlockAct, hrw]
    rfl

end Own

end OcfCache.AlockClient
