import OcfCache.AlockExclusion

/-!
# Waiters of the cache line lock

A queued waiter is never left behind by an unlock: its entry stays locked as
long as it waits, the waiters of one entry are granted in their queueing
order, and each of them leaves its list once, by a grant or by a removal. The
fast trylocks bypass the waiters lists, so the argument rests on the access
word alone: they succeed only on an idle entry, which has no waiter.
-/

namespace OcfCache.AlockWakeup

open Function Runs Alock AlockExclusion

/-- Queueing order of two waiters, required of waiters of one entry. -/
def Ahead (a b : Waiter) : Prop := a.entry = b.entry → a.ticket < b.ticket

variable {ws : List Waiter} {v : BitVec 8} {e n : Nat} {r : Walk} {s s' : State} {l : Lock}

theorem pairwise_ahead (h : ws.Pairwise fun a b => a.ticket < b.ticket) : ws.Pairwise Ahead := by
  refine h.imp ?_
  intro a b hab _
  exact hab

/-- Invariant of the waiters lists and of the logs of what left them. -/
structure Queued (n : Nat) (s : State) : Prop where
  /-- A waiter is on the list of its entry. -/
  home : ∀ i, ∀ w ∈ s.waitersLsts i, w.entry % n = i
  /-- An entry with a waiter is locked. -/
  busy : ∀ i, ∀ w ∈ s.waitersLsts i, s.access w.entry ≠ accessIdle
  /-- Queueing numbers on the lists are below the next one. -/
  fresh : ∀ i, ∀ w ∈ s.waitersLsts i, w.ticket < s.nextTicket
  /-- Queueing numbers in the logs are below the next one. -/
  logged : ∀ w ∈ s.granted ++ s.removed, w.ticket < s.nextTicket
  /-- Lists are in queueing order. -/
  sorted : ∀ i, (s.waitersLsts i).Pairwise fun a b => a.ticket < b.ticket
  /-- A queueing number is on one list only. -/
  single : ∀ i j, ∀ a ∈ s.waitersLsts i, ∀ b ∈ s.waitersLsts j, a.ticket = b.ticket → i = j
  /-- A logged waiter is on no list. -/
  gone : ∀ i, ∀ a ∈ s.waitersLsts i, ∀ b ∈ s.granted ++ s.removed, a.ticket ≠ b.ticket
  /-- A waiter is logged once. -/
  once : ((s.granted ++ s.removed).map Waiter.ticket).Nodup
  /-- Grants of one entry follow the queueing order. -/
  order : s.granted.Pairwise Ahead
  /-- Nobody waits who was overtaken. -/
  behind : ∀ i, ∀ g ∈ s.granted, ∀ w ∈ s.waitersLsts i, Ahead g w

/-- A granted exchange leaves the entry locked; a refused one leaves a word
whose release does not make the entry idle. -/
theorem grantOp_exchange_busy (d rw : Rw) {v' : BitVec 8} {locked : Bool}
    (h : grantOp (opsOf d) true rw v = some (v', locked)) :
    if locked then v' ≠ accessIdle else v' = v ∧ (opsOf d).drop v ≠ some accessIdle := by
  cases d with
  | write =>
    by_cases hv : v = accessWr
    · subst hv
      cases rw with
      | write =>
        obtain ⟨rfl, rfl⟩ := Prod.mk.inj (Option.some.inj h)
        decide
      | read =>
        obtain ⟨rfl, rfl⟩ := Prod.mk.inj (Option.some.inj h)
        decide
    · cases rw <;> simp [grantOp, opsOf, wrOps, ocfAlockTrylockEntryWr2wr,
        ocfAlockTrylockEntryWr2rd, hv] at h
  | read =>
    by_cases hi : v = accessIdle
    · cases rw <;> simp [grantOp, opsOf, rdOps, ocfAlockTrylockEntryRd2wr,
        ocfAlockTrylockEntryRd2rd, hi] at h
    · by_cases hv : v = accessWr
      · cases rw <;> simp [grantOp, opsOf, rdOps, ocfAlockTrylockEntryRd2wr,
          ocfAlockTrylockEntryRd2rd, hv] at h
      · cases rw with
        | write =>
          simp only [grantOp, opsOf, rdOps, ocfAlockTrylockEntryRd2wr, hi, hv, cmpxchg,
            if_true, if_false, Option.some.injEq] at h
          split at h
          · obtain ⟨rfl, rfl⟩ := Prod.mk.inj h
            exact show accessWr ≠ accessIdle by decide
          · rename_i h1
            obtain ⟨rfl, rfl⟩ := Prod.mk.inj h
            refine ⟨rfl, ?_⟩
            have hi' : v ≠ 0#8 := hi
            simp only [opsOf, rdOps, ocfAlockUnlockEntryRd, hi', hv, if_false, ne_eq,
              Option.some.injEq]
            simp only [accessOneRd, accessIdle] at h1 ⊢
            bv_omega
        | read =>
          simp only [grantOp, opsOf, rdOps, ocfAlockTrylockEntryRd2rd, hi, hv,
            if_true, if_false, Option.some.injEq] at h
          obtain ⟨rfl, rfl⟩ := Prod.mk.inj h
          exact hi

theorem unlockWalk_granted_busy {ops : UnlockOps}
    (hv : v ≠ accessIdle) (h : unlockWalk ops e false v ws = some r) :
    r.exchanged = false ∧ r.word ≠ accessIdle := by
  induction ws generalizing v r with
  | nil =>
    simp only [unlockWalk, Option.some.injEq] at h
    subst h
    exact ⟨rfl, hv⟩
  | cons w ws ih =>
    rw [unlockWalk] at h
    split at h
    · obtain ⟨r', hr', rfl⟩ := Option.map_eq_some_iff.mp h
      have hrest := ih hv hr'
      exact hrest
    · rcases grantOp_held ops w.rw hv with hop | ⟨-, hwr, hop⟩
      · simp only [hop, Option.some.injEq] at h
        subst h
        exact ⟨rfl, hv⟩
      · simp only [hop] at h
        obtain ⟨r', hr', rfl⟩ := Option.map_eq_some_iff.mp h
        have hv' : v + 1#8 ≠ accessIdle := by
          simp only [accessWr, accessIdle] at hwr ⊢
          bv_omega
        have hrest := ih hv' hr'
        exact hrest

theorem unlockWalk_busy {d : Rw} {v' : BitVec 8}
    (h : unlockWalk (opsOf d) e true v ws = some r) (hrel : r.release (opsOf d) = some v')
    {w : Waiter} (hw : w ∈ r.kept) (he : w.entry = e) : v' ≠ accessIdle := by
  induction ws generalizing r with
  | nil =>
    simp only [unlockWalk, Option.some.injEq] at h
    subst h
    simp at hw
  | cons x ws ih =>
    rw [unlockWalk] at h
    split at h
    · rename_i hne
      obtain ⟨r', hr', rfl⟩ := Option.map_eq_some_iff.mp h
      rcases List.mem_cons.mp hw with rfl | hw
      · exact absurd he.symm hne
      · exact ih hr' hrel hw
    · split at h
      · contradiction
      · rename_i hop
        obtain ⟨rfl, hdrop⟩ := grantOp_exchange_busy d x.rw hop
        simp only [Option.some.injEq] at h
        subst h
        intro hv'
        subst hv'
        exact hdrop hrel
      · rename_i hop
        have hbusy := grantOp_exchange_busy d x.rw hop
        obtain ⟨r', hr', rfl⟩ := Option.map_eq_some_iff.mp h
        obtain ⟨hx, hword⟩ := unlockWalk_granted_busy hbusy hr'
        simp only [Walk.release, hx, Bool.false_eq_true, if_false, Option.some.injEq] at hrel
        exact hrel ▸ hword

/-- The walk splits the list: granted waiters of the entry come before those
that it keeps, and every waiter goes to one side. -/
theorem unlockWalk_split {ops : UnlockOps} {x : Bool} (h : unlockWalk ops e x v ws = some r) :
    r.kept.Sublist ws ∧ r.woken.Sublist ws ∧ ((r.woken ++ r.kept).Perm ws) ∧
      (r.woken ++ r.kept.filter fun w => decide (w.entry = e)) =
        ws.filter fun w => decide (w.entry = e) := by
  induction ws generalizing x v r with
  | nil =>
    simp only [unlockWalk, Option.some.injEq] at h
    subst h
    simp
  | cons w ws ih =>
    rw [unlockWalk] at h
    split at h
    · rename_i hne
      obtain ⟨r', hr', rfl⟩ := Option.map_eq_some_iff.mp h
      obtain ⟨hk, hw, hp, hf⟩ := ih hr'
      refine ⟨hk.cons_cons w, hw.cons w, ?_, ?_⟩
      · exact List.perm_middle.trans (hp.cons w)
      · simpa [Ne.symm hne] using hf
    · rename_i he
      split at h
      · contradiction
      · simp only [Option.some.injEq] at h
        subst h
        simp
      · obtain ⟨r', hr', rfl⟩ := Option.map_eq_some_iff.mp h
        obtain ⟨hk, hw, hp, hf⟩ := ih hr'
        refine ⟨hk.cons w, hw.cons_cons w, hp.cons w, ?_⟩
        simp [← not_not.mp he, ← hf]

theorem queued_init (n : Nat) : Queued n init := by
  constructor <;> simp [init]

/-- Steps that change words and holders only keep the queues when every
waiter's entry stays locked. -/
theorem Queued.of_words (h : Queued n s)
    (hlst : s'.waitersLsts = s.waitersLsts) (hgr : s'.granted = s.granted)
    (hrm : s'.removed = s.removed) (htk : s'.nextTicket = s.nextTicket)
    (hbusy : ∀ i, ∀ w ∈ s.waitersLsts i, s'.access w.entry ≠ accessIdle) : Queued n s' := by
  obtain ⟨home, busy, fresh, logged, sorted, single, gone, once, order, behind⟩ := h
  constructor <;> simp only [hlst, hgr, hrm, htk] <;> assumption

theorem queued_hold (h : Queued n s) (hv : v ≠ accessIdle) : Queued n (s.hold l v) := by
  refine h.of_words rfl rfl rfl rfl fun i w hw => ?_
  simp only [State.hold]
  by_cases he : w.entry = l.entry
  · simpa [he] using hv
  · simpa [update_of_ne he] using h.busy i w hw

theorem queued_clear (h : Queued n s) : Queued n (s.clear l) :=
  h.of_words rfl rfl rfl rfl h.busy

theorem mem_update {j i : Nat} {w : Waiter} (h : w ∈ update s.waitersLsts j ws i) :
    (i = j ∧ w ∈ ws) ∨ (i ≠ j ∧ w ∈ s.waitersLsts i) := by
  by_cases hi : i = j
  · subst hi
    exact .inl ⟨rfl, by simpa using h⟩
  · exact .inr ⟨hi, by simpa [update_of_ne hi] using h⟩

theorem queued_waitlistAdd (h : Queued n s)
    (hbusy : s.access l.entry ≠ accessIdle) : Queued n (s.waitlistAdd n l) := by
  have hmem : ∀ i, ∀ w ∈ (s.waitlistAdd n l).waitersLsts i,
      w ∈ s.waitersLsts i ∨ (i = l.entry % n ∧ w = ⟨l, s.nextTicket⟩) := by
    intro i w hw
    rcases mem_update hw with ⟨rfl, hmem⟩ | ⟨-, hw⟩
    · rcases List.mem_append.mp hmem with hw | hw
      · exact .inl hw
      · exact .inr ⟨rfl, by simpa using hw⟩
    · exact .inl hw
  constructor
  case home =>
    intro i w hw
    rcases hmem i w hw with hw | ⟨rfl, rfl⟩
    · exact h.home i w hw
    · rfl
  case busy =>
    intro i w hw
    rcases hmem i w hw with hw | ⟨rfl, rfl⟩
    · exact h.busy i w hw
    · exact hbusy
  case fresh =>
    intro i w hw
    rcases hmem i w hw with hw | ⟨rfl, rfl⟩
    · exact Nat.lt_succ_of_lt (h.fresh i w hw)
    · exact Nat.lt_succ_self _
  case logged => exact fun w hw => Nat.lt_succ_of_lt (h.logged w hw)
  case sorted =>
    intro i
    simp only [State.waitlistAdd]
    by_cases hi : i = l.entry % n
    · subst hi
      simp only [update_self]
      refine List.pairwise_append.mpr ⟨h.sorted _, List.pairwise_singleton _ _, ?_⟩
      intro a ha b hb
      simp only [List.mem_singleton] at hb
      exact hb ▸ h.fresh _ a ha
    · simpa [update_of_ne hi] using h.sorted i
  case single =>
    intro i j a ha b hb hab
    rcases hmem i a ha with ha | ⟨rfl, rfl⟩ <;> rcases hmem j b hb with hb | ⟨rfl, rfl⟩
    · exact h.single i j a ha b hb hab
    · exact absurd hab (Nat.ne_of_lt (h.fresh i a ha))
    · exact absurd hab.symm (Nat.ne_of_lt (h.fresh j b hb))
    · rfl
  case gone =>
    intro i a ha b hb
    rcases hmem i a ha with ha | ⟨rfl, rfl⟩
    · exact h.gone i a ha b hb
    · exact Nat.ne_of_gt (h.logged b hb)
  case once => exact h.once
  case order => exact h.order
  case behind =>
    intro i g hg w hw
    rcases hmem i w hw with hw | ⟨rfl, rfl⟩
    · exact h.behind i g hg w hw
    · exact fun _ => h.logged g (List.mem_append_left _ hg)

/-- Waiters leave the queue. -/
theorem Queued.leave {j : Nat} {out kept : List Waiter} (h : Queued n s)
    (hperm : (out ++ kept).Perm (s.waitersLsts j)) (hsub : kept.Sublist (s.waitersLsts j))
    (hlst : s'.waitersLsts = update s.waitersLsts j kept)
    (hlog : (s'.granted ++ s'.removed).Perm (out ++ (s.granted ++ s.removed)))
    (htk : s'.nextTicket = s.nextTicket)
    (hbusy : ∀ i, ∀ w ∈ s'.waitersLsts i, s'.access w.entry ≠ accessIdle)
    (horder : s'.granted.Pairwise Ahead)
    (hbehind : ∀ i, ∀ g ∈ s'.granted, ∀ w ∈ s'.waitersLsts i, Ahead g w) : Queued n s' := by
  have hout : ∀ w ∈ out, w ∈ s.waitersLsts j := fun w hw =>
    hperm.subset (List.mem_append_left _ hw)
  have hmem : ∀ i, ∀ w ∈ s'.waitersLsts i, w ∈ s.waitersLsts i := by
    intro i w hw
    rw [hlst] at hw
    rcases mem_update hw with ⟨rfl, hk⟩ | ⟨-, hk⟩
    · exact hsub.subset hk
    · exact hk
  have hsplit : (out ++ kept).Pairwise fun a b => a.ticket ≠ b.ticket := by
    refine (hperm.symm.pairwise ?_ fun hab => hab.symm)
    exact (h.sorted j).imp fun hab => Nat.ne_of_lt hab
  constructor
  case home => exact fun i w hw => h.home i w (hmem i w hw)
  case busy => exact hbusy
  case fresh => exact fun i w hw => htk ▸ h.fresh i w (hmem i w hw)
  case logged =>
    intro w hw
    rw [htk]
    rcases List.mem_append.mp (hlog.subset hw) with hw | hw
    · exact h.fresh j w (hout w hw)
    · exact h.logged w hw
  case sorted =>
    intro i
    rw [hlst]
    by_cases hi : i = j
    · subst hi
      simpa using (h.sorted i).sublist hsub
    · simpa [update_of_ne hi] using h.sorted i
  case single => exact fun i k a ha b hb => h.single i k a (hmem i a ha) b (hmem k b hb)
  case gone =>
    intro i a ha b hb hab
    rcases List.mem_append.mp (hlog.subset hb) with hb | hb
    · have hij : i = j := h.single i j a (hmem i a ha) b (hout b hb) hab
      subst hij
      rw [hlst, update_self] at ha
      exact (List.pairwise_append.mp hsplit).2.2 b hb a ha hab.symm
    · exact h.gone i a (hmem i a ha) b hb hab
  case once =>
    refine (hlog.map Waiter.ticket).nodup_iff.mpr ?_
    rw [List.map_append]
    refine List.nodup_append.mpr ⟨?_, h.once, ?_⟩
    · exact List.pairwise_map.mpr (List.pairwise_append.mp hsplit).1
    · intro t ht u hu htu
      obtain ⟨a, ha, rfl⟩ := List.mem_map.mp ht
      obtain ⟨b, hb, rfl⟩ := List.mem_map.mp hu
      exact h.gone j a (hout a ha) b hb htu
  case order => exact horder
  case behind => exact hbehind

theorem queued_unlink {entry req : Nat} (h : Queued n s) : Queued n (s.unlink n entry req) := by
  unfold State.unlink
  split
  · exact h
  · rename_i w hw
    have hsub := List.eraseP_sublist (p := fun w : Waiter => decide (w.req = req))
      (l := s.waitersLsts (entry % n))
    have hmem : ∀ i, ∀ x ∈ update s.waitersLsts (entry % n)
        ((s.waitersLsts (entry % n)).eraseP fun w => decide (w.req = req)) i,
        x ∈ s.waitersLsts i := by
      intro i x hx
      rcases mem_update hx with ⟨rfl, hk⟩ | ⟨-, hk⟩
      · exact hsub.subset hk
      · exact hk
    refine h.leave (?_ : ([w] ++ _).Perm _) hsub rfl ?_ rfl ?_ h.order ?_
    · obtain ⟨hp, as, bs, hws, has⟩ := List.find?_eq_some_iff_append.mp hw
      rw [hws, List.eraseP_append_right _ (by simpa using has), List.eraseP_cons, hp, cond_true]
      simpa using List.perm_middle.symm
    · rw [← List.append_assoc]
      exact List.perm_append_comm
    · exact fun i x hx => h.busy i x (hmem i x hx)
    · exact fun i g hg x hx => h.behind i g hg x (hmem i x hx)

theorem queued_commit {d : Rw} (h : Queued n s)
    (hwalk : unlockWalk (opsOf d) e true (s.access e) (s.waitersLsts (e % n)) = some r)
    (hrel : r.release (opsOf d) = some v) : Queued n (s.commit n e r v) := by
  obtain ⟨hk, hw, hp, hf⟩ := unlockWalk_split hwalk
  have hwoken := unlockWalk_woken hwalk
  have hmem : ∀ i, ∀ w ∈ (s.commit n e r v).waitersLsts i, w ∈ s.waitersLsts i := by
    intro i x hx
    rcases mem_update hx with ⟨rfl, hk'⟩ | ⟨-, hk'⟩
    · exact hk.subset hk'
    · exact hk'
  have hsorted : (r.woken ++ r.kept.filter fun w => decide (w.entry = e)).Pairwise
      fun a b => a.ticket < b.ticket := hf ▸ (h.sorted (e % n)).filter _
  obtain ⟨hws, -, hahead⟩ := List.pairwise_append.mp hsorted
  refine h.leave hp hk rfl ?_ rfl ?_ ?_ ?_
  · simp only [State.commit]
    rw [List.append_assoc]
    exact List.perm_append_comm_assoc _ _ _
  · intro i w hw'
    simp only [State.commit]
    by_cases he : w.entry = e
    · rw [he, update_self]
      have hi := h.home i w (hmem i w hw')
      rcases mem_update hw' with ⟨-, hkept⟩ | ⟨hne, -⟩
      · exact unlockWalk_busy hwalk hrel hkept he
      · exact absurd (he ▸ hi.symm) hne
    · rw [update_of_ne he]
      exact h.busy i w (hmem i w hw')
  · refine List.pairwise_append.mpr ⟨h.order, pairwise_ahead hws, ?_⟩
    exact fun g hg w hw' => h.behind (e % n) g hg w (hw.subset hw')
  · intro i g hg w hw' hgw
    rcases List.mem_append.mp hg with hg | hg
    · exact h.behind i g hg w (hmem i w hw') hgw
    · have he : w.entry = e := hgw ▸ hwoken g hg
      rcases mem_update hw' with ⟨-, hkept⟩ | ⟨hne, hi⟩
      · exact hahead g hg w (List.mem_filter.mpr ⟨hkept, by simpa using he⟩)
      · exact absurd (he ▸ (h.home i w hi).symm) hne

theorem queued_unlockOneCommon {d : Rw} (h : Queued n s)
    (hs : (unlockOneCommon (opsOf d) n s e).map (·.clear l) = some s') : Queued n s' := by
  obtain ⟨r, v, hwalk, hrel, rfl⟩ := unlock_cases hs
  exact queued_clear (queued_commit h hwalk hrel)

/-- What the trylocks have in common: success locks the entry, and so does
the holder that makes them fail. -/
def Locks (op : WordOp) : Prop :=
  ∀ v v' locked, op v = some (v', locked) → if locked then v' ≠ accessIdle else v ≠ accessIdle

theorem locks_trylockEntryWr : Locks ocfAlockTrylockEntryWr := by
  intro v v' locked h
  simp only [ocfAlockTrylockEntryWr, cmpxchg, Option.some.injEq] at h
  split at h
  · obtain ⟨rfl, rfl⟩ := Prod.mk.inj h
    exact show accessWr ≠ accessIdle by decide
  · obtain ⟨rfl, rfl⟩ := Prod.mk.inj h
    assumption

theorem locks_trylockEntryRdIdle : Locks ocfAlockTrylockEntryRdIdle := by
  intro v v' locked h
  simp only [ocfAlockTrylockEntryRdIdle, cmpxchg, Option.some.injEq] at h
  split at h
  · obtain ⟨rfl, rfl⟩ := Prod.mk.inj h
    exact show accessOneRd ≠ accessIdle by decide
  · obtain ⟨rfl, rfl⟩ := Prod.mk.inj h
    assumption

theorem locks_trylockEntryRd : Locks ocfAlockTrylockEntryRd := by
  intro v v' locked h
  simp only [ocfAlockTrylockEntryRd] at h
  split at h
  · rename_i hv
    obtain ⟨rfl, rfl⟩ := Prod.mk.inj (Option.some.inj h)
    simp [hv, accessWr, accessIdle]
  · rename_i hv
    obtain ⟨rfl, rfl⟩ := Prod.mk.inj (Option.some.inj h)
    simp only [accessWr, accessIdle, if_true] at hv ⊢
    bv_omega

theorem queued_tryWith {op : WordOp} (h : Queued n s)
    (hop : Locks op) (hs : s.tryWith op l = some s') : Queued n s' := by
  unfold State.tryWith at hs
  split at hs
  · contradiction
  · rename_i v heq
    obtain rfl := Option.some.inj hs
    exact queued_hold h (hop _ _ _ heq)
  · obtain rfl := Option.some.inj hs
    exact h

theorem queued_tryOrAdd {op : WordOp} (h : Queued n s)
    (hop : Locks op) (hs : s.tryOrAdd n op l = some s') : Queued n s' := by
  unfold State.tryOrAdd at hs
  split at hs
  · contradiction
  · rename_i v heq
    obtain rfl := Option.some.inj hs
    exact queued_hold h (hop _ _ _ heq)
  · rename_i v heq
    obtain rfl := Option.some.inj hs
    exact queued_waitlistAdd h (hop _ _ _ heq)

theorem step_queued {act : Action} (h : Queued n s)
    (hs : step n s act = some s') : Queued n s' := by
  cases act with
  | trylockEntryWr l => exact queued_tryWith h locks_trylockEntryWr hs
  | trylockEntryRdIdle l => exact queued_tryWith h locks_trylockEntryRdIdle hs
  | lockOneWr l => exact queued_tryOrAdd h locks_trylockEntryWr hs
  | lockOneRd l =>
    dsimp only [step, ocfAlockLockOneRd] at hs
    split at hs
    · exact queued_tryOrAdd h locks_trylockEntryRd hs
    · rename_i hempty
      obtain rfl := Option.some.inj hs
      simp only [ocfAlockWaitlistIsEmptyLocked, Bool.not_eq_true', Bool.not_eq_false,
        List.any_eq_true, decide_eq_true_eq] at hempty
      obtain ⟨w, hw, he⟩ := hempty
      exact queued_waitlistAdd h (he ▸ h.busy _ w hw)
  | unlockOneRd l => exact queued_unlockOneCommon (d := .read) h hs
  | unlockOneWr l => exact queued_unlockOneCommon (d := .write) h hs
  | waitlistRemoveEntry l =>
    dsimp only [step, ocfAlockWaitlistRemoveEntry] at hs
    split at hs
    · exact queued_unlockOneCommon h hs
    · obtain rfl := Option.some.inj hs
      exact queued_unlink h

theorem queued_of_reachable (h : Reachable (alock n) init s) : Queued n s :=
  h.invariant (fun _ => queued_init n) fun _ _ _ hinv _ _ hs _ => step_queued hinv hs

/-- No wakeup is lost: an entry with a waiter is locked, the waiters of an
entry are granted in queueing order with none overtaken, and a waiter leaves
its list at most once. -/
theorem waiters_served_in_order {n : Nat} {s : State} (h : Reachable (alock n) init s) :
    (∀ i, ∀ w ∈ s.waitersLsts i, s.access w.entry ≠ accessIdle) ∧
      (∀ i, (s.granted ++ s.waitersLsts i).Pairwise Ahead) ∧
      ∀ i, ((s.granted ++ s.removed ++ s.waitersLsts i).map Waiter.ticket).Nodup := by
  have hq := queued_of_reachable h
  refine ⟨hq.busy, fun i => ?_, fun i => ?_⟩
  · exact List.pairwise_append.mpr ⟨hq.order, pairwise_ahead (hq.sorted i), hq.behind i⟩
  · rw [List.map_append]
    refine List.nodup_append.mpr ⟨hq.once, ?_, ?_⟩
    · exact List.pairwise_map.mpr ((hq.sorted i).imp fun hab => Nat.ne_of_lt hab)
    · intro t ht u hu htu
      obtain ⟨b, hb, rfl⟩ := List.mem_map.mp ht
      obtain ⟨a, ha, rfl⟩ := List.mem_map.mp hu
      exact hq.gone i a ha b hb htu.symm

/-- Entry 0 went from a writer to the reader queued behind it, and another
writer is queued. -/
def handedOver : State :=
  ((((init.hold ⟨0, 0, 0, .write⟩ accessWr).waitlistAdd 699050 ⟨0, 0, 1, .read⟩).commit 699050 0
    ⟨accessOneRd, false, [], [⟨⟨0, 0, 1, .read⟩, 0⟩]⟩ accessOneRd).clear
      ⟨0, 0, 0, .write⟩).waitlistAdd 699050 ⟨0, 0, 2, .write⟩

theorem handedOver_reachable : Reachable (alock 699050) init handedOver := by
  have hstart : Reachable (alock 699050) init init := .refl trivial
  have hlocked := hstart.next (.trylockEntryWr ⟨0, 0, 0, .write⟩)
    ⟨rfl, by simp [Unused, init]⟩ rfl
  have hqueued := hlocked.next (.lockOneRd ⟨0, 0, 1, .read⟩)
    ⟨rfl, by simp [Unused, State.hold, init]⟩ rfl
  have hgranted := hqueued.next (.unlockOneWr ⟨0, 0, 0, .write⟩)
    ⟨rfl, by simp [State.waitlistAdd, State.hold]⟩ rfl
  refine hgranted.next (.lockOneWr ⟨0, 0, 2, .write⟩) ⟨rfl, ?_, ?_⟩ rfl
  · simp [State.waitlistAdd, State.hold, State.clear, State.commit, init]
  · intro i w hw
    rcases mem_update hw with ⟨-, hk⟩ | ⟨hne, hk⟩
    · simp at hk
    · rcases mem_update hk with ⟨hi, -⟩ | ⟨-, hk⟩
      · exact absurd hi hne
      · simp [State.hold, init] at hk

theorem waiters_served_in_order_handedOver :
    (∀ i, ∀ w ∈ handedOver.waitersLsts i, handedOver.access w.entry ≠ accessIdle) ∧
      (∀ i, (handedOver.granted ++ handedOver.waitersLsts i).Pairwise Ahead) ∧
      ∀ i, ((handedOver.granted ++ handedOver.removed ++ handedOver.waitersLsts i).map
        Waiter.ticket).Nodup :=
  waiters_served_in_order handedOver_reachable

end OcfCache.AlockWakeup
