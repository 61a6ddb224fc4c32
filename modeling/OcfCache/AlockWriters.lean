import OcfCache.AlockClient

/-!
# A writer of the cache line lock is alone

Whatever the number of readers, the holder of a write lock is the only holder
of its entry: with 255 readers the access word has the value of a write lock,
so nobody else takes the entry and the release aborts. The module also has the
frame of a lock step: which locks stay held, which locks stay held or awaited,
and which waiters are new.
-/

namespace OcfCache.AlockWriters

open Function Runs Alock AlockExclusion AlockWakeup AlockClient

/-- The access word of an entry counts its readers, or there is one writer. -/
def Fits (v : BitVec 8) (held : Rw → Nat) : Prop :=
  (v = accessWr ∧ held .write = 1 ∧ held .read = 0) ∨
    (held .write = 0 ∧ v.toNat = held .read)

/-- Every access word fits the holders of its entry. -/
def WordsFit (s : State) : Prop := ∀ e, Fits (s.access e) (heldOn s e)

variable {v : BitVec 8} {held : Rw → Nat} {e i : Nat} {l x : Lock} {op : WordOp} {w : Waiter}

theorem Fits.of_reads (h : Reads v held) : Fits v held := by
  rcases h with h | ⟨-, hw, hr⟩
  · exact .inl h
  · exact .inr ⟨hw, hr⟩

theorem Fits.reads (h : Fits v held) (hv : v ≠ accessWr ∨ held .write ≠ 0) : Reads v held := by
  rcases h with h | ⟨hw, hr⟩
  · exact .inl h
  · have hne : v ≠ accessWr := by
      rcases hv with hv | hv
      · exact hv
      · exact absurd hw hv
    exact .inr ⟨hne, hw, hr⟩

theorem Fits.idle (h : Fits v held) (hv : v = accessIdle) : held .write = 0 ∧ held .read = 0 := by
  have hne : v ≠ accessWr := by
    rw [hv]
    decide
  exact (h.reads (.inl hne)).idle_iff.mp hv

/-- One more reader of a word that is not the writers' value. -/
theorem Fits.add_reader {held' : Rw → Nat} (h : Fits v held)
    (hv : v ≠ accessWr) (hw : held' .write = held .write)
    (hr : held' .read = held .read + 1) : Fits (v + 1#8) held' := by
  rcases h with ⟨hwr, -⟩ | ⟨hw', hr'⟩
  · exact absurd hwr hv
  · have hle := ne_accessWr_toNat hv
    have hn : (v + 1#8).toNat = v.toNat + 1 := by
      simp only [BitVec.toNat_add, BitVec.toNat_ofNat]
      omega
    exact .inr ⟨by omega, by omega⟩

variable {ws : List Waiter}

/-- After a first grant the walk only adds readers behind readers. -/
theorem fits_granted {ops : UnlockOps} {r : Walk} (hpos : v ≠ accessIdle) (h : Fits v held)
    (hwalk : unlockWalk ops e false v ws = some r) :
    r.exchanged = false ∧ Fits r.word (heldWith held e r.woken) := by
  induction ws generalizing v held r with
  | nil =>
    cases hwalk
    exact ⟨rfl, h⟩
  | cons w ws ih =>
    by_cases he : e = w.entry
    · rcases grantOp_held ops w.rw hpos with hop | ⟨hrw, hv, hop⟩
      · simp only [unlockWalk, ne_eq, he, not_true_eq_false, if_false, hop,
          Option.some.injEq] at hwalk
        subst hwalk
        exact ⟨rfl, h⟩
      · simp only [unlockWalk, ne_eq, he, not_true_eq_false, if_false, hop,
          Option.map_eq_some_iff] at hwalk
        obtain ⟨r', hr', rfl⟩ := hwalk
        have hpos' : v + 1#8 ≠ accessIdle := by
          simp only [accessWr, accessIdle] at hv ⊢
          bv_omega
        have hadd : Fits (v + 1#8) (heldWith held w.entry [w]) := by
          refine h.add_reader hv ?_ ?_
          · simp [heldWith_single rfl, hrw]
          · simp [heldWith_single rfl, hrw]
        obtain ⟨hx, hfit⟩ := ih hpos' hadd (he ▸ hr')
        refine ⟨hx, ?_⟩
        rw [heldWith_cons, he]
        exact he ▸ hfit
    · simp only [unlockWalk, ne_eq, he, not_false_eq_true, if_true,
        Option.map_eq_some_iff] at hwalk
      obtain ⟨r', hr', rfl⟩ := hwalk
      have hrest := ih hpos h hr'
      exact hrest

/-- Readers whose number is the writers' value cannot be released. -/
theorem release_overflow {r : Walk}
    (hwalk : unlockWalk rdOps e true accessWr ws = some r) : r.release rdOps = none := by
  induction ws generalizing r with
  | nil =>
    cases hwalk
    rfl
  | cons w ws ih =>
    by_cases he : e = w.entry
    · have hop : grantOp rdOps true w.rw accessWr = none := by
        cases w.rw <;> rfl
      simp only [unlockWalk, ne_eq, he, not_true_eq_false, if_false, hop] at hwalk
      cases hwalk
    · simp only [unlockWalk, ne_eq, he, not_false_eq_true, if_true,
        Option.map_eq_some_iff] at hwalk
      obtain ⟨r', hr', rfl⟩ := hwalk
      have hrest := ih hr'
      exact hrest

/-- The word that a successful release leaves. -/
theorem fits_release {d : Rw} {v' : BitVec 8} {r : Walk} (h : Fits v held) (hd : 0 < held d)
    (hwalk : unlockWalk (opsOf d) e true v ws = some r) (hrel : r.release (opsOf d) = some v') :
    Fits v' (heldWith (released held d) e r.woken) := by
  have hreads : Reads v held := by
    by_cases hv : v = accessWr
    · refine h.reads (.inr fun hw => ?_)
      cases d with
      | write => omega
      | read =>
        rw [hv] at hwalk
        rw [show (opsOf .read) = rdOps from rfl, release_overflow hwalk] at hrel
        cases hrel
    · exact h.reads (.inl hv)
  obtain ⟨v₀, hdrop, hv₀⟩ := drop_held hreads hd
  induction ws generalizing r with
  | nil =>
    cases hwalk
    have hv : v' = v₀ := Option.some.inj (hrel.symm.trans hdrop)
    rw [hv]
    exact Fits.of_reads hv₀
  | cons w ws ih =>
    by_cases he : e = w.entry
    · rcases grantOp_exchange hreads hd he with hop | ⟨v₁, hop, hpos, hreads'⟩
      · simp only [unlockWalk, ne_eq, he, not_true_eq_false, if_false, hop,
          Option.some.injEq] at hwalk
        subst hwalk
        have hv : v' = v₀ := Option.some.inj (hrel.symm.trans hdrop)
        rw [hv]
        exact Fits.of_reads hv₀
      · simp only [unlockWalk, ne_eq, he, not_true_eq_false, if_false, hop,
          Option.map_eq_some_iff] at hwalk
        obtain ⟨r', hr', rfl⟩ := hwalk
        obtain ⟨hx, hfit⟩ := fits_granted hpos (Fits.of_reads (he ▸ hreads')) hr'
        have hword : r'.word = v' := by
          simp only [Walk.release, hx] at hrel
          exact Option.some.inj hrel
        rw [← hword, heldWith_cons, he]
        exact hfit
    · simp only [unlockWalk, ne_eq, he, not_false_eq_true, if_true,
        Option.map_eq_some_iff] at hwalk
      obtain ⟨r', hr', rfl⟩ := hwalk
      have hrest := ih hr' hrel
      exact hrest

theorem wordsFit_init : WordsFit init := fun e => Fits.of_reads (wordsTrue_init e)

variable {s : State}

/-- Only the entry of a new holder has to be looked at. -/
theorem wordsFit_hold (h : WordsFit s)
    (hv : Fits v (heldOn (s.hold l v) l.entry)) : WordsFit (s.hold l v) := by
  intro e
  by_cases he : e = l.entry
  · subst he
    simpa [State.hold] using hv
  · have hheld : heldOn (s.hold l v) e = heldOn s e := by
      funext rw
      simp [heldOn_hold, Ne.symm he]
    rw [hheld]
    simpa [State.hold, update_of_ne he] using h e

/-- A trylock operation for one direction: it takes an idle word, or it adds a
reader to a word that is not the writers' value. -/
def Takes (op : WordOp) (rw : Rw) : Prop :=
  ∀ v v', op v = some (v', true) →
    (v = accessIdle ∧ v' = match rw with | .write => accessWr | .read => accessOneRd) ∨
      (rw = .read ∧ v ≠ accessWr ∧ v' = v + 1#8)

theorem takes_trylockEntryWr : Takes ocfAlockTrylockEntryWr .write := by
  intro v v' h
  simp only [ocfAlockTrylockEntryWr, cmpxchg, Option.some.injEq] at h
  split at h
  · rename_i hv
    cases h
    exact .inl ⟨hv, rfl⟩
  · cases h

theorem takes_trylockEntryRdIdle : Takes ocfAlockTrylockEntryRdIdle .read := by
  intro v v' h
  simp only [ocfAlockTrylockEntryRdIdle, cmpxchg, Option.some.injEq] at h
  split at h
  · rename_i hv
    cases h
    exact .inl ⟨hv, rfl⟩
  · cases h

theorem takes_trylockEntryRd : Takes ocfAlockTrylockEntryRd .read := by
  intro v v' h
  simp only [ocfAlockTrylockEntryRd] at h
  split at h
  · cases h
  · rename_i hv
    cases h
    exact .inr ⟨rfl, hv, rfl⟩

theorem wordsFit_takes (h : WordsFit s)
    (hop : Takes op l.rw) (hv : op (s.access l.entry) = some (v, true)) :
    WordsFit (s.hold l v) := by
  refine wordsFit_hold h ?_
  rcases hop _ _ hv with ⟨hidle, hval⟩ | ⟨hrw, hne, hval⟩
  · obtain ⟨hw, hr⟩ := (h l.entry).idle hidle
    rw [hval]
    cases hrw : l.rw with
    | write =>
      refine .inl ⟨rfl, ?_, ?_⟩
      · simp [heldOn_hold, hrw, hw]
      · simp [heldOn_hold, hrw, hr]
    | read =>
      refine .inr ⟨?_, ?_⟩
      · simp [heldOn_hold, hrw, hw]
      · simp [heldOn_hold, hrw, hr, accessOneRd]
  · rw [hval]
    refine (h l.entry).add_reader hne ?_ ?_
    · simp [heldOn_hold, hrw]
    · simp [heldOn_hold, hrw]

variable {s s' : State}

theorem wordsFit_tryWith (h : WordsFit s)
    (hop : Takes op l.rw) (hs : s.tryWith op l = some s') : WordsFit s' := by
  unfold State.tryWith at hs
  split at hs
  · cases hs
  · rename_i v hv
    cases hs
    exact wordsFit_takes h hop hv
  · cases hs
    exact h

theorem wordsFit_tryOrAdd {n : Nat} (h : WordsFit s)
    (hop : Takes op l.rw) (hs : s.tryOrAdd n op l = some s') : WordsFit s' := by
  unfold State.tryOrAdd at hs
  split at hs
  · cases hs
  · rename_i v hv
    cases hs
    exact wordsFit_takes h hop hv
  · cases hs
    exact h

/-- The release of a held lock keeps the words. -/
theorem wordsFit_unlock {n : Nat} (h : WordsFit s) (hl : l ∈ s.holders)
    (hs : (unlockOneCommon (opsOf l.rw) n s l.entry).map (·.clear l) = some s') : WordsFit s' := by
  obtain ⟨r, v, hwalk, hrel, rfl⟩ := unlock_cases hs
  have hheld : ∀ e rw, heldOn ((s.commit n l.entry r v).clear l) e rw =
      heldOn s e rw + countOn (r.woken.map Waiter.toLock) e rw -
        if l.entry = e ∧ l.rw = rw then 1 else 0 := by
    intro e rw
    simp only [heldOn, State.clear, State.commit]
    rw [countOn_erase (List.mem_append_left _ hl), countOn_append]
  have hpos : 0 < heldOn s l.entry l.rw := countOn_pos hl
  intro e
  by_cases he : e = l.entry
  · subst he
    have heq : heldOn ((s.commit n l.entry r v).clear l) l.entry =
        heldWith (released (heldOn s l.entry) l.rw) l.entry r.woken := by
      funext rw
      rw [hheld]
      simp only [heldWith, released, true_and]
      split
      · rename_i hrw
        subst hrw
        omega
      · omega
    have hfit := fits_release (h l.entry) hpos hwalk hrel
    rw [heq]
    simpa [State.clear, State.commit] using hfit
  · have hwoken : ∀ x ∈ r.woken.map Waiter.toLock, x.entry = l.entry := by
      intro x hx
      obtain ⟨w, hw, rfl⟩ := List.mem_map.mp hx
      exact unlockWalk_woken hwalk w hw
    have heq : heldOn ((s.commit n l.entry r v).clear l) e = heldOn s e := by
      funext rw
      rw [hheld, countOn_eq_zero hwoken he]
      simp [Ne.symm he]
    rw [heq]
    simpa [State.clear, State.commit, update_of_ne he] using h e

/-- Step rule: every permitted step keeps the words. -/
theorem step_wordsFit {n : Nat} {act : Action} (h : WordsFit s)
    (hg : Permitted s act) (hs : step n s act = some s') : WordsFit s' := by
  cases act with
  | trylockEntryWr l =>
    refine wordsFit_tryWith h ?_ hs
    rw [hg.1]
    exact takes_trylockEntryWr
  | trylockEntryRdIdle l =>
    refine wordsFit_tryWith h ?_ hs
    rw [hg.1]
    exact takes_trylockEntryRdIdle
  | lockOneWr l =>
    refine wordsFit_tryOrAdd h ?_ hs
    rw [hg.1]
    exact takes_trylockEntryWr
  | lockOneRd l =>
    simp only [step, ocfAlockLockOneRd] at hs
    split at hs
    · refine wordsFit_tryOrAdd h ?_ hs
      rw [hg.1]
      exact takes_trylockEntryRd
    · cases hs
      exact h
  | unlockOneRd l =>
    refine wordsFit_unlock (n := n) h hg.2 ?_
    rw [hg.1]
    exact hs
  | unlockOneWr l =>
    refine wordsFit_unlock (n := n) h hg.2 ?_
    rw [hg.1]
    exact hs
  | waitlistRemoveEntry l =>
    simp only [step, ocfAlockWaitlistRemoveEntry] at hs
    split at hs
    · rename_i hl
      exact wordsFit_unlock h (mem_holders_of_isIndexLocked hg hl) hs
    · cases hs
      unfold State.unlink
      split
      · exact h
      · exact h

/-- Elements that are counted once are equal. -/
theorem eq_of_countOn_one {ls : List Lock} {a b : Lock} (ha : a ∈ ls) (hb : b ∈ ls)
    (he : b.entry = a.entry) (hrw : b.rw = a.rw) (hone : countOn ls a.entry a.rw = 1) : b = a := by
  by_contra hne
  have herase := countOn_erase ha a.entry a.rw
  rw [if_pos ⟨rfl, rfl⟩, hone] at herase
  have hmem : b ∈ ls.erase a := (List.mem_erase_of_ne hne).mpr hb
  have hpos := countOn_pos hmem
  rw [he, hrw, herase] at hpos
  exact Nat.lt_irrefl 0 hpos

/-- The holder of a write lock is the only holder of its entry. -/
theorem WordsFit.alone {a b : Lock} (h : WordsFit s) (ha : a ∈ s.holders)
    (hw : a.rw = .write) (hb : b ∈ s.holders) (he : b.entry = a.entry) : b = a := by
  have hpos : 0 < heldOn s a.entry a.rw := countOn_pos ha
  rw [hw] at hpos
  rcases h a.entry with ⟨-, hone, hzero⟩ | ⟨hzero, -⟩
  · have hbrw : b.rw = .write := by
      cases hrw : b.rw with
      | write => rfl
      | read =>
        have hread : 0 < heldOn s b.entry b.rw := countOn_pos hb
        rw [he, hrw, hzero] at hread
        exact absurd hread (Nat.lt_irrefl 0)
    refine eq_of_countOn_one ha hb he (hbrw.trans hw.symm) ?_
    rw [hw]
    exact hone
  · omega

section Frame

variable {n : Nat} {s s' : State} {act : Action}

theorem holders_unlock {d : Rw} (hx : x ∈ s.holders) (hne : x ≠ l)
    (hs : (unlockOneCommon (opsOf d) n s l.entry).map (·.clear l) = some s') : x ∈ s'.holders := by
  obtain ⟨r, v, -, -, rfl⟩ := unlock_cases hs
  exact (List.mem_erase_of_ne hne).mpr (List.mem_append_left _ hx)

theorem holders_tryWith (hx : x ∈ s.holders) (hs : s.tryWith op l = some s') : x ∈ s'.holders := by
  unfold State.tryWith at hs
  split at hs
  · cases hs
  · cases hs
    exact List.mem_append_left _ hx
  · cases hs
    exact hx

theorem holders_tryOrAdd (hx : x ∈ s.holders)
    (hs : s.tryOrAdd n op l = some s') : x ∈ s'.holders := by
  unfold State.tryOrAdd at hs
  split at hs
  · cases hs
  · cases hs
    exact List.mem_append_left _ hx
  · cases hs
    exact hx

theorem step_holders (hx : x ∈ s.holders) (hne : x ≠ actionLock act)
    (hs : step n s act = some s') : x ∈ s'.holders := by
  cases act with
  | trylockEntryWr l => exact holders_tryWith hx hs
  | trylockEntryRdIdle l => exact holders_tryWith hx hs
  | lockOneWr l => exact holders_tryOrAdd hx hs
  | lockOneRd l =>
    simp only [step, ocfAlockLockOneRd] at hs
    split at hs
    · exact holders_tryOrAdd hx hs
    · cases hs
      exact hx
  | unlockOneRd l => exact holders_unlock (d := .read) hx hne hs
  | unlockOneWr l => exact holders_unlock (d := .write) hx hne hs
  | waitlistRemoveEntry l =>
    simp only [step, ocfAlockWaitlistRemoveEntry] at hs
    split at hs
    · exact holders_unlock hx hne hs
    · cases hs
      unfold State.unlink
      split
      · exact hx
      · exact hx

/-- A request holds a lock or waits for it. -/
def Owned (n : Nat) (s : State) (l : Lock) : Prop :=
  l ∈ s.holders ∨ l ∈ waitingBy n l.req s

/-- Steps of other requests take no lock away and end no wait but by a grant. -/
theorem step_owned (hn : 0 < n) (hl : Owned n s l) (hne : (actionLock act).req ≠ l.req)
    (hs : step n s act = some s') : Owned n s' l := by
  obtain ⟨given, hgrant⟩ := granting_of_other hn hne hs
  rcases hl with hheld | hwait
  · refine .inl (step_holders hheld ?_ hs)
    rintro rfl
    exact hne rfl
  · rcases List.mem_append.mp (hgrant.waiting.subset hwait) with hgiven | hstill
    · have hmem := hgrant.held.symm.subset (List.mem_append_right _ hgiven)
      exact .inl (List.mem_filter.mp hmem).1
    · exact .inr hstill

/-- The attempts that queue a waiter. -/
def Queues : Action → Prop
  | .lockOneWr _ => True
  | .lockOneRd _ => True
  | _ => False

/-- A new waiter is one of the step's own lock. -/
def NewWaiter (s : State) (act : Action) (i : Nat) (w : Waiter) : Prop :=
  w ∈ s.waitersLsts i ∨ (Queues act ∧ w.toLock = actionLock act)

theorem waiters_waitlistAdd (hq : Queues act)
    (hl : actionLock act = l) (hw : w ∈ (s.waitlistAdd n l).waitersLsts i) :
    NewWaiter s act i w := by
  rcases mem_update hw with ⟨hi, hmem⟩ | ⟨-, hmem⟩
  · rcases List.mem_append.mp hmem with hold | hnew
    · rw [hi]
      exact .inl hold
    · rw [List.mem_singleton.mp hnew]
      exact .inr ⟨hq, hl.symm⟩
  · exact .inl hmem

theorem waiters_tryOrAdd (hq : Queues act)
    (hl : actionLock act = l) (hs : s.tryOrAdd n op l = some s') (hw : w ∈ s'.waitersLsts i) :
    NewWaiter s act i w := by
  unfold State.tryOrAdd at hs
  split at hs
  · cases hs
  · cases hs
    exact .inl hw
  · cases hs
    exact waiters_waitlistAdd hq hl hw

theorem waiters_tryWith
    (hs : s.tryWith op l = some s') (hw : w ∈ s'.waitersLsts i) : w ∈ s.waitersLsts i := by
  unfold State.tryWith at hs
  split at hs
  · cases hs
  · cases hs
    exact hw
  · cases hs
    exact hw

theorem waiters_unlock {d : Rw}
    (hs : (unlockOneCommon (opsOf d) n s l.entry).map (·.clear l) = some s')
    (hw : w ∈ s'.waitersLsts i) : w ∈ s.waitersLsts i := by
  obtain ⟨r, v, hwalk, -, rfl⟩ := unlock_cases hs
  rcases mem_update hw with ⟨hi, hmem⟩ | ⟨-, hmem⟩
  · obtain ⟨-, -, hperm, -⟩ := unlockWalk_split hwalk
    rw [hi]
    exact hperm.subset (List.mem_append_right _ hmem)
  · exact hmem

theorem waiters_unlink {r : Nat} (hw : w ∈ (s.unlink n e r).waitersLsts i) :
    w ∈ s.waitersLsts i := by
  unfold State.unlink at hw
  split at hw
  · exact hw
  · rcases mem_update hw with ⟨hi, hmem⟩ | ⟨-, hmem⟩
    · rw [hi]
      exact List.mem_of_mem_eraseP hmem
    · exact hmem

theorem step_waiters (hs : step n s act = some s')
    (hw : w ∈ s'.waitersLsts i) : NewWaiter s act i w := by
  cases act with
  | trylockEntryWr l => exact .inl (waiters_tryWith hs hw)
  | trylockEntryRdIdle l => exact .inl (waiters_tryWith hs hw)
  | lockOneWr l => exact waiters_tryOrAdd trivial rfl hs hw
  | lockOneRd l =>
    simp only [step, ocfAlockLockOneRd] at hs
    split at hs
    · exact waiters_tryOrAdd trivial rfl hs hw
    · cases hs
      exact waiters_waitlistAdd trivial rfl hw
  | unlockOneRd l => exact .inl (waiters_unlock (d := .read) hs hw)
  | unlockOneWr l => exact .inl (waiters_unlock (d := .write) hs hw)
  | waitlistRemoveEntry l =>
    simp only [step, ocfAlockWaitlistRemoveEntry] at hs
    split at hs
    · exact .inl (waiters_unlock hs hw)
    · cases hs
      exact .inl (waiters_unlink hw)

end Frame

end OcfCache.AlockWriters
