import OcfCache.AlockAllOrNothing
import OcfCache.AlockWriters

/-!
# Locks of metadata pages

Embedding of `ocf_mio_concurrency.c`. A metadata request locks its pages with the
loops of the cache line lock, every page of it and for writing only. Its pages
follow each other, so that no two of them are on one waiters list. The error
path then finds its own waiters, and no reader overflows an access word.
-/

namespace OcfCache.PageLocks

open Runs Requests Alock AlockExclusion AlockWakeup AlockClient AlockRequests AlockAllOrNothing
  AlockWriters

/-- `struct ocf_mio_alock`. -/
structure MioAlock where
  /-- `first_page`. -/
  firstPage : Nat
  /-- `num_pages`. -/
  numPages : Nat

/-- `ocf_mio_lock_get_entry`; `none` is a fired `ENV_BUG_ON`. -/
def ocfMioLockGetEntry (mio : MioAlock) (page index : Nat) : Option Nat :=
  if page + index < mio.firstPage then none
  else if mio.firstPage + mio.numPages ≤ page + index then none
  else some (page + index - mio.firstPage)

/-- `struct metadata_io_request` at `ocf_mio_async_lock`. -/
structure MioRequest where
  /-- The lock. -/
  mio : MioAlock
  /-- Number of waiters lists. -/
  lists : Nat
  /-- The request. -/
  id : Nat
  /-- `page`. -/
  page : Nat
  /-- `core_line_count`, the number of pages. -/
  count : Nat
  /-- The pages have different waiters lists. -/
  count_le : count ≤ lists
  /-- There is a waiters list. -/
  lists_pos : 0 < lists
  /-- The pages belong to the lock. -/
  entry : ∀ i < count, (ocfMioLockGetEntry mio page i).isSome

/-- The request at the lock: the loops of `ocf_mio_lock_fast` and
`ocf_mio_lock_slow` skip no page. -/
def MioRequest.client (m : MioRequest) : Client where
  lists := m.lists
  lists_pos := m.lists_pos
  id := m.id
  rw := .write
  count := m.count
  map i := ⟨0, (ocfMioLockGetEntry m.mio m.page i).getD 0, 0, 0, .hit, false, false, false⟩

/-- All holders and waiters are writers. -/
structure Writers (s : State) : Prop where
  /-- Holders. -/
  held : ∀ l ∈ s.holders, l.rw = .write
  /-- Waiters. -/
  queued : ∀ i, ∀ w ∈ s.waitersLsts i, w.rw = .write

/-- The lock when only write locks are taken. -/
def writeAlock (n : Nat) : System State Action :=
  ⟨fun s act => (actionLock act).rw = .write ∧ Permitted s act, step n⟩

/-- Other requests keep the contract of the lock and take write locks only. -/
def WriteGuard (cl : Client) (c : Call) : Act → Prop
  | .other act =>
    (actionLock act).req ≠ cl.id ∧ (actionLock act).rw = .write ∧ Permitted c.lock act
  | .run _ => True

/-- The call among other requests for pages. -/
def pageSystem (cl : Client) : System Call Act := ⟨WriteGuard cl, next cl⟩

/-- Start of a call: the request holds no page and waits for none. -/
def PageStart (cl : Client) (c : Call) : Prop :=
  Reachable (writeAlock cl.lists) init c.lock ∧ c.pc = .fast 0 ∧ c.lockRemaining = 0 ∧
    c.cmplCalls = 0 ∧ (∀ i, ∀ w ∈ c.lock.waitersLsts i, w.req ≠ cl.id) ∧
    ∀ l ∈ c.lock.holders, l.req ≠ cl.id

section Writers

variable {n : Nat} {s s' : State} {act : Action} {l : Lock}

theorem Writers.few (h : Writers s) : FewReaders s := by
  intro e
  have hzero : heldOn s e .read = 0 := by
    refine List.countP_eq_zero.mpr fun l hl hd => ?_
    have hread := (of_decide_eq_true hd).2
    rw [h.held l hl] at hread
    cases hread
  omega

theorem writers_hold {v : BitVec 8} (h : Writers s) (hl : l.rw = .write) : Writers (s.hold l v) := by
  refine ⟨fun x hx => ?_, h.queued⟩
  rcases List.mem_append.mp hx with hold | hnew
  · exact h.held x hold
  · rw [List.mem_singleton.mp hnew]
    exact hl

theorem held_unlock {d : Rw} (h : Writers s)
    (hs : (unlockOneCommon (opsOf d) n s l.entry).map (·.clear l) = some s') :
    ∀ x ∈ s'.holders, x.rw = .write := by
  obtain ⟨r, v, hwalk, -, rfl⟩ := unlock_cases hs
  intro x hx
  rcases List.mem_append.mp (List.mem_of_mem_erase hx) with hold | hnew
  · exact h.held x hold
  · obtain ⟨w, hw, rfl⟩ := List.mem_map.mp hnew
    exact h.queued _ w ((unlockWalk_split hwalk).2.1.subset hw)

/-- A step that takes no read lock. -/
theorem step_writers (h : Writers s) (hw : (actionLock act).rw = .write)
    (hs : step n s act = some s') : Writers s' := by
  refine ⟨?_, fun i w hmem => ?_⟩
  · have htry : ∀ op l, l.rw = .write → s.tryWith op l = some s' → ∀ x ∈ s'.holders, x.rw = .write := by
      intro op l hl hop
      unfold State.tryWith at hop
      split at hop
      · cases hop
      · cases hop
        exact (writers_hold h hl).held
      · cases hop
        exact h.held
    have hadd : ∀ op l, l.rw = .write → s.tryOrAdd n op l = some s' → ∀ x ∈ s'.holders, x.rw = .write := by
      intro op l hl hop
      unfold State.tryOrAdd at hop
      split at hop
      · cases hop
      · cases hop
        exact (writers_hold h hl).held
      · cases hop
        exact h.held
    cases act with
    | trylockEntryWr l => exact htry _ l hw hs
    | trylockEntryRdIdle l => exact htry _ l hw hs
    | lockOneWr l => exact hadd _ l hw hs
    | lockOneRd l =>
      simp only [step, ocfAlockLockOneRd] at hs
      split at hs
      · exact hadd _ l hw hs
      · cases hs
        exact h.held
    | unlockOneRd l => exact held_unlock (d := .read) h hs
    | unlockOneWr l => exact held_unlock (d := .write) h hs
    | waitlistRemoveEntry l =>
      simp only [step, ocfAlockWaitlistRemoveEntry] at hs
      split at hs
      · exact held_unlock h hs
      · cases hs
        simp only [State.unlink]
        split
        · exact h.held
        · exact h.held
  · rcases step_waiters hs hmem with hold | ⟨-, heq⟩
    · exact h.queued i w hold
    · exact (congrArg Lock.rw heq).trans hw

theorem writers_init : Writers init := ⟨fun _ hl => absurd hl List.not_mem_nil,
  fun _ _ hw => absurd hw List.not_mem_nil⟩

/-- With write locks only, few readers are no condition. -/
theorem writeRun (h : Reachable (writeAlock n) init s) :
    Writers s ∧ RunIn (alock n) FewReaders init s := by
  induction h with
  | refl => exact ⟨writers_init, .refl writers_init.few⟩
  | @snoc act s s' _ hg hs _ ih =>
    have hw := step_writers ih.1 hg.1 hs
    exact ⟨hw, ih.2.step act hg.2 hs hw.few⟩

end Writers

section Call

variable {cl : Client} {base : List Lock} {c c' : Call} {alloc : Bool}

/-- A step of the call takes a step of the lock in its direction, or none. -/
theorem run_lock (h : run cl alloc c = some c') :
    c'.lock = c.lock ∨ ∃ act, (actionLock act).rw = cl.rw ∧ step cl.lists c.lock act = some c'.lock := by
  have hafter : ∀ lock, (c.after cl lock).lock = lock :=
    fun lock => (iterate_entryLocked { c with lock := lock } _).2.2.1
  have hmap : ∀ act (f : State → Call), (actionLock act).rw = cl.rw → (∀ lock, (f lock).lock = lock) →
      (step cl.lists c.lock act).map f = some c' →
      ∃ act, (actionLock act).rw = cl.rw ∧ step cl.lists c.lock act = some c'.lock := by
    intro act f hact hf hs
    obtain ⟨lock, hlock, rfl⟩ := Option.map_eq_some_iff.mp hs
    exact ⟨act, hact, hlock.trans (congrArg some (hf lock).symm)⟩
  have htry : ∀ i, (actionLock (tryAct (lockOf cl i))).rw = cl.rw := by
    intro i
    unfold tryAct
    split <;> rfl
  unfold run at h
  split at h
  · split at h
    · exact .inl (by cases h; rfl)
    split at h
    · exact .inl (by cases h; rfl)
    split at h
    · cases h
    exact .inr (hmap _ _ (htry _) (fun _ => rfl) h)
  · exact .inl (by cases h; rfl)
  · split at h
    · refine .inr (hmap _ _ ?_ ?_ h)
      · unfold unlockAct
        split <;> rfl
      · exact hafter
    · exact .inl (by cases h; rfl)
  · split at h
    · cases h
    · exact .inl (by cases h; rfl)
  · split at h
    · exact .inl (by cases h; rfl)
    split at h
    · exact .inl (by cases h; rfl)
    split at h
    · cases h
    exact .inr (hmap _ _ (htry _) (fun _ => by split <;> rfl) h)
  · refine .inr (hmap _ _ ?_ (fun _ => by split <;> rfl) h)
    unfold lockAct
    split <;> rfl
  · exact .inl (by cases h; rfl)
  · split at h
    · refine .inr (hmap _ _ ?_ ?_ h)
      · rfl
      · exact hafter
    · exact .inl (by cases h; rfl)
  · exact .inl (by cases h; rfl)
  · exact .inl (by cases h; rfl)
  · cases h

/-- When the entries of the request have different lists, its error path finds
its own waiters. -/
theorem ownWaiterFirst_of_apart (h : Inv cl base c) (hapart : ∀ i j, i < cl.count → j < cl.count →
      (lockOf cl i).entry % cl.lists = (lockOf cl j).entry % cl.lists → i = j) :
    OwnWaiterFirst cl c := by
  unfold OwnWaiterFirst
  split
  · rename_i k hpc
    intro _ w hw
    obtain ⟨mine, ⟨got, -, hmine⟩, hheld⟩ := h.mine
    rw [hpc] at hheld
    obtain ⟨hk, -, hsub⟩ := hheld
    have hreq : w.req = cl.id := of_decide_eq_true (@List.find?_some _ _ w _ hw)
    have hlist := List.mem_of_find?_eq_some hw
    have hmem : w.toLock ∈ waitingBy cl.lists cl.id c.lock :=
      List.mem_map_of_mem ((mem_queuedBy cl.lists_pos h.queued hlist).mpr hreq)
    obtain ⟨j, hj, -, heq⟩ := mem_wanted.mp (hsub (hmine.subset (List.mem_append_right _ hmem)))
    have hhome := h.queued.home _ w hlist
    have hentry : (lockOf cl j).entry = w.entry := congrArg Lock.entry heq
    have hjk := hapart j k (by omega) (by omega) (by rw [hentry, hhome])
    exact (congrArg Lock.idx heq).symm.trans hjk
  · trivial

theorem next_writers {act : Act} (hrw : cl.rw = .write) (hw : Writers c.lock) (hg : WriteGuard cl c act)
    (hs : next cl c act = some c') : Writers c'.lock := by
  cases act with
  | other act =>
    obtain ⟨lock, hlock, rfl⟩ := Option.map_eq_some_iff.mp hs
    have hafter : (c.after cl lock).lock = lock := (iterate_entryLocked { c with lock := lock } _).2.2.1
    rw [hafter]
    exact step_writers hw hg.2.1 hlock
  | run alloc =>
    rcases run_lock hs with hsame | ⟨act, hact, hstep⟩
    · rw [hsame]
      exact hw
    · exact step_writers hw (hact.trans hrw) hstep

end Call

theorem MioRequest.apart (m : MioRequest) {i j : Nat} (hi : i < m.count) (hj : j < m.count)
    (h : (lockOf m.client i).entry % m.lists = (lockOf m.client j).entry % m.lists) : i = j := by
  have hentry : ∀ k < m.count, m.mio.firstPage ≤ m.page + k ∧
      (lockOf m.client k).entry = m.page + k - m.mio.firstPage := by
    intro k hk
    have hsome := m.entry k hk
    simp only [lockOf, MioRequest.client, ocfMioLockGetEntry] at hsome ⊢
    split at hsome
    · cases hsome
    split at hsome
    · cases hsome
    rw [if_neg ‹_›, if_neg ‹_›]
    exact ⟨by omega, rfl⟩
  obtain ⟨hfi, hei⟩ := hentry i hi
  obtain ⟨hfj, hej⟩ := hentry j hj
  have hcount := m.count_le
  have hgap : ∀ x y : Nat, x < y → y - x < m.lists → x % m.lists ≠ y % m.lists := by
    intro x y hlt hle heq
    have hzero := Nat.sub_mod_eq_zero_of_mod_eq heq.symm
    rw [Nat.mod_eq_of_lt hle] at hzero
    omega
  rw [hei, hej] at h
  rcases Nat.lt_trichotomy i j with hlt | heq | hlt
  · exact absurd h (hgap _ _ (by omega) (by omega))
  · exact heq
  · exact absurd h.symm (hgap _ _ (by omega) (by omega))

/-- Whatever other requests do with their pages, a metadata request locks all of
its pages or waits for the missing ones, its completion is called when the last
awaited page is locked and at no other time, without memory it ends with no page
and no waiter, it never hangs in the call, its error path finds its own waiters,
and no page is held twice. -/
theorem mio_lock_all_or_nothing (m : MioRequest) {start c : Call} (h0 : PageStart m.client start)
    (h : Reachable (pageSystem m.client) start c) :
    Outcome m.client c ∧ Advances m.client c ∧ OwnWaiterFirst m.client c ∧
      ∀ a ∈ c.lock.holders, ∀ b ∈ c.lock.holders, b.entry = a.entry → b = a := by
  obtain ⟨hrun, hpc, hrem, hcalls, hfree, hnone⟩ := h0
  obtain ⟨hw0, hrun0⟩ := writeRun hrun
  obtain ⟨hbase, hinv0⟩ := inv_start
    ⟨hrun0, hpc, hrem, hcalls, hfree, fun l hl hr => absurd hr (hnone l hl)⟩
  have hown : ∀ c, Inv m.client (heldBy m.client.id start.lock) c → OwnWaiterFirst m.client c :=
    fun _ hinv => ownWaiterFirst_of_apart hinv fun i j hi hj => m.apart hi hj
  have hinv : Inv m.client (heldBy m.client.id start.lock) c ∧ Writers c.lock := by
    induction h with
    | refl => exact ⟨hinv0, hw0⟩
    | @snoc act s s' _ hg hs _ ih =>
      obtain ⟨hinv, hw⟩ := ih
      have hw' := next_writers rfl hw hg hs
      have hguard : Guard m.client s act := by
        cases act with
        | other act => exact ⟨hg.1, hg.2.2⟩
        | run alloc => exact hown s hinv
      exact ⟨inv_next hbase hinv hguard hs hw'.few, hw'⟩
  refine ⟨hinv.1.outcome hbase, hinv.1.advances hbase, hown c hinv.1, fun a ha b hb he => ?_⟩
  exact WordsFit.alone (fun e => Fits.of_reads (hinv.1.words e)) ha (hinv.2.held a ha) hb he

/-- A request for two pages. -/
def twoPages : MioRequest := ⟨⟨10, 5⟩, 699050, 1, 12, 2, by decide, by decide, by decide⟩

/-- Another request's lock of the second page. -/
def secondPage : Lock := ⟨3, 0, 0, .write⟩

/-- The other request holds that page when the call begins. -/
def secondPageHeld : Call := ⟨init.hold secondPage accessWr, .fast 0, 0, 0⟩

theorem secondPageHeld_start : PageStart twoPages.client secondPageHeld := by
  refine ⟨?_, rfl, rfl, rfl, fun _ _ hw => absurd hw List.not_mem_nil, ?_⟩
  · exact .next (.refl trivial) (.trylockEntryWr secondPage) ⟨rfl, rfl, by simp [Unused, init]⟩ rfl
  · intro l hl
    rw [List.mem_singleton.mp hl]
    decide

/-- Steps of the call, and unlocks of held pages by others. -/
def ownSteps (cl : Client) (c : Call) : Act → Bool
  | .other (.unlockOneWr l) => decide (l.req ≠ cl.id) && decide (l.rw = .write ∧ l ∈ c.lock.holders)
  | .other _ => false
  | .run _ => true

theorem writeGuard_of_ownSteps {cl : Client} {c : Call} {act : Act} (h : ownSteps cl c act = true) :
    WriteGuard cl c act := by
  unfold ownSteps at h
  split at h
  · obtain ⟨hne, hheld⟩ := Bool.and_eq_true_iff.mp h
    have hheld' := of_decide_eq_true hheld
    exact ⟨of_decide_eq_true hne, hheld'.1, hheld'⟩
  · cases h
  · trivial

theorem reachable_of_acts {acts : List Act} {view : Pc × Nat}
    (h : (acts.foldlM (checkedStep (pageSystem twoPages.client) (ownSteps twoPages.client))
      secondPageHeld).map (fun c => (c.pc, c.cmplCalls)) = some view) :
    ∃ c, Reachable (pageSystem twoPages.client) secondPageHeld c ∧ c.pc = view.1 ∧
      c.cmplCalls = view.2 := by
  obtain ⟨c, hc, rfl⟩ := Option.map_eq_some_iff.mp h
  exact ⟨c, .of_checked (fun _ _ => writeGuard_of_ownSteps) hc, rfl, rfl⟩

/-- The request waits for the page of the other one; the completion is called
when that one unlocks it. Without memory for the waiter it gives up. -/
theorem mio_lock_all_or_nothing_twoPages : ∃ waits granted gaveUp,
    (waits.pc = .done .notAcquired ∧ waits.cmplCalls = 0 ∧ Outcome twoPages.client waits) ∧
    (granted.pc = .done .notAcquired ∧ granted.cmplCalls = 1 ∧ Outcome twoPages.client granted) ∧
    gaveUp.pc = .done .noMem ∧ Outcome twoPages.client gaveUp := by
  obtain ⟨waits, hwaits, hpc, hcalls⟩ := @reachable_of_acts
    (List.replicate 11 (.run true)) (.done .notAcquired, 0) (by decide +kernel)
  obtain ⟨granted, hgranted, hpc', hcalls'⟩ := @reachable_of_acts
    (List.replicate 11 (.run true) ++ [.other (.unlockOneWr secondPage)])
    (.done .notAcquired, 1) (by decide +kernel)
  obtain ⟨gaveUp, hgaveUp, hpc'', -⟩ := @reachable_of_acts
    (List.replicate 7 (.run true) ++ List.replicate 5 (.run false))
    (.done .noMem, 0) (by decide +kernel)
  have hstart := secondPageHeld_start
  exact ⟨waits, granted, gaveUp,
    ⟨hpc, hcalls, (mio_lock_all_or_nothing twoPages hstart hwaits).1⟩,
    ⟨hpc', hcalls', (mio_lock_all_or_nothing twoPages hstart hgranted).1⟩,
    hpc'', (mio_lock_all_or_nothing twoPages hstart hgaveUp).1⟩

end OcfCache.PageLocks
