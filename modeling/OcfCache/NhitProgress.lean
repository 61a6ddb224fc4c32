import OcfCache.NhitInvariant

/-!
# The N-hit hash table under any number of threads

Whatever calls the threads make and however their steps are interleaved, the
collision lists stay well formed and a slot is claimed once. The buckets are
locked in increasing order, so that some thread can always go on; each step
brings its thread closer to the end of its call, so that once no new call is made
all slots are committed and all locks are released.
-/

namespace OcfCache.Nhit

open Function LinkedLists Runs

variable {cfg : Config} {s : State} {t : Nat}

theorem inv_initial (cfg : Config) : Inv cfg (initial cfg) where
  locks := ⟨fun _ _ => ⟨nofun, False.elim⟩, fun _ _ => ⟨nofun, False.elim⟩, fun _ => List.nodup_nil, fun _ _ => nofun⟩
  slots := ⟨⟨_, chained_init cfg⟩, cfg.rbEntries_pos, fun _ _ => nofun, fun _ _ _ => nofun, fun _ _ => nofun,
    fun _ => trivial, fun _ => trivial⟩
  finite := ⟨0, fun _ _ => rfl⟩

theorem Inv.finite_update (h : Inv cfg s) (t : Nat) (p : Pc) : ∃ n, ∀ u, n ≤ u → update s.pc t p u = .idle := by
  obtain ⟨n, hn⟩ := h.finite
  refine ⟨max n (t + 1), fun u hu => ?_⟩
  have hne : u ≠ t := by omega
  rw [update_of_ne hne]
  exact hn u (by omega)

theorem Inv.call (h : Inv cfg s) {c : Call} (hidle : s.pc t = .idle) (hcore : c.core ≠ ocfCoreIdInvalid) :
    Inv cfg (s.goto t c.start) := by
  refine ⟨h.locks.same (fun b => ?_) fun b => ?_, ?_, h.finite_update t c.start⟩
  · rw [hidle]
    cases c <;> exact Iff.rfl
  · rw [hidle]
    cases c <;> exact Iff.rfl
  · refine h.slots.keep ?_ h.slots.chained rfl (fun _ => rfl) (fun _ _ => ⟨rfl, rfl⟩) ?_ ?_
    · rw [hidle]
      cases c <;> rfl
    · cases c <;> trivial
    · cases c <;> exact hcore

theorem Inv.work (h : Inv cfg s) {s' : State} (he : Enabled cfg s t) (hs : stepThread cfg s t = some s') :
    Inv cfg s' := by
  obtain ⟨s'', hs'', p, hpc, -, hlocks, hslots⟩ := stepped h he
  obtain rfl : s' = s'' := Option.some.inj (hs.symm.trans hs'')
  exact ⟨hlocks, hslots, hpc ▸ h.finite_update t p⟩

theorem Inv.of_reachable (h : Reachable (system cfg) (initial cfg) s) : Inv cfg s := by
  refine h.invariant (fun _ => inv_initial cfg) fun s a s' hinv _ hg hs _ => ?_
  cases a with
  | call t c =>
    obtain ⟨hidle, hcore⟩ := hg
    obtain rfl : s.goto t c.start = s' := Option.some.inj hs
    refine hinv.call ?_ hcore
    cases hp : s.pc t with
    | idle => rfl
    | _ =>
      rw [hp] at hidle
      exact hidle.elim
  | step t => exact hinv.work hg hs

/-- A thread holds the lock of a bucket. -/
def Locks.Held (l : Locks) (b t : Nat) : Prop := l.writer b = some t ∨ t ∈ l.readers b

theorem Inv.held_iff (h : Inv cfg s) {b : Nat} : s.locks.Held b t ↔ HoldsWrite cfg (s.pc t) b ∨ HoldsRead cfg (s.pc t) b :=
  or_congr (h.locks.writer b t) (h.locks.readers b t)

theorem Inv.ordered (h : Inv cfg s) {b b' : Nat} {w : Bool} (ha : awaits cfg (s.pc t) = some (b, w))
    (hheld : s.locks.Held b' t) : b' < b := by
  rw [h.held_iff] at hheld
  cases hp : s.pc t with
  | lockSecond i =>
    rw [hp] at ha hheld
    obtain ⟨hask, heq⟩ := Option.ite_none_right_eq_some.mp ha
    have hb : i.second cfg = b := congrArg Prod.fst (Option.some.inj heq)
    have hb' : b' = i.first cfg := (hheld.resolve_right id).2
    have horder : i.first cfg ≤ i.second cfg := by
      unfold Ins.first Ins.second
      omega
    omega
  | lockFirst i =>
    rw [hp] at hheld
    exact (hheld.elim id id).elim
  | lockRead op core lba =>
    rw [hp] at hheld
    exact (hheld.elim id id).elim
  | _ =>
    rw [hp] at ha
    exact absurd ha nofun

theorem Inv.awaits_lt (h : Inv cfg s) {b : Nat} {w : Bool} (ha : awaits cfg (s.pc t) = some (b, w)) :
    b < cfg.hashEntries := by
  have hle : ∀ core lba, hashFunction cfg core lba ≤ cfg.hashEntries := by
    intro core lba
    by_cases hcore : core = ocfCoreIdInvalid
    · rw [hashFunction, if_pos hcore]
    · exact Nat.le_of_lt (hashFunction_lt hcore lba)
  have hproper := h.slots.proper t
  cases hp : s.pc t with
  | lockFirst i =>
    rw [hp] at ha
    obtain ⟨hask, heq⟩ := Option.ite_none_right_eq_some.mp ha
    have hb : i.first cfg = b := congrArg Prod.fst (Option.some.inj heq)
    have hmin : i.first cfg ≤ i.hash1 cfg := Nat.min_le_left _ _
    have h1 : i.hash1 cfg ≤ cfg.hashEntries := hle _ _
    omega
  | lockSecond i =>
    rw [hp] at ha
    unfold awaits at ha
    obtain ⟨hask, heq⟩ := Option.ite_none_right_eq_some.mp ha
    have hb : i.second cfg = b := congrArg Prod.fst (Option.some.inj heq)
    have h1 : i.hash1 cfg ≤ cfg.hashEntries := hle _ _
    have h2 : i.hash2 cfg ≤ cfg.hashEntries := hle _ _
    have hmax : i.second cfg ≤ cfg.hashEntries := Nat.max_le.mpr ⟨h1, h2⟩
    omega
  | lockRead op core lba =>
    rw [hp] at ha hproper
    have hb : hashFunction cfg core lba = b := congrArg Prod.fst (Option.some.inj ha)
    exact hb ▸ hashFunction_lt hproper lba
  | _ =>
    rw [hp] at ha
    exact absurd ha nofun

/-- A thread that cannot go on is in no call, or waits for a bucket that another
one holds. -/
theorem blocked (hno : ¬Enabled cfg s t) (hcall : s.pc t ≠ .idle) :
    ∃ b w u, awaits cfg (s.pc t) = some (b, w) ∧ s.locks.Held b u := by
  unfold Enabled at hno
  cases ha : awaits cfg (s.pc t) with
  | none =>
    rw [ha] at hno
    cases hp : s.pc t with
    | idle => exact absurd hp hcall
    | _ =>
      rw [hp] at hno
      exact absurd trivial hno
  | some bw =>
    obtain ⟨b, w⟩ := bw
    rw [ha] at hno
    cases hw : s.locks.writer b with
    | some u => exact ⟨b, w, u, rfl, .inl hw⟩
    | none =>
      cases w with
      | false => exact absurd hw hno
      | true =>
        cases hr : s.locks.readers b with
        | nil => exact absurd ⟨hw, hr⟩ hno
        | cons u us => exact ⟨b, true, u, rfl, .inr (hr ▸ List.mem_cons_self)⟩

theorem Inv.progress (h : Inv cfg s) (hcall : s.pc t ≠ .idle) : ∃ u, Enabled cfg s u := by
  -- along the chain of waiting threads the buckets increase
  have hwait : ∀ n u b w, awaits cfg (s.pc u) = some (b, w) → cfg.hashEntries - b ≤ n → ∃ v, Enabled cfg s v := by
    intro n
    induction n with
    | zero =>
      intro u b w ha hn
      have hlt := h.awaits_lt ha
      omega
    | succ n ih =>
      intro u b w ha hn
      by_contra hnone
      have hno : ∀ v, ¬Enabled cfg s v := fun v hv => hnone ⟨v, hv⟩
      have hu : s.pc u ≠ .idle := by
        intro hidle
        rw [hidle] at ha
        exact absurd ha nofun
      obtain ⟨b1, w1, v, ha1, hheld⟩ := blocked (hno u) hu
      obtain rfl : b = b1 := congrArg Prod.fst (Option.some.inj (ha.symm.trans ha1))
      have hv : s.pc v ≠ .idle := by
        intro hidle
        rw [h.held_iff, hidle] at hheld
        exact hheld.elim id id
      obtain ⟨b2, w2, _, ha2, _⟩ := blocked (hno v) hv
      have hlt := h.ordered ha2 hheld
      have hlt2 := h.awaits_lt ha2
      exact hnone (ih v b2 w2 ha2 (by omega))
  by_contra hnone
  have hno : ∀ v, ¬Enabled cfg s v := fun v hv => hnone ⟨v, hv⟩
  obtain ⟨b, w, _, ha, _⟩ := blocked (hno t) hcall
  exact hnone (hwait _ t b w ha le_rfl)

/-- Steps of threads without new calls, with their number. -/
inductive WorkRun (cfg : Config) (s : State) : Nat → State → Prop
  | refl : WorkRun cfg s 0 s
  | step {k u : Nat} {s1 s2 : State} : WorkRun cfg s k s1 → Enabled cfg s1 u → stepThread cfg s1 u = some s2 →
      WorkRun cfg s (k + 1) s2

/-- Steps until the calls of the first threads end. -/
def busy (n : Nat) (s : State) : Nat := ∑ u ∈ Finset.range n, rank (s.pc u)

theorem busy_update {n : Nat} {s' : State} {p : Pc} (ht : t < n) (hpc : s'.pc = update s.pc t p)
    (hrank : rank p < rank (s.pc t)) : busy n s' < busy n s := by
  refine Finset.sum_lt_sum (fun u _ => ?_) ⟨t, Finset.mem_range.mpr ht, ?_⟩
  · rw [hpc]
    by_cases hu : u = t
    · rw [hu, update_self]
      exact Nat.le_of_lt hrank
    · rw [update_of_ne hu]
  · rw [hpc, update_self]
    exact hrank

theorem WorkRun.bounded (h : Inv cfg s) {n k : Nat} {s' : State} (hidle : ∀ u, n ≤ u → s.pc u = .idle)
    (hrun : WorkRun cfg s k s') : Inv cfg s' ∧ (∀ u, n ≤ u → s'.pc u = .idle) ∧ k + busy n s' ≤ busy n s := by
  induction hrun with
  | refl => exact ⟨h, hidle, Nat.le_of_eq (Nat.zero_add _)⟩
  | step _ he hs ih =>
    obtain ⟨hinv, hidle1, hle⟩ := ih
    rename_i k u s1 s2 _
    obtain ⟨s3, hs3, p, hpc, hrank, -, -⟩ := stepped hinv he
    obtain rfl : s2 = s3 := Option.some.inj (hs.symm.trans hs3)
    have hu : u < n := by
      by_contra hge
      rw [hidle1 u (Nat.le_of_not_lt hge)] at hrank
      exact absurd hrank (Nat.not_lt_zero _)
    have hlt := busy_update hu hpc hrank
    refine ⟨hinv.work he hs, fun v hv => ?_, by omega⟩
    have hne : v ≠ u := by omega
    rw [hpc, update_of_ne hne]
    exact hidle1 v hv

/-- All calls have ended: no slot is claimed and no bucket is locked. -/
structure Quiet (cfg : Config) (s : State) : Prop where
  /-- No thread is in a call. -/
  idle : ∀ t, s.pc t = .idle
  /-- All slots are committed. -/
  valid : ∀ x < cfg.rbEntries, (s.table.ring x).valid = true
  /-- All locks are released. -/
  free : ∀ b, s.locks.Free b

theorem Inv.quiet (h : Inv cfg s) (hno : ∀ u, ¬Enabled cfg s u) : Quiet cfg s := by
  have hidle : ∀ t, s.pc t = .idle := by
    intro t
    by_contra hcall
    obtain ⟨u, hu⟩ := h.progress hcall
    exact hno u hu
  have hnone : ∀ b t, ¬s.locks.Held b t := by
    intro b t hheld
    rw [h.held_iff, hidle t] at hheld
    exact hheld.elim id id
  refine ⟨hidle, fun x hx => ?_, fun b => ⟨?_, ?_⟩⟩
  · by_contra hv
    obtain ⟨t, ht⟩ := h.slots.claimant x hx (Bool.eq_false_iff.mpr hv)
    rw [hidle t] at ht
    exact absurd ht nofun
  · cases hw : s.locks.writer b with
    | none => rfl
    | some u => exact absurd (.inl hw) (hnone b u)
  · cases hr : s.locks.readers b with
    | nil => rfl
    | cons u us => exact absurd (.inr (hr ▸ List.mem_cons_self)) (hnone b u)

theorem State.goto_pc (s : State) (t : Nat) (p : Pc) : (s.goto t p).pc t = p := update_self ..

theorem claim_kept {x : Nat} {s' : State} (hx : claims (s.pc t) = some x) (hs : stepThread cfg s t = some s') :
    claims (s'.pc t) = some x ∨ s'.pc t = .idle ∧ (s'.table.ring x).valid = true := by
  unfold stepThread at hs
  cases hp : s.pc t with
  | commit slot =>
    rw [hp] at hs hx
    obtain rfl : slot = x := Option.some.inj hx
    obtain rfl := Option.some.inj hs
    refine .inr ⟨State.goto_pc .., ?_⟩
    change ((commitRbSlot s.table slot).ring slot).valid = true
    rw [commitRbSlot, setSlot_ring, if_pos rfl]
  | unlockFirst _ | unlockSecond _ =>
    rw [hp] at hs hx
    obtain ⟨l, -, rfl⟩ := Option.map_eq_some_iff.mp hs
    rw [State.goto_pc]
    exact .inl hx
  | readId _ _ _ | readLba _ _ _ _ | lockFirst _ | lockSecond _ | change _ =>
    rw [hp] at hs hx
    obtain rfl := Option.some.inj hs
    rw [State.goto_pc]
    exact .inl hx
  | _ =>
    rw [hp] at hx
    exact absurd hx nofun

/-- What holds of the table, its locks and its threads. -/
structure Correct (cfg : Config) (s : State) : Prop where
  /-- The collision lists are doubly linked, end, and have the slots of the core
  lines of their buckets, each once. -/
  chained : ∃ chain, Chained cfg s.table chain
  /-- Look-ups end with the slot of the core line, if there is one. -/
  lookups : ∀ core lba, core ≠ ocfCoreIdInvalid → ∃ slot, coreLineLookup cfg s.table core lba = some slot ∧
    (slot < cfg.rbEntries ∧ (s.table.ring slot).coreId = core ∧ (s.table.ring slot).coreLba = lba ∨
      slot = cfg.rbEntries ∧ ∀ x < cfg.rbEntries, ¬((s.table.ring x).coreId = core ∧ (s.table.ring x).coreLba = lba))
  /-- No slot is claimed by two insertions. -/
  claimedOnce : ∀ t u x, claims (s.pc t) = some x → claims (s.pc u) = some x → t = u
  /-- The slots that are not valid are the claimed ones. -/
  claimed : ∀ x < cfg.rbEntries, (s.table.ring x).valid = false ↔ ∃ t, claims (s.pc t) = some x
  /-- A claim ends with the commit. -/
  committed : ∀ t x s', claims (s.pc t) = some x → Enabled cfg s t → stepThread cfg s t = some s' →
    claims (s'.pc t) = some x ∨ s'.pc t = .idle ∧ (s'.table.ring x).valid = true
  /-- A slot is changed under the locks of the bucket it is in and of the one it
  is inserted to. -/
  changing : ∀ t i, s.pc t = .change i → s.locks.writer (hashFunction cfg i.core i.lba) = some t ∧
    ((s.table.ring i.slot).coreId ≠ ocfCoreIdInvalid →
      s.locks.writer (hashFunction cfg (s.table.ring i.slot).coreId (s.table.ring i.slot).coreLba) = some t)
  /-- A look-up is made under the lock of its bucket. -/
  reading : ∀ t op core lba, s.pc t = .lookup op core lba → t ∈ s.locks.readers (hashFunction cfg core lba)
  /-- A bucket has readers or a writer. -/
  exclusive : ∀ b t, s.locks.writer b = some t → s.locks.readers b = []
  /-- Locks are taken in increasing order. -/
  ordered : ∀ t b w, awaits cfg (s.pc t) = some (b, w) → ∀ b', s.locks.Held b' t → b' < b
  /-- No step aborts: only locks that are held are released. -/
  total : ∀ t, Enabled cfg s t → ∃ s', stepThread cfg s t = some s'
  /-- Outside of calls no lock is held. -/
  released : ∀ t, s.pc t = .idle → ∀ b, ¬s.locks.Held b t
  /-- There is no deadlock. -/
  progress : ∀ t, s.pc t ≠ .idle → ∃ u, Enabled cfg s u
  /-- Without new calls all calls end, with all slots committed and all locks
  released. -/
  ends : ∃ bound, ∀ k s', WorkRun cfg s k s' → k ≤ bound ∧ ((∀ u, ¬Enabled cfg s' u) → Quiet cfg s')

/-- The table is correct in every state that any number of threads can reach. -/
theorem hash_table_correct (h : Reachable (system cfg) (initial cfg) s) : Correct cfg s := by
  have hinv := Inv.of_reachable h
  obtain ⟨chain, hc⟩ := hinv.slots.chained
  obtain ⟨n, hn⟩ := hinv.finite
  refine ⟨⟨chain, hc⟩, fun core lba => hc.lookup lba, hinv.slots.unique, fun x hx => ⟨hinv.slots.claimant x hx, ?_⟩,
    fun t x s' hx _ => claim_kept hx, fun t i hp => ?_, fun t op core lba hp => ?_, hinv.locks.apart,
    fun t b w ha b' hheld => hinv.ordered ha hheld, fun t he => ?_, fun t hidle b hheld => ?_,
    fun t => hinv.progress, busy n s, fun k s' hrun => ?_⟩
  · intro ⟨t, ht⟩
    exact (hinv.slots.claimed t x ht).2
  · have hknown := hinv.slots.known t
    have hproper := hinv.slots.proper t
    rw [hp] at hknown hproper
    have hholds : ∀ core lba, core ≠ ocfCoreIdInvalid →
        (hashFunction cfg core lba = i.hash1 cfg ∨ hashFunction cfg core lba = i.hash2 cfg) →
        s.locks.writer (hashFunction cfg core lba) = some t := by
      intro core lba hcore heq
      rw [hinv.locks.writer, hp]
      exact ⟨Nat.ne_of_lt (hashFunction_lt hcore lba), heq⟩
    refine ⟨hholds _ _ hproper (.inl rfl), fun hused => hholds _ _ hused (.inr ?_)⟩
    rw [hknown.1, hknown.2]
    rfl
  · rw [hinv.locks.readers, hp]
    rfl
  · obtain ⟨s', hs', -⟩ := stepped hinv he
    exact ⟨s', hs'⟩
  · rw [hinv.held_iff, hidle] at hheld
    exact hheld.elim id id
  · obtain ⟨hinv', -, hle⟩ := hrun.bounded hinv hn
    exact ⟨by omega, hinv'.quiet⟩

/-- A table of two slots. -/
def twoSlots : Config := ⟨2, by decide, by decide⟩

/-- One thread has claimed a slot while another one has locked a bucket to look up. -/
theorem hash_table_correct_twoSlots : ∃ s, Reachable (system twoSlots) (initial twoSlots) s ∧
    claims (s.pc 0) = some 0 ∧ Correct twoSlots s := by
  have h0 : Reachable (system twoSlots) (initial twoSlots) (initial twoSlots) := .refl trivial
  have h1 := h0.next (.call 0 (.insert 1 5)) ⟨trivial, by decide⟩ rfl
  have h2 := h1.next (.step 0) trivial rfl
  have h3 := h2.next (.call 1 (.read .query 1 5)) ⟨trivial, by decide⟩ rfl
  have h4 := h3.next (.step 1) rfl rfl
  exact ⟨_, h4, rfl, hash_table_correct h4⟩

end OcfCache.Nhit
