import Mathlib.Algebra.Order.BigOperators.Group.Finset
import OcfCache.MetadataFits
import OcfCache.MetadataIo

/-!
# Runs of metadata I/O

Every sub-request that has not ended is counted in `req_remaining`, and every
one that is not done in `req_active`. The two ways to lose a count are a page
lock that fails, and an error of another sub-request that comes between taking
a piece and looking at the result.
-/

namespace OcfCache.MetadataIo

open Function Loops Runs

variable {io : Io} {n : Nat} {s s' : State n}

/-- A sub-request at this place is counted in `req_remaining`. -/
def Pc.rem : Pc → Int
  | .advance _ | .take _ | .ending _ | .check _ false | .restart | .waiting | .perform | .flight => 1
  | _ => 0

/-- A sub-request at this place is counted in `req_active`. -/
def Pc.act : Pc → Int
  | .idle | .done => 0
  | _ => 1

/-- The caller's count in `req_remaining`. -/
def Caller.rem : Caller → Int
  | .alloc | .start _ | .finish => 1
  | _ => 0

/-- The caller's count in `req_active`. -/
def Caller.act : Caller → Int
  | .returned _ => 0
  | _ => 1

/-- Sub-requests that the caller has not started. -/
def Caller.Before : Caller → Nat → Prop
  | .alloc, _ => True
  | .start k, i => k ≤ i
  | _, _ => False

/-- A sub-request at this place has a piece. -/
def Pc.holds : Pc → Bool
  | .check _ false | .restart | .waiting | .perform | .flight => true
  | _ => false

/-- A sub-request at this place has still to fill or drain its piece. -/
def Io.handles (io : Io) (pc : Pc) : Bool := pc.holds && !(io.write && pc = .flight)

/-- A sub-request at this place has ended or ends. -/
def Pc.finished : Pc → Bool
  | .ending _ | .check _ true | .finalize | .done => true
  | _ => false

/-- A page that a sub-request has still to go through. -/
def owes (places : Pc → Bool) (p : Nat) (m : MReq) : Int :=
  if places m.pc = true ∧ m.page ≤ p ∧ p < m.page + m.count then 1 else 0

/-- Pages of the pieces that were taken. -/
def Io.Taken (io : Io) (taken p : Nat) : Prop :=
  io.page ≤ p ∧ p < io.page + min (taken * io.metadataIoMaxPage) io.count

instance (io : Io) (taken p : Nat) : Decidable (io.Taken taken p) := inferInstanceAs (Decidable (_ ∧ _))

/-- Every page that was taken was gone through once or belongs to one sub-request. -/
def Covered (io : Io) (s : State n) (places : Pc → Bool) (log : List Nat) : Prop :=
  ∀ p, (log.count p : Int) + ∑ i, owes places p (s.reqs i) = if io.Taken s.taken p then 1 else 0

/-- What holds of a sub-request. -/
structure ReqOk (error : Int) (m : MReq) : Prop where
  /-- Page locks are held around the I/O only. -/
  locked : m.locked = true → m.pc = .perform ∨ m.pc = .flight
  /-- A sub-request that ended behind its start has no piece. -/
  first : m.pc = .advance true ∨ m.pc = .take true ∨ m.pc = .ending true ∨ m.pc = .check true true → m.count = 0
  /-- A sub-request that ended later has no piece, or there is an error. -/
  later : m.pc = .ending false ∨ m.pc = .check false true → m.count = 0 ∨ error ≠ 0
  /-- A piece is not empty. -/
  piece : m.pc.holds = true → 0 < m.count
  /-- A sub-request that was not started has no piece. -/
  unstarted : m.pc = .idle → m.count = 0

/-- Invariant of the runs in time. -/
structure Inv (io : Io) (s : State n) : Prop where
  /-- `req_remaining`. -/
  remaining : s.reqRemaining = s.caller.rem + ∑ i, (s.reqs i).pc.rem
  /-- `req_active`. -/
  active : s.reqActive = s.caller.act + ∑ i, (s.reqs i).pc.act
  /-- The common structure is freed with the last of `req_active`. -/
  freed : s.freed = if s.reqActive = 0 then 1 else 0
  /-- `compl_hndl` is called with the last of `req_remaining`. -/
  completed : s.completed = if s.reqRemaining = 0 then [s.error] else []
  /-- Sub-requests are started in order. -/
  idle (i : Fin n) : (s.reqs i).pc = .idle ↔ s.caller.Before i
  /-- Success is returned. -/
  result (r : Int) : s.caller = .returned r → r = 0
  /-- Without an error a sub-request ends when all pieces are taken. -/
  finished : s.error = 0 → ∀ i, (s.reqs i).pc.finished = true → io.ioCount ≤ s.taken
  /-- The sub-requests. -/
  reqs (i : Fin n) : ReqOk s.error (s.reqs i)
  /-- Pages that were filled or drained. -/
  handled : s.error = 0 → Covered io s io.handles s.handled
  /-- Pages that were transferred. -/
  transferred : s.error = 0 → Covered io s Pc.holds s.transferred

/-- No page lock fails, and no error comes between taking a piece and looking at the result. -/
def InTime (s : State n) : Act n → Prop
  | .lock _ (.error _) => False
  | .go i => (s.reqs i).pc = .check false false → s.error = 0
  | _ => True

variable {t p : Nat} {places : Pc → Bool} {i : Fin n} {m : MReq} {first : Bool}

section Pieces

variable (io)

theorem maxPage_pos : 0 < io.metadataIoMaxPage := by
  have hle := io.maxIoSize_le
  have hpos : 0 < io.maxIoSize / pageSize := Nat.div_pos hle (by decide)
  unfold Io.metadataIoMaxPage
  omega

theorem lt_ioCount : t < io.ioCount ↔ t * io.metadataIoMaxPage < io.count := by
  have hpos := maxPage_pos io
  unfold Io.ioCount MetadataSize.divRoundUp
  have hle : t < (io.count + io.metadataIoMaxPage - 1) / io.metadataIoMaxPage ↔
      (t + 1) * io.metadataIoMaxPage ≤ io.count + io.metadataIoMaxPage - 1 := Nat.le_div_iff_mul_le hpos
  rw [hle, Nat.succ_mul]
  omega

theorem reqCount_pos : 0 < io.reqCount := by
  have hzero : 0 < io.ioCount := (lt_ioCount io).mpr (by rw [Nat.zero_mul]; exact io.count_pos)
  unfold Io.reqCount metadataIoReqsLimit
  omega

variable {io}

theorem taken_iff_of_all (h : io.ioCount ≤ t) :
    io.Taken t p ↔ io.page ≤ p ∧ p < io.page + io.count := by
  have hle : io.count ≤ t * io.metadataIoMaxPage :=
    Nat.le_of_not_lt fun hlt => Nat.not_lt_of_le h ((lt_ioCount io).mpr hlt)
  unfold Io.Taken
  rw [Nat.min_eq_right hle]

theorem taken_succ (h : t < io.ioCount) : io.Taken (t + 1) p ↔ io.Taken t p ∨
    (io.page + t * io.metadataIoMaxPage ≤ p ∧ p < io.page + t * io.metadataIoMaxPage +
      min (io.count - t * io.metadataIoMaxPage) io.metadataIoMaxPage) := by
  have hlt := (lt_ioCount io).mp h
  unfold Io.Taken
  rw [Nat.succ_mul]
  omega

theorem not_taken (h : io.page + t * io.metadataIoMaxPage ≤ p) : ¬io.Taken t p := by
  unfold Io.Taken
  omega

theorem not_taken_zero (p : Nat) : ¬io.Taken 0 p := by
  unfold Io.Taken
  omega

end Pieces

section Counting

theorem le_sum (w : Pc → Int) (hw : ∀ pc, 0 ≤ w pc) (i : Fin n) : w (s.reqs i).pc ≤ ∑ j, w (s.reqs j).pc :=
  Finset.single_le_sum (f := fun j => w (s.reqs j).pc) (fun _ _ => hw _) (Finset.mem_univ i)

theorem rem_nonneg (pc : Pc) : 0 ≤ pc.rem := by
  unfold Pc.rem
  split <;> decide

theorem act_nonneg (pc : Pc) : 0 ≤ pc.act := by
  unfold Pc.act
  split <;> decide

theorem caller_rem_nonneg (c : Caller) : 0 ≤ c.rem := by
  unfold Caller.rem
  split <;> decide

theorem caller_act_nonneg (c : Caller) : 0 ≤ c.act := by
  unfold Caller.act
  split <;> decide

theorem Inv.le_remaining (h : Inv io s) (i : Fin n) : (s.reqs i).pc.rem ≤ s.reqRemaining := by
  have hle := le_sum (s := s) Pc.rem rem_nonneg i
  have hc := caller_rem_nonneg s.caller
  have heq := h.remaining
  omega

theorem Inv.le_active (h : Inv io s) (i : Fin n) : (s.reqs i).pc.act ≤ s.reqActive := by
  have hle := le_sum (s := s) Pc.act act_nonneg i
  have hc := caller_act_nonneg s.caller
  have heq := h.active
  omega

theorem count_pages (m : MReq) (p : Nat) :
    (m.pages.count p : Int) = if m.page ≤ p ∧ p < m.page + m.count then 1 else 0 := by
  unfold MReq.pages
  by_cases hp : m.page ≤ p ∧ p < m.page + m.count
  · rw [if_pos hp, List.count_eq_one_of_mem List.nodup_range' (List.mem_range'_1.mpr hp)]
    rfl
  · rw [if_neg hp, List.count_eq_zero_of_not_mem fun hmem => hp (List.mem_range'_1.mp hmem)]
    rfl

theorem Covered.move {log log' : List Nat} (h : Covered io s places log)
    (hreqs : s'.reqs = update s.reqs i m)
    (hp : ∀ p, (log'.count p : Int) + owes places p m + (if io.Taken s.taken p then 1 else 0) =
      log.count p + owes places p (s.reqs i) + if io.Taken s'.taken p then 1 else 0) : Covered io s' places log' := by
  intro p
  have hold := h p
  have hnew := hp p
  have hsum := sum_update (owes places p) s.reqs i m
  rw [hreqs]
  omega

theorem Covered.still {log : List Nat} (h : Covered io s places log)
    (hreqs : s'.reqs = update s.reqs i m) (htaken : s'.taken = s.taken)
    (hp : ∀ p, owes places p m = owes places p (s.reqs i)) : Covered io s' places log := by
  refine h.move hreqs fun p => ?_
  rw [htaken, hp p]

end Counting

section Steps

theorem Inv.move {pc : Pc} (h : Inv io s) (hpc : (s.reqs i).pc = pc)
    (hreqs : s'.reqs = update s.reqs i m) (hcaller : s'.caller = s.caller)
    (hidle : pc ≠ .idle) (hidle' : m.pc ≠ .idle)
    (hrem : s'.reqRemaining - m.pc.rem = s.reqRemaining - pc.rem)
    (hact : s'.reqActive - m.pc.act = s.reqActive - pc.act)
    (hfreed : s'.freed = if s'.reqActive = 0 then 1 else 0)
    (hcompleted : s'.completed = if s'.reqRemaining = 0 then [s'.error] else [])
    (herror : s'.error = 0 → s.error = 0) (htaken : s.taken ≤ s'.taken)
    (hfin : s'.error = 0 → m.pc.finished = true → io.ioCount ≤ s'.taken) (hreq : ReqOk s'.error m)
    (hhandled : s'.error = 0 → Covered io s' io.handles s'.handled)
    (htransferred : s'.error = 0 → Covered io s' Pc.holds s'.transferred) : Inv io s' := by
  subst hpc
  have hother : ∀ j, j ≠ i → s'.reqs j = s.reqs j := fun j hj => by rw [hreqs, update_of_ne hj]
  have hself : s'.reqs i = m := by rw [hreqs, update_self]
  refine ⟨?_, ?_, hfreed, hcompleted, fun j => ?_, fun r hr => h.result r (hcaller.symm.trans hr), fun he j hj => ?_,
    fun j => ?_, hhandled, htransferred⟩
  · have hsum := sum_update (fun m : MReq => m.pc.rem) s.reqs i m
    have hold := h.remaining
    rw [hreqs, hcaller]
    omega
  · have hsum := sum_update (fun m : MReq => m.pc.act) s.reqs i m
    have hold := h.active
    rw [hreqs, hcaller]
    omega
  · rw [hcaller]
    by_cases hj : j = i
    · rw [hj, hself, ← h.idle i]
      exact ⟨fun hm => absurd hm hidle', fun hm => absurd hm hidle⟩
    · rw [hother j hj]
      exact h.idle j
  · by_cases heq : j = i
    · rw [heq, hself] at hj
      exact hfin he hj
    · rw [hother j heq] at hj
      exact (h.finished (herror he) j hj).trans htaken
  · by_cases heq : j = i
    · rw [heq, hself]
      exact hreq
    · rw [hother j heq]
      have hold := h.reqs j
      refine ⟨hold.locked, hold.first, fun hm => (hold.later hm).imp_right fun hne he => hne (herror he), hold.piece,
        hold.unstarted⟩

theorem Inv.goto {pc : Pc} (h : Inv io s) (hpc : (s.reqs i).pc = pc) (hpage : m.page = (s.reqs i).page)
    (hcount : m.count = (s.reqs i).count) (hidle : pc ≠ .idle) (hidle' : m.pc ≠ .idle)
    (hrem : m.pc.rem = pc.rem) (hact : m.pc.act = pc.act) (hholds : m.pc.holds = pc.holds)
    (hhandles : io.handles m.pc = io.handles pc)
    (hfin : s.error = 0 → m.pc.finished = true → io.ioCount ≤ s.taken) (hreq : ReqOk s.error m) :
    Inv io (s.goto i m) := by
  subst hpc
  have howes : ∀ places : Pc → Bool, places m.pc = places (s.reqs i).pc →
      ∀ p, owes places p m = owes places p (s.reqs i) := by
    intro places hplaces p
    unfold owes
    rw [hplaces, hpage, hcount]
  exact h.move rfl rfl rfl hidle hidle' (congrArg (s.reqRemaining - ·) hrem)
    (congrArg (s.reqActive - ·) hact) h.freed h.completed id (Nat.le_refl _) hfin hreq
    (fun he => (h.handled he).still rfl rfl (howes _ hhandles))
    fun he => (h.transferred he).still rfl rfl (howes _ hholds)

theorem ReqOk.unlocked {e : Int} {pc : Pc} (h : ReqOk e m) (hpc : m.pc = pc)
    (hp : pc ≠ .perform) (hf : pc ≠ .flight) : m.locked = false := by
  subst hpc
  by_contra hl
  rcases h.locked (Bool.eq_true_of_not_eq_false hl) with hpc | hpc
  · exact hp hpc
  · exact hf hpc

theorem reqOk_of_off {e : Int} (hl : m.locked = false) (hidle : m.pc ≠ .idle) (hholds : m.pc.holds = false)
    (hfirst : m.pc = .advance true ∨ m.pc = .take true ∨ m.pc = .ending true ∨ m.pc = .check true true → m.count = 0)
    (hlater : m.pc = .ending false ∨ m.pc = .check false true → m.count = 0 ∨ e ≠ 0) : ReqOk e m := by
  refine ⟨fun h => ?_, hfirst, hlater, fun h => ?_, fun h => absurd h hidle⟩
  · rw [hl] at h
    cases h
  · rw [hholds] at h
    cases h

theorem reqOk_of_holds {e : Int} (hl : m.locked = true → m.pc = .perform ∨ m.pc = .flight)
    (hholds : m.pc.holds = true) (hcount : 0 < m.count) : ReqOk e m := by
  refine ⟨hl, fun h => ?_, fun h => ?_, fun _ => hcount, fun h => ?_⟩
  · rcases h with h | h | h | h <;> · rw [h] at hholds; cases hholds
  · rcases h with h | h <;> · rw [h] at hholds; cases hholds
  · rw [h] at hholds
    cases hholds

/-- `metadata_io_req_advance` looks at the error. -/
theorem Inv.advance (h : Inv io s) (hpc : (s.reqs i).pc = .advance first) :
    Inv io (s.goto i { s.reqs i with pc := if s.error ≠ 0 then .ending first else .take first }) := by
  have hok := h.reqs i
  have hl : (s.reqs i).locked = false := hok.unlocked hpc nofun nofun
  have hzero : first = true → (s.reqs i).count = 0 := fun hf => hok.first (.inl (by rw [hpc, hf]))
  by_cases he : s.error ≠ 0
  · rw [if_pos he]
    refine h.goto hpc rfl rfl nofun nofun rfl rfl rfl rfl (fun hz => absurd hz he) (reqOk_of_off hl nofun rfl (fun hm => ?_) fun _ => .inr he)
    rcases hm with hm | hm | hm | hm
    · cases hm
    · cases hm
    · exact hzero (Pc.ending.inj hm)
    · cases hm
  · rw [if_neg he]
    refine h.goto hpc rfl rfl nofun nofun rfl rfl rfl rfl nofun (reqOk_of_off hl nofun rfl (fun hm => ?_) fun hm => ?_)
    · rcases hm with hm | hm | hm | hm
      · cases hm
      · exact hzero (Pc.take.inj hm)
      · cases hm
      · cases hm
    · rcases hm with hm | hm <;> cases hm

theorem owes_of_off (h : places m.pc = false) : owes places p m = 0 := by
  unfold owes
  rw [if_neg fun hp => by rw [h] at hp; cases hp.1]

theorem owes_off {pc : Pc} (io : Io) (p : Nat) (hpc : m.pc = pc) (hpage : io.handles pc = false)
    (hholds : pc.holds = false) : owes io.handles p m = 0 ∧ owes Pc.holds p m = 0 := by
  subst hpc
  exact ⟨owes_of_off hpage, owes_of_off hholds⟩

theorem owes_of_on (h : places m.pc = true) :
    owes places p m = if m.page ≤ p ∧ p < m.page + m.count then 1 else 0 := by
  unfold owes
  simp only [h, true_and]

section

variable (h : Inv io s)
include h

theorem Inv.take (hpc : (s.reqs i).pc = .take first) : Inv io (metadataIoReqTake io s i first) := by
  have hok := h.reqs i
  have hl : (s.reqs i).locked = false := hok.unlocked hpc nofun nofun
  have hoff := fun p => owes_off io p hpc rfl rfl
  unfold metadataIoReqTake
  by_cases hall : io.ioCount ≤ s.taken
  · simp only [if_pos hall]
    have hsame : ∀ p, io.Taken (s.taken + 1) p ↔ io.Taken s.taken p := fun p => by
      rw [taken_iff_of_all hall, taken_iff_of_all (Nat.le_succ_of_le hall)]
    refine h.move (i := i) (m := { s.reqs i with count := 0, pc := .ending first }) hpc rfl rfl nofun nofun rfl rfl h.freed h.completed id (Nat.le_succ _) (fun _ _ => Nat.le_succ_of_le hall)
      (reqOk_of_off hl nofun rfl (fun _ => rfl) fun _ => .inl rfl) (fun he => ?_) fun he => ?_
    · refine (h.handled he).move rfl fun p => ?_
      change (s.handled.count p : Int) + _ + _ = _ + _ + if io.Taken (s.taken + 1) p then (1 : Int) else 0
      rw [(hoff p).1, owes_of_off rfl]
      simp only [hsame p]
    · refine (h.transferred he).move rfl fun p => ?_
      change (s.transferred.count p : Int) + _ + _ = _ + _ + if io.Taken (s.taken + 1) p then (1 : Int) else 0
      rw [(hoff p).2, owes_of_off rfl]
      simp only [hsame p]
  · simp only [if_neg hall]
    have hlt : s.taken < io.ioCount := Nat.lt_of_not_le hall
    have hpiece := (lt_ioCount io).mp hlt
    have hmax := maxPage_pos io
    -- pages of the new piece were not taken, and no others are
    have hcover : ∀ p, (if io.page + s.taken * io.metadataIoMaxPage ≤ p ∧ p < io.page + s.taken * io.metadataIoMaxPage +
        min (io.count - s.taken * io.metadataIoMaxPage) io.metadataIoMaxPage then (1 : Int) else 0) +
        (if io.Taken s.taken p then 1 else 0) = if io.Taken (s.taken + 1) p then 1 else 0 := by
      intro p
      have hsucc := taken_succ (p := p) hlt
      by_cases hnew : io.page + s.taken * io.metadataIoMaxPage ≤ p ∧ p < io.page + s.taken * io.metadataIoMaxPage +
        min (io.count - s.taken * io.metadataIoMaxPage) io.metadataIoMaxPage
      · rw [if_pos hnew, if_neg (not_taken hnew.1), if_pos (hsucc.mpr (.inr hnew))]
        rfl
      · rw [if_neg hnew, Int.zero_add]
        simp only [hsucc, hnew, or_false]
    refine h.move (i := i) (m := { s.reqs i with
      page := io.page + s.taken * io.metadataIoMaxPage
      count := min (io.count - s.taken * io.metadataIoMaxPage) io.metadataIoMaxPage
      pc := .check first false }) hpc rfl rfl nofun nofun rfl rfl h.freed h.completed id (Nat.le_succ _)
      nofun (reqOk_of_holds (fun hlock => by rw [hl] at hlock; cases hlock) rfl ?_) (fun he => ?_) fun he => ?_
    · change 0 < min (io.count - s.taken * io.metadataIoMaxPage) io.metadataIoMaxPage
      omega
    · refine (h.handled he).move rfl fun p => ?_
      rw [(hoff p).1, owes_of_on (by simp [Io.handles, Pc.holds])]
      change (s.handled.count p : Int) + _ + _ = _ + _ + if io.Taken (s.taken + 1) p then (1 : Int) else 0
      rw [Int.add_zero, Int.add_assoc, ← hcover p]
    · refine (h.transferred he).move rfl fun p => ?_
      rw [(hoff p).2, owes_of_on rfl]
      change (s.transferred.count p : Int) + _ + _ = _ + _ + if io.Taken (s.taken + 1) p then (1 : Int) else 0
      rw [Int.add_zero, Int.add_assoc, ← hcover p]

/-- `metadata_io_req_end`. -/
theorem Inv.ending (hpc : (s.reqs i).pc = .ending first) :
    Inv io ((metadataIoReqEnd s).goto i { s.reqs i with pc := .check first true }) := by
  have hok := h.reqs i
  have hl : (s.reqs i).locked = false := hok.unlocked hpc nofun nofun
  have hrem : (s.reqs i).pc.rem = 1 := by rw [hpc]; rfl
  have hpos := h.le_remaining i
  have hnil : s.completed = [] := by rw [h.completed, if_neg (by omega)]
  have hoff := fun p => owes_off io p hpc rfl rfl
  refine h.move hpc rfl rfl nofun nofun (Int.sub_zero _) rfl h.freed ?_ id (Nat.le_refl _)
    (fun he _ => h.finished he i (by rw [hpc]; rfl)) (reqOk_of_off hl nofun rfl (fun hm => ?_) fun hm => ?_)
    (fun he => (h.handled he).still rfl rfl fun p => by rw [(hoff p).1, owes_of_off rfl])
    fun he => (h.transferred he).still rfl rfl fun p => by rw [(hoff p).2, owes_of_off rfl]
  · change (if s.reqRemaining - 1 = 0 then s.completed ++ [s.error] else s.completed) =
      if s.reqRemaining - 1 = 0 then [s.error] else []
    rw [hnil]
    rfl
  · refine hok.first (.inr (.inr (.inl ?_)))
    rcases hm with hm | hm | hm | hm
    · cases hm
    · cases hm
    · cases hm
    · rw [hpc, (Pc.check.inj hm).1]
  · refine hok.later (.inl ?_)
    rcases hm with hm | hm
    · cases hm
    · rw [hpc, (Pc.check.inj hm).1]

theorem Inv.checkEnded (hpc : (s.reqs i).pc = .check first true) :
    Inv io (s.goto i { s.reqs i with pc := .finalize }) := by
  have hl : (s.reqs i).locked = false := (h.reqs i).unlocked hpc nofun nofun
  refine h.goto hpc rfl rfl nofun nofun rfl rfl rfl rfl (fun he _ => h.finished he i (by rw [hpc]; rfl)) (reqOk_of_off hl nofun rfl (fun hm => ?_) fun hm => ?_)
  · rcases hm with hm | hm | hm | hm <;> cases hm
  · rcases hm with hm | hm <;> cases hm

theorem Inv.carry (hpage : m.page = (s.reqs i).page)
    (hcount : m.count = (s.reqs i).count) (hholds : (s.reqs i).pc.holds = true) (hholds' : m.pc.holds = true)
    (hflight : (s.reqs i).pc ≠ .flight) (hflight' : m.pc ≠ .flight) (hlocked : m.locked = true → m.pc = .perform) :
    Inv io (s.goto i m) := by
  have hon : ∀ pc : Pc, pc.holds = true → pc ≠ .idle ∧ pc.rem = 1 ∧ pc.act = 1 ∧ pc.finished = false := by
    intro pc hpc
    cases pc with
    | check first ended =>
      cases ended with
      | false => exact ⟨nofun, rfl, rfl, rfl⟩
      | true => cases hpc
    | restart | waiting | perform | flight => exact ⟨nofun, rfl, rfl, rfl⟩
    | _ => cases hpc
  obtain ⟨hidle, hrem, hact, -⟩ := hon _ hholds
  obtain ⟨hidle', hrem', hact', hfin⟩ := hon _ hholds'
  refine h.goto rfl hpage hcount hidle hidle' (hrem'.trans hrem.symm) (hact'.trans hact.symm)
    (hholds'.trans hholds.symm) ?_ (fun _ ho => ?_) (reqOk_of_holds (fun hl => .inl (hlocked hl)) hholds' ?_)
  · simp only [Io.handles, hholds, hholds', hflight, hflight']
  · rw [hfin] at ho
    cases ho
  · rw [hcount]
    exact (h.reqs i).piece hholds

/-- `metadata_io_req_finalize`. -/
theorem Inv.finalize (hpc : (s.reqs i).pc = .finalize) :
    Inv io ((metadataIoReqFinalize s).goto i { s.reqs i with pc := .done }) := by
  have hl : (s.reqs i).locked = false := (h.reqs i).unlocked hpc nofun nofun
  have hact : (s.reqs i).pc.act = 1 := by rw [hpc]; rfl
  have hpos := h.le_active i
  have hzero : s.freed = 0 := by rw [h.freed, if_neg (by omega)]
  have hoff := fun p => owes_off io p hpc rfl rfl
  refine h.move hpc rfl rfl nofun nofun rfl (Int.sub_zero _) ?_ h.completed id (Nat.le_refl _)
    (fun he _ => h.finished he i (by rw [hpc]; rfl)) (reqOk_of_off hl nofun rfl (fun hm => ?_) fun hm => ?_)
    (fun he => (h.handled he).still rfl rfl fun p => by rw [(hoff p).1, owes_of_off rfl])
    fun he => (h.transferred he).still rfl rfl fun p => by rw [(hoff p).2, owes_of_off rfl]
  · change (if s.reqActive - 1 = 0 then s.freed + 1 else s.freed) = if s.reqActive - 1 = 0 then 1 else 0
    rw [hzero]
  · rcases hm with hm | hm | hm | hm <;> cases hm
  · rcases hm with hm | hm <;> cases hm

/-- `metadata_io_do`. -/
theorem Inv.perform (hpc : (s.reqs i).pc = .perform) : Inv io (metadataIoDo io s i) := by
  have hok := h.reqs i
  have hholds : (s.reqs i).pc.holds = true := by rw [hpc]; rfl
  have hreq : ReqOk s.error { s.reqs i with pc := .flight } := reqOk_of_holds (fun _ => .inr rfl) rfl (hok.piece hholds)
  have hmoved : s.error = 0 → ∀ p, owes Pc.holds p { s.reqs i with pc := .flight } = owes Pc.holds p (s.reqs i) := by
    intro _ p
    rw [owes_of_on rfl, owes_of_on hholds]
  unfold metadataIoDo
  cases hw : io.write with
  | true =>
    refine h.move (i := i) (m := { s.reqs i with pc := .flight }) hpc rfl rfl nofun nofun rfl rfl h.freed
      h.completed id (Nat.le_refl _) nofun hreq (fun he => (h.handled he).move rfl fun p => ?_)
      fun he => (h.transferred he).still rfl rfl (hmoved he)
    · have hcount := count_pages (s.reqs i) p
      rw [owes_of_off (by simp [Io.handles, hw]), owes_of_on (by rw [hpc]; simp [Io.handles, Pc.holds]), ← hcount]
      change ((s.handled ++ (s.reqs i).pages).count p : Int) + 0 + _ = _ + _ + if io.Taken s.taken p then (1 : Int) else 0
      rw [List.count_append, Int.natCast_add, Int.add_zero]
  | false =>
    refine h.move (i := i) (m := { s.reqs i with pc := .flight }) hpc rfl rfl nofun nofun rfl rfl h.freed
      h.completed id (Nat.le_refl _) nofun hreq (fun he => (h.handled he).still rfl rfl fun p => ?_)
      fun he => (h.transferred he).still rfl rfl (hmoved he)
    · rw [owes_of_on (by simp [Io.handles, hw, Pc.holds]), owes_of_on (by rw [hpc]; simp [Io.handles, Pc.holds])]

/-- `metadata_io_end`. -/
theorem Inv.ioEnd (error : Int) (hpc : (s.reqs i).pc = .flight) :
    Inv io (metadataIoEnd io s i error) := by
  have hrem : (s.reqs i).pc.rem = 1 := by rw [hpc]; rfl
  have hpos := h.le_remaining i
  have hnil : s.completed = [] := by rw [h.completed, if_neg (by omega)]
  have hne : s.reqRemaining ≠ 0 := by omega
  have hcount := count_pages (s.reqs i)
  have hreq : ∀ e, ReqOk e { s.reqs i with locked := false, pc := .advance false } := fun e =>
    reqOk_of_off rfl nofun rfl (fun hm => by rcases hm with hm | hm | hm | hm <;> cases hm) fun hm => by
      rcases hm with hm | hm <;> cases hm
  unfold metadataIoEnd
  by_cases he : error ≠ 0
  · simp only [if_pos he]
    have hset : (if s.error = 0 then error else s.error) ≠ 0 := by
      split
      · exact he
      · assumption
    refine h.move (i := i) (m := { s.reqs i with locked := false, pc := .advance false }) hpc rfl rfl nofun nofun rfl rfl h.freed ?_ (fun hz => absurd hz hset) (Nat.le_refl _) nofun (hreq _) (fun hz => absurd hz hset)
      fun hz => absurd hz hset
    · change s.completed = if s.reqRemaining = 0 then _ else []
      rw [if_neg hne]
      exact hnil
  · simp only [if_neg he]
    refine h.move (i := i) (m := { s.reqs i with locked := false, pc := .advance false }) hpc rfl rfl nofun nofun rfl rfl h.freed h.completed id (Nat.le_refl _) nofun (hreq _) (fun hz => ?_) fun hz => ?_
    · refine (h.handled hz).move rfl fun p => ?_
      change ((if io.write then s.handled else s.handled ++ (s.reqs i).pages).count p : Int) + _ + _ =
        _ + _ + if io.Taken s.taken p then (1 : Int) else 0
      rw [owes_of_off (by rfl)]
      cases hw : io.write with
      | true =>
        rw [owes_of_off (by rw [hpc]; simp [Io.handles, hw]), if_pos rfl]
      | false =>
        rw [owes_of_on (by rw [hpc]; simp [Io.handles, hw, Pc.holds]), ← hcount p, if_neg Bool.false_ne_true,
          List.count_append, Int.natCast_add, Int.add_zero]
    · refine (h.transferred hz).move rfl fun p => ?_
      change ((s.transferred ++ (s.reqs i).pages).count p : Int) + _ + _ =
        _ + _ + if io.Taken s.taken p then (1 : Int) else 0
      rw [owes_of_off (by rfl), owes_of_on (by rw [hpc]; rfl), ← hcount p, List.count_append, Int.natCast_add, Int.add_zero]

theorem Inv.go (hg : (s.reqs i).pc.runs = true) (hin : InTime s (.go i)) : Inv io (go io s i) := by
  have hok := h.reqs i
  unfold MetadataIo.go
  cases hpc : (s.reqs i).pc with
  | advance first =>
    simp only [hpc]
    exact h.advance hpc
  | take first =>
    simp only [hpc]
    exact h.take hpc
  | ending first =>
    simp only [hpc]
    exact h.ending hpc
  | check first ended =>
    cases ended with
    | true =>
      cases first with
      | true =>
        simp only [hpc, if_pos (hok.first (.inr (.inr (.inr hpc))))]
        exact h.checkEnded hpc
      | false =>
        simp only [hpc, if_pos (hok.later (.inr hpc))]
        exact h.checkEnded hpc
    | false =>
      have hpiece : 0 < (s.reqs i).count := hok.piece (by rw [hpc]; rfl)
      have hl : (s.reqs i).locked = false := hok.unlocked hpc nofun nofun
      have hcarry : Inv io (s.goto i { s.reqs i with pc := .restart }) := by
        refine h.carry rfl rfl (by rw [hpc]; rfl) rfl (by rw [hpc]; nofun) nofun fun hlock => ?_
        rw [hl] at hlock
        cases hlock
      cases first with
      | true =>
        simp only [hpc, if_neg (Nat.ne_of_gt hpiece)]
        exact hcarry
      | false =>
        have hzero := hin hpc
        simp only [hpc, if_neg (not_or.mpr ⟨Nat.ne_of_gt hpiece, not_not.mpr hzero⟩)]
        exact hcarry
  | finalize =>
    simp only [hpc]
    exact h.finalize hpc
  | perform =>
    simp only [hpc]
    exact h.perform hpc
  | idle | restart | waiting | flight | done =>
    rw [hpc] at hg
    cases hg

theorem Inv.lock {r : Lock} (hg : guard io s (.lock i r)) (hin : InTime s (.lock i r)) :
    Inv io (metadataIoRestartReq io s i r) := by
  have hpc := hg.1
  have hl : (s.reqs i).locked = false := (h.reqs i).unlocked hpc nofun nofun
  cases r with
  | acquired =>
    exact h.carry rfl rfl (by rw [hpc]; rfl) rfl (by rw [hpc]; nofun) nofun fun _ => rfl
  | notAcquired =>
    refine h.carry rfl rfl (by rw [hpc]; rfl) rfl (by rw [hpc]; nofun) nofun fun hlock => ?_
    rw [hl] at hlock
    cases hlock
  | error e => exact hin.elim

theorem Inv.granted (hpc : (s.reqs i).pc = .waiting) :
    Inv io (s.goto i { s.reqs i with locked := true, pc := .perform }) :=
  h.carry rfl rfl (by rw [hpc]; rfl) rfl (by rw [hpc]; nofun) nofun fun _ => rfl

theorem Inv.callerStep (hreqs : s'.reqs = s.reqs) (htaken : s'.taken = s.taken)
    (herror : s'.error = s.error) (hhandled : s'.handled = s.handled) (htransferred : s'.transferred = s.transferred)
    (hrem : s'.reqRemaining = s.reqRemaining + s'.caller.rem - s.caller.rem)
    (hact : s'.reqActive = s.reqActive + s'.caller.act - s.caller.act)
    (hfreed : s'.freed = if s'.reqActive = 0 then 1 else 0)
    (hcompleted : s'.completed = if s'.reqRemaining = 0 then [s'.error] else [])
    (hidle : ∀ i : Fin n, s'.caller.Before i ↔ s.caller.Before i) (hresult : ∀ r, s'.caller = .returned r → r = 0) :
    Inv io s' := by
  have hcovered : ∀ places log, Covered io s places log → Covered io s' places log := by
    intro places log hc p
    rw [hreqs, htaken]
    exact hc p
  have hr := h.remaining
  have ha := h.active
  refine ⟨?_, ?_, hfreed, hcompleted, fun i => ?_, hresult, fun he i hi => ?_, fun i => ?_, fun he => ?_, fun he => ?_⟩
  · rw [hreqs]
    omega
  · rw [hreqs]
    omega
  · rw [hreqs, hidle]
    exact h.idle i
  · rw [hreqs] at hi
    rw [herror] at he
    rw [htaken]
    exact h.finished he i hi
  · rw [hreqs, herror]
    exact h.reqs i
  · rw [herror] at he
    rw [hhandled]
    exact hcovered _ _ (h.handled he)
  · rw [herror] at he
    rw [htransferred]
    exact hcovered _ _ (h.transferred he)

theorem Inv.start {k : Nat} (hc : s.caller = .start k) (hk : k < n) : Inv io ({ s with
    reqRemaining := s.reqRemaining + 1
    reqActive := s.reqActive + 1
    caller := .start (k + 1) }.goto ⟨k, hk⟩ { s.reqs ⟨k, hk⟩ with pc := .advance true }) := by
  obtain ⟨i, hi⟩ : ∃ i : Fin n, i = ⟨k, hk⟩ := ⟨_, rfl⟩
  have hval : i.val = k := by rw [hi]
  rw [← hi]
  have hpc : (s.reqs i).pc = .idle := (h.idle i).mpr (by rw [hc, hval]; exact Nat.le_refl k)
  have hok := h.reqs i
  have hl : (s.reqs i).locked = false := hok.unlocked hpc nofun nofun
  have hold := h.remaining
  have hold' := h.active
  have hrem : s.caller.rem = 1 := by rw [hc]; rfl
  have hact : s.caller.act = 1 := by rw [hc]; rfl
  have hpos : 0 < s.reqRemaining := by
    have hnn : 0 ≤ ∑ j, (s.reqs j).pc.rem := Finset.sum_nonneg fun j _ => rem_nonneg _
    omega
  have hpos' : 0 < s.reqActive := by
    have hnn : 0 ≤ ∑ j, (s.reqs j).pc.act := Finset.sum_nonneg fun j _ => act_nonneg _
    omega
  have hother : ∀ m : MReq, ∀ j, j ≠ i → update s.reqs i m j = s.reqs j := fun m j hj =>
    update_of_ne hj ..
  refine ⟨?_, ?_, ?_, ?_, fun j => ?_, nofun, fun he j hj => ?_, fun j => ?_,
    fun he => (h.handled he).still rfl rfl fun p => ?_, fun he => (h.transferred he).still rfl rfl fun p => ?_⟩
  · have hsum := sum_update (fun m : MReq => m.pc.rem) s.reqs i { s.reqs i with pc := .advance true }
    have hzero : (s.reqs i).pc.rem = 0 := by rw [hpc]; rfl
    have hone : (Pc.advance true).rem = 1 := rfl
    change _ = _ + (Pc.advance true).rem - (s.reqs i).pc.rem at hsum
    change s.reqRemaining + 1 = 1 + ∑ j, (update s.reqs i _ j).pc.rem
    omega
  · have hsum := sum_update (fun m : MReq => m.pc.act) s.reqs i { s.reqs i with pc := .advance true }
    have hzero : (s.reqs i).pc.act = 0 := by rw [hpc]; rfl
    have hone : (Pc.advance true).act = 1 := rfl
    change _ = _ + (Pc.advance true).act - (s.reqs i).pc.act at hsum
    change s.reqActive + 1 = 1 + ∑ j, (update s.reqs i _ j).pc.act
    omega
  · change s.freed = if s.reqActive + 1 = 0 then 1 else 0
    rw [h.freed, if_neg (by omega), if_neg (by omega)]
  · change s.completed = if s.reqRemaining + 1 = 0 then [s.error] else []
    rw [h.completed, if_neg (by omega), if_neg (by omega)]
  · change (update s.reqs i _ j).pc = .idle ↔ k + 1 ≤ j.val
    by_cases hj : j = i
    · rw [hj, update_self]
      exact ⟨nofun, fun hle => by omega⟩
    · have hne : j.val ≠ k := fun heq => hj (Fin.ext (heq.trans hval.symm))
      have hidle := h.idle j
      rw [hc] at hidle
      rw [hother _ j hj]
      exact hidle.trans ⟨fun hle => Nat.lt_of_le_of_ne hle (Ne.symm hne), fun hle => Nat.le_of_succ_le hle⟩
  · change (update s.reqs i _ j).pc.finished = true at hj
    by_cases heq : j = i
    · rw [heq, update_self] at hj
      cases hj
    · rw [hother _ j heq] at hj
      exact h.finished he j hj
  · change ReqOk s.error (update s.reqs i _ j)
    by_cases heq : j = i
    · rw [heq, update_self]
      exact reqOk_of_off hl nofun rfl (fun _ => hok.unstarted hpc) fun hm => by rcases hm with hm | hm <;> cases hm
    · rw [hother _ j heq]
      exact h.reqs j
  · rw [owes_of_off (by rfl), owes_of_off (by rw [hpc]; rfl)]
  · rw [owes_of_off (by rfl), owes_of_off (by rw [hpc]; rfl)]

theorem Inv.caller (hg : s.caller.runs = true) : Inv io (MetadataIo.callerStep s) := by
  have hold := h.remaining
  have hold' := h.active
  have hnn : 0 ≤ ∑ j, (s.reqs j).pc.rem := Finset.sum_nonneg fun j _ => rem_nonneg _
  have hnn' : 0 ≤ ∑ j, (s.reqs j).pc.act := Finset.sum_nonneg fun j _ => act_nonneg _
  unfold MetadataIo.callerStep
  cases hc : s.caller with
  | start k =>
    by_cases hk : k < n
    · simp only [dif_pos hk]
      exact h.start hc hk
    · simp only [dif_neg hk]
      refine h.callerStep rfl rfl rfl rfl rfl ?_ ?_ h.freed h.completed (fun i => ?_) nofun
      · rw [hc]
        exact (Int.add_sub_cancel _ 1).symm
      · rw [hc]
        exact (Int.add_sub_cancel _ 1).symm
      · rw [hc]
        exact ⟨False.elim, fun hle => hk (Nat.lt_of_le_of_lt hle i.isLt)⟩
  | finish =>
    rw [hc] at hold
    have hpos : 0 < s.reqRemaining := by
      simp only [Caller.rem] at hold
      omega
    refine h.callerStep rfl rfl rfl rfl rfl ?_ ?_ h.freed ?_ (fun i => ?_) nofun
    · rw [hc]
      exact (congrArg (· - 1) (Int.add_zero s.reqRemaining)).symm
    · rw [hc]
      exact (Int.add_sub_cancel _ 1).symm
    · have hnil : s.completed = [] := by rw [h.completed, if_neg (by omega)]
      change (if s.reqRemaining - 1 = 0 then s.completed ++ [s.error] else s.completed) =
        if s.reqRemaining - 1 = 0 then [s.error] else []
      rw [hnil]
      rfl
    · rw [hc]
      exact Iff.rfl
  | release =>
    rw [hc] at hold'
    have hpos : 0 < s.reqActive := by
      simp only [Caller.act] at hold'
      omega
    refine h.callerStep rfl rfl rfl rfl rfl ?_ ?_ ?_ h.completed (fun i => ?_) fun r hr => (Caller.returned.inj hr).symm
    · rw [hc]
      exact ((Int.sub_zero _).trans (Int.add_zero s.reqRemaining)).symm
    · rw [hc]
      exact (congrArg (· - 1) (Int.add_zero s.reqActive)).symm
    · have hzero : s.freed = 0 := by rw [h.freed, if_neg (by omega)]
      change (if s.reqActive - 1 = 0 then s.freed + 1 else s.freed) = if s.reqActive - 1 = 0 then 1 else 0
      rw [hzero]
    · rw [hc]
      exact Iff.rfl
  | alloc | returned r =>
    rw [hc] at hg
    cases hg

end

end Steps

section Once

/-- The allocations failed, and nothing was started. -/
structure Refused (s : State n) : Prop where
  /-- An error is returned. -/
  caller : s.caller = .returned errNoMem
  /-- `compl_hndl` was not called. -/
  completed : s.completed = []
  /-- The common structure was freed if there was one. -/
  freed : s.freed ≤ 1
  /-- No sub-request was started. -/
  idle : ∀ i, (s.reqs i).pc = .idle

/-- What the caller of `metadata_io_i_asynch` relies on. -/
structure Once (io : Io) (s : State n) : Prop where
  /-- `compl_hndl` is called at most once. -/
  once : s.completed.length ≤ 1
  /-- It is not called when an error is returned. -/
  refused : ∀ r, s.caller = .returned r → r ≠ 0 → s.completed = []
  /-- It gets the error. -/
  error : ∀ e ∈ s.completed, e = s.error
  /-- Without an error every page was gone through once before it. -/
  pages : s.completed = [0] → s.handled.Perm (List.range' io.page io.count) ∧
    s.transferred.Perm (List.range' io.page io.count)
  /-- When nothing can happen any more the call has failed, or was answered,
  has given its page locks back and freed the common structure. -/
  answered : (∀ act, ¬guard io s act) → (∃ r, s.caller = .returned r ∧ r ≠ 0) ∨
    (s.caller = .returned 0 ∧ s.completed.length = 1 ∧ s.freed = 1 ∧ ∀ i, (s.reqs i).locked = false)
  /-- The common structure is freed at most once. -/
  freed : s.freed ≤ 1
  /-- Nothing happens behind that. -/
  last : s.freed = 1 → ∀ act, ¬guard io s act

theorem not_guard {r : Int} (hc : s.caller = .returned r) (hreqs : ∀ i, (s.reqs i).pc = .idle ∨ (s.reqs i).pc = .done)
    (act : Act n) : ¬guard io s act := by
  have hnot : ∀ i pc, pc ≠ .idle → pc ≠ .done → (s.reqs i).pc ≠ pc := by
    intro i pc hi hd heq
    rcases hreqs i with h | h
    · exact hi (heq.symm.trans h)
    · exact hd (heq.symm.trans h)
  cases act with
  | alloc a =>
    intro hg
    have halloc : s.caller = .alloc := hg
    rw [hc] at halloc
    cases halloc
  | caller =>
    intro hg
    have hruns : s.caller.runs = true := hg
    rw [hc] at hruns
    cases hruns
  | go i =>
    intro hg
    have hruns : (s.reqs i).pc.runs = true := hg
    rcases hreqs i with h | h <;> · rw [h] at hruns; cases hruns
  | lock i r => exact fun hg => hnot i .restart nofun nofun hg.1
  | granted i => exact hnot i .waiting nofun nofun
  | ioEnd i e => exact hnot i .flight nofun nofun

theorem Refused.once (h : Refused s) : Once io s := by
  have hnot := @not_guard io _ s _ h.caller fun i => .inl (h.idle i)
  refine ⟨?_, fun _ _ _ => h.completed, ?_, ?_, fun _ => .inl ⟨_, h.caller, by decide⟩, h.freed, fun _ => hnot⟩
  · rw [h.completed]
    exact Nat.zero_le 1
  · rw [h.completed]
    exact nofun
  · rw [h.completed]
    exact nofun

theorem Inv.ended (h : Inv io s) (hr : s.reqRemaining = 0) :
    s.caller.rem = 0 ∧ ∀ i, (s.reqs i).pc.rem = 0 := by
  have hold := h.remaining
  have hc := caller_rem_nonneg s.caller
  have hnn : 0 ≤ ∑ j, (s.reqs j).pc.rem := Finset.sum_nonneg fun j _ => rem_nonneg _
  refine ⟨by omega, fun i => ?_⟩
  have hle := h.le_remaining i
  have hi := rem_nonneg (s.reqs i).pc
  omega

theorem finished_of_rem {pc : Pc} (hr : pc.rem = 0) (hidle : pc ≠ .idle) : pc.finished = true ∧ pc.holds = false := by
  cases pc with
  | check first ended =>
    cases ended with
    | false => cases hr
    | true => exact ⟨rfl, rfl⟩
  | idle => exact absurd rfl hidle
  | finalize | done => exact ⟨rfl, rfl⟩
  | _ => cases hr

theorem Covered.perm {log : List Nat} (h : Covered io s places log) (hall : io.ioCount ≤ s.taken)
    (hoff : ∀ i, places (s.reqs i).pc = false) : log.Perm (List.range' io.page io.count) := by
  refine List.perm_iff_count.mpr fun p => ?_
  have hzero : ∑ i, owes places p (s.reqs i) = 0 := Finset.sum_eq_zero fun i _ => owes_of_off (hoff i)
  have hp := h p
  have hcount := count_pages ⟨.idle, io.page, io.count, false⟩ p
  simp only [hzero, taken_iff_of_all hall, Int.add_zero] at hp
  exact Int.ofNat_inj.mp (hp.trans hcount.symm)

/-- The caller is told once, with the error. -/
theorem Inv.once (h : Inv io s) (hn : 0 < n) : Once io s := by
  have hcompleted := h.completed
  have hfreed := h.freed
  refine ⟨?_, fun r hr hne => absurd (h.result r hr) hne, ?_, fun hz => ?_, fun hno => ?_, ?_, fun hf => ?_⟩
  · rw [hcompleted]
    split <;> simp
  · rw [hcompleted]
    split
    · exact fun e he => List.mem_singleton.mp he
    · exact nofun
  · rw [hcompleted] at hz
    split at hz
    · next hr =>
      have herror : s.error = 0 := List.cons.inj hz |>.1
      obtain ⟨hc, hrem⟩ := h.ended hr
      have hstarted : ∀ i, (s.reqs i).pc ≠ .idle := by
        intro i hi
        have hbefore := (h.idle i).mp hi
        cases hcaller : s.caller with
        | alloc | start | finish =>
          rw [hcaller] at hc
          cases hc
        | release | returned =>
          rw [hcaller] at hbefore
          exact hbefore
      have hfin := fun i => finished_of_rem (hrem i) (hstarted i)
      have hall := h.finished herror ⟨0, hn⟩ (hfin _).1
      refine ⟨(h.handled herror).perm hall fun i => ?_, (h.transferred herror).perm hall fun i => (hfin i).2⟩
      unfold Io.handles
      rw [(hfin i).2]
      rfl
    · cases hz
  · -- every place but the last one goes on
    have hdone : ∀ i, (s.reqs i).pc = .done ∨ (s.reqs i).pc = .idle := by
      intro i
      cases hpc : (s.reqs i).pc with
      | done => exact .inl rfl
      | idle => exact .inr rfl
      | restart => exact absurd ⟨hpc, trivial⟩ (hno (.lock i .acquired))
      | waiting => exact absurd hpc (hno (.granted i))
      | flight => exact absurd hpc (hno (.ioEnd i 0))
      | _ => exact absurd (show (s.reqs i).pc.runs = true by rw [hpc]; rfl) (hno (.go i))
    have hreturned : ∃ r, s.caller = .returned r := by
      cases hc : s.caller with
      | alloc => exact absurd hc (hno (.alloc .ok))
      | returned r => exact ⟨r, rfl⟩
      | _ => exact absurd (show s.caller.runs = true by rw [hc]; rfl) (hno .caller)
    obtain ⟨r, hr⟩ := hreturned
    obtain rfl := h.result r hr
    have hall : ∀ i, (s.reqs i).pc = .done := by
      intro i
      refine (hdone i).resolve_right fun hi => ?_
      have hbefore := (h.idle i).mp hi
      rw [hr] at hbefore
      exact hbefore
    have hrem : s.reqRemaining = 0 := by
      rw [h.remaining, hr, Finset.sum_eq_zero fun i _ => by rw [hall i]; rfl]
      rfl
    have hact : s.reqActive = 0 := by
      rw [h.active, hr, Finset.sum_eq_zero fun i _ => by rw [hall i]; rfl]
      rfl
    refine .inr ⟨hr, ?_, ?_, fun i => (h.reqs i).unlocked (hall i) nofun nofun⟩
    · rw [hcompleted, if_pos hrem]
      rfl
    · rw [hfreed, if_pos hact]
  · rw [hfreed]
    split <;> decide
  · rw [hfreed] at hf
    split at hf
    · next ha =>
      have hold := h.active
      have hc := caller_act_nonneg s.caller
      have hnn : 0 ≤ ∑ j, (s.reqs j).pc.act := Finset.sum_nonneg fun j _ => act_nonneg _
      have hzero : s.caller.act = 0 := by omega
      obtain ⟨r, hr⟩ : ∃ r, s.caller = .returned r := by
        cases hcaller : s.caller with
        | returned r => exact ⟨r, rfl⟩
        | _ =>
          rw [hcaller] at hzero
          cases hzero
      refine not_guard hr fun i => ?_
      have hle := h.le_active i
      have hi : (s.reqs i).pc.act = 0 := by
        have hpos := act_nonneg (s.reqs i).pc
        omega
      cases hpc : (s.reqs i).pc with
      | idle => exact .inl rfl
      | done => exact .inr rfl
      | _ =>
        rw [hpc] at hi
        cases hi
    · cases hf

end Once

section Progress

/-- Steps that a sub-request at a place may still take with what it has. -/
def Pc.todo : Pc → Int
  | .idle | .done => 0
  | .finalize => 1
  | .check _ true => 2
  | .ending _ => 3
  | .take _ => 4
  | .advance _ => 5
  | .flight => 6
  | .perform => 7
  | .waiting => 8
  | .restart => 9
  | .check _ false => 10

/-- Steps that the caller may still take, with room for what it starts. -/
def Caller.todo (n : Nat) : Caller → Int
  | .alloc => 6 * n + 4
  | .start k => 6 * (n - k : Nat) + 3
  | .finish => 2
  | .release => 1
  | .returned _ => 0

/-- Bound on the steps that a call may still take. -/
def State.todo (io : Io) (s : State n) : Int :=
  7 * (io.ioCount - s.taken : Nat) + s.caller.todo n + ∑ i, (s.reqs i).pc.todo

theorem todo_nonneg (io : Io) (s : State n) : 0 ≤ s.todo io := by
  have hpc : ∀ pc : Pc, 0 ≤ pc.todo := fun pc => by
    unfold Pc.todo
    split <;> decide
  have hsum : 0 ≤ ∑ i, (s.reqs i).pc.todo := Finset.sum_nonneg fun i _ => hpc _
  have hcaller : 0 ≤ s.caller.todo n := by
    unfold Caller.todo
    split <;> omega
  unfold State.todo
  omega

theorem todo_lt (hreqs : s'.reqs = update s.reqs i m) (hcaller : s'.caller = s.caller)
    (hlt : 7 * (io.ioCount - s'.taken : Nat) + m.pc.todo < 7 * (io.ioCount - s.taken : Nat) + (s.reqs i).pc.todo) :
    s'.todo io < s.todo io := by
  have hsum := sum_update (fun m : MReq => m.pc.todo) s.reqs i m
  unfold State.todo
  rw [hreqs, hcaller]
  omega

theorem todo_lt_of_caller (hreqs : s'.reqs = s.reqs) (htaken : s'.taken = s.taken)
    (hlt : s'.caller.todo n < s.caller.todo n) : s'.todo io < s.todo io := by
  unfold State.todo
  rw [hreqs, htaken]
  omega

theorem todo_lt_of_start (hreqs : s'.reqs = update s.reqs i m)
    (htaken : s'.taken = s.taken) (hlt : s'.caller.todo n + m.pc.todo < s.caller.todo n + (s.reqs i).pc.todo) :
    s'.todo io < s.todo io := by
  have hsum := sum_update (fun m : MReq => m.pc.todo) s.reqs i m
  unfold State.todo
  rw [hreqs, htaken]
  omega

theorem Inv.go_todo (h : Inv io s) (hg : (s.reqs i).pc.runs = true) :
    (MetadataIo.go io s i).todo io < s.todo io := by
  have hok := h.reqs i
  have hmove : ∀ (s' : State n) (m : MReq), s'.reqs = update s.reqs i m → s'.caller = s.caller →
      s'.taken = s.taken → m.pc.todo < (s.reqs i).pc.todo → s'.todo io < s.todo io := by
    intro s' m hreqs hcaller htaken hlt
    refine todo_lt hreqs hcaller ?_
    omega
  unfold MetadataIo.go
  cases hpc : (s.reqs i).pc with
  | advance first =>
    simp only [hpc]
    refine hmove _ _ rfl rfl rfl ?_
    rw [hpc]
    change (if s.error ≠ 0 then Pc.ending first else Pc.take first).todo < 5
    split
    · exact (by decide : (3 : Int) < 5)
    · exact (by decide : (4 : Int) < 5)
  | take first =>
    simp only [hpc]
    unfold metadataIoReqTake
    by_cases hall : io.ioCount ≤ s.taken
    · simp only [if_pos hall]
      refine todo_lt rfl rfl ?_
      rw [hpc]
      change 7 * ((io.ioCount - (s.taken + 1) : Nat) : Int) + 3 < 7 * ((io.ioCount - s.taken : Nat) : Int) + 4
      omega
    · simp only [if_neg hall]
      refine todo_lt rfl rfl ?_
      rw [hpc]
      change 7 * ((io.ioCount - (s.taken + 1) : Nat) : Int) + 10 < 7 * ((io.ioCount - s.taken : Nat) : Int) + 4
      omega
  | ending first =>
    simp only [hpc]
    refine hmove _ _ rfl rfl rfl ?_
    rw [hpc]
    exact (by decide : (2 : Int) < 3)
  | check first ended =>
    cases ended with
    | true =>
      have hfinal : Pc.finalize.todo < (s.reqs i).pc.todo := by
        rw [hpc]
        exact (by decide : (1 : Int) < 2)
      cases first with
      | true =>
        simp only [hpc, if_pos (hok.first (.inr (.inr (.inr hpc))))]
        exact hmove _ _ rfl rfl rfl hfinal
      | false =>
        simp only [hpc, if_pos (hok.later (.inr hpc))]
        exact hmove _ _ rfl rfl rfl hfinal
    | false =>
      have hlt : ∀ c : Prop, ∀ _ : Decidable c, (if c then Pc.finalize else Pc.restart).todo < (s.reqs i).pc.todo := by
        intro c _
        rw [hpc]
        split
        · exact (by decide : (1 : Int) < 10)
        · exact (by decide : (9 : Int) < 10)
      cases first with
      | true =>
        simp only [hpc]
        exact hmove _ _ rfl rfl rfl (hlt _ _)
      | false =>
        simp only [hpc]
        exact hmove _ _ rfl rfl rfl (hlt _ _)
  | finalize =>
    simp only [hpc]
    refine hmove _ _ rfl rfl rfl ?_
    rw [hpc]
    exact (by decide : (0 : Int) < 1)
  | perform =>
    simp only [hpc]
    unfold metadataIoDo
    have hlt : Pc.flight.todo < (s.reqs i).pc.todo := by
      rw [hpc]
      exact (by decide : (6 : Int) < 7)
    cases io.write with
    | true => exact hmove _ { s.reqs i with pc := .flight } rfl rfl rfl hlt
    | false => exact hmove _ { s.reqs i with pc := .flight } rfl rfl rfl hlt
  | idle | restart | waiting | flight | done =>
    rw [hpc] at hg
    cases hg

theorem callerStep_todo (hg : s.caller.runs = true) : (callerStep s).todo io < s.todo io := by
  unfold callerStep
  cases hc : s.caller with
  | start k =>
    have hcaller : s.caller.todo n = 6 * (n - k : Nat) + 3 := by rw [hc]; rfl
    by_cases hk : k < n
    · simp only [dif_pos hk]
      have hnn : 0 ≤ (s.reqs ⟨k, hk⟩).pc.todo := by
        unfold Pc.todo
        split <;> decide
      refine todo_lt_of_start rfl rfl ?_
      change 6 * ((n - (k + 1) : Nat) : Int) + 3 + 5 < _
      omega
    · simp only [dif_neg hk]
      refine todo_lt_of_caller rfl rfl ?_
      rw [hcaller]
      change 2 < _
      omega
  | finish =>
    refine todo_lt_of_caller rfl rfl ?_
    rw [hc]
    exact (by decide : (1 : Int) < 2)
  | release =>
    refine todo_lt_of_caller rfl rfl ?_
    rw [hc]
    exact (by decide : (0 : Int) < 1)
  | alloc | returned r =>
    rw [hc] at hg
    cases hg

theorem Inv.step_todo (h : Inv io s) {act : Act n} (hg : guard io s act) (hs : step io s act = some s') :
    s'.todo io < s.todo io := by
  have hmove : ∀ (t : State n) (i : Fin n) (m : MReq), t.reqs = update s.reqs i m → t.caller = s.caller →
      t.taken = s.taken → m.pc.todo < (s.reqs i).pc.todo → t.todo io < s.todo io := by
    intro t i m hreqs hcaller htaken hlt
    refine todo_lt hreqs hcaller ?_
    omega
  cases act with
  | alloc a =>
    have hc : s.caller = .alloc := hg
    have hcaller : s.caller.todo n = 6 * n + 4 := by rw [hc]; rfl
    cases a with
    | ok =>
      cases hs
      refine todo_lt_of_caller rfl rfl ?_
      change 6 * ((n - 0 : Nat) : Int) + 3 < _
      omega
    | noRequest | noData =>
      cases hs
      refine todo_lt_of_caller rfl rfl ?_
      rw [hcaller]
      change 0 < _
      omega
  | caller =>
    cases hs
    exact callerStep_todo hg
  | go i =>
    cases hs
    exact h.go_todo hg
  | lock i r =>
    cases hs
    cases r with
    | acquired =>
      refine hmove _ i _ rfl rfl rfl ?_
      rw [hg.1]
      exact (by decide : (7 : Int) < 9)
    | notAcquired =>
      refine hmove _ i _ rfl rfl rfl ?_
      rw [hg.1]
      exact (by decide : (8 : Int) < 9)
    | error e =>
      refine hmove _ i _ rfl rfl rfl ?_
      rw [hg.1]
      exact (by decide : (1 : Int) < 9)
  | granted i =>
    cases hs
    refine hmove _ i _ rfl rfl rfl ?_
    rw [show (s.reqs i).pc = .waiting from hg]
    exact (by decide : (7 : Int) < 8)
  | ioEnd i e =>
    cases hs
    have hlt : (Pc.advance false).todo < (s.reqs i).pc.todo := by
      rw [show (s.reqs i).pc = .flight from hg]
      exact (by decide : (5 : Int) < 6)
    unfold metadataIoEnd
    split
    · exact hmove _ i { s.reqs i with locked := false, pc := .advance false } rfl rfl rfl hlt
    · exact hmove _ i { s.reqs i with locked := false, pc := .advance false } rfl rfl rfl hlt

end Progress

section System

theorem inv_init : Inv io (metadataIoIAsynch n) := by
  have hzero : ∑ _i : Fin n, (0 : Int) = 0 := Finset.sum_const_zero
  refine ⟨?_, ?_, rfl, rfl, fun _ => ⟨fun _ => trivial, fun _ => rfl⟩, nofun, nofun, fun _ => ?_, fun _ p => ?_,
    fun _ p => ?_⟩
  · change (1 : Int) = 1 + ∑ _i : Fin n, (0 : Int)
    rw [hzero]
    rfl
  · change (1 : Int) = 1 + ∑ _i : Fin n, (0 : Int)
    rw [hzero]
    rfl
  · exact ⟨nofun, fun _ => rfl, nofun, nofun, fun _ => rfl⟩
  · have hnot : ¬io.Taken 0 p := not_taken_zero p
    rw [Finset.sum_eq_zero fun i _ => owes_of_off rfl]
    exact (if_neg hnot).symm
  · have hnot : ¬io.Taken 0 p := not_taken_zero p
    rw [Finset.sum_eq_zero fun i _ => owes_of_off rfl]
    exact (if_neg hnot).symm

/-- A step keeps the account, or the flush stays refused. -/
theorem step_inv {act : Act n} (h : Inv io s ∨ Refused s) (hg : guard io s act) (hin : InTime s act)
    (hs : step io s act = some s') : Inv io s' ∨ Refused s' := by
  rcases h with h | h
  · cases act with
    | alloc a =>
      have hc : s.caller = .alloc := hg
      have hrem : 0 < s.reqRemaining := by
        have hold := h.remaining
        have hnn : 0 ≤ ∑ j, (s.reqs j).pc.rem := Finset.sum_nonneg fun j _ => rem_nonneg _
        have hone : s.caller.rem = 1 := by rw [hc]; rfl
        omega
      have hact : 0 < s.reqActive := by
        have hold := h.active
        have hnn : 0 ≤ ∑ j, (s.reqs j).pc.act := Finset.sum_nonneg fun j _ => act_nonneg _
        have hone : s.caller.act = 1 := by rw [hc]; rfl
        omega
      have hnil : s.completed = [] := by rw [h.completed, if_neg (by omega)]
      have hzero : s.freed = 0 := by rw [h.freed, if_neg (by omega)]
      have hidle : ∀ i, (s.reqs i).pc = .idle := fun i => (h.idle i).mpr (by rw [hc]; trivial)
      cases a with
      | ok =>
        cases hs
        refine .inl (h.callerStep rfl rfl rfl rfl rfl ?_ ?_ h.freed h.completed (fun i => ?_) nofun)
        · rw [hc]
          exact (Int.add_sub_cancel _ 1).symm
        · rw [hc]
          exact (Int.add_sub_cancel _ 1).symm
        · rw [hc]
          exact ⟨fun _ => trivial, fun _ => Nat.zero_le _⟩
      | noRequest =>
        cases hs
        exact .inr ⟨rfl, hnil, by change s.freed ≤ 1; omega, hidle⟩
      | noData =>
        cases hs
        exact .inr ⟨rfl, hnil, by change s.freed + 1 ≤ 1; omega, hidle⟩
    | caller =>
      cases hs
      exact .inl (h.caller hg)
    | go i =>
      cases hs
      exact .inl (h.go hg hin)
    | lock i r =>
      cases hs
      exact .inl (h.lock hg hin)
    | granted i =>
      cases hs
      exact .inl (h.granted hg)
    | ioEnd i e =>
      cases hs
      exact .inl (h.ioEnd e hg)
  · exact absurd hg (not_guard h.caller (fun i => .inl (h.idle i)) act)

/-- A call that is done right goes on until `compl_hndl` was called once: it
leaves less to do with every step, and stops only when it was answered. -/
theorem io_completes_once (io : Io) {s : State io.reqCount}
    (h : Reachable (system io InTime) (metadataIoIAsynch io.reqCount) s) :
    Once io s ∧ ∀ act s', guard io s act → step io s act = some s' → 0 ≤ s'.todo io ∧ s'.todo io < s.todo io := by
  have hinv : Inv io s ∨ Refused s := h.invariant (fun _ => .inl inv_init) fun _ _ _ hs _ hg hstep _ =>
    step_inv hs hg.1 hg.2 hstep
  rcases hinv with hinv | hinv
  · exact ⟨hinv.once (reqCount_pos io), fun act s' hg hs => ⟨todo_nonneg io s', hinv.step_todo hg hs⟩⟩
  · exact ⟨hinv.once, fun act s' hg _ => absurd hg (not_guard hinv.caller (fun i => .inl (hinv.idle i)) act)⟩

/-- A write of one page. -/
def writePage : Io := ⟨7, 1, Nat.one_pos, true, true, 4096, Nat.le_refl _⟩

/-- The sub-request of a write of one page. -/
def onlyReq : Fin writePage.reqCount := ⟨0, by decide⟩

/-- The page is locked, written and unlocked. -/
theorem io_completes_once_write : ∃ s : State writePage.reqCount,
    Reachable (system writePage InTime) (metadataIoIAsynch writePage.reqCount) s ∧
      s.completed = [0] ∧ s.transferred = [7] ∧ s.freed = 1 ∧ Once writePage s := by
  have h0 : Reachable (system writePage InTime) (metadataIoIAsynch writePage.reqCount)
      (metadataIoIAsynch writePage.reqCount) := .refl trivial
  have h1 := h0.next (.alloc .ok) ⟨rfl, trivial⟩ rfl
  have h2 := h1.next .caller ⟨rfl, trivial⟩ rfl
  have h3 := h2.next (.go onlyReq) ⟨rfl, nofun⟩ rfl
  have h4 := h3.next (.go onlyReq) ⟨rfl, nofun⟩ rfl
  have h5 := h4.next (.go onlyReq) ⟨rfl, nofun⟩ rfl
  have h6 := h5.next (.lock onlyReq .acquired) ⟨⟨rfl, trivial⟩, trivial⟩ rfl
  have h7 := h6.next (.go onlyReq) ⟨rfl, nofun⟩ rfl
  have h8 := h7.next .caller ⟨rfl, trivial⟩ rfl
  have h9 := h8.next .caller ⟨rfl, trivial⟩ rfl
  have h10 := h9.next .caller ⟨rfl, trivial⟩ rfl
  have h11 := h10.next (.ioEnd onlyReq 0) ⟨rfl, trivial⟩ rfl
  have h12 := h11.next (.go onlyReq) ⟨rfl, nofun⟩ rfl
  have h13 := h12.next (.go onlyReq) ⟨rfl, nofun⟩ rfl
  have h14 := h13.next (.go onlyReq) ⟨rfl, nofun⟩ rfl
  have h15 := h14.next (.go onlyReq) ⟨rfl, nofun⟩ rfl
  have h16 := h15.next (.go onlyReq) ⟨rfl, nofun⟩ rfl
  exact ⟨_, h16, rfl, rfl, rfl, (io_completes_once writePage h16).1⟩

/-- The page lock fails: the call returns success and is never answered. -/
theorem lock_error_not_answered : ∃ s : State writePage.reqCount,
    Reachable (system writePage fun _ _ => True) (metadataIoIAsynch writePage.reqCount) s ∧
      s.caller = .returned 0 ∧ s.completed = [] ∧ (∀ act, ¬guard writePage s act) ∧ ¬Once writePage s := by
  have h0 : Reachable (system writePage fun _ _ => True) (metadataIoIAsynch writePage.reqCount)
      (metadataIoIAsynch writePage.reqCount) := .refl trivial
  have h1 := h0.next (.alloc .ok) ⟨rfl, trivial⟩ rfl
  have h2 := h1.next .caller ⟨rfl, trivial⟩ rfl
  have h3 := h2.next (.go onlyReq) ⟨rfl, trivial⟩ rfl
  have h4 := h3.next (.go onlyReq) ⟨rfl, trivial⟩ rfl
  have h5 := h4.next (.go onlyReq) ⟨rfl, trivial⟩ rfl
  have h6 := h5.next (.lock onlyReq (.error errNoMem)) ⟨⟨rfl, rfl, by decide⟩, trivial⟩ rfl
  have h7 := h6.next (.go onlyReq) ⟨rfl, trivial⟩ rfl
  have h8 := h7.next .caller ⟨rfl, trivial⟩ rfl
  have h9 := h8.next .caller ⟨rfl, trivial⟩ rfl
  have h10 := h9.next .caller ⟨rfl, trivial⟩ rfl
  obtain ⟨s, hs, hcaller, hnil, hdone⟩ : ∃ s : State writePage.reqCount,
      Reachable (system writePage fun _ _ => True) (metadataIoIAsynch writePage.reqCount) s ∧
      s.caller = .returned 0 ∧ s.completed = [] ∧ (s.reqs onlyReq).pc = .done := ⟨_, h10, rfl, rfl, rfl⟩
  have hall : ∀ i, (s.reqs i).pc = .idle ∨ (s.reqs i).pc = .done := by
    intro i
    have heq : i = onlyReq := Fin.ext (by have hlt := i.isLt; change i.val < 1 at hlt; change i.val = 0; omega)
    rw [heq]
    exact .inr hdone
  have hnot := @not_guard writePage _ s _ hcaller hall
  refine ⟨s, hs, hcaller, hnil, hnot, fun honce => ?_⟩
  rcases honce.answered hnot with ⟨r, hr, hne⟩ | ⟨-, hlen, -⟩
  · rw [hcaller] at hr
    exact hne (Caller.returned.inj hr).symm
  · rw [hnil] at hlen
    cases hlen

end System

end OcfCache.MetadataIo
