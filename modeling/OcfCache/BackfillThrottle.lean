import Mathlib.Algebra.Ring.Nat
import OcfCache.Runs

/-!
# The throttle of the backfill queue

Embedding of `backfill_queue_inc_block` and `backfill_queue_dec_unblock` by any
number of read misses, with the test of the flag at the start of a read. Every
atomic operation on the counter or on the flag is a step. The counter has 32
bits, and is compared as an unsigned number.
-/

namespace OcfCache.BackfillThrottle

open Runs

/-- `backfill` of a cache, as `_ocf_mngt_cache_validate_cfg` accepts it. -/
structure Config where
  /-- `max_queue_size`. -/
  maxQueueSize : Nat
  /-- `queue_unblock_size`. -/
  queueUnblockSize : Nat
  /-- The check of the configuration. -/
  unblock_le : queueUnblockSize ≤ maxQueueSize
  /-- The sizes have 32 bits. -/
  max_lt : maxQueueSize < 2 ^ 32

/-- Where a read is. -/
inductive Place
  /-- The read has passed the test of the flag. -/
  | reading
  /-- `backfill_queue_inc_block` is about to set the flag. -/
  | block
  /-- The backfill is in progress. -/
  | backfilling
  /-- `backfill_queue_dec_unblock` is about to read the flag. -/
  | check
  /-- It is about to read the counter. -/
  | compare
  /-- It is about to clear the flag. -/
  | unblock
  /-- The backfill has completed. -/
  | done
  deriving DecidableEq

/-- The counter, the flag and the reads. -/
structure State where
  /-- `pending_read_misses_list_count`. -/
  count : Nat
  /-- `pending_read_misses_list_blocked`. -/
  blocked : Bool
  /-- The reads, in the order of their starts. -/
  reads : List Place

/-- A read or a step of one. -/
inductive Act
  /-- A read is not turned into a pass-through by `ocf_read_generic`. -/
  | read
  /-- A read goes on. -/
  | step (i : Nat)

section Code

variable (cfg : Config)

/-- The next atomic operation of a read: the counter, the flag and the place after
it. -/
def move (s : State) : Place → Option (Nat × Bool × Place)
  | .reading =>
    let count := (s.count + 1) % 2 ^ 32
    some (count, s.blocked, if cfg.maxQueueSize ≤ count then .block else .backfilling)
  | .block => some (s.count, true, .backfilling)
  | .backfilling => some ((s.count + 2 ^ 32 - 1) % 2 ^ 32, s.blocked, .check)
  | .check => some (s.count, s.blocked, if s.blocked = true then .compare else .done)
  | .compare => some (s.count, s.blocked, if s.count < cfg.queueUnblockSize then .unblock else .done)
  | .unblock => some (s.count, false, .done)
  | .done => none

/-- Effect of an action. -/
def step (s : State) : Act → Option State
  | .read => if s.blocked = true then none else some { s with reads := s.reads ++ [.reading] }
  | .step i => s.reads[i]?.bind fun p => (move cfg s p).map fun r => ⟨r.1, r.2.1, s.reads.set i r.2.2⟩

/-- The reads as a labelled system. -/
def system : System State Act := ⟨fun _ _ => True, step cfg⟩

/-- No read has started. -/
def initial : State := ⟨0, false, []⟩

end Code

/-- The backfill of a read has started and has not completed. -/
def Place.started : Place → Bool
  | .block => true
  | .backfilling => true
  | _ => false

/-- A read is inside one of the two functions. -/
def Place.inStep : Place → Bool
  | .block => true
  | .check => true
  | .compare => true
  | .unblock => true
  | _ => false

/-- Number of backfills that have started and not completed. -/
def State.pending (s : State) : Nat := s.reads.countP Place.started

/-- The number of backfills fits the counter. -/
def State.Fits (s : State) : Prop := s.pending < 2 ^ 32

/-- No read is inside one of the two functions. -/
def State.Still (s : State) : Prop := ∀ p ∈ s.reads, p.inStep = false

/-- The counter is the number of backfills, and without any the flag is clear. -/
def State.Settled (s : State) : Prop := s.count = s.pending ∧ (s.count = 0 → s.Still → s.blocked = false)

variable {cfg : Config} {s s' : State}

theorem step_cases {i : Nat} (h : step cfg s (.step i) = some s') : ∃ p q, s.reads[i]? = some p ∧
    move cfg s p = some (s'.count, s'.blocked, q) ∧ s'.reads = s.reads.set i q := by
  obtain ⟨p, hp, h⟩ := Option.bind_eq_some_iff.mp h
  obtain ⟨⟨count, blocked, q⟩, hr, rfl⟩ := Option.map_eq_some_iff.mp h
  exact ⟨p, q, hp, hr, rfl⟩

theorem pending_set {i : Nat} {p q : Place} (hp : s.reads[i]? = some p) (hs : s'.reads = s.reads.set i q) :
    s'.pending + (if p.started = true then 1 else 0) = s.pending + if q.started = true then 1 else 0 := by
  obtain ⟨hi, heq⟩ := List.getElem?_eq_some_iff.mp hp
  have hset := List.countP_set (p := Place.started) (a := q) hi
  have hpos : p.started = true → 0 < s.pending := by
    intro hstart
    exact List.countP_pos_iff.mpr ⟨p, List.mem_of_getElem? hp, hstart⟩
  unfold State.pending at hpos ⊢
  rw [hs, hset, heq]
  by_cases hstart : p.started = true
  · have hlt := hpos hstart
    rw [if_pos hstart]
    omega
  · rw [if_neg hstart]
    omega

theorem move_count {p q : Place} {count : Nat} {blocked : Bool} (h : move cfg s p = some (count, blocked, q)) :
    p.started = q.started ∧ count = s.count ∨
      p.started = false ∧ q.started = true ∧ count = (s.count + 1) % 2 ^ 32 ∨
      p.started = true ∧ q.started = false ∧ count = (s.count + 2 ^ 32 - 1) % 2 ^ 32 := by
  cases p with
  | reading =>
    have heq := Option.some.inj h
    have hcount : (s.count + 1) % 2 ^ 32 = count := congrArg Prod.fst heq
    have hq : (if cfg.maxQueueSize ≤ (s.count + 1) % 2 ^ 32 then Place.block else .backfilling) = q :=
      congrArg (fun r => r.2.2) heq
    refine .inr (.inl ⟨rfl, ?_, hcount.symm⟩)
    rw [← hq]
    split <;> rfl
  | backfilling =>
    have heq := Option.some.inj h
    have hq : Place.check = q := congrArg (fun r => r.2.2) heq
    exact .inr (.inr ⟨rfl, hq ▸ rfl, (congrArg Prod.fst heq).symm⟩)
  | check =>
    have heq := Option.some.inj h
    have hq : (if s.blocked = true then Place.compare else .done) = q := congrArg (fun r => r.2.2) heq
    refine .inl ⟨?_, (congrArg Prod.fst heq).symm⟩
    rw [← hq]
    split <;> rfl
  | compare =>
    have heq := Option.some.inj h
    have hq : (if s.count < cfg.queueUnblockSize then Place.unblock else .done) = q := congrArg (fun r => r.2.2) heq
    refine .inl ⟨?_, (congrArg Prod.fst heq).symm⟩
    rw [← hq]
    split <;> rfl
  | block =>
    have heq := Option.some.inj h
    have hq : Place.backfilling = q := congrArg (fun r => r.2.2) heq
    exact .inl ⟨hq ▸ rfl, (congrArg Prod.fst heq).symm⟩
  | unblock =>
    have heq := Option.some.inj h
    have hq : Place.done = q := congrArg (fun r => r.2.2) heq
    exact .inl ⟨hq ▸ rfl, (congrArg Prod.fst heq).symm⟩
  | done => exact absurd h nofun

/-- The counter is the number of backfills, as far as it fits. -/
def State.Counted (s : State) : Prop := s.count = s.pending % 2 ^ 32

/-- A read is in its backfill, or about to clear the flag if it finds it set. -/
def Place.live : Place → Bool
  | .reading => false
  | .done => false
  | _ => true

/-- While the flag is set, some read will find it. -/
def State.Watched (s : State) : Prop := s.blocked = true → ∃ p ∈ s.reads, p.live = true

theorem pending_read (s : State) : State.pending { s with reads := s.reads ++ [.reading] } = s.pending := by
  simp [State.pending, Place.started]

theorem State.Counted.step (h : s.Counted) {a : Act} (hs : step cfg s a = some s') : s'.Counted := by
  cases a with
  | read =>
    obtain ⟨-, heq⟩ := Option.ite_none_left_eq_some.mp hs
    obtain rfl := Option.some.inj heq
    exact h.trans (congrArg (· % 2 ^ 32) (pending_read s).symm)
  | step i =>
    obtain ⟨p, q, hp, hmove, hreads⟩ := step_cases hs
    have hpending := pending_set hp hreads
    unfold State.Counted at h ⊢
    obtain ⟨hsame, hcount⟩ | ⟨hfrom, hto, hcount⟩ | ⟨hfrom, hto, hcount⟩ := move_count hmove
    · rw [hsame] at hpending
      omega
    · rw [hfrom, hto] at hpending
      simp only [Bool.false_eq_true, if_false, if_true] at hpending
      omega
    · rw [hfrom, hto] at hpending
      simp only [Bool.false_eq_true, if_false, if_true] at hpending
      omega

theorem counted (h : Reachable (system cfg) initial s) : s.Counted :=
  h.invariant (fun _ => (rfl : initial.Counted)) fun _ _ _ hinv _ _ hs _ => hinv.step hs

theorem live_of_started {p : Place} (h : p.started = true) : p.live = true := by
  cases p with
  | block => rfl
  | backfilling => rfl
  | _ => exact absurd h nofun

/-- After any step some read will find the flag that is set. -/
theorem State.Watched.step (h : s.Watched) (hcounted : s.Counted) (hpos : 0 < cfg.queueUnblockSize) {a : Act}
    (hs : step cfg s a = some s') : s'.Watched := by
  cases a with
  | read =>
    obtain ⟨-, heq⟩ := Option.ite_none_left_eq_some.mp hs
    obtain rfl := Option.some.inj heq
    intro hblocked
    obtain ⟨p, hp, hlive⟩ := h hblocked
    exact ⟨p, List.mem_append_left _ hp, hlive⟩
  | step i =>
    obtain ⟨p, q, hp, hmove, hreads⟩ := step_cases hs
    obtain ⟨hi, hget⟩ := List.getElem?_eq_some_iff.mp hp
    intro hblocked
    -- the read that went on is live itself, or another one is
    have hself : q.live = true → ∃ p ∈ s'.reads, p.live = true := by
      intro hlive
      rw [hreads]
      exact ⟨q, List.mem_set hi q, hlive⟩
    cases p with
    | reading =>
      have hq : (if cfg.maxQueueSize ≤ (s.count + 1) % 2 ^ 32 then Place.block else .backfilling) = q :=
        congrArg (fun r => r.2.2) (Option.some.inj hmove)
      refine hself ?_
      rw [← hq]
      split <;> rfl
    | block =>
      have hq : Place.backfilling = q := congrArg (fun r => r.2.2) (Option.some.inj hmove)
      exact hself (hq ▸ rfl)
    | backfilling =>
      have hq : Place.check = q := congrArg (fun r => r.2.2) (Option.some.inj hmove)
      exact hself (hq ▸ rfl)
    | check =>
      have hsame : s.blocked = s'.blocked := congrArg (fun r => r.2.1) (Option.some.inj hmove)
      have hq : (if s.blocked = true then Place.compare else .done) = q :=
        congrArg (fun r => r.2.2) (Option.some.inj hmove)
      rw [if_pos (hsame.trans hblocked)] at hq
      exact hself (hq ▸ rfl)
    | compare =>
      have hq : (if s.count < cfg.queueUnblockSize then Place.unblock else .done) = q :=
        congrArg (fun r => r.2.2) (Option.some.inj hmove)
      by_cases hlt : s.count < cfg.queueUnblockSize
      · rw [if_pos hlt] at hq
        exact hself (hq ▸ rfl)
      · -- the counter is not zero, so some backfill is in progress
        have hpending : 0 < s.pending := by
          unfold State.Counted at hcounted
          omega
        have hsame := pending_set hp hreads
        have hstill : 0 < s'.pending := by
          simp only [Place.started, Bool.false_eq_true, if_false] at hsame
          omega
        obtain ⟨r, hr, hstarted⟩ := List.countP_pos_iff.mp hstill
        exact ⟨r, hr, live_of_started hstarted⟩
    | unblock =>
      have hclear : false = s'.blocked := congrArg (fun r => r.2.1) (Option.some.inj hmove)
      exact absurd (hclear.trans hblocked) nofun
    | done => exact absurd hmove nofun

theorem watched (hpos : 0 < cfg.queueUnblockSize) (h : Reachable (system cfg) initial s) : s.Watched := by
  have hboth : ∀ s, Reachable (system cfg) initial s → s.Watched ∧ s.Counted := by
    intro s h
    induction h with
    | refl _ => exact ⟨nofun, rfl⟩
    | snoc _ _ hs _ ih => exact ⟨ih.1.step ih.2 hpos hs, ih.2.step hs⟩
  exact (hboth s h).1

theorem settled (hpos : 0 < cfg.queueUnblockSize) (h : Reachable (system cfg) initial s) (hfits : s.Fits) :
    s.Settled := by
  have hcount : s.count = s.pending := (counted h).trans (Nat.mod_eq_of_lt hfits)
  refine ⟨hcount, fun hzero hstill => ?_⟩
  by_contra hblocked
  obtain ⟨p, hp, hlive⟩ := watched hpos h (Bool.not_eq_false _ ▸ hblocked)
  have hnone := List.countP_eq_zero.mp (hcount.symm.trans hzero) p hp
  have hout := hstill p hp
  cases p with
  | backfilling => exact hnone rfl
  | reading => exact absurd hlive nofun
  | done => exact absurd hlive nofun
  | _ => exact absurd hout nofun

theorem next_read {count : Nat} {reads : List Place} (h : Reachable (system cfg) initial ⟨count, false, reads⟩) :
    Reachable (system cfg) initial ⟨count, false, reads ++ [.reading]⟩ :=
  h.next .read trivial rfl

theorem next_middle {as bs : List Place} {p q : Place} {count count' : Nat} {blocked blocked' : Bool}
    (h : Reachable (system cfg) initial ⟨count, blocked, as ++ p :: bs⟩)
    (hmove : move cfg ⟨count, blocked, as ++ p :: bs⟩ p = some (count', blocked', q)) :
    Reachable (system cfg) initial ⟨count', blocked', as ++ q :: bs⟩ := by
  refine h.next (.step as.length) trivial ?_
  have hget : (as ++ p :: bs)[as.length]? = some p := by simp
  have hset : (as ++ p :: bs).set as.length q = as ++ q :: bs := by simp
  simp only [system, step, hget, Option.bind_some, hmove, Option.map_some, hset]

theorem reach_backfilling {n : Nat} (hn : n < cfg.maxQueueSize) :
    Reachable (system cfg) initial ⟨n, false, List.replicate n .backfilling⟩ := by
  induction n with
  | zero => exact .refl trivial
  | succ n ih =>
    have hlt := cfg.max_lt
    have hmod : (n + 1) % 2 ^ 32 = n + 1 := Nat.mod_eq_of_lt (by omega)
    have hread := next_read (ih (by omega))
    have hmove : move cfg ⟨n, false, List.replicate n .backfilling ++ [.reading]⟩ .reading =
        some (n + 1, false, .backfilling) := by
      unfold move
      simp only [hmod, if_neg (Nat.not_le.mpr hn)]
    have hnext := next_middle hread hmove
    rwa [← List.replicate_succ'] at hnext

theorem reach_done (hzero : cfg.queueUnblockSize = 0) {m n : Nat} (hfits : n + m < 2 ^ 32)
    (h : Reachable (system cfg) initial ⟨n + m, true, List.replicate (n + m) .backfilling⟩) :
    Reachable (system cfg) initial ⟨n, true, List.replicate m .done ++ List.replicate n .backfilling⟩ := by
  induction m generalizing n with
  | zero => exact h
  | succ m ih =>
    have hsum : n + (m + 1) = n + 1 + m := by omega
    rw [hsum] at h hfits
    have hprev := ih hfits h
    have hmod : (n + 1 + 2 ^ 32 - 1) % 2 ^ 32 = n := by omega
    have hdec : ∀ rest : List Place, move cfg ⟨n + 1, true, rest⟩ .backfilling = some (n, true, .check) := by
      intro rest
      unfold move
      simp only [hmod]
    have hcheck : ∀ rest : List Place, move cfg ⟨n, true, rest⟩ .check = some (n, true, .compare) := fun rest => rfl
    have hcompare : ∀ rest : List Place, move cfg ⟨n, true, rest⟩ .compare = some (n, true, .done) := by
      intro rest
      unfold move
      simp only [hzero, Nat.not_lt_zero, if_false]
    have h1 := next_middle hprev (hdec _)
    have h2 := next_middle h1 (hcheck _)
    have h3 := next_middle h2 (hcompare _)
    rwa [List.append_cons, ← List.replicate_succ'] at h3

theorem sticks (hzero : cfg.queueUnblockSize = 0) :
    ∃ s, Reachable (system cfg) initial s ∧ s.Fits ∧ ¬s.Settled := by
  obtain ⟨n, hn⟩ : ∃ n, n = cfg.maxQueueSize - 1 := ⟨_, rfl⟩
  have hlt := cfg.max_lt
  have hmod : (n + 1) % 2 ^ 32 = n + 1 := Nat.mod_eq_of_lt (by omega)
  have hstart : Reachable (system cfg) initial ⟨n, false, List.replicate n .backfilling⟩ := by
    by_cases hmax : cfg.maxQueueSize = 0
    · obtain rfl : n = 0 := by omega
      exact .refl trivial
    · exact reach_backfilling (by omega)
  have hread := next_read hstart
  have hinc : move cfg ⟨n, false, List.replicate n .backfilling ++ [.reading]⟩ .reading =
      some (n + 1, false, .block) := by
    unfold move
    simp only [hmod, if_pos (show cfg.maxQueueSize ≤ n + 1 by omega)]
  have hset : move cfg ⟨n + 1, false, List.replicate n .backfilling ++ [.block]⟩ .block =
      some (n + 1, true, .backfilling) := rfl
  have h1 := next_middle hread hinc
  have h2 := next_middle h1 hset
  rw [← List.replicate_succ'] at h2
  have hdone := reach_done hzero (n := 0) (m := n + 1) (by omega) (by rwa [Nat.zero_add])
  rw [List.replicate_zero, List.append_nil] at hdone
  refine ⟨_, hdone, ?_, fun hsettled => ?_⟩
  · have hnone : State.pending ⟨0, true, List.replicate (n + 1) .done⟩ = 0 := by
      refine List.countP_eq_zero.mpr fun p hp => ?_
      rw [List.eq_of_mem_replicate hp]
      exact nofun
    unfold State.Fits
    omega
  · have hclear := hsettled.2 rfl fun p hp => by rw [List.eq_of_mem_replicate hp]; rfl
    exact absurd hclear nofun

/-- The throttle counts the backfills, and never sticks if and only if the unblock
size is positive. -/
theorem throttle_settles_iff (cfg : Config) :
    (∀ s, Reachable (system cfg) initial s → s.Fits → s.Settled) ↔ 0 < cfg.queueUnblockSize := by
  constructor
  · intro hall
    by_contra hzero
    obtain ⟨s, hs, hfits, hnot⟩ := sticks (Nat.eq_zero_of_not_pos hzero)
    exact hnot (hall s hs hfits)
  · exact fun hpos s hs hfits => settled hpos hs hfits

theorem oneMiss_sizes : 0 ≤ 1 ∧ 1 < 2 ^ 32 := by decide

/-- A queue of one backfill that is never unblocked. -/
def oneMiss : Config := ⟨1, 0, oneMiss_sizes.1, oneMiss_sizes.2⟩

/-- After one backfill all reads are passed through. -/
theorem throttle_sticks_oneMiss : ¬∀ s, Reachable (system oneMiss) initial s → s.Settled := by
  intro hall
  obtain ⟨s, hs, -, hnot⟩ := @sticks oneMiss rfl
  exact hnot (hall s hs)

end OcfCache.BackfillThrottle
