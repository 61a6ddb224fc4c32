import Mathlib.Data.Finset.Card
import OcfCache.HashLock

/-!
# Runs of the hash bucket lock

The holders of the bucket form an abstract readers-writer lock. The word is its
image: the reader counter is the number of readers, the writer bit tells whether
there is a writer, and the head is the line that was set last. A thread between
its read and its compare-and-swap relies on the word alone, and one between a
load and a plain store is the only one that may change the word.
-/

namespace OcfCache.HashLock

open Runs

/-- A readers-writer lock: who has it. -/
structure Holders where
  /-- The readers. -/
  readers : Finset Nat
  /-- The writer. -/
  writer : Option Nat
  /-- A writer is alone. -/
  alone : writer.isSome = true → readers = ∅

/-- The holders of the bucket are these, and the word agrees. -/
structure Counted (s : State) (h : Holders) : Prop where
  /-- Who reads. -/
  reader : ∀ t, t ∈ h.readers ↔ (s.pc t).holding = some .rd
  /-- Who writes. -/
  writer : ∀ t, h.writer = some t ↔ (s.pc t).holding = some .wr
  /-- The counter. -/
  rd : s.entry.rd.toNat = h.readers.card
  /-- The writer bit. -/
  wr : s.entry.wr = 1#1 ↔ h.writer.isSome = true

/-- What a thread at some place knows of the word. -/
def PcOk (entry : HashEntry) : Pc → Prop
  | .swapping _ rw curline newline => lockWord rw curline = some newline
  | .storing line word => word = entry ∧ line.toNat < 2 ^ 29
  | .clearing newline => newline = { entry with wr := 0#1 }
  | .dropping curline newline => curline.wr ≠ 1#1 ∧ newline = { curline with rd := curline.rd - 1#2 }
  | _ => True

/-- The invariant of the bucket. -/
structure Inv (s : State) : Prop where
  /-- The word counts the holders. -/
  counted : ∃ h, Counted s h
  /-- Every thread's copy of the word is of use. -/
  local_ok : ∀ t, PcOk s.entry (s.pc t)
  /-- The head was set last. -/
  head : s.entry.line.toNat = s.set.toNat

/-- What one step of a thread does to the word. -/
inductive Effect (s s' : State) (t : Nat) : Prop
  /-- The word stays, and so does what the thread holds. -/
  | quiet (hword : s'.entry = s.entry) (hset : s'.set = s.set)
      (hhold : (s'.pc t).holding = (s.pc t).holding)
  /-- A reader comes in. -/
  | readLock (hout : (s.pc t).holding = none) (hfree : s.entry.wr ≠ 1#1)
      (hroom : s.entry.rd + 1#2 ≠ 0#2) (hword : s'.entry = { s.entry with rd := s.entry.rd + 1#2 })
      (hset : s'.set = s.set) (hin : (s'.pc t).holding = some .rd)
  /-- A writer comes in. -/
  | writeLock (hout : (s.pc t).holding = none) (hfree : s.entry.wr ≠ 1#1) (hempty : s.entry.rd = 0#2)
      (hword : s'.entry = { s.entry with wr := 1#1 }) (hset : s'.set = s.set)
      (hin : (s'.pc t).holding = some .wr)
  /-- The writer sets the head. -/
  | setHead (line : BitVec 32) (hline : line.toNat < 2 ^ 29) (hold : (s.pc t).holding = some .wr)
      (hword : s'.entry = { s.entry with line := line.setWidth 29 }) (hset : s'.set = line)
      (hin : (s'.pc t).holding = some .wr)
  /-- The writer leaves. -/
  | writeUnlock (hold : (s.pc t).holding = some .wr) (hword : s'.entry = { s.entry with wr := 0#1 })
      (hset : s'.set = s.set) (hout : (s'.pc t).holding = none)
  /-- A reader leaves. -/
  | readUnlock (hold : (s.pc t).holding = some .rd)
      (hword : s'.entry = { s.entry with rd := s.entry.rd - 1#2 }) (hset : s'.set = s.set)
      (hout : (s'.pc t).holding = none)

section Words

theorem rd_succ {rd : BitVec 2} (h : rd + 1#2 ≠ 0#2) : (rd + 1#2).toNat = rd.toNat + 1 := by
  have hlt := rd.isLt
  have hne : ¬ (rd + 1#2).toNat = 0 := by
    intro h0
    exact h (BitVec.eq_of_toNat_eq h0)
  rw [BitVec.toNat_add, BitVec.toNat_ofNat] at hne ⊢
  omega

theorem rd_pred {rd : BitVec 2} (h : rd.toNat ≠ 0) : (rd - 1#2).toNat + 1 = rd.toNat := by
  have hlt := rd.isLt
  rw [BitVec.toNat_sub, BitVec.toNat_ofNat]
  omega

theorem line_lt {device : Device} {line : BitVec 32} (h : ¬ line > device.collisionTableEntries) :
    line.toNat < 2 ^ 29 := by
  have hfits := device.fits
  have hle : ¬ device.collisionTableEntries.toNat < line.toNat := h
  omega

theorem lockWord_rd {curline newline : HashEntry} (h : lockWord .rd curline = some newline) :
    curline.wr ≠ 1#1 ∧ curline.rd + 1#2 ≠ 0#2 ∧ newline = { curline with rd := curline.rd + 1#2 } := by
  unfold lockWord at h
  by_cases hwr : curline.wr = 1#1
  · rw [if_pos hwr] at h
    exact nomatch h
  · rw [if_neg hwr] at h
    by_cases hrd : curline.rd + 1#2 = 0#2
    · rw [if_pos hrd] at h
      exact nomatch h
    · rw [if_neg hrd] at h
      exact ⟨hwr, hrd, (Option.some.inj h).symm⟩

theorem lockWord_wr {curline newline : HashEntry} (h : lockWord .wr curline = some newline) :
    curline.wr ≠ 1#1 ∧ curline.rd = 0#2 ∧ newline = { curline with wr := 1#1 } := by
  unfold lockWord at h
  by_cases hwr : curline.wr = 1#1
  · rw [if_pos hwr] at h
    exact nomatch h
  · rw [if_neg hwr] at h
    simp only at h
    by_cases hrd : curline.rd = 0#2
    · rw [if_neg (fun hne => hne hrd)] at h
      exact ⟨hwr, hrd, (Option.some.inj h).symm⟩
    · rw [if_pos hrd] at h
      exact nomatch h

theorem cmpxchg_true {word old new entry : HashEntry} (h : cmpxchg word old new = (entry, true)) :
    word = old ∧ entry = new := by
  unfold cmpxchg at h
  by_cases hraw : word.raw = old.raw
  · rw [if_pos hraw] at h
    exact ⟨HashEntry.raw_inj hraw, (congrArg Prod.fst h).symm⟩
  · rw [if_neg hraw] at h
    exact nomatch congrArg Prod.snd h

end Words

section Moving

variable {s : State} {t u : Nat} {q : Pc}

@[simp] theorem goto_self : (s.goto t q).pc t = q := by
  simp [State.goto]

theorem goto_other (h : u ≠ t) : (s.goto t q).pc u = s.pc u := by
  simp [State.goto, h]

theorem retry_holding (once : Bool) (rw : Rw) : ((s.retry t once rw).pc t).holding = none := by
  unfold State.retry
  rw [goto_self]
  cases once <;> rfl

theorem retry_ok (entry : HashEntry) (once : Bool) (rw : Rw) :
    PcOk entry ((s.retry t once rw).pc t) := by
  unfold State.retry
  rw [goto_self]
  cases once <;> trivial

end Moving

section Counting

variable {s : State} {t : Nat} {h : Holders}

section

variable (hc : Counted s h)
include hc

theorem Counted.reader_word (ht : (s.pc t).holding = some .rd) :
    s.entry.wr ≠ 1#1 ∧ s.entry.rd.toNat ≠ 0 := by
  have hmem : t ∈ h.readers := (hc.reader t).mpr ht
  have hcard : 0 < h.readers.card := Finset.card_pos.mpr ⟨t, hmem⟩
  have hrd := hc.rd
  constructor
  · intro hwr
    have hempty := h.alone (hc.wr.mp hwr)
    rw [hempty] at hmem
    exact absurd hmem (Finset.notMem_empty t)
  · omega

theorem Counted.writer_word (ht : (s.pc t).holding = some .wr) : s.entry.wr = 1#1 := by
  have hw := (hc.writer t).mpr ht
  apply hc.wr.mpr
  rw [hw]
  rfl

theorem Counted.writer_unique {u : Nat} (ht : (s.pc t).holding = some .wr)
    (hu : (s.pc u).holding = some .wr) : t = u := by
  have h1 := (hc.writer t).mpr ht
  have h2 := (hc.writer u).mpr hu
  rw [h1] at h2
  exact Option.some.inj h2

theorem Counted.no_writer (hwr : s.entry.wr ≠ 1#1) : h.writer = none := by
  cases hw : h.writer with
  | none => rfl
  | some v =>
    refine absurd (hc.wr.mpr ?_) hwr
    rw [hw]
    rfl

theorem Counted.no_reader (hrd : s.entry.rd.toNat = 0) : h.readers = ∅ := by
  have hcard := hc.rd
  exact Finset.card_eq_zero.mp (by omega)

theorem Counted.moved {s' : State} {h' : Holders} (hframe : ∀ u, u ≠ t → s'.pc u = s.pc u)
    (hreaders : ∀ u, u ≠ t → (u ∈ h'.readers ↔ u ∈ h.readers))
    (hwriter : ∀ u, u ≠ t → (h'.writer = some u ↔ h.writer = some u))
    (hread : t ∈ h'.readers ↔ (s'.pc t).holding = some .rd)
    (hwrite : h'.writer = some t ↔ (s'.pc t).holding = some .wr)
    (hrd : s'.entry.rd.toNat = h'.readers.card)
    (hwr : s'.entry.wr = 1#1 ↔ h'.writer.isSome = true) : Counted s' h' := by
  refine ⟨?_, ?_, hrd, hwr⟩
  · intro u
    by_cases hu : u = t
    · rw [hu]
      exact hread
    · rw [hreaders u hu, hframe u hu]
      exact hc.reader u
  · intro u
    by_cases hu : u = t
    · rw [hu]
      exact hwrite
    · rw [hwriter u hu, hframe u hu]
      exact hc.writer u

theorem Counted.kept {s' : State} (hframe : ∀ u, u ≠ t → s'.pc u = s.pc u)
    (hhold : (s'.pc t).holding = (s.pc t).holding) (hrd : s'.entry.rd = s.entry.rd)
    (hwr : s'.entry.wr = s.entry.wr) : Counted s' h := by
  apply hc.moved hframe
  · intro u hu
    rfl
  · intro u hu
    rfl
  · rw [hhold]
    exact hc.reader t
  · rw [hhold]
    exact hc.writer t
  · rw [hrd]
    exact hc.rd
  · rw [hwr]
    exact hc.wr

/-- A step keeps the word of the lock. -/
theorem Counted.step {s' : State} (hframe : ∀ u, u ≠ t → s'.pc u = s.pc u)
    (he : Effect s s' t) : ∃ h', Counted s' h' := by
  cases he with
  | quiet hword hset hhold =>
    exact ⟨h, hc.kept hframe hhold (by rw [hword]) (by rw [hword])⟩
  | setHead line hline hold hword hset hin =>
    have hhold : (s'.pc t).holding = (s.pc t).holding := by rw [hin, hold]
    exact ⟨h, hc.kept hframe hhold (by rw [hword]) (by rw [hword])⟩
  | readLock hout hfree hroom hword hset hin =>
    have hnone := hc.no_writer hfree
    have hmem : t ∉ h.readers := by
      intro hmem
      rw [(hc.reader t).mp hmem] at hout
      exact nomatch hout
    have hcard := Finset.card_insert_of_notMem hmem
    have hrd := hc.rd
    have hsucc := rd_succ hroom
    refine ⟨⟨insert t h.readers, none, nofun⟩, hc.moved hframe ?_ ?_ ?_ ?_ ?_ ?_⟩
    · intro u hu
      simp [hu]
    · intro u hu
      rw [hnone]
    · simp [hin]
    · simp [hin]
    · rw [hword]
      change (s.entry.rd + 1#2).toNat = (insert t h.readers).card
      omega
    · rw [hword]
      simp [hfree]
  | writeLock hout hfree hempty hword hset hin =>
    have hnone := hc.no_writer hfree
    have hzero : s.entry.rd.toNat = 0 := by
      rw [hempty]
      rfl
    have hreaders := hc.no_reader hzero
    refine ⟨⟨∅, some t, fun _ => rfl⟩, hc.moved hframe ?_ ?_ ?_ ?_ ?_ ?_⟩
    · intro u hu
      rw [hreaders]
    · intro u hu
      simp [hnone, Ne.symm hu]
    · simp [hin]
    · simp [hin]
    · rw [hword]
      exact hzero
    · simp [hword]
  | writeUnlock hold hword hset hout =>
    have hwriter := (hc.writer t).mpr hold
    have hreaders : h.readers = ∅ := h.alone (by rw [hwriter]; rfl)
    have hrd := hc.rd
    rw [hreaders] at hrd
    refine ⟨⟨∅, none, nofun⟩, hc.moved hframe ?_ ?_ ?_ ?_ ?_ ?_⟩
    · intro u hu
      rw [hreaders]
    · intro u hu
      simp [hwriter, Ne.symm hu]
    · simp [hout]
    · simp [hout]
    · rw [hword]
      exact hrd
    · simp [hword]
  | readUnlock hold hword hset hout =>
    obtain ⟨hfree, hpos⟩ := hc.reader_word hold
    have hnone := hc.no_writer hfree
    have hmem := (hc.reader t).mpr hold
    have hcard := Finset.card_erase_of_mem hmem
    have hrd := hc.rd
    have hpred := rd_pred hpos
    refine ⟨⟨h.readers.erase t, none, nofun⟩, hc.moved hframe ?_ ?_ ?_ ?_ ?_ ?_⟩
    · intro u hu
      simp [hu]
    · intro u hu
      rw [hnone]
    · simp [hout]
    · simp [hout]
    · rw [hword]
      change (s.entry.rd - 1#2).toNat = (h.readers.erase t).card
      omega
    · rw [hword]
      simp [hfree]

end

end Counting

section Steps

variable {s s' : State} {t : Nat}

theorem runThread_other {u : Nat} (hu : u ≠ t) : (runThread s t).pc u = s.pc u := by
  unfold runThread
  split
  · split
    · exact goto_other hu
    · exact goto_other hu
  · split
    · exact goto_other hu
    · exact goto_other hu
  · exact goto_other hu
  · exact goto_other hu
  · exact goto_other hu
  · split
    · exact goto_other hu
    · exact goto_other hu
  · rfl

theorem pcOk_congr {entry entry' : HashEntry} {q : Pc} (h : PcOk entry q)
    (hwriter : q.holding = some .wr → entry' = entry) : PcOk entry' q := by
  cases q with
  | storing line word =>
    rw [hwriter rfl]
    exact h
  | clearing newline =>
    rw [hwriter rfl]
    exact h
  | _ => exact h

theorem Effect.word_of_writer {h : Holders} (he : Effect s s' t) (hc : Counted s h) {u : Nat}
    (hne : u ≠ t) (hu : (s.pc u).holding = some .wr) : s'.entry = s.entry := by
  have hword := hc.writer_word hu
  cases he with
  | quiet hsame hset hhold => exact hsame
  | readLock hout hfree hroom hnew hset hin => exact absurd hword hfree
  | writeLock hout hfree hempty hnew hset hin => exact absurd hword hfree
  | setHead line hline hold hnew hset hin => exact absurd (hc.writer_unique hu hold) hne
  | writeUnlock hold hnew hset hout => exact absurd (hc.writer_unique hu hold) hne
  | readUnlock hold hnew hset hout => exact absurd hword (hc.reader_word hold).1

theorem Effect.head (he : Effect s s' t) (h : s.entry.line.toNat = s.set.toNat) :
    s'.entry.line.toNat = s'.set.toNat := by
  cases he with
  | quiet hsame hset hhold => rw [hsame, hset, h]
  | readLock hout hfree hroom hnew hset hin => rw [hnew, hset, h]
  | writeLock hout hfree hempty hnew hset hin => rw [hnew, hset, h]
  | setHead line hline hold hnew hset hin =>
    rw [hnew, hset, BitVec.toNat_setWidth]
    exact Nat.mod_eq_of_lt hline
  | writeUnlock hold hnew hset hout => rw [hnew, hset, h]
  | readUnlock hold hnew hset hout => rw [hnew, hset, h]

theorem Inv.of_effect (hinv : Inv s) (hframe : ∀ u, u ≠ t → s'.pc u = s.pc u)
    (he : Effect s s' t) (hok : PcOk s'.entry (s'.pc t)) : Inv s' := by
  obtain ⟨h, hc⟩ := hinv.counted
  refine ⟨hc.step hframe he, ?_, he.head hinv.head⟩
  intro u
  by_cases hu : u = t
  · rw [hu]
    exact hok
  · rw [hframe u hu]
    exact pcOk_congr (hinv.local_ok u) (he.word_of_writer hc hu)

theorem Effect.move {q : Pc} (h : q.holding = (s.pc t).holding) : Effect s (s.goto t q) t := by
  refine .quiet rfl rfl ?_
  rw [goto_self, h]

theorem Effect.again {once : Bool} {rw : Rw} (h : (s.pc t).holding = none) :
    Effect s (s.retry t once rw) t := by
  refine .quiet rfl rfl ?_
  rw [retry_holding, h]

theorem Effect.lock {rw : Rw} {newline : HashEntry} (hpc : (s.pc t).holding = none)
    (hword : lockWord rw s.entry = some newline) :
    Effect s ({ s with entry := newline }.goto t (.locked rw)) t := by
  have hin : (({ s with entry := newline }.goto t (.locked rw)).pc t).holding = some rw := by
    rw [goto_self]
    rfl
  cases rw with
  | rd =>
    obtain ⟨hfree, hroom, hnew⟩ := lockWord_rd hword
    exact .readLock hpc hfree hroom hnew rfl hin
  | wr =>
    obtain ⟨hfree, hempty, hnew⟩ := lockWord_wr hword
    exact .writeLock hpc hfree hempty hnew rfl hin

theorem runThread_effect (hinv : Inv s) :
    Effect s (runThread s t) t ∧ PcOk (runThread s t).entry ((runThread s t).pc t) := by
  obtain ⟨h, hc⟩ := hinv.counted
  have hok := hinv.local_ok t
  unfold runThread
  cases hpc : s.pc t with
  | locking once rw =>
    have hout : (s.pc t).holding = none := by rw [hpc]; rfl
    simp only
    cases hw : lockWord rw s.entry with
    | some newline =>
      refine ⟨.move hout.symm, ?_⟩
      rw [goto_self]
      exact hw
    | none => exact ⟨.again hout, retry_ok _ once rw⟩
  | swapping once rw curline newline =>
    have hout : (s.pc t).holding = none := by rw [hpc]; rfl
    rw [hpc] at hok
    simp only
    cases hx : cmpxchg s.entry curline newline with
    | mk entry done =>
      cases done with
      | true =>
        obtain ⟨hold, hnew⟩ := cmpxchg_true hx
        have hword : lockWord rw s.entry = some entry := by
          rw [hold, hnew]
          exact hok
        refine ⟨.lock hout hword, ?_⟩
        rw [goto_self]
        trivial
      | false => exact ⟨.again hout, retry_ok _ once rw⟩
  | storing line word =>
    have hold : (s.pc t).holding = some .wr := by rw [hpc]; rfl
    rw [hpc] at hok
    obtain ⟨hword, hline⟩ := hok
    constructor
    · refine .setHead line hline hold ?_ rfl ?_
      · rw [hword]
        rfl
      · rw [goto_self]
        rfl
    · rw [goto_self]
      trivial
  | unlocking rw =>
    have hold : (s.pc t).holding = some rw := by rw [hpc]; rfl
    simp only [unlockRead]
    cases rw with
    | wr =>
      have hwr := hc.writer_word hold
      rw [if_pos hwr]
      refine ⟨.move hold.symm, ?_⟩
      rw [goto_self]
      exact rfl
    | rd =>
      have hwr := (hc.reader_word hold).1
      rw [if_neg hwr]
      refine ⟨.move hold.symm, ?_⟩
      rw [goto_self]
      exact ⟨hwr, rfl⟩
  | clearing newline =>
    have hold : (s.pc t).holding = some .wr := by rw [hpc]; rfl
    rw [hpc] at hok
    constructor
    · refine .writeUnlock hold hok rfl ?_
      rw [goto_self]
      rfl
    · rw [goto_self]
      trivial
  | dropping curline newline =>
    have hold : (s.pc t).holding = some .rd := by rw [hpc]; rfl
    rw [hpc] at hok
    simp only
    cases hx : cmpxchg s.entry curline newline with
    | mk entry done =>
      cases done with
      | true =>
        obtain ⟨hcur, hnew⟩ := cmpxchg_true hx
        constructor
        · refine .readUnlock hold ?_ rfl ?_
          · change entry = _
            rw [hnew, hok.2, hcur]
          · rw [goto_self]
            rfl
        · rw [goto_self]
          trivial
      | false =>
        refine ⟨.move hold.symm, ?_⟩
        rw [goto_self]
        trivial
  | out => exact ⟨.quiet rfl rfl rfl, by rw [hpc]; trivial⟩
  | refused => exact ⟨.quiet rfl rfl rfl, by rw [hpc]; trivial⟩
  | locked rw => exact ⟨.quiet rfl rfl rfl, by rw [hpc]; trivial⟩

theorem step_effect {device : Device} {a : Act} (hinv : Inv s) (hg : guard s a)
    (h : step device s a = some s') : Effect s s' a.thread ∧ PcOk s'.entry (s'.pc a.thread) ∧
      ∀ u, u ≠ a.thread → s'.pc u = s.pc u := by
  cases a with
  | lock t once rw =>
    cases h
    have hout : (s.pc t).holding = none := by
      rcases hg with hg | hg
      · rw [hg]
        rfl
      · rw [hg]
        rfl
    refine ⟨.move hout.symm, ?_, fun u hu => goto_other hu⟩
    change PcOk _ ((s.goto t _).pc t)
    rw [goto_self]
    trivial
  | setHash t line =>
    have hpc : s.pc t = .locked .wr := hg
    obtain ⟨hline, h⟩ := Option.ite_none_left_eq_some.mp h
    cases h
    refine ⟨.move (by rw [hpc]; rfl), ?_, fun u hu => goto_other hu⟩
    change PcOk _ ((s.goto t _).pc t)
    rw [goto_self]
    exact ⟨rfl, line_lt hline⟩
  | unlock t =>
    obtain ⟨rw, hpc⟩ := hg
    simp only [step, hpc] at h
    cases h
    refine ⟨.move (by rw [hpc]; rfl), ?_, fun u hu => goto_other hu⟩
    change PcOk _ ((s.goto t _).pc t)
    rw [goto_self]
    trivial
  | run t =>
    cases h
    obtain ⟨he, hok⟩ := runThread_effect hinv
    exact ⟨he, hok, fun u hu => runThread_other hu⟩

theorem Inv.start (line : BitVec 29) : Inv (HashLock.start line) := by
  refine ⟨⟨⟨∅, none, nofun⟩, ?_, ?_, rfl, ?_⟩, ?_, ?_⟩
  · intro t
    simp [HashLock.start, Pc.holding]
  · intro t
    simp [HashLock.start, Pc.holding]
  · simp [HashLock.start]
  · intro t
    trivial
  · have hlt := line.isLt
    change line.toNat = (line.setWidth 32).toNat
    rw [BitVec.toNat_setWidth]
    omega

theorem Inv.of_reachable {device : Device} {line : BitVec 29}
    (h : Reachable (system device) (HashLock.start line) s) : Inv s := by
  apply h.invariant (fun _ => Inv.start line)
  intro s a s' hinv _ hg hs _
  obtain ⟨he, hok, hframe⟩ := step_effect hinv hg hs
  exact hinv.of_effect hframe he hok

end Steps

/-- What the word says of the threads. -/
structure WordTrue (s : State) : Prop where
  /-- The bit says whether exactly one thread writes. -/
  writer : s.entry.wr = 1#1 ↔ ∃! t, (s.pc t).holding = some .wr
  /-- There are never two writers. -/
  single : ∀ t u, (s.pc t).holding = some .wr → (s.pc u).holding = some .wr → t = u
  /-- With a writer the counter is zero. -/
  alone : s.entry.wr = 1#1 → s.entry.rd = 0#2
  /-- The counter is the number of readers. -/
  readers : ∃ readers : Finset Nat,
    (∀ t, t ∈ readers ↔ (s.pc t).holding = some .rd) ∧ s.entry.rd.toNat = readers.card
  /-- The head is the line that was set last. -/
  head : s.entry.line.toNat = s.set.toNat

/-- What one step may do to the word. -/
structure WordStep (s s' : State) (a : Act) : Prop where
  /-- Only the store of `ocf_metadata_set_hash` changes the head. -/
  head : s'.entry.line ≠ s.entry.line → ∃ t line word, a = .run t ∧ s.pc t = .storing line word
  /-- The counter does not wrap. -/
  counter : s'.entry.rd = s.entry.rd ∨ s'.entry.rd.toNat = s.entry.rd.toNat + 1 ∨
    s'.entry.rd.toNat + 1 = s.entry.rd.toNat
  /-- A step of `hash_lock_lock` that does not take the lock writes nothing. -/
  refused : (s.pc a.thread).inLock = true → (s'.pc a.thread).holding = none → s'.entry = s.entry

theorem Inv.wordTrue {s : State} (hinv : Inv s) : WordTrue s := by
  obtain ⟨h, hc⟩ := hinv.counted
  refine ⟨?_, fun t u => hc.writer_unique, ?_, ⟨h.readers, hc.reader, hc.rd⟩, hinv.head⟩
  · constructor
    · intro hwr
      obtain ⟨t, ht⟩ := Option.isSome_iff_exists.mp (hc.wr.mp hwr)
      have hwriter := (hc.writer t).mp ht
      exact ⟨t, hwriter, fun u hu => hc.writer_unique hu hwriter⟩
    · intro hone
      obtain ⟨t, ht, -⟩ := hone
      exact hc.writer_word ht
  · intro hwr
    have hempty := h.alone (hc.wr.mp hwr)
    have hrd := hc.rd
    rw [hempty] at hrd
    exact BitVec.eq_of_toNat_eq hrd

section Claims

variable {s s' : State} {t : Nat}

theorem inLock_holding {q : Pc} (h : q.inLock = true) : q.holding = none := by
  cases q with
  | locking once rw => rfl
  | swapping once rw curline newline => rfl
  | _ => exact nomatch h

theorem Effect.counter {h : Holders} (he : Effect s s' t) (hc : Counted s h) :
    s'.entry.rd = s.entry.rd ∨ s'.entry.rd.toNat = s.entry.rd.toNat + 1 ∨
      s'.entry.rd.toNat + 1 = s.entry.rd.toNat := by
  cases he with
  | quiet hsame hset hhold => exact .inl (by rw [hsame])
  | readLock hout hfree hroom hnew hset hin =>
    right
    left
    rw [hnew]
    exact rd_succ hroom
  | writeLock hout hfree hempty hnew hset hin => exact .inl (by rw [hnew])
  | setHead line hline hold hnew hset hin => exact .inl (by rw [hnew])
  | writeUnlock hold hnew hset hout => exact .inl (by rw [hnew])
  | readUnlock hold hnew hset hout =>
    right
    right
    rw [hnew]
    exact rd_pred (hc.reader_word hold).2

theorem Effect.refused (he : Effect s s' t) (hbefore : (s.pc t).holding = none)
    (hafter : (s'.pc t).holding = none) : s'.entry = s.entry := by
  have hne : ∀ rw, (none : Option Rw) ≠ some rw := nofun
  cases he with
  | quiet hsame hset hhold => exact hsame
  | readLock hout hfree hroom hnew hset hin => exact absurd (hafter.symm.trans hin) (hne _)
  | writeLock hout hfree hempty hnew hset hin => exact absurd (hafter.symm.trans hin) (hne _)
  | setHead line hline hold hnew hset hin => exact absurd (hafter.symm.trans hin) (hne _)
  | writeUnlock hold hnew hset hout => exact absurd (hbefore.symm.trans hold) (hne _)
  | readUnlock hold hnew hset hout => exact absurd (hbefore.symm.trans hold) (hne _)

theorem Effect.line (he : Effect s s' t) (hline : s'.entry.line ≠ s.entry.line) :
    (s.pc t).holding = some .wr ∧ (s'.pc t).holding = some .wr := by
  cases he with
  | quiet hsame hset hhold => exact absurd (by rw [hsame]) hline
  | readLock hout hfree hroom hnew hset hin => exact absurd (by rw [hnew]) hline
  | writeLock hout hfree hempty hnew hset hin => exact absurd (by rw [hnew]) hline
  | setHead line hlt hold hnew hset hin => exact ⟨hold, hin⟩
  | writeUnlock hold hnew hset hout => exact absurd (by rw [hnew]) hline
  | readUnlock hold hnew hset hout => exact absurd (by rw [hnew]) hline

theorem storing_of_line {device : Device} {a : Act} (hg : guard s a)
    (h : step device s a = some s') (hline : s'.entry.line ≠ s.entry.line)
    (hold : (s.pc a.thread).holding = some .wr) (hin : (s'.pc a.thread).holding = some .wr) :
    ∃ t line word, a = .run t ∧ s.pc t = .storing line word := by
  cases a with
  | lock t once rw =>
    cases h
    exact absurd rfl hline
  | setHash t line =>
    obtain ⟨-, h⟩ := Option.ite_none_left_eq_some.mp h
    cases h
    exact absurd rfl hline
  | unlock t =>
    obtain ⟨rw, hpc⟩ := hg
    simp only [step, hpc] at h
    cases h
    exact absurd rfl hline
  | run t =>
    cases h
    change (s.pc t).holding = some .wr at hold
    change ((runThread s t).pc t).holding = some .wr at hin
    cases hpc : s.pc t with
    | storing line word => exact ⟨t, line, word, rfl, hpc⟩
    | unlocking rw =>
      simp only [runThread, hpc] at hline
      exact absurd rfl hline
    | clearing newline =>
      simp only [runThread, hpc, goto_self] at hin
      exact nomatch hin
    | locked rw =>
      simp only [runThread, hpc] at hline
      exact absurd rfl hline
    | out =>
      rw [hpc] at hold
      exact nomatch hold
    | refused =>
      rw [hpc] at hold
      exact nomatch hold
    | locking once rw =>
      rw [hpc] at hold
      exact nomatch hold
    | swapping once rw curline newline =>
      rw [hpc] at hold
      exact nomatch hold
    | dropping curline newline =>
      rw [hpc] at hold
      exact nomatch hold

theorem Inv.wordStep {device : Device} {a : Act} (hinv : Inv s) (hg : guard s a)
    (h : step device s a = some s') : WordStep s s' a := by
  obtain ⟨he, -, -⟩ := step_effect hinv hg h
  obtain ⟨holders, hc⟩ := hinv.counted
  refine ⟨?_, he.counter hc, ?_⟩
  · intro hline
    obtain ⟨hold, hin⟩ := he.line hline
    exact storing_of_line hg h hline hold hin
  · intro hlock hafter
    exact he.refused (inLock_holding hlock) hafter

/-- Under any interleaving of any number of threads the bucket's word tells who
holds it and which line was set last, and no step wraps the counter, changes the
head out of turn or writes for a lock it does not get. -/
theorem hash_word_true (device : Device) (line : BitVec 29) {s : State}
    (h : Reachable (system device) (start line) s) :
    WordTrue s ∧ ∀ a s', guard s a → step device s a = some s' → WordStep s s' a := by
  have hinv := Inv.of_reachable h
  exact ⟨hinv.wordTrue, fun a s' hg hs => hinv.wordStep hg hs⟩

/-- A cache of eight lines. -/
def smallDevice : Device := ⟨8#32, by decide⟩

/-- A writer has set the head and another thread's try was refused. -/
theorem hash_word_true_written : ∃ s, s.pc 1 = .refused ∧ s.entry = ⟨5#29, 0#2, 1#1⟩ ∧ WordTrue s ∧
      ∀ a s', guard s a → step smallDevice s a = some s' → WordStep s s' a := by
  have h0 : Reachable (system smallDevice) (start 8#29) (start 8#29) := .refl trivial
  have h1 := h0.next (.lock 0 false .wr) (.inl rfl) rfl
  have h2 := h1.next (.run 0) (.inl rfl) rfl
  have h3 := h2.next (.run 0) (.inl rfl) rfl
  have h4 := h3.next (.setHash 0 5#32) rfl rfl
  have h5 := h4.next (.run 0) (.inr ⟨.wr, rfl, nofun⟩) rfl
  have h6 := h5.next (.lock 1 true .rd) (.inl rfl) rfl
  have h7 := h6.next (.run 1) (.inl rfl) rfl
  exact ⟨_, rfl, rfl, hash_word_true smallDevice 8#29 h7⟩

end Claims

end OcfCache.HashLock
