import OcfCache.EngineMachine

/-!
# What the status changes of a request amount to

Closed forms of the loops over the cache lines of a request: which valid and
dirty bits each of them leaves, and which lines it marks for a metadata flush.
A change of a dirty bit is never left unmarked by these loops.
-/

namespace OcfCache.LineChanges

open Function Loops Metadata Requests CacheLine EngineMachine

/-- Block `b` of cache line `x` is requested from one of the first `n` entries
that are selected. -/
def TouchedBelow (g : Geometry) (req : Request) (sel : MapInfo → Prop) (n x b : Nat) : Prop :=
  ∃ i < n, sel (req.map i) ∧ (req.map i).collIdx = x ∧ ocfMapLineStartBlock g req i ≤ b ∧
    b ≤ ocfMapLineEndBlock g req i

/-- Any entry. -/
def anyEntry : MapInfo → Prop := fun _ => True

/-- Entries on a cache line. -/
def mappedEntry : MapInfo → Prop := fun e => e.status ≠ .miss

/-- Block `b` of cache line `x` is requested. -/
def Touched (g : Geometry) (req : Request) (sel : MapInfo → Prop) (x b : Nat) : Prop :=
  TouchedBelow g req sel (req.coreLineCount g) x b

variable {g : Geometry} {req : Request} {sel : MapInfo → Prop}

theorem not_touchedBelow_zero {x b : Nat} : ¬TouchedBelow g req sel 0 x b := by
  rintro ⟨i, hi, -⟩
  omega

theorem touchedBelow_succ {n x b : Nat} :
    TouchedBelow g req sel (n + 1) x b ↔ TouchedBelow g req sel n x b ∨
      (sel (req.map n) ∧ (req.map n).collIdx = x ∧ ocfMapLineStartBlock g req n ≤ b ∧
        b ≤ ocfMapLineEndBlock g req n) := by
  constructor
  · rintro ⟨i, hi, h⟩
    rcases Nat.lt_or_eq_of_le (Nat.le_of_lt_succ hi) with hlt | heq
    · exact .inl ⟨i, hlt, h⟩
    · exact .inr (heq ▸ h)
  · rintro (⟨i, hi, h⟩ | h)
    · exact ⟨i, by omega, h⟩
    · exact ⟨n, by omega, h⟩

@[simp] theorem setRange_eq_true {b : Bits} {start stop i : Nat} :
    setRange b start stop i = true ↔ b i = true ∨ (start ≤ i ∧ i ≤ stop) := by
  simp [setRange]

@[simp] theorem clearRange_eq_true {b : Bits} {start stop i : Nat} :
    clearRange b start stop i = true ↔ b i = true ∧ ¬(start ≤ i ∧ i ≤ stop) := by
  simp only [clearRange, Bool.and_eq_true, Bool.not_eq_true', decide_eq_false_iff_not]

/-- A change of the valid bits only. -/
structure ValidOnly (md md' : LineTable) : Prop where
  /-- Hash buckets. -/
  hash : md'.hash = md.hash
  /-- Core lines. -/
  coreInfo : md'.coreInfo = md.coreInfo
  /-- Dirty bits. -/
  dirty : md'.dirty = md.dirty
  /-- Partitions. -/
  partitionId : md'.partitionId = md.partitionId

/-- A change of the dirty bits only. -/
structure DirtyOnly (md md' : LineTable) : Prop where
  /-- Hash buckets. -/
  hash : md'.hash = md.hash
  /-- Core lines. -/
  coreInfo : md'.coreInfo = md.coreInfo
  /-- Valid bits. -/
  valid : md'.valid = md.valid
  /-- Partitions. -/
  partitionId : md'.partitionId = md.partitionId

variable (g req) in
theorem setValidMapInfo_spec (md : LineTable) : ValidOnly md (ocfSetValidMapInfo g req md) ∧ ∀ x b,
      (ocfSetValidMapInfo g req md).valid x b = true ↔
        md.valid x b = true ∨ Touched g req anyEntry x b := by
  refine forRange_inv (fun n md' => ValidOnly md md' ∧ ∀ x b, md'.valid x b = true ↔
    md.valid x b = true ∨ TouchedBelow g req anyEntry n x b) ?_ ?_
  · exact ⟨⟨rfl, rfl, rfl, rfl⟩, fun x b => by simp [not_touchedBelow_zero]⟩
  · rintro n md' - ⟨hsame, hv⟩
    refine ⟨⟨hsame.1, hsame.2, hsame.3, hsame.4⟩, fun x b => ?_⟩
    rw [touchedBelow_succ, ← or_assoc, ← hv]
    simp only [setCacheLineValid, setValidBits]
    by_cases hx : x = (req.map n).collIdx
    · subst hx
      simp [anyEntry]
    · simp [update_of_ne hx, Ne.symm hx]

/-- Marks of a request grow, and cover every change of dirty bits. -/
structure MarksChange (g : Geometry) (req : Request) (m m' : Marked) : Prop where
  /-- Marks stay. -/
  mono : ∀ i, m.flush i = true → m'.flush i = true
  /-- The request stays marked. -/
  monoAny : m.flushMetadata = true → m'.flushMetadata = true
  /-- Changed lines are marked. -/
  change : ∀ x, (∃ b, m'.md.dirty x b ≠ m.md.dirty x b) →
    m'.flushMetadata = true ∧ ∃ i < req.coreLineCount g, (req.map i).collIdx = x ∧ m'.flush i = true

theorem MarksChange.refl (m : Marked) : MarksChange g req m m :=
  ⟨fun _ h => h, fun h => h, fun _ ⟨_, h⟩ => absurd rfl h⟩

theorem MarksChange.trans {m m' m'' : Marked} (h : MarksChange g req m m')
    (h' : MarksChange g req m' m'') : MarksChange g req m m'' := by
  refine ⟨fun i hi => h'.mono i (h.mono i hi), fun ha => h'.monoAny (h.monoAny ha), ?_⟩
  rintro x ⟨b, hb⟩
  by_cases heq : m''.md.dirty x b = m'.md.dirty x b
  · obtain ⟨hf, i, hi, hx, hm⟩ := h.change x ⟨b, heq ▸ hb⟩
    exact ⟨h'.monoAny hf, i, hi, hx, h'.mono i hm⟩
  · exact h'.change x ⟨b, heq⟩

variable {md : LineTable}

theorem MarksChange.of_md {m m' : Marked} (h : MarksChange g req m m')
    (hd : md.dirty = m'.md.dirty) : MarksChange g req m { m' with md := md } :=
  ⟨h.mono, h.monoAny, fun x ⟨b, hb⟩ => h.change x ⟨b, by rw [← hd]; exact hb⟩⟩

variable {i : Nat}

theorem marksChange_mark {m : Marked} (hi : i < req.coreLineCount g)
    (hother : ∀ x, x ≠ (req.map i).collIdx → md.dirty x = m.md.dirty x) :
    MarksChange g req m (Marked.mark { m with md := md } i) := by
  refine ⟨fun j hj => ?_, fun _ => rfl, fun x ⟨b, hb⟩ => ⟨rfl, i, hi, ?_, ?_⟩⟩
  · simp only [Marked.mark, update_apply]
    split
    · rfl
    · exact hj
  · by_contra hx
    exact hb (congrFun (hother x (Ne.symm hx)) b)
  · simp [Marked.mark]

theorem setCacheLineDirty_spec (m : Marked) (start stop line i : Nat) :
    DirtyOnly m.md (setCacheLineDirty m start stop line i).md ∧ ∀ x b,
      (setCacheLineDirty m start stop line i).md.dirty x b = true ↔
        m.md.dirty x b = true ∨ (line = x ∧ start ≤ b ∧ b ≤ stop) := by
  have hmd : (setCacheLineDirty m start stop line i).md =
      setDirtyBits m.md line (setRange (m.md.dirty line) start stop) := by
    unfold setCacheLineDirty
    split <;> rfl
  rw [hmd]
  refine ⟨⟨rfl, rfl, rfl, rfl⟩, fun x b => ?_⟩
  by_cases hx : x = line
  · subst hx
    simp [setDirtyBits]
  · simp [setDirtyBits, update_of_ne hx, Ne.symm hx]

theorem setCacheLineClean_spec (m : Marked) (start stop line i : Nat) :
    DirtyOnly m.md (setCacheLineClean m start stop line i).md ∧ ∀ x b,
      (setCacheLineClean m start stop line i).md.dirty x b = true ↔
        m.md.dirty x b = true ∧ ¬(line = x ∧ start ≤ b ∧ b ≤ stop) := by
  have hmd : (setCacheLineClean m start stop line i).md =
      setDirtyBits m.md line (clearRange (m.md.dirty line) start stop) := by
    unfold setCacheLineClean
    split <;> rfl
  rw [hmd]
  refine ⟨⟨rfl, rfl, rfl, rfl⟩, fun x b => ?_⟩
  by_cases hx : x = line
  · subst hx
    simp [setDirtyBits]
  · simp [setDirtyBits, update_of_ne hx, Ne.symm hx]

theorem setCacheLineDirty_marks (m : Marked) (hi : i < req.coreLineCount g) (start stop : Nat) :
    MarksChange g req m (setCacheLineDirty m start stop (req.map i).collIdx i) := by
  unfold setCacheLineDirty
  split
  · exact marksChange_mark hi fun x hx => by simp [setDirtyBits, update_of_ne hx]
  · rename_i hall
    refine (MarksChange.refl m).of_md ?_
    have hbits : setRange (m.md.dirty (req.map i).collIdx) start stop =
        m.md.dirty (req.map i).collIdx := by
      funext b
      rw [Bool.eq_iff_iff]
      simp only [metadataTestDirtyAllSec, Bool.not_eq_true', Bool.not_eq_false,
        testAll_eq_true] at hall
      simp only [setRange_eq_true, or_iff_left_iff_imp]
      exact fun hb => hall b hb.2 hb.1
    simp only [setDirtyBits, hbits, update_eq_self]

theorem setCacheLineClean_marks (m : Marked) (hi : i < req.coreLineCount g) (start stop : Nat) :
    MarksChange g req m (setCacheLineClean m start stop (req.map i).collIdx i) := by
  unfold setCacheLineClean
  split
  · exact marksChange_mark hi fun x hx => by simp [setDirtyBits, update_of_ne hx]
  · rename_i hnone
    refine (MarksChange.refl m).of_md ?_
    have hbits : clearRange (m.md.dirty (req.map i).collIdx) start stop =
        m.md.dirty (req.map i).collIdx := by
      funext b
      rw [Bool.eq_iff_iff]
      simp only [metadataTestDirtySec, testAny_eq_true, not_exists] at hnone
      simp only [clearRange_eq_true, and_iff_left_iff_imp]
      exact fun hb hin => hnone b ⟨hin.2, hin.1, hb⟩
    simp only [setDirtyBits, hbits, update_eq_self]

theorem DirtyOnly.trans {a b c : LineTable} (h : DirtyOnly a b) (h' : DirtyOnly b c) :
    DirtyOnly a c :=
  ⟨h'.1.trans h.1, h'.2.trans h.2, h'.3.trans h.3, h'.4.trans h.4⟩

variable (g req) in
theorem setDirtyMapInfo_spec (m : Marked) : DirtyOnly m.md (ocfSetDirtyMapInfo g req m).md ∧
      MarksChange g req m (ocfSetDirtyMapInfo g req m) ∧ ∀ x b,
      (ocfSetDirtyMapInfo g req m).md.dirty x b = true ↔
        m.md.dirty x b = true ∨ Touched g req anyEntry x b := by
  refine forRange_inv (fun n m' => DirtyOnly m.md m'.md ∧ MarksChange g req m m' ∧
    ∀ x b, m'.md.dirty x b = true ↔ m.md.dirty x b = true ∨ TouchedBelow g req anyEntry n x b) ?_ ?_
  · exact ⟨⟨rfl, rfl, rfl, rfl⟩, .refl m, fun x b => by simp [not_touchedBelow_zero]⟩
  · rintro n m' hn ⟨hsame, hmarks, hd⟩
    obtain ⟨hsame', hd'⟩ := setCacheLineDirty_spec m' (ocfMapLineStartBlock g req n)
      (ocfMapLineEndBlock g req n) (req.map n).collIdx n
    refine ⟨hsame.trans hsame', hmarks.trans (setCacheLineDirty_marks m' hn _ _), fun x b => ?_⟩
    rw [hd', hd, touchedBelow_succ, or_assoc]
    simp [anyEntry]

variable (g req) in
theorem setCleanMapInfo_spec (m : Marked) : DirtyOnly m.md (ocfSetCleanMapInfo g req m).md ∧
      MarksChange g req m (ocfSetCleanMapInfo g req m) ∧ ∀ x b,
      (ocfSetCleanMapInfo g req m).md.dirty x b = true ↔
        m.md.dirty x b = true ∧ ¬Touched g req anyEntry x b := by
  refine forRange_inv (fun n m' => DirtyOnly m.md m'.md ∧ MarksChange g req m m' ∧
    ∀ x b, m'.md.dirty x b = true ↔ m.md.dirty x b = true ∧ ¬TouchedBelow g req anyEntry n x b)
    ?_ ?_
  · exact ⟨⟨rfl, rfl, rfl, rfl⟩, .refl m, fun x b => by simp [not_touchedBelow_zero]⟩
  · rintro n m' hn ⟨hsame, hmarks, hd⟩
    obtain ⟨hsame', hd'⟩ := setCacheLineClean_spec m' (ocfMapLineStartBlock g req n)
      (ocfMapLineEndBlock g req n) (req.map n).collIdx n
    refine ⟨hsame.trans hsame', hmarks.trans (setCacheLineClean_marks m' hn _ _), fun x b => ?_⟩
    rw [hd', hd, touchedBelow_succ, not_or, and_assoc]
    simp [anyEntry]

/-- Lines that lost their core line have no valid block. -/
def Dropped (g : Geometry) (md md' : LineTable) : Prop :=
  ∀ x, md'.coreInfo x = md.coreInfo x ∨ ∀ b < g.lineBlocks, md'.valid x b = false

theorem metadataTestValidAny_eq_false {x : Nat}
    (h : metadataTestValidAny g md x = false) : ∀ b < g.lineBlocks, md.valid x b = false := by
  intro b hb
  rw [← Bool.not_eq_true] at h ⊢
  simp only [metadataTestValidAny, testAny_eq_true, not_exists, not_and, Geometry.endBlock] at h
  exact h b (by omega) (Nat.zero_le b)

theorem setCacheLineInvalid_spec (waiters : Nat → Bool) (md : LineTable) (start stop line : Nat) :
    (setCacheLineInvalid g waiters md start stop line).dirty = md.dirty ∧
      Dropped g md (setCacheLineInvalid g waiters md start stop line) ∧ ∀ x b,
      (setCacheLineInvalid g waiters md start stop line).valid x b = true ↔
        md.valid x b = true ∧ ¬(line = x ∧ start ≤ b ∧ b ≤ stop) := by
  have hvalid : ∀ x b,
      (setValidBits md line (clearRange (md.valid line) start stop)).valid x b = true ↔
        md.valid x b = true ∧ ¬(line = x ∧ start ≤ b ∧ b ≤ stop) := by
    intro x b
    by_cases hx : x = line
    · subst hx
      simp [setValidBits]
    · simp [setValidBits, update_of_ne hx, Ne.symm hx]
  simp only [setCacheLineInvalid]
  split
  · exact ⟨rfl, fun x => .inl rfl, hvalid⟩
  · rename_i hnone
    simp only [Bool.or_eq_true, not_or, Bool.not_eq_true] at hnone
    refine ⟨rfl, fun x => ?_, hvalid⟩
    by_cases hx : x = line
    · subst hx
      exact .inr fun b hb => metadataTestValidAny_eq_false hnone.1 b hb
    · exact .inl (by simp [ocfMetadataRemoveFromCollision, setValidBits, update_of_ne hx])

variable (g req) in
/-- A purge clears what the request touches. -/
theorem purgeMapInfo_spec (waiters : Nat → Bool) (m : Marked) :
    MarksChange g req m (ocfPurgeMapInfo g req waiters m) ∧
      Dropped g m.md (ocfPurgeMapInfo g req waiters m).md ∧
      (∀ x b, (ocfPurgeMapInfo g req waiters m).md.dirty x b = true ↔
        m.md.dirty x b = true ∧ ¬Touched g req mappedEntry x b) ∧
      ∀ x b, (ocfPurgeMapInfo g req waiters m).md.valid x b = true ↔
        m.md.valid x b = true ∧ ¬Touched g req mappedEntry x b := by
  refine forRange_inv (fun n m' => MarksChange g req m m' ∧ Dropped g m.md m'.md ∧
    (∀ x b, m'.md.dirty x b = true ↔
      m.md.dirty x b = true ∧ ¬TouchedBelow g req mappedEntry n x b) ∧
    ∀ x b, m'.md.valid x b = true ↔
      m.md.valid x b = true ∧ ¬TouchedBelow g req mappedEntry n x b) ?_ ?_
  · exact ⟨.refl m, fun x => .inl rfl, fun x b => by simp [not_touchedBelow_zero],
      fun x b => by simp [not_touchedBelow_zero]⟩
  · rintro n m' hn ⟨hmarks, hdrop, hd, hv⟩
    split
    · rename_i hmiss
      refine ⟨hmarks, hdrop, fun x b => ?_, fun x b => ?_⟩
      · rw [hd, touchedBelow_succ]
        simp [mappedEntry, hmiss]
      · rw [hv, touchedBelow_succ]
        simp [mappedEntry, hmiss]
    · rename_i hmapped
      obtain ⟨hclean, hd'⟩ := setCacheLineClean_spec m' (ocfMapLineStartBlock g req n)
        (ocfMapLineEndBlock g req n) (req.map n).collIdx n
      have hmarks' : MarksChange g req m' _ := setCacheLineClean_marks m' hn
        (ocfMapLineStartBlock g req n) (ocfMapLineEndBlock g req n)
      obtain ⟨hdirty, hdrop', hv'⟩ := setCacheLineInvalid_spec (g := g) waiters
        (setCacheLineClean m' (ocfMapLineStartBlock g req n) (ocfMapLineEndBlock g req n)
          (req.map n).collIdx n).md (ocfMapLineStartBlock g req n) (ocfMapLineEndBlock g req n)
        (req.map n).collIdx
      refine ⟨(hmarks.trans hmarks').of_md hdirty, fun x => ?_, fun x b => ?_, fun x b => ?_⟩
      · rcases hdrop' x with heq | hnone
        · rcases hdrop x with heq₀ | hnone₀
          · exact .inl (by rw [← heq₀, ← hclean.coreInfo]; exact heq)
          · refine .inr fun b hb => ?_
            rw [← Bool.not_eq_true]
            intro hval
            have hval' := ((hv' x b).mp hval).1
            rw [hclean.valid, hnone₀ b hb] at hval'
            cases hval'
        · exact .inr hnone
      · simp only [ocfPurgeCacheLineSec, hdirty]
        rw [hd', hd, touchedBelow_succ, not_or, and_assoc]
        simp [mappedEntry, hmapped]
      · simp only [ocfPurgeCacheLineSec]
        rw [hv', hclean.valid, hv, touchedBelow_succ, not_or, and_assoc]
        simp [mappedEntry, hmapped]

variable (g req) in
/-- `_ocf_write_wb_update_bits`. -/
theorem writeWbUpdateBits_marks (m : Marked) :
    MarksChange g req m (ocfWriteWbUpdateBits g m req) := by
  have hvalid : MarksChange g req m
      (if ocfEngineIsMiss g req then { m with md := ocfSetValidMapInfo g req m.md } else m) := by
    split
    · exact (MarksChange.refl m).of_md (setValidMapInfo_spec g req m.md).1.dirty
    · exact .refl m
  simp only [ocfWriteWbUpdateBits]
  split
  · exact hvalid
  · exact hvalid.trans (setDirtyMapInfo_spec g req _).2.1

theorem userPartMove_same (md : LineTable) :
    (ocfUserPartMove g md req).hash = md.hash ∧ (ocfUserPartMove g md req).coreInfo = md.coreInfo ∧
      (ocfUserPartMove g md req).valid = md.valid ∧ (ocfUserPartMove g md req).dirty = md.dirty := by
  refine forRange_inv (fun _ (md' : LineTable) => md'.hash = md.hash ∧ md'.coreInfo = md.coreInfo ∧
    md'.valid = md.valid ∧ md'.dirty = md.dirty) ⟨rfl, rfl, rfl, rfl⟩ ?_
  intro n md' _ h
  split
  · exact h
  · exact h

variable (g req) in
theorem rePart_same (md : LineTable) :
    (rePart g md req).hash = md.hash ∧ (rePart g md req).coreInfo = md.coreInfo ∧
      (rePart g md req).valid = md.valid ∧ (rePart g md req).dirty = md.dirty := by
  unfold rePart
  split
  · exact userPartMove_same md
  · exact ⟨rfl, rfl, rfl, rfl⟩

theorem cleanLine_spec (s : LineTable × Bool) (e : CleanEntry) :
    DirtyOnly s.1 (cleanLine g s e).1 ∧ (∀ x b, (cleanLine g s e).1.dirty x b = true ↔
        s.1.dirty x b = true ∧ ¬(b < g.lineBlocks ∧ e.collIdx = x)) ∧
      ((cleanLine g s e).2 = false → s.2 = false ∧ (cleanLine g s e).1 = s.1) := by
  have hB := g.lineBlocks_pos
  have hend : ∀ b, (0 ≤ b ∧ b ≤ g.endBlock) ↔ b < g.lineBlocks := by
    simp only [Geometry.endBlock]
    omega
  unfold cleanLine
  split
  · refine ⟨⟨rfl, rfl, rfl, rfl⟩, fun x b => ?_, (by simp)⟩
    by_cases hx : x = e.collIdx
    · subst hx
      simp only [setDirtyBits, update_self, clearRange_eq_true, hend, and_true]
    · simp [setDirtyBits, update_of_ne hx, Ne.symm hx]
  · rename_i hclean
    refine ⟨⟨rfl, rfl, rfl, rfl⟩, fun x b => ?_, fun h => ⟨h, rfl⟩⟩
    simp only [metadataTestDirty, testAny_eq_true, not_exists, not_and] at hclean
    constructor
    · intro hb
      refine ⟨hb, fun hx => ?_⟩
      obtain ⟨h0, hle⟩ := (hend b).mpr hx.1
      exact hclean b hle h0 (hx.2 ▸ hb)
    · exact fun h => h.1

theorem foldl_cleanLine_spec (es : List CleanEntry) (s : LineTable × Bool) :
    DirtyOnly s.1 (es.foldl (cleanLine g) s).1 ∧
      (∀ x b, (es.foldl (cleanLine g) s).1.dirty x b = true ↔ s.1.dirty x b = true ∧
        ¬(b < g.lineBlocks ∧ ∃ e ∈ es, e.collIdx = x)) ∧
      ((es.foldl (cleanLine g) s).2 = false → s.2 = false ∧
        (es.foldl (cleanLine g) s).1.dirty = s.1.dirty) := by
  induction es generalizing s with
  | nil => exact ⟨⟨rfl, rfl, rfl, rfl⟩, fun x b => by simp, fun h => ⟨h, rfl⟩⟩
  | cons e es ih =>
    obtain ⟨hsame, hd, hflag⟩ := ih (cleanLine g s e)
    obtain ⟨hsame₁, hd₁, hflag₁⟩ := cleanLine_spec (g := g) s e
    refine ⟨hsame₁.trans hsame, fun x b => ?_, fun h => ?_⟩
    · rw [List.foldl_cons, hd, hd₁, and_assoc, ← not_or, ← and_or_left]
      simp only [List.exists_mem_cons_iff]
    · obtain ⟨hf, heq⟩ := hflag h
      obtain ⟨hf', heq'⟩ := hflag₁ hf
      exact ⟨hf', by rw [List.foldl_cons, heq, heq']⟩

theorem cleanerUpdateMetadata_spec (md : LineTable) (job : List CleanEntry) :
    DirtyOnly md (ocfCleanerUpdateMetadata g md job).1 ∧
      (∀ x b, (ocfCleanerUpdateMetadata g md job).1.dirty x b = true ↔ md.dirty x b = true ∧
        ¬(b < g.lineBlocks ∧ ∃ e ∈ job, e.live = true ∧ e.collIdx = x)) ∧
      ((ocfCleanerUpdateMetadata g md job).2 = false →
        (ocfCleanerUpdateMetadata g md job).1.dirty = md.dirty) := by
  obtain ⟨hsame, hd, hflag⟩ := foldl_cleanLine_spec (g := g) (job.filter CleanEntry.live) (md, false)
  refine ⟨hsame, fun x b => ?_, fun h => (hflag h).2⟩
  rw [ocfCleanerUpdateMetadata, hd]
  simp only [List.mem_filter, and_assoc]

theorem remapEntry_dirty {victims : Nat → Option (Nat × Bool)} {s s' : LineTable × Request} (h : remapEntry g victims (some s) i = some s') : s'.1.dirty = s.1.dirty := by
  simp only [remapEntry, Option.bind_some] at h
  split at h
  · cases h
    rfl
  · split at h
    · cases h
      rfl
    · rename_i line free _
      split at h
      · cases h
      · cases h
        cases free <;> rfl

theorem prepareClines_dirty {D : Type*} {ch : Choice D}
    {r : LineTable × Request × Bool} (h : ocfEnginePrepareClines g md req ch = some r) :
    r.1.dirty = md.dirty := by
  simp only [ocfEnginePrepareClines] at h
  split at h
  · cases h
    rfl
  · split at h
    · cases h
      rfl
    · split at h
      · cases h
        rfl
      · obtain ⟨m, hm, hr⟩ := Option.map_eq_some_iff.mp h
        have hremap : m.1.dirty = md.dirty := by
          refine forRange_option (fun _ => rfl) (fun _ t => t.1.dirty = md.dirty) rfl ?_ hm
          intro i t t' _ ht hbody
          exact (remapEntry_dirty hbody).trans ht
        rw [← hr]
        split
        · exact hremap
        · refine forRange_inv (fun _ (t : LineTable × Request) => t.1.dirty = md.dirty) hremap ?_
          intro i t _ ht
          unfold mapHndlErrorEntry
          split
          · exact (setCacheLineInvalid_spec _ _ _ _ _).1.trans ht
          · exact ht

end OcfCache.LineChanges
