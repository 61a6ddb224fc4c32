import OcfCache.Alternating
import OcfCache.MetadataLayout

/-!
# The metadata fits the device

The computation of the number of cache lines goes up and down between two
values that come closer. It ends long before its limit of iterations, with
segments that do not overlap and with room for all cache lines.
-/

namespace OcfCache.MetadataSize

open Alternating

/-! ## Placing segments -/

section Place

variable {cfg : Config} {c : Nat}

/-- Pages of a segment on the device. -/
def Config.pages (cfg : Config) (c : Nat) (type : SegmentId) : Nat :=
  if type = .cleaning ∧ cfg.cleanerDisabled = true ∨ cfg.isVolatile = true then 0
  else divRoundUp (divRoundUp ((ocfMetadataGetEntries type c).getD 0) (pageSize / cfg.elementSize type)) 32 * 32 *
    (if ocfMetadataIsFlapped type then 2 else 1)

/-- Pages of segments on the device. -/
def Config.pagesOf (cfg : Config) (c : Nat) (types : List SegmentId) : Nat := (types.map (cfg.pages c)).sum

theorem le_divRoundUp_mul (x : Nat) {y : Nat} (hy : 0 < y) : x ≤ divRoundUp x y * y := by
  unfold divRoundUp
  have hmod := Nat.div_add_mod (x + y - 1) y
  have hlt := Nat.mod_lt (x + y - 1) hy
  rw [Nat.mul_comm] at hmod
  omega

theorem divRoundUp_le_div (x : Nat) {y : Nat} (hy : 0 < y) : divRoundUp x y ≤ x / y + 1 := by
  rw [← Nat.add_div_right x hy]
  exact Nat.div_le_div_right (by omega)

theorem div_le_divRoundUp (x : Nat) {y : Nat} (hy : 0 < y) : x / y ≤ divRoundUp x y := by
  exact Nat.div_le_div_right (by omega)

theorem divRoundUp_mono {x x' : Nat} (h : x ≤ x') (y : Nat) : divRoundUp x y ≤ divRoundUp x' y := by
  exact Nat.div_le_div_right (by omega)

theorem statusSizeof_le (cfg : Config) : cfg.statusSizeof ≤ 32 := by
  unfold Config.statusSizeof Config.bytesToBlocks
  cases cfg.lineSize <;> cases cfg.blockSize4k <;> simp [divRoundUp, LineSize.bytes]

theorem elementSize_bounds (cfg : Config) (type : SegmentId) :
    0 < cfg.elementSize type ∧ cfg.elementSize type ≤ pageSize ∧
      (type ∈ variableSegments → cfg.elementSize type ≤ 40) := by
  have hstatus := statusSizeof_le cfg
  cases type with
  | collision =>
    change 0 < 8 + cfg.statusSizeof ∧ 8 + cfg.statusSizeof ≤ 4096 ∧ (_ → 8 + cfg.statusSizeof ≤ 40)
    omega
  | eviction =>
    unfold Config.elementSize pageSize
    cases cfg.eviction <;> simp
  | _ => simp [Config.elementSize, pageSize, variableSegments]

theorem entriesInPage_pos (cfg : Config) (type : SegmentId) : 0 < pageSize / cfg.elementSize type :=
  Nat.div_pos (elementSize_bounds cfg type).2.1 (elementSize_bounds cfg type).1

/-- Descriptors of segments between two pages. -/
structure Placed (cfg : Config) (c lo hi : Nat) (types : List SegmentId) (raws : List Raw) : Prop where
  /-- There is one for each segment. -/
  segments : raws.map Raw.segment = types
  /-- The cleaning segment is disabled without a cleaner. -/
  disabled : ∀ r ∈ raws, (r.disabled = true ↔ r.segment = .cleaning ∧ cfg.cleanerDisabled = true)
  /-- The segments have their entries. -/
  entries : ∀ r ∈ raws, r.disabled = false → ocfMetadataGetEntries r.segment c = some r.entries
  /-- The pages have room for the entries. -/
  room : ∀ r ∈ raws, r.disabled = false →
    r.entries ≤ r.ssdPages * r.entriesInPage ∧ r.entriesInPage * r.entrySize ≤ pageSize ∧
      (cfg.isVolatile = false → r.ssdPages * (if r.flapping then 2 else 1) ≤ r.sizeOnSsd)
  /-- The segments are between the pages. -/
  within : ∀ r ∈ raws, r.disabled = false → lo ≤ r.ssdPagesOffset ∧ r.ssdPagesOffset + r.sizeOnSsd ≤ hi
  /-- The segments do not overlap. -/
  disjoint : (raws.filter fun r => !r.disabled).Pairwise fun a b => a.ssdPagesOffset + a.sizeOnSsd ≤ b.ssdPagesOffset

theorem raw_sizeOnSsd {type : SegmentId} {n offset : Nat} (hn : ocfMetadataGetEntries type c = some n)
    (henabled : ¬(type = .cleaning ∧ cfg.cleanerDisabled = true)) (hlt : cfg.pages c type < 2 ^ 32) :
    (cfg.raw type n offset).sizeOnSsd = cfg.pages c type := by
  unfold Config.pages at hlt ⊢
  rw [hn] at hlt ⊢
  cases hvol : cfg.isVolatile with
  | true =>
    rw [if_pos (.inr rfl)]
    have hraw : (cfg.raw type n offset).rawType = .volatile := by
      unfold Config.raw Config.rawType
      rw [hvol]
      rfl
    unfold Raw.sizeOnSsd
    rw [hraw]
  | false =>
    have hno : ¬(type = .cleaning ∧ cfg.cleanerDisabled = true ∨ cfg.isVolatile = true) := by
      rw [hvol]
      exact fun h => h.elim henabled nofun
    rw [if_neg hno] at hlt
    rw [hvol] at hno
    rw [if_neg hno]
    have hsize : (cfg.raw type n offset).sizeOnSsd =
        segmentSizeOnSsd (divRoundUp n (pageSize / cfg.elementSize type)) *
          (if ocfMetadataIsFlapped type then 2 else 1) % 2 ^ 32 := by
      unfold Raw.sizeOnSsd Config.raw Config.rawType
      rw [hvol]
      simp only [Bool.false_eq_true, if_false]
      split
      · rename_i heq
        split at heq
        · exact absurd heq nofun
        · split at heq <;> exact absurd heq nofun
      · rfl
    rw [hsize]
    rw [Option.getD_some] at hlt ⊢
    unfold segmentSizeOnSsd
    have hle : divRoundUp (divRoundUp n (pageSize / cfg.elementSize type)) 32 * 32 ≤
        divRoundUp (divRoundUp n (pageSize / cfg.elementSize type)) 32 * 32 *
          (if ocfMetadataIsFlapped type then 2 else 1) := Nat.le_mul_of_pos_right _ (by split <;> decide)
    rw [Nat.mod_eq_of_lt (Nat.lt_of_le_of_lt hle hlt), Nat.mod_eq_of_lt hlt]

/-- Segments are placed one behind the other. -/
theorem place_spec (cfg : Config) (base : Nat) (types : List SegmentId)
    (hc : ∀ type ∈ types, ∃ n, ocfMetadataGetEntries type c = some n) (page : Nat)
    (hlt : base + page + cfg.pagesOf c types < 2 ^ 32) :
    ∃ raws, cfg.place c base types page = some (raws, page + cfg.pagesOf c types) ∧
      Placed cfg c (base + page) (base + page + cfg.pagesOf c types) types raws := by
  induction types generalizing page with
  | nil =>
    exact ⟨[], rfl, rfl, fun _ => (by simp), fun _ => (by simp), fun _ => (by simp), fun _ => (by simp), .nil⟩
  | cons type types ih =>
    have hsum : cfg.pagesOf c (type :: types) = cfg.pages c type + cfg.pagesOf c types := List.sum_cons
    rw [hsum] at hlt ⊢
    have hc' : ∀ type ∈ types, ∃ n, ocfMetadataGetEntries type c = some n := fun t ht => hc t (List.mem_cons_of_mem _ ht)
    by_cases hdis : type = .cleaning ∧ cfg.cleanerDisabled = true
    · have hzero : cfg.pages c type = 0 := if_pos (.inl hdis)
      rw [hzero, Nat.zero_add] at hlt ⊢
      obtain ⟨raws, hraws, hp⟩ := ih hc' page hlt
      refine ⟨cfg.disabledRaw type :: raws, ?_, ?_, ?_, ?_, ?_, ?_, ?_⟩
      · unfold Config.place
        rw [if_pos hdis, hraws]
        rfl
      · exact congrArg (type :: ·) hp.segments
      · exact List.forall_mem_cons.mpr ⟨⟨fun _ => hdis, fun _ => rfl⟩, hp.disabled⟩
      · exact List.forall_mem_cons.mpr ⟨(fun h => by cases h), hp.entries⟩
      · exact List.forall_mem_cons.mpr ⟨(fun h => by cases h), hp.room⟩
      · exact List.forall_mem_cons.mpr ⟨(fun h => by cases h), hp.within⟩
      · exact hp.disjoint
    · obtain ⟨n, hn⟩ := hc type List.mem_cons_self
      have hsize : (cfg.raw type n ((base + page) % 2 ^ 32)).sizeOnSsd = cfg.pages c type :=
        raw_sizeOnSsd hn hdis (by omega)
      have hoffset : (base + page) % 2 ^ 32 = base + page := Nat.mod_eq_of_lt (by omega)
      have hpage : (page + cfg.pages c type) % 2 ^ 32 = page + cfg.pages c type := Nat.mod_eq_of_lt (by omega)
      obtain ⟨raws, hraws, hp⟩ := ih hc' (page + cfg.pages c type) (by omega)
      obtain ⟨raw, hraw⟩ : ∃ raw, cfg.raw type n ((base + page) % 2 ^ 32) = raw := ⟨_, rfl⟩
      rw [hraw] at hsize
      have hstart : raw.ssdPagesOffset = base + page := by
        rw [← hraw]
        exact hoffset
      have hon : raw.disabled = false := by
        rw [← hraw]
        rfl
      refine ⟨raw :: raws, ?_, ?_, ?_, ?_, ?_, ?_, ?_⟩
      · unfold Config.place
        rw [if_neg hdis, hn]
        simp only [Option.bind_eq_bind, Option.bind_some, hraw, hsize, hpage, hraws, Option.pure_def, Nat.add_assoc]
      · rw [← hraw]
        exact congrArg (type :: ·) hp.segments
      · refine List.forall_mem_cons.mpr ⟨?_, hp.disabled⟩
        rw [← hraw]
        exact ⟨(fun h => by cases h), fun h => absurd h hdis⟩
      · refine List.forall_mem_cons.mpr ⟨fun _ => ?_, hp.entries⟩
        rw [← hraw]
        exact hn
      · refine List.forall_mem_cons.mpr ⟨fun _ => ⟨?_, ?_, fun hvol => ?_⟩, hp.room⟩
        · rw [← hraw]
          exact le_divRoundUp_mul n (entriesInPage_pos cfg type)
        · rw [← hraw]
          exact Nat.div_mul_le_self pageSize (cfg.elementSize type)
        · have hno : ¬(type = .cleaning ∧ cfg.cleanerDisabled = true ∨ cfg.isVolatile = true) := by
            rw [hvol]
            exact fun h => h.elim hdis (by simp)
          rw [hsize]
          unfold Config.pages
          rw [if_neg hno, hn, ← hraw]
          exact Nat.mul_le_mul_right _ (le_divRoundUp_mul _ (by decide))
      · refine List.forall_mem_cons.mpr ⟨fun _ => ⟨by omega, by omega⟩, fun r hr hrd => ?_⟩
        have hw := hp.within r hr hrd
        omega
      · have hfilter : (raw :: raws).filter (fun r => !r.disabled) = raw :: raws.filter (fun r => !r.disabled) :=
          List.filter_cons_of_pos (by rw [hon]; rfl)
        rw [hfilter]
        refine List.pairwise_cons.mpr ⟨fun r hr => ?_, hp.disjoint⟩
        obtain ⟨hmem, hrd⟩ := List.mem_filter.mp hr
        have hw := hp.within r hmem (by simpa using hrd)
        omega

theorem Placed.append {lo mid hi : Nat} {types types' : List SegmentId} {raws raws' : List Raw}
    (h : Placed cfg c lo mid types raws) (h' : Placed cfg c mid hi types' raws') (hlo : lo ≤ mid) (hhi : mid ≤ hi) :
    Placed cfg c lo hi (types ++ types') (raws ++ raws') where
  segments := by rw [List.map_append, h.segments, h'.segments]
  disabled := List.forall_mem_append.mpr ⟨h.disabled, h'.disabled⟩
  entries := List.forall_mem_append.mpr ⟨h.entries, h'.entries⟩
  room := List.forall_mem_append.mpr ⟨h.room, h'.room⟩
  within := by
    refine List.forall_mem_append.mpr ⟨fun r hr hd => ?_, fun r hr hd => ?_⟩
    · have hw := h.within r hr hd
      omega
    · have hw := h'.within r hr hd
      omega
  disjoint := by
    rw [List.filter_append]
    refine List.pairwise_append.mpr ⟨h.disjoint, h'.disjoint, fun r hr r' hr' => ?_⟩
    obtain ⟨hmem, hd⟩ := List.mem_filter.mp hr
    obtain ⟨hmem', hd'⟩ := List.mem_filter.mp hr'
    have hw := h.within r hmem (by simpa using hd)
    have hw' := h'.within r' hmem' (by simpa using hd')
    omega

end Place

/-! ## Pages of the segments with an entry for each cache line -/

section Pages

/-- Pages of entries, aligned to 128 KiB. -/
def aligned (n k : Nat) : Nat := divRoundUp (divRoundUp n k) 32 * 32

theorem aligned_mono {n n' : Nat} (h : n ≤ n') (k : Nat) : aligned n k ≤ aligned n' k :=
  Nat.mul_le_mul_right 32 (divRoundUp_mono (divRoundUp_mono h k) 32)

theorem aligned_le {n n' k : Nat} (h : n ≤ n') (hk : 100 ≤ k) : aligned n' k ≤ aligned n k + (n' - n) / 100 + 33 := by
  have hpos : 0 < k := by omega
  have hup : aligned n' k ≤ divRoundUp n' k + 31 := by
    obtain ⟨m, hm⟩ : ∃ m, divRoundUp n' k = m := ⟨_, rfl⟩
    unfold aligned
    rw [hm, divRoundUp]
    omega
  have hlow : divRoundUp n k ≤ aligned n k := le_divRoundUp_mul _ (by decide)
  have hn' := divRoundUp_le_div n' hpos
  have hn := div_le_divRoundUp n hpos
  have hsplit : n' / k ≤ n / k + (n' - n) / k + 1 := by
    have heq : n + (n' - n) = n' := by omega
    have hmod : (n + (n' - n)) / k = n / k + (n' - n) / k + if k ≤ n % k + (n' - n) % k then 1 else 0 := Nat.add_div hpos
    rw [heq] at hmod
    rw [hmod]
    split <;> omega
  have hfew : (n' - n) / k ≤ (n' - n) / 100 := Nat.div_le_div_left hk (by decide)
  omega

theorem entries_grow {type : SegmentId} (htype : type ∈ variableSegments) {a b : Nat} (hab : a ≤ b) (hb : b < 2 ^ 29) :
    (ocfMetadataGetEntries type a).getD 0 ≤ (ocfMetadataGetEntries type b).getD 0 ∧
      (ocfMetadataGetEntries type b).getD 0 ≤ (ocfMetadataGetEntries type a).getD 0 + (b - a) := by
  have hval : ∀ c < 2 ^ 29, (ocfMetadataGetEntries type c).getD 0 = if type = .hash then (c + 3) / 4 else c := by
    intro c hc
    unfold ocfMetadataGetEntries
    by_cases hzero : c = 0
    · rw [if_pos ⟨htype, hzero⟩, hzero]
      split <;> rfl
    · rw [if_neg fun h => hzero h.2]
      have hmod : (c + 3) % 2 ^ 32 = c + 3 := Nat.mod_eq_of_lt (by omega)
      cases type with
      | hash => rw [if_pos rfl, hmod, Option.getD_some]
      | _ => simp [variableSegments] at htype ⊢
  rw [hval a (by omega), hval b hb]
  split <;> omega

variable (cfg : Config)

theorem pages_grow {type : SegmentId} (htype : type ∈ variableSegments) {a b : Nat} (hab : a ≤ b) (hb : b < 2 ^ 29) :
    cfg.pages a type ≤ cfg.pages b type ∧ cfg.pages b type ≤ cfg.pages a type + (b - a) / 100 + 33 := by
  obtain ⟨hmono, hgrow⟩ := entries_grow htype hab hb
  have hflap : ocfMetadataIsFlapped type = false := by
    cases type with
    | partConfig => simp [variableSegments] at htype
    | coreConfig => simp [variableSegments] at htype
    | coreUuid => simp [variableSegments] at htype
    | _ => rfl
  have hk : 100 ≤ pageSize / cfg.elementSize type := by
    obtain ⟨hpos, -, hsmall⟩ := elementSize_bounds cfg type
    refine (Nat.le_div_iff_mul_le hpos).mpr ?_
    have hle := hsmall htype
    unfold pageSize
    omega
  unfold Config.pages
  split
  · omega
  · rw [hflap]
    simp only [Bool.false_eq_true, if_false, Nat.mul_one]
    refine ⟨aligned_mono hmono _, ?_⟩
    have hle := aligned_le hmono hk
    have hdiv : ((ocfMetadataGetEntries type b).getD 0 - (ocfMetadataGetEntries type a).getD 0) / 100 ≤ (b - a) / 100 :=
      Nat.div_le_div_right (by omega)
    unfold aligned at hle
    omega

theorem pagesOf_grow {a b : Nat} (hab : a ≤ b) (hb : b < 2 ^ 29) :
    cfg.pagesOf a variableSegments ≤ cfg.pagesOf b variableSegments ∧
      cfg.pagesOf b variableSegments ≤ cfg.pagesOf a variableSegments + 5 * ((b - a) / 100 + 33) := by
  have h1 := pages_grow cfg (show .cleaning ∈ variableSegments by decide) hab hb
  have h2 := pages_grow cfg (show .eviction ∈ variableSegments by decide) hab hb
  have h3 := pages_grow cfg (show .collision ∈ variableSegments by decide) hab hb
  have h4 := pages_grow cfg (show .listInfo ∈ variableSegments by decide) hab hb
  have h5 := pages_grow cfg (show .hash ∈ variableSegments by decide) hab hb
  have hsum : ∀ c, cfg.pagesOf c variableSegments = cfg.pages c .cleaning + (cfg.pages c .eviction +
      (cfg.pages c .collision + (cfg.pages c .listInfo + (cfg.pages c .hash + 0)))) := fun c => rfl
  rw [hsum a, hsum b]
  omega

theorem pagesOf_zero : cfg.pagesOf 0 variableSegments = 0 := by
  have hzero : ∀ type ∈ variableSegments, cfg.pages 0 type = 0 := by
    intro type htype
    have hnone : ocfMetadataGetEntries type 0 = none := if_pos ⟨htype, rfl⟩
    unfold Config.pages
    rw [hnone]
    split
    · rfl
    · have hpos := entriesInPage_pos cfg type
      have hdiv : divRoundUp 0 (pageSize / cfg.elementSize type) = 0 := Nat.div_eq_of_lt (by omega)
      rw [Option.getD_none, hdiv]
      simp [divRoundUp]
  unfold Config.pagesOf
  rw [List.map_congr_left hzero]
  rfl

theorem pagesOf_fixed : cfg.pagesOf 0 fixedSegments = if cfg.isVolatile = true then 0 else 8960 := by
  cases hvol : cfg.isVolatile with
  | true => simp [Config.pagesOf, fixedSegments, Config.pages, hvol]
  | false =>
    simp [Config.pagesOf, fixedSegments, Config.pages, hvol, ocfMetadataGetEntries, variableSegments, divRoundUp,
      Config.elementSize, pageSize, ocfMetadataIsFlapped, ocfUserIoClassMax, ocfNumPartitions, ocfCoreNum]

end Pages

/-! ## The computation of the number of cache lines -/

section Loop

variable {cfg : Config} {ctrl : Ctrl}

/-- The device can be used for a cache, and the pages of fixed size are placed. -/
structure Device (cfg : Config) (ctrl : Ctrl) : Prop where
  /-- The number of cache lines fits the links. -/
  lines_le : ctrl.deviceLines ≤ ocfCacheLineMax
  /-- The device has the minimum size. -/
  size_le : ocfCacheSizeMin ≤ ctrl.deviceLines * cfg.lineSize.bytes
  /-- The segments of fixed size are placed. -/
  fixed : ctrl.countPagesFixed = cfg.pagesOf 0 fixedSegments

/-- Cache lines that fit beside the metadata of a number of cache lines. -/
def fit (cfg : Config) (ctrl : Ctrl) (c : Nat) : Nat :=
  (ctrl.deviceLines * cfg.lineSize.bytes - (ctrl.countPagesFixed + cfg.pagesOf c variableSegments) * pageSize) /
    cfg.lineSize.bytes

theorem pageSize_le_bytes (size : LineSize) : pageSize ≤ size.bytes := by
  cases size <;> decide

theorem bytes_pos (size : LineSize) : 0 < size.bytes := by
  cases size <;> decide

section

variable (h : Device cfg ctrl)
include h

theorem Device.room {c : Nat} (hc : c ≤ ctrl.deviceLines) :
    (ctrl.countPagesFixed + cfg.pagesOf c variableSegments) * pageSize + cfg.lineSize.bytes ≤
      ctrl.deviceLines * cfg.lineSize.bytes := by
  have hlines := h.lines_le
  have hsize := h.size_le
  have hfixed : ctrl.countPagesFixed ≤ 8960 := by
    rw [h.fixed, pagesOf_fixed]
    split <;> omega
  unfold ocfCacheLineMax at hlines
  have hgrow := (pagesOf_grow cfg (Nat.zero_le c) (by omega)).2
  rw [pagesOf_zero cfg] at hgrow
  unfold ocfCacheSizeMin at hsize
  unfold pageSize
  cases hl : cfg.lineSize <;> rw [hl] at hsize <;> simp only [LineSize.bytes] at hsize ⊢ <;> omega

theorem Device.pages_lt {c : Nat} (hc : c ≤ ctrl.deviceLines) :
    ctrl.countPagesFixed + cfg.pagesOf c variableSegments < 2 ^ 32 := by
  have hlines := h.lines_le
  unfold ocfCacheLineMax at hlines
  have hfixed : ctrl.countPagesFixed ≤ 8960 := by
    rw [h.fixed, pagesOf_fixed]
    split <;> omega
  have hgrow := (pagesOf_grow cfg (Nat.zero_le c) (by omega)).2
  rw [pagesOf_zero cfg] at hgrow
  omega

theorem Device.fit_pos {c : Nat} (hc : c ≤ ctrl.deviceLines) : 1 ≤ fit cfg ctrl c := by
  have hroom := h.room hc
  refine (Nat.le_div_iff_mul_le (bytes_pos _)).mpr ?_
  omega

theorem Device.decreasing : Decreasing (fit cfg ctrl) ctrl.deviceLines where
  le_top a _ := Nat.div_le_of_le_mul (by
    rw [Nat.mul_comm]
    exact Nat.sub_le _ _)
  anti a b hab hb := by
    have hlines := h.lines_le
    unfold ocfCacheLineMax at hlines
    have hpages := (pagesOf_grow cfg hab (by omega)).1
    refine Nat.div_le_div_right (Nat.sub_le_sub_left ?_ _)
    exact Nat.mul_le_mul_right _ (by omega)

theorem Device.slow {a b : Nat} (hab : a ≤ b) (hb : b ≤ ctrl.deviceLines) :
    fit cfg ctrl a ≤ fit cfg ctrl b + 5 * ((b - a) / 100 + 33) := by
  have hlines := h.lines_le
  unfold ocfCacheLineMax at hlines
  have hpages := pagesOf_grow cfg hab (by omega)
  obtain ⟨k, hk⟩ : ∃ k, cfg.pagesOf b variableSegments = cfg.pagesOf a variableSegments + k :=
    ⟨_, (Nat.add_sub_cancel' hpages.1).symm⟩
  have hbytes : k * pageSize ≤ k * cfg.lineSize.bytes := Nat.mul_le_mul_left k (pageSize_le_bytes _)
  have hstep : fit cfg ctrl a ≤ fit cfg ctrl b + k := by
    unfold fit
    rw [← Nat.add_mul_div_right _ k (bytes_pos cfg.lineSize), hk]
    refine Nat.div_le_div_right ?_
    have heq : (ctrl.countPagesFixed + (cfg.pagesOf a variableSegments + k)) * pageSize =
        (ctrl.countPagesFixed + cfg.pagesOf a variableSegments) * pageSize + k * pageSize := by
      rw [← Nat.add_assoc, Nat.add_mul]
    omega
  omega

theorem Device.diffLines_eq {c : Nat} (hc : c ≤ ctrl.deviceLines) :
    diffLines cfg ctrl (cfg.pagesOf c variableSegments) c = (fit cfg ctrl c : Int) - c := by
  have hroom := h.room hc
  have hlines := h.lines_le
  unfold ocfCacheLineMax at hlines
  have hbytes : cfg.lineSize.bytes ≤ 65536 := by
    cases cfg.lineSize <;> decide
  have hmax : ctrl.deviceLines * cfg.lineSize.bytes ≤ 2 ^ 29 * 65536 := Nat.mul_le_mul (by omega) hbytes
  unfold diffLines fit
  rw [Nat.mod_eq_of_lt (h.pages_lt hc)]
  have hsub : ((ctrl.deviceLines * cfg.lineSize.bytes : Nat) : Int) -
      ((ctrl.countPagesFixed + cfg.pagesOf c variableSegments) * pageSize : Nat) =
      ((ctrl.deviceLines * cfg.lineSize.bytes -
        (ctrl.countPagesFixed + cfg.pagesOf c variableSegments) * pageSize : Nat) : Int) := by
    omega
  have hmod : (((ctrl.deviceLines * cfg.lineSize.bytes -
      (ctrl.countPagesFixed + cfg.pagesOf c variableSegments) * pageSize : Nat) : Int)) % 2 ^ 64 =
      ((ctrl.deviceLines * cfg.lineSize.bytes -
        (ctrl.countPagesFixed + cfg.pagesOf c variableSegments) * pageSize : Nat) : Int) := by
    omega
  simp only [hsub, hmod]
  rw [Int.natCast_ediv]

theorem Device.place {c : Nat} (hpos : 1 ≤ c) (hc : c ≤ ctrl.deviceLines) :
    ∃ raws, cfg.place ((c : Int) % 2 ^ 32).toNat ctrl.countPagesFixed variableSegments 0 =
        some (raws, cfg.pagesOf c variableSegments) ∧
      Placed cfg c ctrl.countPagesFixed (ctrl.countPagesFixed + cfg.pagesOf c variableSegments) variableSegments raws := by
  have hlt := h.pages_lt hc
  have hlines := h.lines_le
  unfold ocfCacheLineMax at hlines
  have hc32 : ((c : Int) % 2 ^ 32).toNat = c := by omega
  have hentries : ∀ type ∈ variableSegments, ∃ n, ocfMetadataGetEntries type c = some n := by
    intro type _
    refine ⟨_, if_neg ?_⟩
    exact fun hzero => by omega
  obtain ⟨raws, hraws, hp⟩ := place_spec cfg ctrl.countPagesFixed variableSegments hentries 0 hlt
  rw [hc32, hraws, Nat.zero_add]
  exact ⟨raws, rfl, hp⟩

end

/-- The computation ends with cache lines that fit. -/
def Found (cfg : Config) (ctrl : Ctrl) (r : Option (Int × Ctrl)) : Prop :=
  ∃ c raws, 1 ≤ c ∧ c ≤ ctrl.deviceLines ∧ c ≤ fit cfg ctrl c ∧
    Placed cfg c ctrl.countPagesFixed (ctrl.countPagesFixed + cfg.pagesOf c variableSegments) variableSegments raws ∧
    r = some (0, { ctrl with
      countPagesVariable := cfg.pagesOf c variableSegments, cachelines := c, rawDesc := ctrl.rawDesc ++ raws })

theorem calcEnd_eq {c : Nat} (hc : c ≤ ctrl.deviceLines) (hlines : ctrl.deviceLines ≤ ocfCacheLineMax)
    (raws : List Raw) (countPages : Nat) : calcEnd ctrl raws countPages c =
      (0, { ctrl with countPagesVariable := countPages, cachelines := c, rawDesc := ctrl.rawDesc ++ raws }) := by
  unfold ocfCacheLineMax at hlines
  have hc32 : ((c : Int) % 2 ^ 32).toNat = c := by omega
  unfold calcEnd
  simp only [hc32]
  rw [if_neg (by omega)]

/-- An iteration below the limit: the loop ends with cache lines that fit, or
goes on with those that fit beside the metadata. -/
theorem Device.calcLoop_step (h : Device cfg ctrl) {c i : Nat} (low fuel : Nat) (diff : Int) (hpos : 1 ≤ c)
    (hc : c ≤ ctrl.deviceLines) (hi : i < ocfMetadataHashDiffMax) :
    Found cfg ctrl (calcLoop cfg ctrl (fuel + 1) ⟨i, diff, c, low⟩) ∨
      fit cfg ctrl c ≠ c ∧ ¬(c < fit cfg ctrl c ∧ fit cfg ctrl c - c = low) ∧
      calcLoop cfg ctrl (fuel + 1) ⟨i, diff, c, low⟩ = calcLoop cfg ctrl fuel
        ⟨i + 1, (fit cfg ctrl c : Int) - c, fit cfg ctrl c,
          if c < fit cfg ctrl c ∧ fit cfg ctrl c - c < low then (fit cfg ctrl c : Int) - c else low⟩ := by
  obtain ⟨raws, hraws, hp⟩ := h.place hpos hc
  have hdiff := h.diffLines_eq hc
  have hcap : ¬(ocfMetadataHashDiffMax ≤ i ∧ ocfMetadataCalculateExceptionHndl diff ctrl.deviceLines = true) := by
    omega
  have hcap2 : ¬2 * ocfMetadataHashDiffMax < i := by omega
  obtain ⟨v, hv⟩ : ∃ v, fit cfg ctrl c = v := ⟨_, rfl⟩
  rw [hv] at hdiff ⊢
  have hloop : calcLoop cfg ctrl (fuel + 1) ⟨i, diff, c, low⟩ =
      if 0 < (v : Int) - c ∧ (v : Int) - c = low then
        some (calcEnd ctrl raws (cfg.pagesOf c variableSegments) c)
      else if (v : Int) - c = 0 then some (calcEnd ctrl raws (cfg.pagesOf c variableSegments) (c + ((v : Int) - c)))
      else calcLoop cfg ctrl fuel ⟨i + 1, (v : Int) - c, c + ((v : Int) - c),
        if 0 < (v : Int) - c ∧ (v : Int) - c < low then (v : Int) - c else low⟩ := by
    rw [calcLoop]
    simp only [hraws, Option.bind_eq_bind, Option.bind_some, if_neg hcap, if_neg hcap2, hdiff, Option.pure_def]
  by_cases hlow : 0 < (v : Int) - c ∧ (v : Int) - c = low
  · refine .inl ⟨c, raws, hpos, hc, by omega, hp, ?_⟩
    rw [hloop, if_pos hlow, calcEnd_eq hc h.lines_le]
  · rw [if_neg hlow] at hloop
    by_cases hzero : (v : Int) - c = 0
    · refine .inl ⟨c, raws, hpos, hc, by omega, hp, ?_⟩
      rw [hloop, if_pos hzero, hzero, Int.add_zero, calcEnd_eq hc h.lines_le]
    · rw [if_neg hzero] at hloop
      refine .inr ⟨by omega, by omega, ?_⟩
      have hsum : (c : Int) + ((v : Int) - c) = v := by omega
      rw [hloop, hsum]
      by_cases hless : 0 < (v : Int) - c ∧ (v : Int) - c < low
      · rw [if_pos hless, if_pos (by omega)]
      · rw [if_neg hless, if_neg (by omega)]

theorem Device.calcLoop_found (h : Device cfg ctrl) (gap : Nat) {u i fuel : Nat} {diff : Int}
    (hu : Upper (fit cfg ctrl) ctrl.deviceLines u gap) (hpos : 1 ≤ u)
    (hi : i + 2 * rounds 400 gap + 2 ≤ ocfMetadataHashDiffMax) (hfuel : 2 * rounds 400 gap + 2 ≤ fuel) :
    Found cfg ctrl (calcLoop cfg ctrl fuel ⟨i, diff, u, gap⟩) := by
  induction gap using Nat.strong_induction_on generalizing u i fuel diff with
  | _ gap ih =>
    have hdec := h.decreasing
    obtain ⟨fuel, rfl⟩ : ∃ k, fuel = k + 2 := ⟨fuel - 2, by omega⟩
    obtain ⟨hlow, hgap⟩ := hu.lower hdec
    have hnext := hu.next_le
    have htop := hu.le_top
    have hugap := hu.gap_le
    -- the iteration at the upper value
    rcases h.calcLoop_step (i := i) gap (fuel + 1) diff hpos htop (by omega) with
      hfound | ⟨-, -, heq⟩
    · exact hfound
    rw [heq, if_neg (by omega)]
    -- the iteration at the lower value
    have hlpos := h.fit_pos htop
    have hltop : fit cfg ctrl u ≤ ctrl.deviceLines := hdec.le_top u htop
    rcases h.calcLoop_step (i := i + 1) gap fuel ((fit cfg ctrl u : Int) - u) hlpos hltop
      (by omega) with hfound | ⟨hne, hnot, heq⟩
    · exact hfound
    rw [heq]
    have hslow := h.slow hu.next_le htop
    have hless : fit cfg ctrl (fit cfg ctrl u) - fit cfg ctrl u < gap := by omega
    have hrounds : rounds 400 (fit cfg ctrl (fit cfg ctrl u) - fit cfg ctrl u) < rounds 400 gap :=
      rounds_lt (by decide) hless (by omega)
    have hcast : (if fit cfg ctrl u < fit cfg ctrl (fit cfg ctrl u) ∧
        fit cfg ctrl (fit cfg ctrl u) - fit cfg ctrl u < gap then
        (fit cfg ctrl (fit cfg ctrl u) : Int) - fit cfg ctrl u else gap) =
        ((fit cfg ctrl (fit cfg ctrl u) - fit cfg ctrl u : Nat) : Int) := by
      omega
    rw [hcast]
    exact ih _ hless (hu.next hdec) (h.fit_pos hltop) (by omega) (by omega)

/-- `ocf_metadata_calculate_metadata_size` ends with cache lines that fit. -/
theorem Device.calculate (h : Device cfg ctrl) : Found cfg ctrl (ocfMetadataCalculateMetadataSize cfg ctrl) := by
  have hlines := h.lines_le
  have hsize := h.size_le
  have hrounds : rounds 400 ctrl.deviceLines ≤ 400 + 29 := rounds_le (by
    unfold ocfCacheLineMax at hlines
    omega)
  have hpos : 1 ≤ ctrl.deviceLines := by
    by_contra hzero
    have heq : ctrl.deviceLines = 0 := by omega
    rw [heq, Nat.zero_mul] at hsize
    exact absurd hsize (by decide)
  refine h.calcLoop_found ctrl.deviceLines (upper_top h.decreasing) hpos ?_ ?_
  · unfold ocfMetadataHashDiffMax
    omega
  · unfold ocfMetadataHashDiffMax
    omega

end Loop

/-! ## The layout -/

/-- `ocf_metadata_ctrl_init` places the segments of fixed size. -/
theorem ctrlInit_eq (cfg : Config) : ∃ raws, ocfMetadataCtrlInit cfg = some ⟨0, cfg.pagesOf 0 fixedSegments, 0, 0, raws⟩ ∧
    Placed cfg 0 0 (cfg.pagesOf 0 fixedSegments) fixedSegments raws := by
  have hentries : ∀ type ∈ fixedSegments, ∃ n, ocfMetadataGetEntries type 0 = some n := by
    intro type htype
    refine ⟨_, if_neg fun hvar => ?_⟩
    cases type <;> simp [fixedSegments, variableSegments] at htype hvar
  have hlt : 0 + 0 + cfg.pagesOf 0 fixedSegments < 2 ^ 32 := by
    rw [pagesOf_fixed]
    split <;> omega
  obtain ⟨raws, hraws, hp⟩ := place_spec cfg 0 fixedSegments hentries 0 hlt
  rw [Nat.zero_add] at hraws hp
  rw [Nat.zero_add] at hp
  refine ⟨raws, ?_, hp⟩
  unfold ocfMetadataCtrlInit
  rw [hraws]
  rfl

theorem Placed.fixed {cfg : Config} {lo hi : Nat} {raws : List Raw} (h : Placed cfg 0 lo hi fixedSegments raws) (c : Nat) :
    Placed cfg c lo hi fixedSegments raws := by
  refine ⟨h.segments, h.disabled, fun r hr hd => ?_, h.room, h.within, h.disjoint⟩
  have htype : r.segment ∈ fixedSegments := by
    rw [← h.segments]
    exact List.mem_map_of_mem hr
  rw [← h.entries r hr hd]
  unfold ocfMetadataGetEntries
  cases hseg : r.segment <;> rw [hseg] at htype <;> simp [fixedSegments, variableSegments] at htype ⊢

/-- The metadata of every supported device is placed: the computation of its
size ends, the segments have room for their entries and do not overlap, and the
cache lines fit behind them. -/
theorem metadata_fits_device (cfg : Config) (deviceSize : Nat) (hmin : ocfCacheSizeMin ≤ deviceSize)
    (hmax : deviceSize / cfg.lineSize.bytes ≤ ocfCacheLineMax) :
    ∃ ctrl ctrl', ocfMetadataCtrlInit cfg = some ctrl ∧
      ocfMetadataInitVariableSize cfg ctrl deviceSize = some (0, ctrl') ∧
      ctrl'.deviceLines = deviceSize / cfg.lineSize.bytes ∧ 1 ≤ ctrl'.cachelines ∧
      Placed cfg ctrl'.cachelines 0 (ctrl'.countPagesFixed + ctrl'.countPagesVariable)
        (fixedSegments ++ variableSegments) ctrl'.rawDesc ∧
      (ctrl'.countPagesFixed + ctrl'.countPagesVariable) * pageSize + ctrl'.cachelines * cfg.lineSize.bytes ≤
        ctrl'.deviceLines * cfg.lineSize.bytes := by
  obtain ⟨fixed, hinit, hfixed⟩ := ctrlInit_eq cfg
  obtain ⟨ctrl, hctrl⟩ : ∃ ctrl : Ctrl,
      ⟨0, cfg.pagesOf 0 fixedSegments, 0, deviceSize / cfg.lineSize.bytes, fixed⟩ = ctrl := ⟨_, rfl⟩
  have hlines : ctrl.deviceLines = deviceSize / cfg.lineSize.bytes := by rw [← hctrl]
  have hpages : ctrl.countPagesFixed = cfg.pagesOf 0 fixedSegments := by rw [← hctrl]
  have hraws : ctrl.rawDesc = fixed := by rw [← hctrl]
  have hdevice : Device cfg ctrl := by
    refine ⟨hlines ▸ hmax, ?_, hpages⟩
    rw [hlines]
    unfold ocfCacheSizeMin at hmin ⊢
    cases cfg.lineSize <;> simp only [LineSize.bytes] <;> omega
  obtain ⟨c, raws, hpos, hle, hfit, hp, heq⟩ := hdevice.calculate
  have hfits : (ctrl.countPagesFixed + cfg.pagesOf c variableSegments) * pageSize + c * cfg.lineSize.bytes ≤
      ctrl.deviceLines * cfg.lineSize.bytes := by
    have hroom := hdevice.room hle
    have hmul := (Nat.le_div_iff_mul_le (bytes_pos cfg.lineSize)).mp hfit
    omega
  refine ⟨_, { ctrl with
    countPagesVariable := cfg.pagesOf c variableSegments, cachelines := c, rawDesc := ctrl.rawDesc ++ raws },
    hinit, ?_, hlines, hpos, ?_, hfits⟩
  · unfold ocfMetadataInitVariableSize
    rw [if_neg (Nat.not_lt.mpr hmax)]
    change (ocfMetadataCalculateMetadataSize cfg ⟨0, cfg.pagesOf 0 fixedSegments, 0, _, fixed⟩).bind _ = _
    rw [hctrl, heq]
    rfl
  · change Placed cfg c 0 (ctrl.countPagesFixed + cfg.pagesOf c variableSegments) _ (ctrl.rawDesc ++ raws)
    rw [hpages] at hp
    rw [hpages, hraws]
    exact (hfixed.fixed c).append hp (Nat.zero_le _) (Nat.le_add_right _ _)

/-- The smallest device, with cache lines of 64 KiB. -/
theorem metadata_fits_device_smallest :
    ocfCacheSizeMin ≤ 40 * 2 ^ 20 ∧ 40 * 2 ^ 20 / LineSize.k64.bytes ≤ ocfCacheLineMax ∧
      ∃ ctrl ctrl', ocfMetadataCtrlInit ⟨false, false, false, .k64, .lfu, false⟩ = some ctrl ∧
        ocfMetadataInitVariableSize ⟨false, false, false, .k64, .lfu, false⟩ ctrl (40 * 2 ^ 20) = some (0, ctrl') := by
  have hmin : ocfCacheSizeMin ≤ 40 * 2 ^ 20 := le_rfl
  have hmax : 40 * 2 ^ 20 / LineSize.k64.bytes ≤ ocfCacheLineMax := by decide
  obtain ⟨ctrl, ctrl', hinit, hcalc, -⟩ :=
    metadata_fits_device ⟨false, false, false, .k64, .lfu, false⟩ (40 * 2 ^ 20) hmin hmax
  exact ⟨hmin, hmax, ctrl, ctrl', hinit, hcalc⟩

end OcfCache.MetadataSize
