import OcfCache.DirtyReference
import OcfCache.EngineLocks

/-!
# The collision metadata on the cache device

The dirty bits on the cache device are to match those in memory whenever no
request is in flight. Every completion path flushes the lines whose dirty bits
it changed, except the invalidation after a failed transfer: it purges its
blocks in memory and leaves the device alone. The metadata stays in step for
all runs in which no invalidation purges a dirty block.
-/

namespace OcfCache.MetadataSync

open Loops Metadata Requests EngineCommon CacheLine EngineIo EngineMachine EngineSystem EngineFrame
open LineChanges MappingSpec EngineLocks Runs

section Changes

variable {D : Type*} {cfg : Config} {s : Shared D} {f : Flight D} {ch : Choice D}

/-- What a step may do to the metadata. -/
structure Changes (cfg : Config) (s : Shared D) (f : Flight D) (ch : Choice D) (r : Next D) :
    Prop where
  /-- Dirty blocks stay valid. -/
  dirtyValid : DirtyValid cfg.g r.1.md
  /-- Lines with another core line are clean. -/
  info : InfoKept cfg.g s.md r.1.md
  /-- Only lines under write locks and lines found for the request become
  invalid. -/
  keep : ∀ x b, s.md.valid x b = true → r.1.md.valid x b = true ∨
    (x ∈ f.held ∧ f.alockRw = .write) ∨ Victim ch.victims x
  /-- Lines with other dirty bits are flushed next. -/
  flush : ∀ x, (∃ b < cfg.g.lineBlocks, r.1.md.dirty x b ≠ s.md.dirty x b) →
    ∃ k, r.2.pc = .flush k ∧ x ∈ flushLines cfg r.2 k
  /-- The device changes only by a flush. -/
  disk : (∀ k, f.pc ≠ .flush k) → r.1.disk = s.disk

variable {r : Next D}

theorem changes_grow (hv : DirtyValid cfg.g s.md) (hd : r.1.md.dirty = s.md.dirty)
    (hc : r.1.md.coreInfo = s.md.coreInfo)
    (hg : ∀ x b, s.md.valid x b = true → r.1.md.valid x b = true) (hk : r.1.disk = s.disk) :
    Changes cfg s f ch r := by
  refine ⟨fun x b hb hdirty => ?_, fun x => .inl (by rw [hc]), fun x b h => .inl (hg x b h),
    fun x ⟨b, _, hne⟩ => absurd (by rw [hd]) hne, fun _ => hk⟩
  rw [hd] at hdirty
  exact hg x b (hv x b hb hdirty)

theorem changes_same (hv : DirtyValid cfg.g s.md) (hm : r.1.md = s.md)
    (hk : r.1.disk = s.disk) : Changes cfg s f ch r :=
  changes_grow hv (by rw [hm]) (by rw [hm]) (fun x b h => by rw [hm]; exact h) hk

theorem changes_rePart (hv : DirtyValid cfg.g s.md)
    (hm : r.1.md = rePart cfg.g s.md f.req) (hk : r.1.disk = s.disk) : Changes cfg s f ch r := by
  obtain ⟨-, hc, hval, hd⟩ := rePart_same cfg.g f.req s.md
  refine changes_grow hv (by rw [hm, hd]) (by rw [hm, hc]) (fun x b h => ?_) hk
  rw [hm, hval]
  exact h

theorem callPrepared_changes {h : Handler} {onError : Flight D → Flight D}
    (hr : callPrepared cfg s f ch h onError = some r) (hv : DirtyValid cfg.g s.md) :
    Changes cfg s f ch r := by
  obtain ⟨q, hq, hr⟩ := Option.map_eq_some_iff.mp hr
  have hp := prepareClines_spec hq hv
  have hmd : r.1.md = q.1 ∧ r.1.disk = s.disk := by
    rw [← hr]
    split <;> exact ⟨rfl, rfl⟩
  refine ⟨hmd.1 ▸ hp.valid, hmd.1 ▸ hp.info, fun x b h => ?_, fun x ⟨b, _, hne⟩ => ?_,
    fun _ => hmd.2⟩
  · rw [hmd.1]
    rcases hp.keep x b h with h' | h'
    · exact .inl h'
    · exact .inr (.inr h')
  · rw [hmd.1, hp.dirty] at hne
    exact absurd rfl hne

theorem call_changes {cb : EngineCb} (h : call cfg s f ch cb = some r)
    (hv : DirtyValid cfg.g s.md) : Changes cfg s f ch r := by
  cases cb with
  | readGeneric =>
    simp only [call] at h
    split at h
    · cases h
      exact changes_same hv rfl rfl
    · exact callPrepared_changes h hv
  | writeWt | writeWb =>
    simp only [call] at h
    exact callPrepared_changes h hv
  | readWo | writeWi =>
    cases h
    exact changes_same hv rfl rfl
  | readPt | readFast | writeWa | writeFast =>
    simp only [call] at h
    split at h
    · cases h
      exact changes_same hv rfl rfl
    · cases h
      exact changes_same hv rfl rfl

variable {k : FlushCont}

theorem mem_flushLines {f' : Flight D} {m : Marked} {x : Nat}
    (hk : ∀ back, k ≠ .clean back) (hreq : f'.req = m.toReq f.req) (hf : m.flushMetadata = true)
    (hx : ∃ i < f.req.coreLineCount cfg.g, (f.req.map i).collIdx = x ∧ m.flush i = true) :
    x ∈ flushLines cfg f' k := by
  obtain ⟨i, hi, hxi, hfi⟩ := hx
  have hlines : flushLines cfg f' k =
      ((List.range (f'.req.coreLineCount cfg.g)).filter fun i => (f'.req.map i).flush).map
        fun i => (f'.req.map i).collIdx := by
    have hmeta : f'.req.info.flushMetadata = true := by rw [hreq]; exact hf
    cases k with
    | clean back => exact absurd rfl (hk back)
    | _ => simp only [flushLines, hmeta, if_true]
  rw [hlines, hreq]
  refine List.mem_map.mpr ⟨i, List.mem_filter.mpr ⟨List.mem_range.mpr ?_, hfi⟩, hxi⟩
  exact hi

theorem purged_locked (hl : Locked cfg.g f) (hlocks : hasLocks f.pc = true)
    (hwrite : hasWriteLocks f.pc = true) {x b : Nat}
    (h : Touched cfg.g f.req mappedEntry x b) : x ∈ f.held ∧ f.alockRw = .write := by
  obtain ⟨i, hi, hmapped, hx, -, -⟩ := h
  exact ⟨hx ▸ hl.covered hlocks i hi hmapped, hl.write hwrite⟩

theorem purge_changes (hv : DirtyValid cfg.g s.md) (hl : Locked cfg.g f)
    (hlocks : hasLocks f.pc = true) (hwrite : hasWriteLocks f.pc = true)
    (hmd : r.1.md = (purge cfg s f ch).1.md) (hk : r.1.disk = s.disk)
    (hflush : ∀ x, (∃ b < cfg.g.lineBlocks, r.1.md.dirty x b ≠ s.md.dirty x b) →
      ∃ k, r.2.pc = .flush k ∧ x ∈ flushLines cfg r.2 k) : Changes cfg s f ch r := by
  obtain ⟨-, hdrop, hd, hval⟩ := purgeMapInfo_spec cfg.g f.req ch.waiters (.ofReq s.md f.req)
  have hdv : DirtyValid cfg.g (purge cfg s f ch).1.md := by
    intro x b hb hdirty
    obtain ⟨h1, h2⟩ := (hd x b).mp hdirty
    exact (hval x b).mpr ⟨hv x b hb h1, h2⟩
  refine ⟨hmd ▸ hdv, ?_, fun x b h => ?_, hflush, fun _ => hk⟩
  · rw [hmd]
    intro x
    rcases hdrop x with heq | hnone
    · exact .inl heq
    · refine .inr fun b hb => ?_
      rw [← Bool.not_eq_true]
      intro hdirty
      have hvalid := hdv x b hb hdirty
      have hnone' : (purge cfg s f ch).1.md.valid x b = false := hnone b hb
      rw [hnone'] at hvalid
      cases hvalid
  · rw [hmd]
    by_cases ht : Touched cfg.g f.req mappedEntry x b
    · exact .inr (.inl (purged_locked hl hlocks hwrite ht))
    · exact .inl ((hval x b).mpr ⟨h, ht⟩)

theorem purge_marks {x b : Nat} (h : (purge cfg s f ch).1.md.dirty x b ≠ s.md.dirty x b) :
    (purge cfg s f ch).2.req.info.flushMetadata = true ∧
      ∃ i < f.req.coreLineCount cfg.g, (f.req.map i).collIdx = x ∧
        (ocfPurgeMapInfo cfg.g f.req ch.waiters (.ofReq s.md f.req)).flush i = true :=
  (purgeMapInfo_spec cfg.g f.req ch.waiters (.ofReq s.md f.req)).1.change x ⟨b, h⟩

theorem purge_changes_flushed (hv : DirtyValid cfg.g s.md)
    (hl : Locked cfg.g f) (hlocks : hasLocks f.pc = true) (hwrite : hasWriteLocks f.pc = true)
    (hmd : r.1.md = (purge cfg s f ch).1.md) (hk : r.1.disk = s.disk)
    (hcont : ∀ back, k ≠ .clean back) (hpc : (purge cfg s f ch).2.req.info.flushMetadata = true →
      r.2.pc = .flush k ∧ r.2.req = (purge cfg s f ch).2.req) : Changes cfg s f ch r := by
  refine purge_changes hv hl hlocks hwrite hmd hk fun x ⟨b, _, hne⟩ => ?_
  rw [hmd] at hne
  obtain ⟨hf, hx⟩ := purge_marks hne
  obtain ⟨hpc, hreq⟩ := hpc hf
  exact ⟨k, hpc, mem_flushLines hcont hreq hf hx⟩

theorem writeWtUpdateBits_clean (g : Geometry) (md : LineTable) (req : Request)
    (h : ¬0 < req.info.dirtyAny) :
    (ocfWriteWtUpdateBits g (.ofReq md req) req).md.dirty = md.dirty ∧
      (ocfWriteWtUpdateBits g (.ofReq md req) req).md.coreInfo = md.coreInfo ∧
      ∀ x b, md.valid x b = true →
        (ocfWriteWtUpdateBits g (.ofReq md req) req).md.valid x b = true := by
  simp only [ocfWriteWtUpdateBits, if_neg h]
  split
  · obtain ⟨hsame, hval⟩ := setValidMapInfo_spec g req md
    obtain ⟨-, hc, hv, hd⟩ := rePart_same g req (ocfSetValidMapInfo g req md)
    refine ⟨hd.trans hsame.dirty, hc.trans hsame.coreInfo, fun x b hx => ?_⟩
    simp only [Marked.ofReq, hv]
    exact (hval x b).mpr (.inl hx)
  · obtain ⟨-, hc, hv, hd⟩ := rePart_same g req md
    refine ⟨hd, hc, fun x b hx => ?_⟩
    simp only [Marked.ofReq, hv]
    exact hx

/-- What a handler changes in the metadata. -/
theorem run_changes {h : Handler} (hv : DirtyValid cfg.g s.md) (hl : Locked cfg.g f)
    (hpc : f.pc = .run h) : Changes cfg s f ch (run cfg s f ch h) := by
  cases h with
  | readGenericDo =>
    simp only [run]
    split
    · exact changes_same hv rfl rfl
    · split
      · exact changes_same hv rfl rfl
      · split
        · exact changes_rePart hv rfl rfl
        · exact changes_rePart hv rfl rfl
  | readPtDo | readFastDo =>
    simp only [run]
    split
    · exact changes_same hv rfl rfl
    · exact changes_rePart hv rfl rfl
  | readWoDo | writeWiCoreWrite =>
    simp only [run]
    split
    · exact changes_same hv rfl rfl
    · exact changes_same hv rfl rfl
  | writeWbDo => exact changes_rePart hv rfl rfl
  | writeWtDo =>
    simp only [run]
    split
    · exact changes_same hv rfl rfl
    · rename_i hclean
      obtain ⟨hd, hc, hval⟩ := writeWtUpdateBits_clean cfg.g s.md f.req hclean
      exact changes_grow hv hd hc hval rfl
  | writeWiUpdateAndFlushMetadata =>
    have hlocks : hasLocks f.pc = true := by rw [hpc]; rfl
    have hwrite : hasWriteLocks f.pc = true := by rw [hpc]; rfl
    simp only [run, ocfWriteWiNextPass]
    split
    · split <;> exact changes_same hv rfl rfl
    · split
      · exact purge_changes_flushed hv hl hlocks hwrite rfl rfl (k := .wi) (by simp) fun _ => ⟨rfl, rfl⟩
      · rename_i hnone
        simp only [ocfWriteWiIoFlushMetadata]
        split
        · exact purge_changes_flushed hv hl hlocks hwrite rfl rfl (k := .wi) (by simp)
            fun h => absurd h hnone
        · exact purge_changes_flushed hv hl hlocks hwrite rfl rfl (k := .wi) (by simp)
            fun h => absurd h hnone
  | discardStepDo =>
    have hlocks : hasLocks f.pc = true := by rw [hpc]; rfl
    have hwrite : hasWriteLocks f.pc = true := by rw [hpc]; rfl
    simp only [run]
    split
    · exact changes_same hv rfl rfl
    · split
      · exact purge_changes_flushed hv hl hlocks hwrite rfl rfl (k := .discard) (by simp)
          fun _ => ⟨rfl, rfl⟩
      · rename_i hnone
        exact purge_changes_flushed hv hl hlocks hwrite rfl rfl (k := .discard) (by simp)
          fun h => absurd h hnone
  | cleanerCheckMap => exact changes_same hv rfl rfl

theorem changes_marked {m : Marked}
    (hm : MarksChange cfg.g f.req (.ofReq s.md f.req) m) (hmd : r.1.md = m.md)
    (hv : DirtyValid cfg.g m.md) (hc : m.md.coreInfo = s.md.coreInfo)
    (hg : ∀ x b, s.md.valid x b = true → m.md.valid x b = true) (hk : r.1.disk = s.disk)
    (hcont : ∀ back, k ≠ .clean back)
    (hpc : m.flushMetadata = true → r.2.pc = .flush k ∧ r.2.req = m.toReq f.req) :
    Changes cfg s f ch r := by
  refine ⟨hmd ▸ hv, fun x => .inl (by rw [hmd, hc]), fun x b h => .inl (by rw [hmd]; exact hg x b h),
    fun x ⟨b, _, hne⟩ => ?_, fun _ => hk⟩
  rw [hmd] at hne
  obtain ⟨hf, hx⟩ := hm.change x ⟨b, hne⟩
  obtain ⟨hpc, hreq⟩ := hpc hf
  exact ⟨k, hpc, mem_flushLines hcont hreq hf hx⟩

/-- A write-back that counts as a hit finds its blocks valid. -/
def WbValid (cfg : Config) (s : Shared D) (f : Flight D) : Prop :=
  (f.pc = .run .writeWbDo ∨ f.pc = .writeWb ∨ f.pc = .writeWbFlushMetadata) →
    ocfEngineIsHit cfg.g f.req = true → AllValid cfg.g s.md f.req

theorem writeWbUpdateBits_spec {g : Geometry} {md : LineTable} {req : Request}
    (hv : DirtyValid g md) (hhit : ocfEngineIsHit g req = true → AllValid g md req) :
    DirtyValid g (ocfWriteWbUpdateBits g (.ofReq md req) req).md ∧
      (ocfWriteWbUpdateBits g (.ofReq md req) req).md.coreInfo = md.coreInfo ∧
      ∀ x b, md.valid x b = true →
        (ocfWriteWbUpdateBits g (.ofReq md req) req).md.valid x b = true := by
  obtain ⟨hsame, hval⟩ := setValidMapInfo_spec g req md
  -- after the first half the requested blocks are valid, by the update or by the hit
  have hfirst : ∃ md₁, (if ocfEngineIsMiss g req then { Marked.ofReq md req with
        md := ocfSetValidMapInfo g req (Marked.ofReq md req).md } else .ofReq md req) =
        { Marked.ofReq md req with md := md₁ } ∧ md₁.dirty = md.dirty ∧ md₁.coreInfo = md.coreInfo ∧
      (∀ x b, md.valid x b = true → md₁.valid x b = true) ∧
      ∀ x b, Touched g req anyEntry x b → md₁.valid x b = true := by
    split
    · exact ⟨_, rfl, hsame.dirty, hsame.coreInfo, fun x b h => (hval x b).mpr (.inl h),
        fun x b h => (hval x b).mpr (.inr h)⟩
    · rename_i hmiss
      have hall := hhit (by simpa [ocfEngineIsMiss] using hmiss)
      refine ⟨md, rfl, rfl, rfl, fun _ _ h => h, ?_⟩
      rintro x b ⟨i, hi, -, rfl, hs, he⟩
      exact (hall i hi).2 b hs he
  obtain ⟨md₁, heq, hd, hc, hmono, htouched⟩ := hfirst
  simp only [ocfWriteWbUpdateBits, heq]
  split
  · refine ⟨fun x b hb h => ?_, hc, hmono⟩
    exact hmono x b (hv x b hb (by rw [← hd]; exact h))
  · obtain ⟨honly, -, hdirty⟩ := setDirtyMapInfo_spec g req
      { Marked.ofReq md req with md := md₁ }
    refine ⟨fun x b hb h => ?_, honly.coreInfo.trans hc, fun x b h => ?_⟩
    · rw [honly.valid]
      rcases (hdirty x b).mp h with h | h
      · exact hmono x b (hv x b hb (by rw [← hd]; exact h))
      · exact htouched x b h
    · rw [honly.valid]
      exact hmono x b h

theorem writeWtUpdateBits_spec {g : Geometry} {md : LineTable} (req : Request)
    (hv : DirtyValid g md) :
    MarksChange g req (.ofReq md req) (ocfWriteWtUpdateBits g (.ofReq md req) req) ∧
      DirtyValid g (ocfWriteWtUpdateBits g (.ofReq md req) req).md ∧
      (ocfWriteWtUpdateBits g (.ofReq md req) req).md.coreInfo = md.coreInfo ∧
      ∀ x b, md.valid x b = true →
        (ocfWriteWtUpdateBits g (.ofReq md req) req).md.valid x b = true := by
  obtain ⟨hsame, hval⟩ := setValidMapInfo_spec g req md
  have hfirst : ∃ md₁, (if ocfEngineIsMiss g req then { Marked.ofReq md req with
        md := ocfSetValidMapInfo g req (Marked.ofReq md req).md } else .ofReq md req) =
        { Marked.ofReq md req with md := md₁ } ∧ md₁.dirty = md.dirty ∧ md₁.coreInfo = md.coreInfo ∧
      ∀ x b, md.valid x b = true → md₁.valid x b = true := by
    split
    · exact ⟨_, rfl, hsame.dirty, hsame.coreInfo, fun x b h => (hval x b).mpr (.inl h)⟩
    · exact ⟨md, rfl, rfl, rfl, fun _ _ h => h⟩
  obtain ⟨md₁, heq, hd, hc, hmono⟩ := hfirst
  have hv₁ : DirtyValid g md₁ := fun x b hb h => hmono x b (hv x b hb (by rw [← hd]; exact h))
  have hm₁ : MarksChange g req (.ofReq md req) { Marked.ofReq md req with md := md₁ } :=
    (MarksChange.refl _).of_md hd
  simp only [ocfWriteWtUpdateBits, heq]
  split
  · obtain ⟨honly, hmarks, hdirty⟩ := setCleanMapInfo_spec g req
      { Marked.ofReq md req with md := md₁ }
    obtain ⟨-, hc', hv', hd'⟩ := rePart_same g req
      (ocfSetCleanMapInfo g req { Marked.ofReq md req with md := md₁ }).md
    refine ⟨(hm₁.trans hmarks).of_md hd', fun x b hb h => ?_, ?_, fun x b h => ?_⟩
    · rw [hd'] at h
      rw [hv', honly.valid]
      exact hv₁ x b hb ((hdirty x b).mp h).1
    · exact hc'.trans (honly.coreInfo.trans hc)
    · simp only [hv', honly.valid]
      exact hmono x b h
  · obtain ⟨-, hc', hv', hd'⟩ := rePart_same g req md₁
    refine ⟨hm₁.of_md hd', fun x b hb h => ?_, hc'.trans hc, fun x b h => ?_⟩
    · rw [hd'] at h
      rw [hv']
      exact hv₁ x b hb h
    · simp only [hv']
      exact hmono x b h

/-- The invalidation after a failed transfer purges no dirty block. -/
def CleanInvalidation (cfg : Config) (s : Shared D) (f : Flight D) : Prop :=
  f.pc = .invalidateDo → ∀ x b, Touched cfg.g f.req mappedEntry x b → s.md.dirty x b = false

theorem invalidate_changes (hv : DirtyValid cfg.g s.md) (hl : Locked cfg.g f)
    (hpc : f.pc = .invalidateDo) (hclean : CleanInvalidation cfg s f)
    (hmd : r.1.md = (purge cfg s f ch).1.md) (hk : r.1.disk = s.disk) : Changes cfg s f ch r := by
  refine purge_changes hv hl (by rw [hpc]; rfl) (by rw [hpc]; rfl) hmd hk fun x ⟨b, _, hne⟩ => ?_
  obtain ⟨-, -, hd, -⟩ := purgeMapInfo_spec cfg.g f.req ch.waiters (.ofReq s.md f.req)
  rw [hmd] at hne
  refine absurd (Bool.eq_iff_iff.mpr ((hd x b).trans (and_iff_left_of_imp fun hb ht => ?_))) hne
  have hb' : s.md.dirty x b = true := hb
  rw [hclean hpc x b ht] at hb'
  cases hb'

theorem clean_changes {stage : CleanStage} {back : Option CleanFirst} (hv : DirtyValid cfg.g s.md) :
    Changes cfg s f ch (clean cfg s f ch back stage) := by
  have hend : ∀ f' : Flight D, Changes cfg s f ch (cleanEnd s f' back) := by
    intro f'
    cases back with
    | none => exact changes_same hv rfl rfl
    | some h =>
      simp only [cleanEnd]
      split <;> exact changes_same hv rfl rfl
  cases stage with
  | checkMap =>
    simp only [clean]
    split
    · exact changes_same hv rfl rfl
    · exact hend _
  | fireFlushCache => exact hend _
  | fireCache | fireCore | fireFlushCore =>
    simp only [clean]
    split
    · exact changes_same hv rfl rfl
    · exact changes_same hv rfl rfl
  | updateMetadata =>
    obtain ⟨honly, hd, hflag⟩ := cleanerUpdateMetadata_spec (g := cfg.g) s.md f.job
    refine ⟨fun x b hb h => ?_, fun x => .inl (congrFun honly.coreInfo x), fun x b h => .inl ?_,
      fun x hx => ⟨.clean back, rfl, ?_⟩, fun _ => rfl⟩
    · have hval := hv x b hb ((hd x b).mp h).1
      simp only [clean, Shared.setMd, honly.valid]
      exact hval
    · simp only [clean, Shared.setMd, honly.valid]
      exact h
    · -- a line that changed was live, so it is among the flushed lines
      obtain ⟨b, -, hne⟩ := hx
      have hany : (ocfCleanerUpdateMetadata cfg.g s.md f.job).2 = true := by
        cases hf : (ocfCleanerUpdateMetadata cfg.g s.md f.job).2 with
        | true => rfl
        | false => exact absurd (congrFun (congrFun (hflag hf) x) b) hne
      have hlive : ∃ e ∈ f.job, e.live = true ∧ e.collIdx = x := by
        by_contra hno
        refine hne (Bool.eq_iff_iff.mpr ((hd x b).trans (and_iff_left_of_imp fun _ h => ?_)))
        exact hno h.2
      obtain ⟨e, he, hle, hx⟩ := hlive
      simp only [clean, flushLines, hany, if_true]
      refine List.mem_map.mpr ⟨e, List.mem_filter.mpr ⟨he, ?_⟩, hx⟩
      simp only [CleanEntry.live, Bool.and_eq_true] at hle
      exact hle.1

variable (cfg s f) in
theorem flushed_spec (k : FlushCont) : (flushed cfg s f k).1.md = s.md ∧
    (flushed cfg s f k).1.disk = ocfMetadataFlush cfg s.md s.disk (flushLines cfg f k) := by
  cases k with
  | wi =>
    simp only [flushed, ocfWriteWiIoFlushMetadata]
    split <;> exact ⟨rfl, rfl⟩
  | _ => exact ⟨rfl, rfl⟩

theorem flushed_changes (hv : DirtyValid cfg.g s.md) (hpc : f.pc = .flush k) :
    Changes cfg s f ch (flushed cfg s f k) := by
  have hmd := (flushed_spec cfg s f k).1
  refine ⟨by rw [hmd]; exact hv, fun x => .inl (by rw [hmd]), fun x b h => .inl ?_,
    fun x ⟨b, _, hne⟩ => absurd (by rw [hmd]) hne, fun h => absurd hpc (h k)⟩
  rw [hmd]
  exact h

theorem writeWt_changes {cacheDone coreDone : Bool} (hv : DirtyValid cfg.g s.md) :
    Changes cfg s f ch (writeWt cfg s f ch cacheDone coreDone) := by
  have hdone : ∀ (s' : Shared D) (f' : Flight D), s'.md = s.md → s'.disk = s.disk →
      Changes cfg s f ch (ocfWriteWtReqComplete s' f') := by
    intro s' f' hm hk
    simp only [ocfWriteWtReqComplete]
    split
    · exact changes_same hv hm hk
    · split <;> exact changes_same hv hm hk
  unfold writeWt
  split
  · cases coreDone
    · exact changes_same hv rfl rfl
    · exact hdone _ _ rfl rfl
  · cases cacheDone
    · exact changes_same hv rfl rfl
    · exact hdone _ _ rfl rfl

/-- What a step changes in the metadata. -/
theorem step_changes (h : step cfg s f ch = some r) (hv : DirtyValid cfg.g s.md)
    (hl : Locked cfg.g f) (hwb : WbValid cfg s f) (hinv : CleanInvalidation cfg s f) :
    Changes cfg s f ch r := by
  cases hpc : f.pc with
  | call cb =>
    simp only [step, hpc] at h
    exact call_changes h hv
  | run hd =>
    simp only [step, hpc, Option.some.injEq] at h
    subst h
    exact run_changes hv hl hpc
  | clean stage back =>
    simp only [step, hpc, Option.some.injEq] at h
    subst h
    exact clean_changes hv
  | flush k =>
    simp only [step, hpc, Option.some.injEq] at h
    subst h
    exact flushed_changes hv hpc
  | writeWt cacheDone coreDone =>
    simp only [step, hpc, Option.some.injEq] at h
    subst h
    exact writeWt_changes hv
  | invalidateDo =>
    simp only [step, hpc, Option.some.injEq] at h
    subst h
    exact invalidate_changes hv hl hpc hinv rfl rfl
  | writeWbFlushMetadata =>
    obtain ⟨hv', hc, hg⟩ := writeWbUpdateBits_spec hv (hwb (.inr (.inr hpc)))
    have hm := writeWbUpdateBits_marks cfg.g f.req (.ofReq s.md f.req)
    simp only [step, hpc] at h
    split at h
    · cases h
      exact changes_marked hm rfl hv' hc hg rfl (k := .wb) (by simp) fun _ => ⟨rfl, rfl⟩
    · rename_i hnone
      cases h
      exact changes_marked hm rfl hv' hc hg rfl (k := .wb) (by simp) fun h => absurd h hnone
  | writeWtFlushMetadata =>
    obtain ⟨hm, hv', hc, hg⟩ := writeWtUpdateBits_spec f.req hv
    simp only [step, hpc] at h
    split at h
    · cases h
      exact changes_marked hm rfl hv' hc hg rfl (k := .wt) (by simp) fun _ => ⟨rfl, rfl⟩
    · rename_i hnone
      cases h
      exact changes_marked hm rfl hv' hc hg rfl (k := .wt) (by simp) fun h => absurd h hnone
  | backfillUpdateMetadata =>
    obtain ⟨hsame, hval⟩ := setValidMapInfo_spec cfg.g f.req s.md
    simp only [step, hpc, Option.some.injEq] at h
    subst h
    exact changes_grow hv hsame.dirty hsame.coreInfo (fun x b h => (hval x b).mpr (.inl h)) rfl
  | writeWiNextPass =>
    simp only [step, hpc, Option.some.injEq] at h
    subst h
    simp only [ocfWriteWiNextPass]
    split <;> exact changes_same hv rfl rfl
  | discardCore =>
    simp only [step, hpc, ocfDiscardCoreComplete] at h
    split at h
    · cases h
      split
      · exact changes_same hv rfl rfl
      · split <;> exact changes_same hv rfl rfl
    · cases h
      exact changes_same hv rfl rfl
  | done => simp [step, hpc] at h
  | wait | readPt | readWoCache | cleanerFire | discardStep | discardFlushCache =>
    simp only [step, hpc, Option.some.injEq] at h
    subst h
    exact changes_same hv rfl rfl
  | refresh | readHit | readMiss | readWoCore | writeWb | writeWi | backfillDo | backfill =>
    simp only [step, hpc] at h
    split at h
    · cases h
      exact changes_same hv rfl rfl
    · cases h
      exact changes_same hv rfl rfl

theorem wbValid_of_path (h : pcPath r.2.pc ≠ .lazy) : WbValid cfg r.1 r.2 := by
  intro hp
  rcases hp with hp | hp | hp
  · exact absurd (by rw [hp]; rfl) h
  · exact absurd (by rw [hp]; rfl) h
  · exact absurd (by rw [hp]; rfl) h

theorem asyncLock_wbValid {s' : Shared D} {rw : Dir} {refresh : Bool}
    (h : ocfEngineIsHit cfg.g f.req = true → AllValid cfg.g s'.md f.req) :
    WbValid cfg s' (asyncLock cfg f ch rw refresh .writeWbDo) := by
  unfold asyncLock
  split
  · exact fun _ => h
  · intro hp
    rcases hp with hp | hp | hp <;> cases hp

/-- A lazy write keeps its lines valid. -/
theorem WbValid.step (hwb : WbValid cfg s f) (h : EngineMachine.step cfg s f ch = some r)
    (hv : DirtyValid cfg.g s.md) (hl : Locked cfg.g f) : WbValid cfg r.1 r.2 := by
  by_cases hp : pcPath r.2.pc = .lazy
  · have hpath : pcPath f.pc = .fast ∨ pcPath f.pc = .lazy := by
      have hnext := (step_moves h).path
      rw [hp] at hnext
      generalize pcPath f.pc = p at hnext
      cases hnext with
      | same => exact .inr rfl
      | fastLazy => exact .inl rfl
    cases hpc : f.pc with
    | call cb =>
      cases cb with
      | writeWb =>
        simp only [EngineMachine.step, hpc, call] at h
        obtain ⟨q, hq, hr⟩ := Option.map_eq_some_iff.mp h
        have hprep := prepareClines_spec hq hv
        rw [← hr]
        split
        · rename_i hok
          exact asyncLock_wbValid fun hhit => hprep.hit hok hhit
        · exact wbValid_of_path (fun h => by cases h)
      | writeFast =>
        simp only [EngineMachine.step, hpc, call] at h
        split at h
        · cases h
          exact asyncLock_wbValid fun hhit => lookup_isHit hhit
        · cases h
          intro hp'
          rcases hp' with hp' | hp' | hp' <;> cases hp'
      | _ => rw [hpc] at hpath; simp [pcPath, cbPath] at hpath
    | wait refresh hd =>
      simp only [EngineMachine.step, hpc, Option.some.injEq] at h
      subst h
      intro hp'
      cases refresh with
      | true => rcases hp' with hp' | hp' | hp' <;> cases hp'
      | false =>
        have hne : hd ≠ .writeWbDo := fun heq => hl.waits (heq ▸ hpc)
        rcases hp' with hp' | hp' | hp'
        · exact absurd (Pc.run.inj hp') hne
        · cases hp'
        · cases hp'
    | refresh hd =>
      simp only [EngineMachine.step, hpc] at h
      split at h
      · cases h
        exact wbValid_of_path (fun h => by cases h)
      · rename_i hgone
        cases h
        exact fun _ hhit => check_isHit (by simpa using hgone) hhit
    | run hd =>
      simp only [EngineMachine.step, hpc, Option.some.injEq] at h
      subst h
      have hd' : hd = .writeWbDo := by
        cases hd <;> simp_all [pcPath, handlerPath]
      subst hd'
      intro _ hhit i hi
      obtain ⟨hs, hval⟩ := hwb (.inl hpc) hhit i hi
      refine ⟨hs, fun b hb he => ?_⟩
      simp only [run, Shared.setMd, (rePart_same cfg.g f.req s.md).2.2.1]
      exact hval b hb he
    | writeWb =>
      simp only [EngineMachine.step, hpc] at h
      split at h
      · cases h
        exact fun _ hhit => hwb (.inr (.inl hpc)) hhit
      · cases h
        exact wbValid_of_path (fun h => by cases h)
    | writeWbFlushMetadata =>
      simp only [EngineMachine.step, hpc] at h
      split at h
      · cases h
        intro hp'
        rcases hp' with hp' | hp' | hp' <;> cases hp'
      · cases h
        exact wbValid_of_path (fun h => by cases h)
    | flush k =>
      rw [hpc] at hpath
      have hk : k = .wb := by
        rcases k with _ | _ | _ | _ | (_ | (_ | _ | _)) <;>
          simp_all [pcPath, backPath, handlerPath, CleanFirst.handler]
      subst hk
      simp only [EngineMachine.step, hpc, Option.some.injEq] at h
      subst h
      exact wbValid_of_path (fun h => by cases h)
    | clean stage back =>
      rw [hpc] at hpath
      rcases back with _ | (_ | _ | _) <;>
        simp [pcPath, backPath, handlerPath, CleanFirst.handler] at hpath
    | _ => rw [hpc] at hpath; simp [pcPath] at hpath
  · exact wbValid_of_path hp

end Changes

section Runs

variable {D : Type*} (cfg : Config)

/-- The device marks the dirty blocks of the line, for the same core line. -/
structure Agrees (s : Shared D) (x : Nat) : Prop where
  /-- Dirty blocks. -/
  dirty : ∀ b < cfg.g.lineBlocks, (s.disk x).dirty b = s.md.dirty x b
  /-- Core line of a line with a dirty block. -/
  coreInfo : ¬CleanLine cfg.g s.md x → (s.disk x).coreInfo = s.md.coreInfo x

/-- A flush of the line is pending. -/
def Pending (fs : List (Flight D)) (x : Nat) : Prop :=
  ∃ f ∈ fs, ∃ k, f.pc = .flush k ∧ x ∈ flushLines cfg f k

/-- Steps under a condition, with cache line locks that exclude each other and
lines found for a mapping that nobody else has locked. -/
def lockGuard (cond : Shared D → Flight D → Prop) (st : State D) : Action D → Prop
  | .step i ch => ∀ f, st.flights[i]? = some f → cond st.shared f ∧
    ∀ (j : Nat) f', j ≠ i → st.flights[j]? = some f' →
      (∀ r, step cfg st.shared f ch = some r → ∀ x ∈ r.2.held, x ∈ f'.held →
        r.2.alockRw = .read ∧ f'.alockRw = .read) ∧
      ∀ x, Victim ch.victims x → x ∉ f'.held
  | _ => True

/-- Invariant of the system. -/
structure Inv (st : State D) : Prop where
  /-- Locks fit the places of the requests. -/
  locked : ∀ f ∈ st.flights, Locked cfg.g f ∧ DirFits f
  /-- Blocks of write-back hits are valid. -/
  wbValid : ∀ f ∈ st.flights, WbValid cfg st.shared f
  /-- Locks exclude each other. -/
  exclusive : ∀ (i j : Nat) f f', i ≠ j → st.flights[i]? = some f → st.flights[j]? = some f' →
    ∀ x ∈ f.held, x ∈ f'.held → f.alockRw = .read ∧ f'.alockRw = .read
  /-- Dirty blocks are valid. -/
  dirtyValid : DirtyValid cfg.g st.shared.md
  /-- Lines are in step, or a flush is pending. -/
  sync : ∀ x, Agrees cfg st.shared x ∨ Pending cfg st.flights x

variable {cfg} {s : Shared D} {f : Flight D} {ch : Choice D}

theorem agrees_flush {s' : Shared D} {lines : List Nat} (hmd : s'.md = s.md)
    (hdisk : s'.disk = ocfMetadataFlush cfg s.md s.disk lines) {x : Nat}
    (h : Agrees cfg s x ∨ x ∈ lines) : Agrees cfg s' x := by
  by_cases hpage : (lines.any fun y => decide (y / cfg.entriesInPage = x / cfg.entriesInPage)) = true
  · have hx : s'.disk x = ⟨s.md.coreInfo x, s.md.dirty x⟩ := by
      rw [hdisk, ocfMetadataFlush, if_pos hpage]
    exact ⟨fun b _ => by rw [hx, hmd], fun _ => by rw [hx, hmd]⟩
  · have hx : s'.disk x = s.disk x := by rw [hdisk, ocfMetadataFlush, if_neg hpage]
    rcases h with h | h
    · exact ⟨fun b hb => by rw [hx, hmd]; exact h.dirty b hb,
        fun hc => by rw [hx, hmd]; exact h.coreInfo (by rw [← hmd]; exact hc)⟩
    · exact absurd (List.any_eq_true.mpr ⟨x, h, by simp⟩) hpage

theorem agrees_keep {r : Next D} (hc : Changes cfg s f ch r) (hdisk : r.1.disk = s.disk) {x : Nat}
    (hsame : ¬∃ b < cfg.g.lineBlocks, r.1.md.dirty x b ≠ s.md.dirty x b) (h : Agrees cfg s x) :
    Agrees cfg r.1 x := by
  have hd : ∀ b < cfg.g.lineBlocks, r.1.md.dirty x b = s.md.dirty x b := by
    intro b hb
    by_contra hne
    exact hsame ⟨b, hb, hne⟩
  refine ⟨fun b hb => by rw [hdisk, hd b hb]; exact h.dirty b hb, fun hdirty => ?_⟩
  rcases hc.info x with hinfo | hclean
  · rw [hdisk, hinfo]
    refine h.coreInfo fun hcl => hdirty fun b hb => ?_
    rw [hd b hb]
    exact hcl b hb
  · exact absurd hclean hdirty

theorem getElem?_set_cases {fs : List (Flight D)} {i j : Nat} {f' x : Flight D}
    (h : (fs.set i f')[j]? = some x) : (j = i ∧ x = f') ∨ (j ≠ i ∧ fs[j]? = some x) := by
  by_cases hji : j = i
  · subst hji
    obtain ⟨hlt, -⟩ := List.getElem?_eq_some_iff.mp h
    rw [List.getElem?_set_self (by simpa using hlt)] at h
    exact .inl ⟨rfl, (Option.some.inj h).symm⟩
  · rw [List.getElem?_set_ne (Ne.symm hji)] at h
    exact .inr ⟨hji, h⟩

theorem WbValid.other {f' : Flight D} {r : Next D} (hwb : WbValid cfg s f')
    (hl : Locked cfg.g f') (hc : Changes cfg s f ch r)
    (hex : ∀ x ∈ f.held, x ∈ f'.held → f.alockRw = .read ∧ f'.alockRw = .read)
    (hvic : ∀ x, Victim ch.victims x → x ∉ f'.held) : WbValid cfg r.1 f' := by
  intro hp hhit i hi
  obtain ⟨hs, hval⟩ := hwb hp hhit i hi
  have hlocks : hasLocks f'.pc = true := by
    rcases hp with hp | hp | hp <;> rw [hp] <;> rfl
  have hheld := hl.covered hlocks i hi (by rw [hs]; nofun)
  refine ⟨hs, fun b hb he => ?_⟩
  rcases hc.keep _ b (hval b hb he) with h | ⟨hh, hw⟩ | h
  · exact h
  · have := (hex _ hh hheld).1
    rw [hw] at this
    cases this
  · exact absurd hheld (hvic _ h)

/-- A step of a request keeps the metadata in sync. -/
theorem Inv.stepFlight {st st' : State D} {i : Nat} (hi : Inv cfg st)
    (hg : lockGuard cfg (CleanInvalidation cfg) st (.step i ch))
    (h : st.step cfg (.step i ch) = some st') : Inv cfg st' := by
  obtain ⟨f, s', f', hf, hstep, rfl⟩ := State.step_eq_some h
  obtain ⟨hcond, hother⟩ := hg f hf
  have hmem := List.mem_of_getElem? hf
  obtain ⟨hl, hd⟩ := hi.locked f hmem
  have hc := step_changes hstep hi.dirtyValid hl (hi.wbValid f hmem) hcond
  refine ⟨fun x hx => ?_, fun x hx => ?_, fun j₁ j₂ f₁ f₂ hne h₁ h₂ x hx₁ hx₂ => ?_, hc.dirtyValid,
    fun x => ?_⟩
  · rcases List.mem_or_eq_of_mem_set hx with hx | rfl
    · exact hi.locked x hx
    · exact ⟨hl.step hd hstep, hd.step hstep⟩
  · obtain ⟨j, hj⟩ := List.mem_iff_getElem?.mp hx
    rcases getElem?_set_cases hj with ⟨-, rfl⟩ | ⟨hji, hj⟩
    · exact (hi.wbValid f hmem).step hstep hi.dirtyValid hl
    · have hxmem := List.mem_of_getElem? hj
      exact (hi.wbValid x hxmem).other (hi.locked x hxmem).1 hc
        (fun y => hi.exclusive i j f x (Ne.symm hji) hf hj y) (hother j x hji hj).2
  · rcases getElem?_set_cases h₁ with ⟨rfl, rfl⟩ | ⟨hj₁, h₁'⟩
    · rcases getElem?_set_cases h₂ with ⟨rfl, -⟩ | ⟨hj₂, h₂'⟩
      · exact absurd rfl hne
      · exact (hother j₂ f₂ hj₂ h₂').1 _ hstep x hx₁ hx₂
    · rcases getElem?_set_cases h₂ with ⟨rfl, rfl⟩ | ⟨hj₂, h₂'⟩
      · exact ((hother j₁ f₁ hj₁ h₁').1 _ hstep x hx₂ hx₁).symm
      · exact hi.exclusive j₁ j₂ f₁ f₂ hne h₁' h₂' x hx₁ hx₂
  · -- a pending flush of another request stays pending
    have hpend : ∀ p ∈ st.flights, p ≠ f → (∃ k, p.pc = .flush k ∧ x ∈ flushLines cfg p k) →
        Pending cfg (st.flights.set i f') x := by
      intro p hp hpf hk
      obtain ⟨j, hj⟩ := List.mem_iff_getElem?.mp hp
      have hji : i ≠ j := by
        rintro rfl
        exact hpf (Option.some.inj (hj.symm.trans hf))
      exact ⟨p, List.mem_of_getElem? ((List.getElem?_set_ne hji).trans hj), hk⟩
    have hset : f' ∈ st.flights.set i f' :=
      List.mem_set (List.getElem?_eq_some_iff.mp hf).1 f'
    by_cases hflush : ∃ k, f.pc = .flush k
    · obtain ⟨k, hk⟩ := hflush
      have hr : flushed cfg st.shared f k = (s', f') := by
        simpa only [step, hk, Option.some.injEq] using hstep
      obtain ⟨hmd, hdisk⟩ := flushed_spec cfg st.shared f k
      rw [hr] at hmd hdisk
      rcases hi.sync x with ha | ⟨p, hp, hk'⟩
      · exact .inl (agrees_flush hmd hdisk (.inl ha))
      · by_cases hpf : p = f
        · obtain ⟨k', hk', hx⟩ := hk'
          rw [hpf, hk] at hk'
          cases hk'
          exact .inl (agrees_flush hmd hdisk (.inr (hpf ▸ hx)))
        · exact .inr (hpend p hp hpf hk')
    · have hdisk := hc.disk fun k hk => hflush ⟨k, hk⟩
      by_cases hchange : ∃ b < cfg.g.lineBlocks, s'.md.dirty x b ≠ st.shared.md.dirty x b
      · exact .inr ⟨f', hset, hc.flush x hchange⟩
      · rcases hi.sync x with ha | ⟨p, hp, hk⟩
        · exact .inl (agrees_keep hc hdisk hchange ha)
        · refine .inr (hpend p hp (fun hpf => ?_) hk)
          obtain ⟨k, hk, -⟩ := hk
          exact hflush ⟨k, hpf ▸ hk⟩

theorem Inv.append {st : State D} (hi : Inv cfg st) {s' : Shared D} {f : Flight D}
    (hmd : s'.md = st.shared.md) (hdisk : s'.disk = st.shared.disk) (hheld : f.held = [])
    (hd : DirFits f) (hpc : (∃ cb, f.pc = .call cb) ∨ f.pc = .discardCore ∨ f.pc = .cleanerFire) :
    Inv cfg ⟨s', st.flights ++ [f]⟩ := by
  have hlock : Locked cfg.g f := by
    refine locked_release ?_
    rcases hpc with ⟨cb, h⟩ | h | h <;> rw [h] <;> rfl
  have hwb : ∀ t : Shared D, WbValid cfg t f := by
    intro t hp
    rcases hpc with ⟨cb, h⟩ | h | h <;> rw [h] at hp <;> rcases hp with hp | hp | hp <;> cases hp
  have hold : ∀ {j : Nat} {x : Flight D}, (st.flights ++ [f])[j]? = some x →
      st.flights[j]? = some x ∨ x = f := by
    intro j x hx
    rw [List.getElem?_append] at hx
    split at hx
    · exact .inl hx
    · obtain ⟨_, hxf⟩ := List.getElem?_eq_some_iff.mp hx
      simp only [List.getElem_singleton] at hxf
      exact .inr hxf.symm
  refine ⟨fun x hx => ?_, fun x hx => ?_, fun i j f₁ f₂ hne h₁ h₂ x hx₁ hx₂ => ?_, ?_, fun x => ?_⟩
  · rcases List.mem_append.mp hx with hx | hx
    · exact hi.locked x hx
    · rw [List.mem_singleton.mp hx]
      exact ⟨hlock, hd⟩
  · rcases List.mem_append.mp hx with hx | hx
    · intro hp hhit
      simp only [hmd]
      exact hi.wbValid x hx hp hhit
    · rw [List.mem_singleton.mp hx]
      exact hwb s'
  · rcases hold h₁ with h₁ | rfl
    · rcases hold h₂ with h₂ | rfl
      · exact hi.exclusive i j f₁ f₂ hne h₁ h₂ x hx₁ hx₂
      · rw [hheld] at hx₂
        cases hx₂
    · rw [hheld] at hx₁
      cases hx₁
  · simp only [hmd]
    exact hi.dirtyValid
  · rcases hi.sync x with ha | ⟨p, hp, hk⟩
    · refine .inl ⟨fun b hb => ?_, fun hc => ?_⟩
      · simp only [hmd, hdisk]
        exact ha.dirty b hb
      · simp only [hmd, hdisk] at hc ⊢
        exact ha.coreInfo hc
    · exact .inr ⟨p, List.mem_append.mpr (.inl hp), hk⟩

variable (cfg) in
theorem submit_spec (set : Settings) (s : Shared D) (io : Io D) :
    let r := ocfCoreVolumeSubmitIo cfg set s io
    r.1.md = s.md ∧ r.1.disk = s.disk ∧ r.2.held = [] ∧ DirFits r.2 := by
  have hres : ∀ f : Flight D, f.held = [] →
      (ocfResolveEffectiveCacheMode cfg set s f).1.md = s.md ∧
      (ocfResolveEffectiveCacheMode cfg set s f).1.disk = s.disk ∧
      (ocfResolveEffectiveCacheMode cfg set s f).2.held = [] := by
    intro f hf
    unfold ocfResolveEffectiveCacheMode
    split_ifs
    all_goals try exact ⟨rfl, rfl, hf⟩
    simp only [ocfReqSetDirty]
    split
    · cases s.dirtyFrozen <;> exact ⟨rfl, rfl, hf⟩
    · exact ⟨rfl, rfl, hf⟩
  obtain ⟨hmd, hdisk, hheld⟩ := hres
    (newFlight .io io (ocfUserPartClass2id set io.ioClass) .done) rfl
  refine ⟨hmd, hdisk, hheld, fun hp => ?_⟩
  generalize hr : ocfResolveEffectiveCacheMode cfg set s
    (newFlight .io io (ocfUserPartClass2id set io.ioClass) .done) = r at hp
  simp only [ocfCoreVolumeSubmitIo, hr, pcPath] at hp ⊢
  cases hrw : r.2.req.rw with
  | write => rfl
  | read =>
    rw [hrw, (firstEngine_path cfg r.2.mode).1] at hp
    rcases hp with hp | hp | hp <;> cases hp

theorem Inv.next {st st' : State D} {act : Action D} (hi : Inv cfg st)
    (hg : lockGuard cfg (CleanInvalidation cfg) st act) (h : st.step cfg act = some st') :
    Inv cfg st' := by
  cases act with
  | submit set io =>
    cases h
    obtain ⟨hmd, hdisk, hheld, hrw⟩ := submit_spec cfg set st.shared io
    exact hi.append hmd hdisk hheld hrw (.inl ⟨_, rfl⟩)
  | discard io =>
    obtain ⟨f, hf, hst⟩ := Option.map_eq_some_iff.mp h
    unfold ocfCoreVolumeSubmitDiscard at hf
    split at hf
    · cases hf
    · cases hf
      rw [← hst]
      exact hi.append rfl rfl rfl (fun h => by rcases h with h | h | h <;> cases h) (.inr (.inl rfl))
  | clean io lines =>
    cases h
    exact hi.append rfl rfl rfl (fun h => by rcases h with h | h | h <;> cases h) (.inr (.inr rfl))
  | freeze frozen =>
    cases h
    refine ⟨hi.locked, hi.wbValid, hi.exclusive, hi.dirtyValid, fun x => ?_⟩
    rcases hi.sync x with ha | hp
    · exact .inl ⟨ha.dirty, ha.coreInfo⟩
    · exact .inr hp
  | step i ch => exact hi.stepFlight hg h

/-- The device marks a core block as dirty on a cache line. -/
def MarkedDirty (g : Geometry) (info : Nat → Nat × Nat) (dirty : Nat → Bits) (core a x : Nat) :
    Prop :=
  info x = (core, a / g.lineBlocks) ∧ dirty x (a % g.lineBlocks) = true

theorem Agrees.recovers {s : Shared D} {x : Nat} (h : Agrees cfg s x) (core a : Nat) :
    MarkedDirty cfg.g (fun x => (s.disk x).coreInfo) (fun x => (s.disk x).dirty) core a x ↔
      MarkedDirty cfg.g s.md.coreInfo s.md.dirty core a x := by
  have hb := Nat.mod_lt a cfg.g.lineBlocks_pos
  have hbits := h.dirty _ hb
  simp only [MarkedDirty, hbits]
  refine and_congr_left fun hd => ?_
  rw [h.coreInfo fun hc => by rw [hc _ hb] at hd; cases hd]

/-- In every run in which no invalidation purges a dirty block, the collision
metadata on the device marks exactly the dirty blocks whenever no request is
in flight, so a recovery finds exactly these. -/
theorem metadata_in_sync_run (cfg : Config) {start st : State D} (h0 : start.flights = [])
    (hv : DirtyValid cfg.g start.shared.md) (ha : ∀ x, Agrees cfg start.shared x)
    (hrun : Reachable (engines cfg (lockGuard cfg (CleanInvalidation cfg))) start st)
    (hdone : ∀ f ∈ st.flights, f.pc = .done) : ∀ x, Agrees cfg st.shared x ∧ ∀ core a,
      MarkedDirty cfg.g (fun x => (st.shared.disk x).coreInfo) (fun x => (st.shared.disk x).dirty)
        core a x ↔ MarkedDirty cfg.g st.shared.md.coreInfo st.shared.md.dirty core a x := by
  have hinv : Inv cfg st := hrun.invariant
    (fun _ => ⟨by simp [h0], by simp [h0], by simp [h0], hv, fun x => .inl (ha x)⟩)
    fun _ _ _ hi _ hg hs _ => hi.next hg hs
  intro x
  rcases hinv.sync x with hx | ⟨f, hf, k, hk, -⟩
  · exact ⟨hx, hx.recovers⟩
  · rw [hdone f hf] at hk
    cases hk

end Runs

section Examples

open EngineRecheck

/-- A cache without `use_submit_io_fast`. -/
def plainConfig : Config := ⟨smallGeometry, 64, false, fun _ => 128, 256, 8⟩

/-- Line 5 holds core line 0 of core 0, all of it valid and its first block
dirty. -/
def dirtyTable : LineTable :=
  { partialTable with valid := fun l b => decide (l = 5 ∧ b < 8) }

/-- The cache with that line, and its metadata on the device. -/
def dirtyStart : State Nat where
  shared := ⟨dirtyTable, fun x => ⟨dirtyTable.coreInfo x, dirtyTable.dirty x⟩, fun _ => 0,
    fun _ _ => 0, 0, false, fun _ => 0⟩
  flights := []

theorem dirtyStart_inSync : DirtyValid plainConfig.g dirtyStart.shared.md ∧
    ∀ x, Agrees plainConfig dirtyStart.shared x := by
  refine ⟨fun x b hb h => ?_, fun x => ⟨fun _ _ => rfl, fun _ => rfl⟩⟩
  have hxb : x = 5 ∧ b = 0 := by
    simpa [dirtyStart, dirtyTable, partialTable] using h
  have hlt : b < 8 := hb
  simp [dirtyStart, dirtyTable, hxb.1, hlt]

/-- Steps of a single request that does not invalidate dirty blocks. -/
def singleRequest (invalidates : Bool) (st : State Nat) : Action Nat → Bool
  | .step i _ => i == 0 && st.flights.length == 1 &&
    st.flights.all fun f => invalidates || f.pc != .invalidateDo
  | _ => true

variable {cond : Shared Nat → Flight Nat → Prop}

theorem singleRequest_guard {invalidates : Bool}
    (hcond : ∀ s f, (invalidates = true ∨ f.pc ≠ .invalidateDo) → cond s f) (st : State Nat)
    (act : Action Nat) (h : singleRequest invalidates st act = true) :
    lockGuard plainConfig cond st act := by
  cases act with
  | step i ch =>
    simp only [singleRequest, Bool.and_eq_true, beq_iff_eq, List.all_eq_true, Bool.or_eq_true,
      bne_iff_ne] at h
    obtain ⟨⟨rfl, hlen⟩, hall⟩ := h
    refine fun f hf => ⟨hcond _ f (hall f (List.mem_of_getElem? hf)), fun j f' hj hf' => ?_⟩
    obtain ⟨hlt, -⟩ := List.getElem?_eq_some_iff.mp hf'
    omega
  | _ => exact trivial

/-- A write-back write of the line and its steps, with the outcome of its
transfers. -/
def lazyWrite (ok : Bool) (n : Nat) : List (Action Nat) :=
  .submit (DirtyReference.plainSettings .wb) DirtyReference.lineWrite ::
    List.replicate n (.step 0 { DirtyReference.smooth with ok := ok })

/-- The engines without a condition, and with one. -/
def plainEngines (cond : Shared Nat → Flight Nat → Prop) : System (State Nat) (Action Nat) :=
  engines plainConfig (lockGuard plainConfig cond)

/-- The dirty bits in memory and on the device, and the places of the requests. -/
def dirtyView (st : State Nat) : Bool × Bool × List Pc :=
  (st.shared.md.dirty 5 0, (st.shared.disk 5).dirty 0, st.flights.map (·.pc))

theorem exists_run {invalidates : Bool} {acts : List (Action Nat)} {v : Bool × Bool × List Pc}
    (hcond : ∀ s f, (invalidates = true ∨ f.pc ≠ .invalidateDo) → cond s f)
    (h : (acts.foldlM (checkedStep (plainEngines cond) (singleRequest invalidates))
      dirtyStart).map dirtyView = some v) :
    ∃ st, Reachable (engines plainConfig (lockGuard plainConfig cond)) dirtyStart st ∧
      dirtyView st = v := by
  obtain ⟨st, hst, hv⟩ := Option.map_eq_some_iff.mp h
  exact ⟨st, Reachable.of_checked (singleRequest_guard hcond) hst, hv⟩

/-- After a failed write-back write of a dirty line the device still marks the
block that was purged in memory. -/
theorem metadata_not_in_sync :
    dirtyStart.flights = [] ∧ DirtyValid plainConfig.g dirtyStart.shared.md ∧
      (∀ x, Agrees plainConfig dirtyStart.shared x) ∧ ∃ st : State Nat,
        Reachable (engines plainConfig (lockGuard plainConfig fun _ _ => True)) dirtyStart st ∧
        (∀ f ∈ st.flights, f.pc = .done) ∧ ¬Agrees plainConfig st.shared 5 := by
  have hrun : ((lazyWrite false 4).foldlM (checkedStep (plainEngines fun _ _ => True)
      (singleRequest true)) dirtyStart).map dirtyView = some (false, true, [.done]) := by
    decide +kernel
  obtain ⟨st, hreach, hv⟩ := exists_run (fun _ _ _ => trivial) hrun
  obtain ⟨hmem, hdev, hpcs⟩ : st.shared.md.dirty 5 0 = false ∧ (st.shared.disk 5).dirty 0 = true ∧
      st.flights.map (·.pc) = [.done] := by simpa [dirtyView] using hv
  refine ⟨rfl, dirtyStart_inSync.1, dirtyStart_inSync.2, st, hreach, fun f hf => ?_, fun ha => ?_⟩
  · have hm : f.pc ∈ st.flights.map (·.pc) := List.mem_map.mpr ⟨f, hf, rfl⟩
    rw [hpcs] at hm
    exact List.mem_singleton.mp hm
  · have := ha.dirty 0 (by decide)
    rw [hmem, hdev] at this
    cases this

/-- A write-back write that succeeds leaves the metadata in step. -/
theorem metadata_in_sync_lazyWrite : ∃ st : State Nat,
    Reachable (engines plainConfig (lockGuard plainConfig (CleanInvalidation plainConfig)))
      dirtyStart st ∧ dirtyView st = (true, true, [.done]) ∧ Agrees plainConfig st.shared 5 := by
  have hrun : ((lazyWrite true 5).foldlM
      (checkedStep (plainEngines (CleanInvalidation plainConfig)) (singleRequest false))
      dirtyStart).map dirtyView = some (true, true, [.done]) := by decide +kernel
  have hcond : ∀ (s : Shared Nat) (f : Flight Nat), (false = true ∨ f.pc ≠ .invalidateDo) →
      CleanInvalidation plainConfig s f :=
    fun s f h hpc => absurd hpc (h.resolve_left Bool.false_ne_true)
  obtain ⟨st, hreach, hv⟩ := exists_run hcond hrun
  refine ⟨st, hreach, hv, (metadata_in_sync_run plainConfig rfl dirtyStart_inSync.1
    dirtyStart_inSync.2 hreach (fun f hf => ?_) 5).1⟩
  have hpcs : st.flights.map (·.pc) = [.done] := congrArg (·.2.2) hv
  have hm : f.pc ∈ st.flights.map (·.pc) := List.mem_map.mpr ⟨f, hf, rfl⟩
  rw [hpcs] at hm
  exact List.mem_singleton.mp hm

end Examples

end OcfCache.MetadataSync
