import OcfCache.Superblock

/-!
# Crash safety of superblock updates

A run writes only the copy that no superblock of the device selects, so every
superblock that a crash may leave selects a settled copy. The handler of
errors turns the index back also when it was not turned yet, and when the new
superblock may already be on the device; in both cases a later run writes a
selected copy.
-/

namespace OcfCache.Superblock

open Runs WriteCache
open List (mem_cons mem_cons_self not_mem_nil)

variable {α β : Type*} {l : Layout α β} {s s' : State α β} {r : Run}

/-- What a crash leaves. -/
structure Image (α β : Type*) where
  /-- The superblock page. -/
  sb : Record α β
  /-- The copies. -/
  copies : Segment → Nat → Nat → α

/-- An image that a crash may leave. -/
def State.Leaves (s : State α β) (im : Image α β) : Prop :=
  s.sbPage.MayHold im.sb ∧ ∀ g i p, (s.copies g i p).MayHold (im.copies g i p)

/-- The copies that a superblock selects belong to it. -/
structure Image.Sound (l : Layout α β) (im : Image α β) : Prop where
  /-- The superblock selects a copy. -/
  index : im.sb.sb.flappingIdx < 2
  /-- The checksums match. -/
  checksum (g : Segment) :
    ocfMetadataRawChecksum l (im.copies g im.sb.sb.flappingIdx) g = im.sb.sb.checksum g
  /-- The contents are those of the run that wrote the superblock. -/
  contents (g : Segment) : ∀ p < l.ssdPages g, im.copies g im.sb.sb.flappingIdx p = im.sb.contents g p

/-- Crash safety of a state. -/
structure CrashSafe (l : Layout α β) (s : State α β) : Prop where
  /-- A crash leaves a superblock with its copies. -/
  image (im : Image α β) : s.Leaves im → im.Sound l
  /-- The superblock is the guaranteed one or the one written last. -/
  last : s.sbPage.pending.length ≤ 1
  /-- Between two runs the index in memory is that of the device or of the superblock written last. -/
  index : s.run = none → s.sb.flappingIdx = s.sbPage.durable.sb.flappingIdx ∨
    ∃ r ∈ s.sbPage.pending, s.sb.flappingIdx = r.sb.flappingIdx

/-- A state between two runs whose superblock is guaranteed. -/
structure Start (l : Layout α β) (s : State α β) : Prop where
  /-- No run is under way. -/
  run : s.run = none
  /-- The superblock is guaranteed. -/
  pending : s.sbPage.pending = []
  /-- The index in memory is that of the device. -/
  index : s.sb.flappingIdx = s.sbPage.durable.sb.flappingIdx
  /-- A crash leaves a superblock with its copies. -/
  image (im : Image α β) : s.Leaves im → im.Sound l

/-- A run fails only when it has turned the index, and none starts as long as a
superblock is written but not guaranteed. -/
def InTurn (s : State α β) : Act α β → Prop
  | .start => s.sbPage.pending = []
  | .fail => ∀ r, s.run = some r → Handler.flap ∉ r.steps
  | _ => True

/-- The copies that a record selects are settled. -/
structure Good (l : Layout α β) (s : State α β) (r : Record α β) : Prop where
  /-- The record selects a copy. -/
  index : r.sb.flappingIdx < 2
  /-- Its checksums are those of its contents. -/
  checksum (g : Segment) : r.sb.checksum g = ocfMetadataRawChecksum l (r.contents g) g
  /-- The copy has its contents. -/
  settled (g : Segment) : ∀ p < l.ssdPages g, (s.copies g r.sb.flappingIdx p).Settled (r.contents g p)

theorem rawChecksum_congr {c d : Nat → α} {g : Segment} (h : ∀ p < l.ssdPages g, c p = d p) :
    ocfMetadataRawChecksum l c g = ocfMetadataRawChecksum l d g := by
  unfold ocfMetadataRawChecksum
  have hmap : (List.range (l.ssdPages g)).map c = (List.range (l.ssdPages g)).map d :=
    List.map_congr_left fun p hp => h p (List.mem_range.mp hp)
  rw [hmap]

theorem Good.sound {im : Image α β} (h : Good l s im.sb)
    (hc : ∀ g i p, (s.copies g i p).MayHold (im.copies g i p)) : im.Sound l := by
  have hcontents : ∀ g, ∀ p < l.ssdPages g, im.copies g im.sb.sb.flappingIdx p = im.sb.contents g p :=
    fun g p hp => h.settled g p hp _ (hc g _ p)
  exact ⟨h.index, fun g => (rawChecksum_congr (hcontents g)).trans (h.checksum g).symm, hcontents⟩

theorem exists_image (s : State α β) {r : Record α β} (hr : s.sbPage.MayHold r) {g : Segment} {i p : Nat} {v : α}
    (hv : (s.copies g i p).MayHold v) : ∃ im : Image α β, s.Leaves im ∧ im.sb = r ∧ im.copies g i p = v := by
  refine ⟨⟨r, fun h j q => if h = g ∧ j = i ∧ q = p then v else (s.copies h j q).durable⟩, ⟨hr, ?_⟩, rfl,
    if_pos ⟨rfl, rfl, rfl⟩⟩
  intro h j q
  by_cases heq : h = g ∧ j = i ∧ q = p
  · have hgoal : (s.copies h j q).MayHold v := by
      rw [heq.1, heq.2.1, heq.2.2]
      exact hv
    simpa only [if_pos heq] using hgoal
  · simpa only [if_neg heq] using (s.copies h j q).mayHold_durable

theorem good_of_image (h : ∀ im : Image α β, s.Leaves im → im.Sound l) {r : Record α β}
    (hr : s.sbPage.MayHold r) : Good l s r := by
  have hsound : (⟨r, fun g i p => (s.copies g i p).durable⟩ : Image α β).Sound l :=
    h _ ⟨hr, fun g i p => (s.copies g i p).mayHold_durable⟩
  refine ⟨hsound.index, fun g => ?_, fun g p hp v hv => ?_⟩
  · exact (hsound.checksum g).symm.trans (rawChecksum_congr (hsound.contents g))
  · obtain ⟨im, him, hsb, hcopy⟩ := exists_image s hr hv
    have hcontents := (h im him).contents g p hp
    rw [hsb, hcopy] at hcontents
    exact hcontents

theorem Good.of_copies {rec : Record α β} (h : Good l s rec)
    (hc : ∀ g p v, (s'.copies g rec.sb.flappingIdx p).MayHold v → (s.copies g rec.sb.flappingIdx p).MayHold v) :
    Good l s' rec :=
  ⟨h.index, h.checksum, fun g p hp v hv => h.settled g p hp v (hc g p v hv)⟩

section Page

variable {g : Segment} {i p : Nat} {f : Page α → Page α}

theorem modifyPage_self : (s.modifyPage g i p f).copies g i p = f (s.copies g i p) := if_pos ⟨rfl, rfl, rfl⟩

theorem modifyPage_of_ne {h : Segment} {j q : Nat} (hne : ¬(h = g ∧ j = i ∧ q = p)) :
    (s.modifyPage g i p f).copies h j q = s.copies h j q :=
  if_neg hne

end Page

theorem next_ne (i : Nat) : (i + 1) % 2 ≠ i := by omega

theorem prevFlappingIdx_next {i : Nat} (h : i < 2) : prevFlappingIdx ((i + 1) % 2) = i := by
  have hcases : i = 0 ∨ i = 1 := by omega
  rcases hcases with rfl | rfl <;> decide

/-- The segments in memory have their checksums, and the copy of an index has their contents. -/
structure Copied (l : Layout α β) (s : State α β) (i : Nat) : Prop where
  /-- The checksums. -/
  crc (g : Segment) : s.sb.checksum g = ocfMetadataRawChecksum l (s.contents g) g
  /-- The copy. -/
  settled (g : Segment) : ∀ p < l.ssdPages g, (s.copies g i p).Settled (s.contents g p)

/-- A run in front of its first flush, with the copying steps that are not done. -/
structure Copying (l : Layout α β) (s : State α β) (r : Run) (pre : List Handler) : Prop where
  /-- The steps. -/
  steps : r.steps = pre ++ .flushDisk :: .flap :: turnSteps
  /-- The copying steps are done in order. -/
  suffix : pre <:+ copySteps
  /-- The index is not turned. -/
  index : s.sb.flappingIdx = s.sbPage.durable.sb.flappingIdx
  /-- The superblock is guaranteed. -/
  pending : s.sbPage.pending = []
  /-- Checksums that were calculated. -/
  crc (g : Segment) : Handler.calculateCrc g ∉ pre → s.sb.checksum g = ocfMetadataRawChecksum l (s.contents g) g
  /-- Segments that were written. -/
  wrote (g : Segment) : Handler.flushSegment g ∉ pre → ∀ p < l.ssdPages g,
    (s.copies g (ocfMetadataSuperblockGetNextFlappingIdx s.sb) p).Wrote (s.contents g p)
  /-- Pages that were issued. -/
  issued (g : Segment) : r.under (.flushSegment g) → ∀ p ∈ r.issued,
    (s.copies g (ocfMetadataSuperblockGetNextFlappingIdx s.sb) p).pending.getLast? = some (s.contents g p)
  /-- Only issued writes are acknowledged. -/
  subset : ∀ p ∈ r.acked, p ∈ r.issued
  /-- Pages that were acknowledged. -/
  acked (g : Segment) : r.under (.flushSegment g) → ∀ p ∈ r.acked,
    (s.copies g (ocfMetadataSuperblockGetNextFlappingIdx s.sb) p).Wrote (s.contents g p)

/-- A run whose index is turned. -/
structure Turned (l : Layout α β) (s : State α β) : Prop where
  /-- The index selects the copy that was written. -/
  copied : Copied l s s.sb.flappingIdx
  /-- The index is turned. -/
  index : s.sb.flappingIdx = (s.sbPage.durable.sb.flappingIdx + 1) % 2

/-- Place of the pipeline. -/
inductive Phase (l : Layout α β) (s : State α β) : Prop
  /-- No run is under way. -/
  | idle (hrun : s.run = none) (hindex : s.sb.flappingIdx = s.sbPage.durable.sb.flappingIdx)
  /-- The other copy is written. -/
  | copying {r : Run} {pre : List Handler} (hrun : s.run = some r) (h : Copying l s r pre)
  /-- The index is turned next. -/
  | turning {r : Run} (hrun : s.run = some r) (hsteps : r.steps = .flap :: turnSteps)
      (h : Copied l s (ocfMetadataSuperblockGetNextFlappingIdx s.sb))
      (hindex : s.sb.flappingIdx = s.sbPage.durable.sb.flappingIdx) (hpending : s.sbPage.pending = [])
  /-- The checksum of the superblock is calculated next. -/
  | signing {r : Run} (hrun : s.run = some r) (hsteps : r.steps = turnSteps) (h : Turned l s)
      (hpending : s.sbPage.pending = [])
  /-- The superblock page is written. -/
  | writing {r : Run} (hrun : s.run = some r) (hsteps : r.steps = [.flushSbConfig, .flushDisk]) (h : Turned l s)
      (hpending : 0 ∉ r.issued → s.sbPage.pending = [])
      (hissued : 0 ∈ r.issued → s.sbPage.pending = [⟨s.sb, s.contents⟩]) (hsubset : 0 ∈ r.acked → 0 ∈ r.issued)
      (hacked : 0 ∈ r.acked → s.sbPage.Wrote ⟨s.sb, s.contents⟩)
  /-- The device is flushed for the second time. -/
  | flushing {r : Run} (hrun : s.run = some r) (hsteps : r.steps = [.flushDisk]) (h : Turned l s)
      (hpending : s.sbPage.pending = [⟨s.sb, s.contents⟩]) (hwrote : s.sbPage.Wrote ⟨s.sb, s.contents⟩)
  /-- The run is through. -/
  | through {r : Run} (hrun : s.run = some r) (hsteps : r.steps = [])
      (hindex : s.sb.flappingIdx = s.sbPage.durable.sb.flappingIdx) (hpending : s.sbPage.pending = [])

/-- Invariant of the runs that fail in time only. -/
structure Inv (l : Layout α β) (s : State α β) : Prop where
  /-- Every superblock that a crash may leave selects a settled copy. -/
  good (rec : Record α β) : s.sbPage.MayHold rec → Good l s rec
  /-- At most one superblock is not guaranteed. -/
  last : s.sbPage.pending.length ≤ 1
  /-- Place of the pipeline. -/
  phase : Phase l s

theorem mayHold_of_pending {rec : Record α β} (h : s.sbPage.pending = []) (hr : s.sbPage.MayHold rec) :
    rec = s.sbPage.durable := by
  rcases hr with hr | hr
  · exact hr
  · rw [h] at hr
    cases hr

theorem head_copying {pre rest : List Handler} {h : Handler} (hpre : pre <:+ copySteps)
    (hh : (pre ++ .flushDisk :: rest).head? = some h) :
    (pre = [] ∧ h = .flushDisk) ∨ ∃ pre', pre = h :: pre' ∧ pre' <:+ copySteps ∧
      ((∃ g, h = .calculateCrc g) ∨ ∃ g, h = .flushSegment g) := by
  cases pre with
  | nil => exact .inl ⟨rfl, (Option.some.inj hh).symm⟩
  | cons k pre =>
    obtain rfl : k = h := Option.some.inj hh
    have hmem : k ∈ copySteps := hpre.subset mem_cons_self
    refine .inr ⟨pre, rfl, (List.suffix_cons k pre).trans hpre, ?_⟩
    rcases List.mem_append.mp hmem with hmem | hmem
    · obtain ⟨g, -, hg⟩ := List.mem_map.mp hmem
      exact .inl ⟨g, hg.symm⟩
    · obtain ⟨g, -, hg⟩ := List.mem_map.mp hmem
      exact .inr ⟨g, hg.symm⟩

section Copying

variable {pre : List Handler}

theorem Copying.good_modifyPage (h : Copying l s r pre) (hgood : ∀ rec, s.sbPage.MayHold rec → Good l s rec)
    (g : Segment) (p : Nat) (f : Page α → Page α) (hcopies : s'.copies =
      (s.modifyPage g (ocfMetadataSuperblockGetNextFlappingIdx s.sb) p f).copies) (hsb : s'.sbPage = s.sbPage)
    (rec : Record α β) (hr : s'.sbPage.MayHold rec) : Good l s' rec := by
  rw [hsb] at hr
  have hrec := mayHold_of_pending h.pending hr
  have hne : rec.sb.flappingIdx ≠ ocfMetadataSuperblockGetNextFlappingIdx s.sb := by
    rw [ocfMetadataSuperblockGetNextFlappingIdx, h.index, ← hrec]
    exact (next_ne _).symm
  refine (hgood rec hr).of_copies fun g' q v hv => ?_
  rwa [hcopies, modifyPage_of_ne fun heq => hne heq.2.1] at hv

theorem mem_of_under {h : Handler} (hsteps : r.steps = pre ++ .flushDisk :: .flap :: turnSteps)
    (hsuffix : pre <:+ copySteps) (hu : r.under h) (hne : h ≠ .flushDisk) : h ∈ pre := by
  unfold Run.under at hu
  rw [hsteps] at hu
  rcases head_copying hsuffix hu with ⟨-, hd⟩ | ⟨pre', hpre, -⟩
  · exact absurd hd hne
  · rw [hpre]
    exact mem_cons_self

variable {g : Segment}

theorem Copying.pass (h : Copying l s r pre) (hinv : Inv l s) (hu : r.under (.calculateCrc g)) :
    Inv l (pass l s r) := by
  have hhead := hu
  unfold Run.under at hhead
  rw [h.steps] at hhead
  obtain ⟨-, hd⟩ | ⟨pre', hpre, hsuffix, -⟩ := head_copying h.suffix hhead
  · cases hd
  have hpass : Superblock.pass l s r = ocfMetadataCalculateCrc l { s with run := some r.next } g := by
    unfold Superblock.pass
    rw [show r.steps.head? = some (.calculateCrc g) from hu]
  rw [hpass]
  refine ⟨fun rec hr => (hinv.good rec hr).of_copies fun _ _ _ hv => hv, hinv.last,
    @Phase.copying _ _ _ _ r.next pre' rfl ⟨?_, hsuffix, h.index, h.pending, ?_, ?_, ?_, ?_, ?_⟩⟩
  · simp [Run.next, h.steps, hpre]
  · intro g' hg'
    simp only [ocfMetadataCalculateCrc, ocfMetadataSuperblockSetChecksum]
    by_cases heq : g' = g
    · rw [if_pos heq, heq]
    · rw [if_neg heq]
      refine h.crc g' fun hmem => ?_
      rw [hpre] at hmem
      rcases mem_cons.mp hmem with hmem | hmem
      · exact heq (Handler.calculateCrc.inj hmem)
      · exact hg' hmem
  · intro g' hg' p hp
    refine h.wrote g' (fun hmem => ?_) p hp
    rw [hpre] at hmem
    rcases mem_cons.mp hmem with hmem | hmem
    · cases hmem
    · exact hg' hmem
  · intro _ _ p hp
    cases hp
  · intro p hp
    cases hp
  · intro _ _ p hp
    cases hp

variable {f : Page α → Page α}

theorem Copying.wrote_modifyPage (h : Copying l s r pre) {g g' : Segment} {p q : Nat}
    (hu : r.under (.flushSegment g)) (hg : Handler.flushSegment g' ∉ pre) (hq : q < l.ssdPages g') :
    ((s.modifyPage g (ocfMetadataSuperblockGetNextFlappingIdx s.sb) p f).copies g'
      (ocfMetadataSuperblockGetNextFlappingIdx s.sb) q).Wrote (s.contents g' q) := by
  have hmem : Handler.flushSegment g ∈ pre := mem_of_under h.steps h.suffix hu nofun
  have hne : g' ≠ g := by
    intro heq
    rw [heq] at hg
    exact hg hmem
  rw [modifyPage_of_ne fun heq => hne heq.1]
  exact h.wrote g' hg q hq

theorem Run.under_inj {g g' : Segment} (hu : r.under (.flushSegment g)) (hu' : r.under (.flushSegment g')) :
    g = g' := Handler.flushSegment.inj (Option.some.inj (hu.symm.trans hu'))

section

variable (h : Copying l s r pre)
include h

theorem Copying.modify (hinv : Inv l s) {p : Nat} {r' : Run}
    (hu : r.under (.flushSegment g)) (hsteps : r'.steps = r.steps) (hsubset : ∀ q ∈ r'.acked, q ∈ r'.issued)
    (hissued : ∀ q ∈ r'.issued, ((s.modifyPage g (ocfMetadataSuperblockGetNextFlappingIdx s.sb) p f).copies g
      (ocfMetadataSuperblockGetNextFlappingIdx s.sb) q).pending.getLast? = some (s.contents g q))
    (hacked : ∀ q ∈ r'.acked, ((s.modifyPage g (ocfMetadataSuperblockGetNextFlappingIdx s.sb) p f).copies g
      (ocfMetadataSuperblockGetNextFlappingIdx s.sb) q).Wrote (s.contents g q)) :
    Inv l { s.modifyPage g (ocfMetadataSuperblockGetNextFlappingIdx s.sb) p f with run := some r' } := by
  have hunder : ∀ g', r'.under (.flushSegment g') → g = g' := fun g' hu' => by
    unfold Run.under at hu'
    rw [hsteps] at hu'
    exact Run.under_inj hu hu'
  refine ⟨h.good_modifyPage hinv.good g p f rfl rfl, hinv.last, @Phase.copying _ _ _ _ _ pre rfl ?_⟩
  exact
    { steps := hsteps.trans h.steps
      suffix := h.suffix
      index := h.index
      pending := h.pending
      crc := h.crc
      wrote := fun g' hg' q hq => h.wrote_modifyPage hu hg' hq
      issued := fun g' hu' => by
        obtain rfl := hunder g' hu'
        exact hissued
      subset := hsubset
      acked := fun g' hu' => by
        obtain rfl := hunder g' hu'
        exact hacked }

theorem Copying.writePage (hinv : Inv l s) {p : Nat}
    (hu : r.under (.flushSegment g)) (hp : p ∉ r.issued) : Inv l (runStep l s r (.writePage p)) := by
  have hstep : runStep l s r (.writePage p) =
      { s.modifyPage g (ocfMetadataSuperblockGetNextFlappingIdx s.sb) p (·.write (s.contents g p)) with
        run := some { r with issued := p :: r.issued } } := by
    unfold runStep
    rw [show r.steps.head? = some (.flushSegment g) from hu]
  rw [hstep]
  refine h.modify hinv hu rfl (fun q hq => List.mem_cons_of_mem p (h.subset q hq)) ?_ ?_
  · intro q hq
    by_cases heq : q = p
    · rw [heq, modifyPage_self]
      exact List.getLast?_concat
    · rw [modifyPage_of_ne fun he => heq he.2.2]
      exact h.issued g hu q ((mem_cons.mp hq).resolve_left heq)
  · intro q hq
    have hne : q ≠ p := fun heq => hp (heq ▸ h.subset q hq)
    rw [modifyPage_of_ne fun he => hne he.2.2]
    exact h.acked g hu q hq

theorem Copying.ackPage (hinv : Inv l s) {p : Nat}
    (hu : r.under (.flushSegment g)) (hp : p ∈ r.issued) : Inv l (runStep l s r (.ackPage p)) := by
  have hstep : runStep l s r (.ackPage p) =
      { s.modifyPage g (ocfMetadataSuperblockGetNextFlappingIdx s.sb) p (·.ack) with
        run := some { r with acked := p :: r.acked } } := by
    unfold runStep
    rw [show r.steps.head? = some (.flushSegment g) from hu]
  rw [hstep]
  refine h.modify hinv hu rfl ?_ ?_ ?_
  · intro q hq
    rcases mem_cons.mp hq with rfl | hq
    · exact hp
    · exact h.subset q hq
  · intro q hq
    have hlast := h.issued g hu q hq
    by_cases heq : q = p
    · rw [heq] at hlast ⊢
      rw [modifyPage_self]
      exact hlast
    · rw [modifyPage_of_ne fun he => heq he.2.2]
      exact hlast
  · intro q hq
    by_cases heq : q = p
    · rw [heq, modifyPage_self]
      exact ⟨rfl, h.issued g hu p hp⟩
    · rw [modifyPage_of_ne fun he => heq he.2.2]
      exact h.acked g hu q ((mem_cons.mp hq).resolve_left heq)

theorem Copying.written (hinv : Inv l s) (hu : r.under (.flushSegment g))
    (hall : ∀ p < r.pages l, p ∈ r.acked) : Inv l (runStep l s r .written) := by
  have hhead := hu
  unfold Run.under at hhead
  rw [h.steps] at hhead
  obtain ⟨-, hd⟩ | ⟨pre', hpre, hsuffix, -⟩ := head_copying h.suffix hhead
  · cases hd
  have hpages : r.pages l = l.ssdPages g := by
    unfold Run.pages
    rw [show r.steps.head? = some (.flushSegment g) from hu]
  rw [hpages] at hall
  refine ⟨fun rec hr => (hinv.good rec hr).of_copies fun _ _ _ hv => hv, hinv.last,
    @Phase.copying _ _ _ _ r.next pre' rfl ⟨?_, hsuffix, h.index, h.pending, ?_, ?_, ?_, ?_, ?_⟩⟩
  · simp [Run.next, h.steps, hpre]
  · intro g' hg'
    refine h.crc g' fun hmem => ?_
    rw [hpre] at hmem
    rcases mem_cons.mp hmem with hmem | hmem
    · cases hmem
    · exact hg' hmem
  · intro g' hg' p hp
    by_cases heq : g' = g
    · subst heq
      exact h.acked g' hu p (hall p hp)
    · refine h.wrote g' (fun hmem => ?_) p hp
      rw [hpre] at hmem
      rcases mem_cons.mp hmem with hmem | hmem
      · exact heq (Handler.flushSegment.inj hmem)
      · exact hg' hmem
  · intro _ _ p hp
    cases hp
  · intro p hp
    cases hp
  · intro _ _ p hp
    cases hp

theorem Copying.flushed (hinv : Inv l s) (hu : r.under .flushDisk) :
    Inv l (runStep l s r .flushed) := by
  have hhead := hu
  unfold Run.under at hhead
  rw [h.steps] at hhead
  have hpre : pre = [] := by
    rcases head_copying h.suffix hhead with ⟨hpre, -⟩ | ⟨-, -, -, ⟨g, hg⟩ | ⟨g, hg⟩⟩
    · exact hpre
    · cases hg
    · cases hg
  subst hpre
  have hsb : s.sbPage.flush = s.sbPage := Page.flush_of_pending_nil h.pending
  have hmay : ∀ rec, s.flushPages.sbPage.MayHold rec → s.sbPage.MayHold rec := fun rec hr => hr.of_flush
  refine ⟨fun rec hr => (hinv.good rec (hmay rec hr)).of_copies fun _ _ _ hv => hv.of_flush, ?_,
    .turning (r := r.next) rfl ?_ ⟨?_, ?_⟩ ?_ ?_⟩
  · change s.sbPage.flush.pending.length ≤ 1
    rw [hsb]
    exact hinv.last
  · simp [Run.next, h.steps]
  · exact fun g => h.crc g not_mem_nil
  · exact fun g p hp => Page.settled_flush_of_wrote (h.wrote g not_mem_nil p hp)
  · change s.sb.flappingIdx = s.sbPage.flush.durable.sb.flappingIdx
    rw [hsb]
    exact h.index
  · change s.sbPage.flush.pending = []
    rw [hsb]
    exact h.pending

end

end Copying

section Turned

theorem Turned.good (h : Turned l s) : Good l s ⟨s.sb, s.contents⟩ :=
  ⟨by
    have hindex := h.index
    change s.sb.flappingIdx < 2
    omega, h.copied.crc, h.copied.settled⟩

theorem Turned.fail (h : Turned l s) (hinv : Inv l s) : Inv l (ocfMetadataFlushSuperblockFinish s) := by
  have hlt : s.sbPage.durable.sb.flappingIdx < 2 := (hinv.good _ s.sbPage.mayHold_durable).index
  have hprev : prevFlappingIdx s.sb.flappingIdx = s.sbPage.durable.sb.flappingIdx := by
    rw [h.index]
    exact prevFlappingIdx_next hlt
  unfold ocfMetadataFlushSuperblockFinish
  rw [hprev]
  exact ⟨fun rec hr => (hinv.good rec hr).of_copies fun _ _ _ hv => hv, hinv.last, .idle rfl rfl⟩

section

variable (hinv : Inv l s)
include hinv

theorem Inv.flap (hsteps : r.steps = .flap :: turnSteps)
    (h : Copied l s (ocfMetadataSuperblockGetNextFlappingIdx s.sb))
    (hindex : s.sb.flappingIdx = s.sbPage.durable.sb.flappingIdx) (hpending : s.sbPage.pending = []) :
    Inv l (pass l s r) := by
  have hpass : pass l s r = ocfMetadataFlushSuperblockFlap { s with run := some r.next } := by
    unfold pass
    rw [hsteps]
    rfl
  rw [hpass]
  refine ⟨fun rec hr => (hinv.good rec hr).of_copies fun _ _ _ hv => hv, hinv.last,
    .signing (r := r.next) rfl ?_ ⟨⟨h.crc, h.settled⟩, ?_⟩ hpending⟩
  · simp [Run.next, hsteps]
  · change (s.sb.flappingIdx + 1) % 2 = (s.sbPage.durable.sb.flappingIdx + 1) % 2
    rw [hindex]

theorem Inv.sign (hsteps : r.steps = turnSteps) (h : Turned l s) (hpending : s.sbPage.pending = []) :
    Inv l (pass l s r) := by
  have hpass : pass l s r = ocfMetadataCalculateCrcSbConfig l { s with run := some r.next } := by
    unfold pass
    rw [hsteps]
    rfl
  rw [hpass]
  refine ⟨fun rec hr => (hinv.good rec hr).of_copies fun _ _ _ hv => hv, hinv.last,
    .writing (r := r.next) rfl ?_ ⟨⟨h.copied.crc, h.copied.settled⟩, h.index⟩ (fun _ => hpending) ?_ ?_ ?_⟩
  · simp [Run.next, hsteps, turnSteps]
  · intro hz
    cases hz
  · intro hz
    cases hz
  · intro hz
    cases hz

theorem Inv.writeSb (hsteps : r.steps = [.flushSbConfig, .flushDisk]) (h : Turned l s)
    (hpending : s.sbPage.pending = []) (hacked : 0 ∉ r.acked) : Inv l (runStep l s r .writeSb) := by
  have hwrite : (s.sbPage.write ⟨s.sb, s.contents⟩).pending = [⟨s.sb, s.contents⟩] := by
    simp [Page.write, hpending]
  refine ⟨fun rec hr => ?_, ?_, .writing (r := { r with issued := 0 :: r.issued }) rfl hsteps
    ⟨⟨h.copied.crc, h.copied.settled⟩, h.index⟩ ?_ ?_ ?_ ?_⟩
  · rcases Page.mayHold_write.mp hr with hr | hr
    · exact (hinv.good rec hr).of_copies fun _ _ _ hv => hv
    · rw [hr]
      exact h.good.of_copies fun _ _ _ hv => hv
  · change (s.sbPage.write ⟨s.sb, s.contents⟩).pending.length ≤ 1
    rw [hwrite]
    exact Nat.le_refl 1
  · exact fun hz => absurd mem_cons_self hz
  · exact fun _ => hwrite
  · exact fun _ => mem_cons_self
  · exact fun hz => absurd hz hacked

theorem Inv.ackSb (hsteps : r.steps = [.flushSbConfig, .flushDisk]) (h : Turned l s)
    (hissued : 0 ∈ r.issued) (hpending : s.sbPage.pending = [⟨s.sb, s.contents⟩]) :
    Inv l (runStep l s r .ackSb) := by
  refine ⟨fun rec hr => (hinv.good rec hr).of_copies fun _ _ _ hv => hv, hinv.last,
    .writing (r := { r with acked := 0 :: r.acked }) rfl hsteps ⟨⟨h.copied.crc, h.copied.settled⟩, h.index⟩
      ?_ ?_ ?_ ?_⟩
  · exact fun hz => absurd hissued hz
  · exact fun _ => hpending
  · exact fun _ => hissued
  · refine fun _ => ⟨rfl, ?_⟩
    change s.sbPage.pending.getLast? = _
    rw [hpending]
    rfl

theorem Inv.sbWritten (hsteps : r.steps = [.flushSbConfig, .flushDisk]) (h : Turned l s)
    (hpending : s.sbPage.pending = [⟨s.sb, s.contents⟩]) (hwrote : s.sbPage.Wrote ⟨s.sb, s.contents⟩) :
    Inv l (runStep l s r .written) := by
  refine ⟨fun rec hr => (hinv.good rec hr).of_copies fun _ _ _ hv => hv, hinv.last,
    .flushing (r := r.next) rfl ?_ ⟨⟨h.copied.crc, h.copied.settled⟩, h.index⟩ hpending hwrote⟩
  simp [Run.next, hsteps]

theorem Inv.flushedSb (hsteps : r.steps = [.flushDisk])
    (hwrote : s.sbPage.Wrote ⟨s.sb, s.contents⟩) : Inv l (runStep l s r .flushed) := by
  have hflush : s.flushPages.sbPage = ⟨⟨s.sb, s.contents⟩, [], true⟩ := Page.flush_of_wrote hwrote
  refine ⟨fun rec hr => ?_, ?_, .through (r := r.next) rfl ?_ ?_ ?_⟩
  · exact (hinv.good rec (Page.MayHold.of_flush hr)).of_copies fun _ _ _ hv => hv.of_flush
  · change s.flushPages.sbPage.pending.length ≤ 1
    rw [hflush]
    exact Nat.zero_le 1
  · simp [Run.next, hsteps]
  · change s.sb.flappingIdx = s.flushPages.sbPage.durable.sb.flappingIdx
    rw [hflush]
  · change s.flushPages.sbPage.pending = []
    rw [hflush]

end

end Turned

section System

theorem Inv.idle_frame (hinv : Inv l s) (hcopies : s'.copies = s.copies) (hsb : s'.sbPage = s.sbPage)
    (hphase : Phase l s') : Inv l s' := by
  refine ⟨fun rec hr => ?_, ?_, hphase⟩
  · rw [hsb] at hr
    refine (hinv.good rec hr).of_copies fun g p v hv => ?_
    rwa [hcopies] at hv
  · rw [hsb]
    exact hinv.last

theorem Inv.start (hinv : Inv l s) (hindex : s.sb.flappingIdx = s.sbPage.durable.sb.flappingIdx) (hpending : s.sbPage.pending = []) :
    Inv l (ocfMetadataFlushSuperblock l s) := by
  unfold ocfMetadataFlushSuperblock
  split
  · exact hinv
  · refine hinv.idle_frame rfl rfl (@Phase.copying _ _ _ _ _ copySteps rfl
      ⟨rfl, List.suffix_rfl, hindex, hpending, fun g hg => absurd ?_ hg, fun g hg => absurd ?_ hg, ?_, ?_, ?_⟩)
    · cases g <;> decide
    · cases g <;> decide
    · exact fun _ _ _ hq => absurd hq not_mem_nil
    · exact fun _ hq => absurd hq not_mem_nil
    · exact fun _ _ _ hq => absurd hq not_mem_nil

variable {act : Act α β}

theorem Copying.step {pre : List Handler} (h : Copying l s r pre) (hinv : Inv l s) (hrun : s.run = some r) (hg : runGuard l r act) (hin : InTurn s act) : Inv l (runStep l s r act) := by
  have hnot : ∀ k, k ≠ .flushDisk → (∀ g, k ≠ .calculateCrc g) → (∀ g, k ≠ .flushSegment g) → ¬r.under k := by
    intro k hd hc hf hu
    unfold Run.under at hu
    rw [h.steps] at hu
    rcases head_copying h.suffix hu with ⟨-, heq⟩ | ⟨-, -, -, ⟨g, heq⟩ | ⟨g, heq⟩⟩
    · exact hd heq
    · exact hc g heq
    · exact hf g heq
  have hsb : ¬r.under .flushSbConfig := hnot _ nofun nofun nofun
  cases act with
  | pass =>
    rcases hg with ⟨g, hu⟩ | hu | hu
    · exact h.pass hinv hu
    · exact absurd hu (hnot _ nofun nofun nofun)
    · exact absurd hu (hnot _ nofun nofun nofun)
  | writePage p =>
    obtain ⟨⟨g, hu⟩, -, hp⟩ := hg
    exact h.writePage hinv hu hp
  | ackPage p =>
    obtain ⟨⟨g, hu⟩, hp⟩ := hg
    exact h.ackPage hinv hu hp
  | writeSb => exact absurd hg.1 hsb
  | ackSb => exact absurd hg.1 hsb
  | written =>
    obtain ⟨⟨g, hu⟩ | hu, hall⟩ := hg
    · exact h.written hinv hu hall
    · exact absurd hu hsb
  | flushed => exact h.flushed hinv hg
  | fail =>
    have hflap : Handler.flap ∈ r.steps := by
      rw [h.steps]
      simp
    exact absurd hflap (hin r hrun)
  | finish =>
    have hne : r.steps ≠ [] := by
      rw [h.steps]
      simp
    exact absurd hg hne
  | configure => exact hg.elim
  | start => exact hg.elim
  | refuse => exact hg.elim

theorem under_iff {h k : Handler} {rest : List Handler} (hsteps : r.steps = h :: rest) : r.under k ↔ k = h := by
  unfold Run.under
  rw [hsteps]
  simp [eq_comm]

theorem not_finish {h : Handler} {rest : List Handler} (hsteps : r.steps = h :: rest) :
    ¬runGuard l r .finish := by
  intro hg
  have hnil : r.steps = [] := hg
  rw [hsteps] at hnil
  cases hnil

theorem turning_step (hinv : Inv l s) (hrun : s.run = some r) (hsteps : r.steps = .flap :: turnSteps)
    (h : Copied l s (ocfMetadataSuperblockGetNextFlappingIdx s.sb))
    (hindex : s.sb.flappingIdx = s.sbPage.durable.sb.flappingIdx) (hpending : s.sbPage.pending = []) (hg : runGuard l r act) (hin : InTurn s act) : Inv l (runStep l s r act) := by
  cases act with
  | pass => exact hinv.flap hsteps h hindex hpending
  | fail =>
    have hflap : Handler.flap ∈ r.steps := by
      rw [hsteps]
      exact mem_cons_self
    exact absurd hflap (hin r hrun)
  | finish => exact absurd hg (not_finish hsteps)
  | _ => simp [runGuard, under_iff hsteps] at hg

theorem signing_step (hinv : Inv l s) (hsteps : r.steps = turnSteps) (h : Turned l s)
    (hpending : s.sbPage.pending = []) (hg : runGuard l r act) : Inv l (runStep l s r act) := by
  cases act with
  | pass => exact hinv.sign hsteps h hpending
  | finish => exact absurd hg (not_finish hsteps)
  | _ => simp [runGuard, under_iff hsteps] at hg

theorem writing_step (hinv : Inv l s) (hsteps : r.steps = [.flushSbConfig, .flushDisk]) (h : Turned l s)
    (hpending : 0 ∉ r.issued → s.sbPage.pending = [])
    (hissued : 0 ∈ r.issued → s.sbPage.pending = [⟨s.sb, s.contents⟩]) (hsubset : 0 ∈ r.acked → 0 ∈ r.issued)
    (hacked : 0 ∈ r.acked → s.sbPage.Wrote ⟨s.sb, s.contents⟩) (hg : runGuard l r act) :
    Inv l (runStep l s r act) := by
  cases act with
  | writeSb => exact hinv.writeSb hsteps h (hpending hg.2) fun hz => hg.2 (hsubset hz)
  | ackSb => exact hinv.ackSb hsteps h hg.2 (hissued hg.2)
  | written =>
    have hpages : r.pages l = 1 := by
      unfold Run.pages
      rw [hsteps]
      rfl
    have hzero : 0 ∈ r.acked := hg.2 0 (by omega)
    exact hinv.sbWritten hsteps h (hissued (hsubset hzero)) (hacked hzero)
  | fail => exact h.fail hinv
  | finish => exact absurd hg (not_finish hsteps)
  | _ => simp [runGuard, under_iff hsteps] at hg

theorem flushing_step (hinv : Inv l s) (hsteps : r.steps = [.flushDisk]) (h : Turned l s)
    (hwrote : s.sbPage.Wrote ⟨s.sb, s.contents⟩) (hg : runGuard l r act) :
    Inv l (runStep l s r act) := by
  cases act with
  | flushed => exact hinv.flushedSb hsteps hwrote
  | fail => exact h.fail hinv
  | finish => exact absurd hg (not_finish hsteps)
  | _ => simp [runGuard, under_iff hsteps] at hg

theorem through_step (hinv : Inv l s) (hsteps : r.steps = [])
    (hindex : s.sb.flappingIdx = s.sbPage.durable.sb.flappingIdx) (hg : runGuard l r act) :
    Inv l (runStep l s r act) := by
  have hnot : ∀ k, ¬r.under k := by
    intro k hu
    unfold Run.under at hu
    rw [hsteps] at hu
    cases hu
  cases act with
  | finish => exact hinv.idle_frame rfl rfl (.idle rfl hindex)
  | _ => simp [runGuard, hnot] at hg

theorem running (hrun : s.run = some r) (hg : guard l s act) (hs : step l s act = some s') :
    runGuard l r act ∧ runStep l s r act = s' := by
  cases act with
  | configure | start | refuse =>
    have hnone : s.run = none := hg
    rw [hrun] at hnone
    cases hnone
  | _ =>
    obtain ⟨r', hr', hg⟩ := hg
    obtain rfl : r' = r := Option.some.inj (hr'.symm.trans hrun)
    simp only [step, hrun, Option.map_some, Option.some.injEq] at hs
    exact ⟨hg, hs⟩

theorem idle_step (hinv : Inv l s) (hrun : s.run = none)
    (hindex : s.sb.flappingIdx = s.sbPage.durable.sb.flappingIdx) (hg : guard l s act) (hin : InTurn s act)
    (hs : step l s act = some s') : Inv l s' := by
  cases act with
  | configure contents fields =>
    cases hs
    exact hinv.idle_frame rfl rfl (.idle hrun hindex)
  | start =>
    cases hs
    exact hinv.start hindex hin
  | refuse =>
    cases hs
    exact hinv
  | _ =>
    obtain ⟨r, hr, -⟩ := hg
    rw [hrun] at hr
    cases hr

/-- A step of the device keeps a superblock that can be loaded. -/
theorem step_inv (hinv : Inv l s) (hg : guard l s act) (hin : InTurn s act)
    (hs : step l s act = some s') : Inv l s' := by
  cases hinv.phase with
  | idle hrun hindex => exact idle_step hinv hrun hindex hg hin hs
  | copying hrun h =>
    obtain ⟨hg, rfl⟩ := running hrun hg hs
    exact h.step hinv hrun hg hin
  | turning hrun hsteps h hindex hpending =>
    obtain ⟨hg, rfl⟩ := running hrun hg hs
    exact turning_step hinv hrun hsteps h hindex hpending hg hin
  | signing hrun hsteps h hpending =>
    obtain ⟨hg, rfl⟩ := running hrun hg hs
    exact signing_step hinv hsteps h hpending hg
  | writing hrun hsteps h hpending hissued hsubset hacked =>
    obtain ⟨hg, rfl⟩ := running hrun hg hs
    exact writing_step hinv hsteps h hpending hissued hsubset hacked hg
  | flushing hrun hsteps h _ hwrote =>
    obtain ⟨hg, rfl⟩ := running hrun hg hs
    exact flushing_step hinv hsteps h hwrote hg
  | through hrun hsteps hindex =>
    obtain ⟨hg, rfl⟩ := running hrun hg hs
    exact through_step hinv hsteps hindex hg

theorem Start.inv (h : Start l s) : Inv l s := by
  refine ⟨fun rec hr => good_of_image h.image hr, ?_, .idle h.run h.index⟩
  rw [h.pending]
  exact Nat.zero_le 1

theorem Inv.index (hinv : Inv l s) (hrun : s.run = none) :
    s.sb.flappingIdx = s.sbPage.durable.sb.flappingIdx := by
  cases hinv.phase with
  | idle _ hindex => exact hindex
  | _ h =>
    rw [hrun] at h
    cases h

theorem Inv.crashSafe (hinv : Inv l s) : CrashSafe l s :=
  ⟨fun im him => (hinv.good im.sb him.1).sound him.2, hinv.last, fun hrun => .inl (hinv.index hrun)⟩

/-- As long as runs fail only between the turn of the index and a superblock
write, or are not followed by another one, a crash at any point leaves a
superblock with the copies of the run that wrote it. -/
theorem superblock_crash_safe {s₀ : State α β} (h0 : Start l s₀) (h : Reachable (system l InTurn) s₀ s) :
    CrashSafe l s := by
  have hinv : Inv l s := h.invariant (fun _ => h0.inv) fun _ _ _ hs _ hg hstep _ => step_inv hs hg.1 hg.2 hstep
  exact hinv.crashSafe

/-- One page for each segment. -/
def onePage : Layout Nat Unit where
  ssdPages _ := 1
  crc := List.sum
  crcSb idx _ := idx
  isVolatile := false

/-- All segments hold zeros. -/
def zeros : State Nat Unit where
  contents _ _ := 0
  sb := ⟨0, (), fun _ => 0, 0⟩
  metadataError := false
  copies _ _ _ := ⟨0, [], true⟩
  sbPage := ⟨⟨⟨0, (), fun _ => 0, 0⟩, fun _ _ => 0⟩, [], true⟩
  run := none

theorem start_zeros : Start onePage zeros := by
  refine ⟨rfl, rfl, rfl, fun im him => ?_⟩
  obtain ⟨sb, copies⟩ := im
  obtain rfl : sb = ⟨⟨0, (), fun _ => 0, 0⟩, fun _ _ => 0⟩ := mayHold_of_pending rfl him.1
  have hzero : ∀ g i p, copies g i p = 0 := fun g i p => (him.2 g i p).resolve_right not_mem_nil
  refine ⟨Nat.two_pos, fun g => ?_, fun g p _ => hzero g 0 p⟩
  simp [ocfMetadataRawChecksum, onePage, hzero]

/-- A run whose last flush fails: the old superblock is guaranteed, the new one
may be there, and each of them comes with its copies. -/
theorem superblock_crash_safe_lateError : ∃ s, Reachable (system onePage InTurn) zeros s ∧
    s.metadataError = true ∧ s.sb.flappingIdx = 0 ∧ s.sbPage.pending.map (·.sb.flappingIdx) = [1] ∧
    CrashSafe onePage s := by
  have h0 : Reachable (system onePage InTurn) zeros zeros := .refl trivial
  have h1 := h0.next (.configure (fun _ _ => 1) ()) ⟨rfl, trivial⟩ rfl
  have h2 := h1.next .start ⟨rfl, rfl⟩ rfl
  have h3 := h2.next .pass ⟨⟨_, rfl, .inl ⟨_, rfl⟩⟩, trivial⟩ rfl
  have h4 := h3.next .pass ⟨⟨_, rfl, .inl ⟨_, rfl⟩⟩, trivial⟩ rfl
  have h5 := h4.next .pass ⟨⟨_, rfl, .inl ⟨_, rfl⟩⟩, trivial⟩ rfl
  have h6 := h5.next (.writePage 0) ⟨⟨_, rfl, ⟨_, rfl⟩, Nat.one_pos, not_mem_nil⟩, trivial⟩ rfl
  have h7 := h6.next (.ackPage 0) ⟨⟨_, rfl, ⟨_, rfl⟩, mem_cons_self⟩, trivial⟩ rfl
  have h8 := h7.next .written ⟨⟨_, rfl, .inl ⟨_, rfl⟩, by decide⟩, trivial⟩ rfl
  have h9 := h8.next (.writePage 0) ⟨⟨_, rfl, ⟨_, rfl⟩, Nat.one_pos, not_mem_nil⟩, trivial⟩ rfl
  have h10 := h9.next (.ackPage 0) ⟨⟨_, rfl, ⟨_, rfl⟩, mem_cons_self⟩, trivial⟩ rfl
  have h11 := h10.next .written ⟨⟨_, rfl, .inl ⟨_, rfl⟩, by decide⟩, trivial⟩ rfl
  have h12 := h11.next (.writePage 0) ⟨⟨_, rfl, ⟨_, rfl⟩, Nat.one_pos, not_mem_nil⟩, trivial⟩ rfl
  have h13 := h12.next (.ackPage 0) ⟨⟨_, rfl, ⟨_, rfl⟩, mem_cons_self⟩, trivial⟩ rfl
  have h14 := h13.next .written ⟨⟨_, rfl, .inl ⟨_, rfl⟩, by decide⟩, trivial⟩ rfl
  have h15 := h14.next .flushed ⟨⟨_, rfl, rfl⟩, trivial⟩ rfl
  have h16 := h15.next .pass ⟨⟨_, rfl, .inr (.inl rfl)⟩, trivial⟩ rfl
  have h17 := h16.next .pass ⟨⟨_, rfl, .inr (.inr rfl)⟩, trivial⟩ rfl
  have h18 := h17.next .writeSb ⟨⟨_, rfl, rfl, not_mem_nil⟩, trivial⟩ rfl
  have h19 := h18.next .ackSb ⟨⟨_, rfl, rfl, mem_cons_self⟩, trivial⟩ rfl
  have h20 := h19.next .written ⟨⟨_, rfl, .inr rfl, by decide⟩, trivial⟩ rfl
  have h21 := h20.next .fail ⟨⟨_, rfl, .inr (.inr rfl)⟩, fun r hr => by cases hr; decide⟩ rfl
  exact ⟨_, h21, rfl, rfl, rfl, superblock_crash_safe start_zeros h21⟩

/-- The first run fails in front of the turn, and the index is turned back all
the same. The next run writes a page of the selected copy, and a crash leaves
the old superblock with it. -/
theorem early_error_tears_copy : ∃ s im, Start onePage zeros ∧
    Reachable (system onePage fun _ _ => True) zeros s ∧ s.sbPage.pending = [] ∧ s.Leaves im ∧
    ocfMetadataRawChecksum onePage (im.copies .partConfig im.sb.sb.flappingIdx) .partConfig = 1 ∧
    im.sb.sb.checksum .partConfig = 0 ∧ ¬CrashSafe onePage s := by
  have h0 : Reachable (system onePage fun _ _ => True) zeros zeros := .refl trivial
  have h1 := h0.next .start ⟨rfl, trivial⟩ rfl
  have h2 := h1.next .pass ⟨⟨_, rfl, .inl ⟨_, rfl⟩⟩, trivial⟩ rfl
  have h3 := h2.next .pass ⟨⟨_, rfl, .inl ⟨_, rfl⟩⟩, trivial⟩ rfl
  have h4 := h3.next .pass ⟨⟨_, rfl, .inl ⟨_, rfl⟩⟩, trivial⟩ rfl
  have h5 := h4.next .fail ⟨⟨_, rfl, .inl ⟨_, rfl⟩⟩, trivial⟩ rfl
  have h6 := h5.next (.configure (fun _ _ => 1) ()) ⟨rfl, trivial⟩ rfl
  have h7 := h6.next .start ⟨rfl, trivial⟩ rfl
  have h8 := h7.next .pass ⟨⟨_, rfl, .inl ⟨_, rfl⟩⟩, trivial⟩ rfl
  have h9 := h8.next .pass ⟨⟨_, rfl, .inl ⟨_, rfl⟩⟩, trivial⟩ rfl
  have h10 := h9.next .pass ⟨⟨_, rfl, .inl ⟨_, rfl⟩⟩, trivial⟩ rfl
  have h11 := h10.next (.writePage 0) ⟨⟨_, rfl, ⟨_, rfl⟩, Nat.one_pos, not_mem_nil⟩, trivial⟩ rfl
  obtain ⟨s, hs, hpage, hmay⟩ : ∃ s, Reachable (system onePage fun _ _ => True) zeros s ∧
      s.sbPage = zeros.sbPage ∧ (s.copies .partConfig 0 0).MayHold 1 :=
    ⟨_, h11, rfl, .inr mem_cons_self⟩
  have hdurable : s.sbPage.MayHold zeros.sbPage.durable := .inl (by rw [hpage])
  obtain ⟨im, him, hsb, hcopy⟩ := exists_image s hdurable hmay
  have hidx : im.sb.sb.flappingIdx = 0 := by rw [hsb]; rfl
  have hsum : ocfMetadataRawChecksum onePage (im.copies .partConfig im.sb.sb.flappingIdx) .partConfig = 1 := by
    rw [hidx]
    simp [ocfMetadataRawChecksum, onePage, hcopy]
  have hzero : im.sb.sb.checksum .partConfig = 0 := by rw [hsb]; rfl
  refine ⟨s, im, start_zeros, hs, by rw [hpage]; rfl, him, hsum, hzero, fun hsafe => ?_⟩
  have heq := (hsafe.image im him).checksum .partConfig
  rw [hsum, hzero] at heq
  cases heq

end System

end OcfCache.Superblock
