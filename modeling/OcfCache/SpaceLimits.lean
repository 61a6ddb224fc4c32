import OcfCache.DetachRange

/-!
# Limits of the partitions

The minimum size, the priority and the maximum size of partitions under space
management. The iterators respect them, since they take lines from the
partition in turn, which is chosen by its size and priority. The shortcut to
the physical successor of the line before looks at the eviction flag alone, so
what lies behind the lines that can be taken decides if a limit is kept.
-/

namespace OcfCache.SpaceLimits

open Loops Metadata Requests EngineCommon Partitions Lru Lfu Space SpaceTrace DetachRange LruRuns Runs
open Option (bind_eq_some_iff bind_some map_eq_some_iff)

variable {g : Geometry}

variable {s s' : Part → Int} {log : List Handed}

theorem Trace.own {dst : Part} (h : Trace dst s log s')
    (hlog : ∀ t ∈ log, srcPart t.src = dst) : s' = s := by
  induction log generalizing s with
  | nil => exact h
  | cons t log ih =>
    have hrest := ih h.2 fun u hu => hlog u (List.mem_cons_of_mem t hu)
    rw [hlog t List.mem_cons_self, sizesMoved_self] at hrest
    exact hrest

theorem srcPart_of_lt {p : Nat} (hp : p < ocfUserIoClassMax) : srcPart p = .user p := by
  rw [srcPart, if_neg]
  simp only [partitionFreelist]
  omega

/-- Partition 1 may have half of the cache. Partition 2 has a higher priority
and a minimum size. -/
def limits (p : Nat) : UserPartConfig :=
  if p = 1 then ⟨0, 50, true, 5⟩ else if p = 2 then ⟨34, 100, true, 1⟩ else ⟨0, 100, true, 255⟩

/-- A write, as its lookup leaves it. -/
def newWrite (c : Cache) (partId addr blocks : Nat) : Request :=
  ocfEngineLookup threeLines c.md
    { coreId := 0
      addr := addr
      blocks := blocks
      rw := .write
      partId := partId
      map := fun _ => ⟨0, 3, 0, 0, .miss, false, false, false⟩
      info := .zero }

/-- A write of one block takes a free line, and completes. -/
def mapOne (partId addr : Nat) (s : LruRuns.State) : Option LruRuns.State :=
  (LruRuns.step threeLines s (.reqClines (newWrite s.cache partId addr 1) .free 1)).map fun s =>
    ⟨{ s.cache with lineLocked := fun _ => false, waiters := fun _ => false }, s.owner⟩

/-- Lines 0 and 2 are in partition 1, and line 1 is in partition 2. -/
def nearLimit : Option LruRuns.State :=
  ((mapOne 1 0 (startThree limits [0, 1, 2])).bind (mapOne 2 7)).bind (mapOne 1 20)

theorem mapOne_reachable {start s s' : LruRuns.State} {partId addr : Nat}
    (hs : Reachable (lruSystem threeLines) start s) (hp : partId < ocfUserIoClassMax)
    (h : mapOne partId addr s = some s') : Reachable (lruSystem threeLines) start s' := by
  obtain ⟨t, ht, rfl⟩ := map_eq_some_iff.mp h
  have hpart : (newWrite s.cache partId addr 1).partId = partId := by
    refine forRange_inv (fun _ (req : Request) => req.partId = partId) rfl fun i req _ hreq => ?_
    simp only [lookupBody]
    split <;> exact hreq
  have hmapped : Reachable (lruSystem threeLines) start t := by
    refine hs.next (.reqClines (newWrite s.cache partId addr 1) .free 1) ⟨?_, trivial⟩ ht
    rw [hpart]
    exact hp
  refine hmapped.next
    (.other { t.cache with lineLocked := fun _ => false, waiters := fun _ => false }) ?_ rfl
  exact ⟨rfl, rfl, rfl, rfl, fun _ _ => rfl, fun _ _ _ => rfl⟩

theorem nearLimit_reachable {s : LruRuns.State} (h : nearLimit = some s) :
    Start threeLines (startThree limits [0, 1, 2]) ∧
      Reachable (lruSystem threeLines) (startThree limits [0, 1, 2]) s := by
  obtain ⟨s2, h2, h3⟩ := bind_eq_some_iff.mp h
  obtain ⟨s1, h1, h2⟩ := bind_eq_some_iff.mp h2
  have hr1 := mapOne_reachable (.refl trivial) (by decide) h1
  have hr2 := mapOne_reachable hr1 (by decide) h2
  exact ⟨start_startThree (by decide +kernel), mapOne_reachable hr2 (by decide) h3⟩

theorem leadsOn_lt {c : Cache} {req : Request} {x : Nat} (h : leadsOn g c req x = true) :
    x + 1 < g.collisionEntries := by
  simp only [leadsOn, Bool.and_eq_true, decide_eq_true_eq] at h
  exact h.1.1.1.1

/-- No user partition gained lines, and the configuration stayed. -/
def Shrunk (c c' : Cache) : Prop :=
  (∀ p, c'.currSize (.user p) ≤ c.currSize (.user p)) ∧ c'.config = c.config

variable {c c' : Cache}

theorem Moved.shrunk {src : Part} {x : Nat} (h : Moved x c c' src .free) : Shrunk c c' := by
  refine ⟨fun p => ?_, h.2.1⟩
  rw [h.1]
  simp only [sizesMoved, reduceCtorEq, if_false]
  split <;> omega

theorem Shrunk.trans {a b c : Cache} (h : Shrunk a b) (h' : Shrunk b c) : Shrunk a c :=
  ⟨fun p => (h'.1 p).trans (h.1 p), h'.2.trans h.2⟩

theorem shrunk_ocfEvictionRmCline {x : Nat}
    (h : ocfEvictionRmCline g c x = some c') : Shrunk c c' := by
  simp only [ocfEvictionRmCline] at h
  split at h
  · exact Moved.shrunk (moved_ocfLruRepartLocked h)
  · simp only [ocfLfuRmCline, Option.ite_none_left_eq_some] at h
    exact Moved.shrunk (moved_ocfLfuRepartLocked h.2)

theorem shrunk_setCacheLineInvalidNoFlush {x : Nat}
    (h : setCacheLineInvalidNoFlush g c x = some c') : Shrunk c c' := by
  simp only [setCacheLineInvalidNoFlush] at h
  split at h
  · cases h
    exact ⟨fun _ => le_refl _, rfl⟩
  · obtain ⟨c1, h1, rfl⟩ := map_eq_some_iff.mp h
    have hshrunk := shrunk_ocfEvictionRmCline h1
    exact ⟨hshrunk.1, hshrunk.2⟩

theorem shrunk_ocfEngineMapHndlError {req req' : Request}
    (h : ocfEngineMapHndlError g c req = some (c', req')) : Shrunk c c' := by
  refine forRange_inv (fun _ (s : Option (Cache × Request)) => ∀ t, s = some t → Shrunk c t.1)
    ?_ ?_ (c', req') h
  · intro t ht
    cases ht
    exact ⟨fun _ => le_refl _, rfl⟩
  · intro i s _ hinv t ht
    obtain ⟨u, hu, ht⟩ := bind_eq_some_iff.mp ht
    have hprev := hinv u hu
    simp only at ht
    split at ht
    · obtain ⟨c1, h1, rfl⟩ := map_eq_some_iff.mp ht
      have hshrunk := hprev.trans (shrunk_setCacheLineInvalidNoFlush h1)
      exact ⟨hshrunk.1, hshrunk.2⟩
    · cases ht
      exact hprev

/-- A mapping of the core lines of a request. -/
structure Mapping where
  /-- State before. -/
  before : Cache
  /-- The request, after its lookup. -/
  req : Request
  /-- Lines handed to it. -/
  handed : List Handed

/-- The cache with the last mapping, if that was the last step. -/
structure MapState where
  /-- The cache. -/
  cache : Cache
  /-- The mapping of the last step. -/
  last : Option Mapping

/-- Mappings one after the other, and anything in between. -/
inductive MapAct
  | map (req : Request)
  | other (next : Cache)

/-- No user partition has more than its maximum size. -/
def Capped (g : Geometry) (c : Cache) : Prop :=
  ∀ p < ocfUserIoClassMax, c.currSize (.user p) ≤ ocfUserPartGetMaxSize g c p

/-- A mapping starts with every line on the list of its partition, which the
eviction policies keep, and with no line locked or waited for. In between, the
configuration stays and no partition is made to exceed its maximum size. -/
def MapPermitted (g : Geometry) (s : MapState) : MapAct → Prop
  | .map req => req.partId < ocfUserIoClassMax ∧ (∃ owner, Managed g s.cache owner) ∧
      (∀ x, s.cache.lineLocked x = false) ∧ ∀ x, s.cache.waiters x = false
  | .other next => next.config = s.cache.config ∧
      ∀ p < ocfUserIoClassMax, next.currSize (.user p) ≤ s.cache.currSize (.user p) ∨
        next.currSize (.user p) ≤ ocfUserPartGetMaxSize g next p

/-- When the request's partition has no space for the lines that the request
needs, the shortcut leads from none of its lines into another partition. -/
def OwnNeighbours (g : Geometry) (s : MapState) : MapAct → Prop
  | .map req => ocfUserPartHasSpace g s.cache req = false → 1 < ocfEngineUnmappedCount g req →
      ∀ x, leadsOn g s.cache req x = true → s.cache.md.partitionId x = req.partId →
        s.cache.md.partitionId (x + 1) = req.partId
  | .other _ => True

/-- One mapping, or a step in between. -/
def mapStep (g : Geometry) (s : MapState) : MapAct → Option MapState
  | .map req => (ocfPrepareClinesMiss g s.cache req).map fun r =>
      ⟨r.1, some ⟨s.cache, req, r.2.2⟩⟩
  | .other next => some ⟨next, none⟩

/-- Mappings as a transition system. -/
def mapSystem (g : Geometry) : System MapState MapAct := ⟨MapPermitted g, mapStep g⟩

/-- Mappings that all meet the condition. -/
def ownSystem (g : Geometry) : System MapState MapAct :=
  ⟨fun s act => MapPermitted g s act ∧ OwnNeighbours g s act, mapStep g⟩

/-- All partitions are capped, and a mapping without space used the partition
of the request only. -/
def CapKept (g : Geometry) (s : MapState) : Prop :=
  Capped g s.cache ∧ ∀ m, s.last = some m → ocfUserPartHasSpace g m.before m.req = false →
    (∀ t ∈ m.handed, t.src = m.req.partId) ∧
      s.cache.currSize (.user m.req.partId) ≤ m.before.currSize (.user m.req.partId)

theorem Shrunk.capped (h : Shrunk c c') (hcap : Capped g c) : Capped g c' := by
  intro p hp
  rw [(sizes_congr h.2 p).2]
  exact (h.1 p).trans (hcap p hp)

/-- `ocf_space_managment_remap_do` for a partition with space. -/
theorem capped_of_space {c : Cache} {req : Request} {r : Result} (hcap : Capped g c)
    (hspace : ocfUserPartHasSpace g c req = true)
    (h : ocfSpaceManagmentRemapDo g c req false = some r) : Capped g r.1 := by
  obtain ⟨hf, -, hlen⟩ := ocfSpaceManagmentRemapDo_follows h
  simp only [ocfUserPartHasSpace, decide_eq_true_eq] at hspace
  intro p hp
  rw [(sizes_congr hf.frame.config p).2]
  by_cases hown : p = req.partId
  · subst hown
    have hgrow := hf.trace.dst_le
    omega
  · have hne : Part.user p ≠ .user req.partId := fun heq => hown (Part.user.inj heq)
    exact (hf.trace.bounds hne).1.trans (hcap p hp)

/-- `ocf_space_managment_remap_do` for a partition without space, when the
shortcut does not lead out of it. -/
theorem shrunk_of_own {c : Cache} {req : Request} {r : Result} {owner : Nat → Part}
    (hm : Managed g c owner) (hp : req.partId < ocfUserIoClassMax)
    (hnext : 1 < ocfEngineUnmappedCount g req → ∀ x, leadsOn g c req x = true →
      c.md.partitionId x = req.partId → c.md.partitionId (x + 1) = req.partId)
    (h : ocfSpaceManagmentRemapDo g c req true = some r) :
    (∀ t ∈ r.2.2, t.src = req.partId) ∧ Shrunk c r.1 := by
  obtain ⟨hf, hturn, hlen⟩ := ocfEvictPartDo_follows h
  have hsource : ∀ t ∈ r.2.2, t.src = c.md.partitionId t.line := by
    intro t ht
    have hdrawn := hf.drawn t ht
    have hpart : t.src = t.before.md.partitionId t.line := by
      simp only [ocfSpaceManagmentRemapDo, if_pos, ocfEvictPartDo] at h
      split at h
      · cases h
        exact absurd ht List.not_mem_nil
      · exact (hm.reqClines_source hp (show (Part.user req.partId).Exists from hp) h t ht).2
    exact hpart.trans (hdrawn.frame.line t.line hdrawn.free).2.1
  -- by the number of the line: a successor has a smaller line before it
  have hall : ∀ n, ∀ t ∈ r.2.2, t.line = n → t.src = req.partId := by
    intro n
    induction n using Nat.strong_induction_on with
    | h n ih =>
      intro t ht hn
      rcases hturn t ht with ⟨-, hsrc⟩ | ⟨hs, -⟩
      · exact hsrc
      · obtain ⟨u, hu, hline, hleads, hpart, hmany⟩ := hf.leadsOn ht hs
        have hprev := ih u.line (by omega) u hu rfl
        rw [hsource u hu] at hprev
        rw [hpart]
        exact hnext (by omega) u.line hleads hprev
  refine ⟨fun t ht => hall _ t ht rfl, fun p => ?_, hf.frame.config⟩
  have hsame := Trace.own hf.trace fun t ht => by rw [hall _ t ht rfl, srcPart_of_lt hp]
  rw [hsame]

theorem mapStep_capKept {s s' : MapState} {act : MapAct} (hcap : Capped g s.cache)
    (hp : MapPermitted g s act) (hown : OwnNeighbours g s act) (hs : mapStep g s act = some s') :
    CapKept g s' := by
  cases act with
  | other next =>
    cases hs
    refine ⟨fun p hlt => ?_, nofun⟩
    rcases hp.2 p hlt with hle | hle
    · have hmax := (sizes_congr (g := g) hp.1 p).2
      rw [hmax]
      exact hle.trans (hcap p hlt)
    · exact hle
  | map req =>
    obtain ⟨r, hr, rfl⟩ := map_eq_some_iff.mp hs
    obtain ⟨q, hq, hr⟩ := bind_eq_some_iff.mp hr
    -- the mapping itself, or what is left of it after the error path
    have hres : q.2.2 = r.2.2 ∧ (r.1 = q.1 ∨ Shrunk q.1 r.1) := by
      split at hr
      · cases hr
        exact ⟨rfl, .inl rfl⟩
      · obtain ⟨e, he, rfl⟩ := map_eq_some_iff.mp hr
        exact ⟨rfl, .inr (shrunk_ocfEngineMapHndlError he)⟩
    obtain ⟨hlog, hafter⟩ := hres
    have hshrunk : Shrunk q.1 r.1 := by
      rcases hafter with heq | h
      · rw [heq]
        exact ⟨fun _ => le_refl _, rfl⟩
      · exact h
    by_cases hspace : ocfUserPartHasSpace g s.cache req = true
    · rw [hspace] at hq
      refine ⟨hshrunk.capped (capped_of_space hcap hspace hq), ?_⟩
      rintro m hm hno
      cases hm
      simp [hspace] at hno
    · have hno : ocfUserPartHasSpace g s.cache req = false := by simpa using hspace
      rw [hno] at hq
      obtain ⟨hpart, ⟨owner, hmanaged⟩, -⟩ := hp
      obtain ⟨hall, hkeep⟩ := shrunk_of_own hmanaged hpart (hown hno) hq
      have hfinal := hkeep.trans hshrunk
      refine ⟨hfinal.capped hcap, ?_⟩
      rintro m hm -
      cases hm
      rw [← hlog]
      exact ⟨hall, hfinal.1 req.partId⟩

/-- The caps are kept along every run of mappings that meet the condition. -/
theorem capKept_run {start s : MapState} (hcap : Capped g start.cache) (hlast : start.last = none)
    (h : Reachable (ownSystem g) start s) : CapKept g s := by
  refine h.invariant (fun _ => ⟨hcap, fun m hm => ?_⟩) fun s act s' hs _ hg hstep _ => ?_
  · rw [hlast] at hm
    cases hm
  · exact mapStep_capKept hs.1 hg.1 hg.2 hstep

/-- A cache with no mapping behind it. -/
def MapState.ofCache (c : Cache) : MapState := ⟨c, none⟩

/-- Between writes a mapping is permitted. -/
theorem mapPermitted_of_mapOne {start s s' : LruRuns.State} {partId addr : Nat} {req : Request}
    (h0 : Start threeLines start) (hr : Reachable (lruSystem threeLines) start s')
    (h : mapOne partId addr s = some s') (hp : req.partId < ocfUserIoClassMax) :
    MapPermitted threeLines (.ofCache s'.cache) (.map req) := by
  obtain ⟨hplaced, hpolicy⟩ := reachable_placed h0 hr
  obtain ⟨t, -, rfl⟩ := map_eq_some_iff.mp h
  exact ⟨hp, ⟨_, (managed_lru hpolicy).mpr hplaced⟩, fun _ => rfl, fun _ => rfl⟩

/-- The write of two blocks, in a partition that is full, leaves it with a line
more than its maximum size. -/
theorem cap_not_kept : ∃ start s s', Start threeLines start ∧
    Reachable (lruSystem threeLines) start s ∧ Capped threeLines s.cache ∧
    Reachable (mapSystem threeLines) (.ofCache s.cache) s' ∧ ¬ Capped threeLines s'.cache := by
  obtain ⟨s, hs⟩ : ∃ s, nearLimit = some s := Option.isSome_iff_exists.mp (by decide +kernel)
  obtain ⟨hstart, hreach⟩ := nearLimit_reachable hs
  have hrun : (nearLimit.bind fun s =>
      (mapStep threeLines (.ofCache s.cache) (.map (newWrite s.cache 1 40 2))).map fun s' =>
        ((newWrite s.cache 1 40 2).partId, s'.cache.currSize (.user 1),
          ocfUserPartGetMaxSize threeLines s'.cache 1)) = some (1, 3, 2) := by
    decide +kernel
  rw [hs, bind_some] at hrun
  obtain ⟨s', hs', hvals⟩ := map_eq_some_iff.mp hrun
  simp only [Prod.mk.injEq] at hvals
  obtain ⟨hpart, hsize, hmax⟩ := hvals
  have hcap : nearLimit.all (fun s => decide (∀ p < ocfUserIoClassMax,
      s.cache.currSize (.user p) ≤ (ocfUserPartGetMaxSize threeLines s.cache p : Int))) = true := by
    decide +kernel
  rw [hs, Option.all_some, decide_eq_true_eq] at hcap
  obtain ⟨t, -, ht⟩ := bind_eq_some_iff.mp hs
  refine ⟨_, s, s', hstart, hreach, hcap, Reachable.next (.refl trivial)
    (.map (newWrite s.cache 1 40 2)) (mapPermitted_of_mapOne hstart hreach ht ?_) hs', ?_⟩
  · rw [hpart]
    decide
  · intro hcapped
    have hle := hcapped 1 (by decide)
    rw [hsize, hmax] at hle
    omega

/-- The line of partition 2 is in front of those of partition 1. -/
def inFront : Option LruRuns.State :=
  ((mapOne 2 20 (startThree limits [0, 1, 2])).bind (mapOne 1 0)).bind (mapOne 1 7)

/-- The write of two blocks takes both lines of its partition. -/
theorem capKept_run_inFront : ∃ s s', inFront = some s ∧
    mapStep threeLines (.ofCache s.cache) (.map (newWrite s.cache 1 40 2)) = some s' ∧
    s'.last.map (fun m => m.handed.map fun t => (t.line, t.successor)) = some [(1, false), (2, true)] ∧
    CapKept threeLines s' := by
  have hrun : (inFront.bind fun s =>
      (mapStep threeLines (.ofCache s.cache) (.map (newWrite s.cache 1 40 2))).map fun s' =>
        (s'.last.map (fun m => m.handed.map fun t => (t.line, t.successor)),
          decide ((∀ p < ocfUserIoClassMax, s.cache.currSize (.user p) ≤
              (ocfUserPartGetMaxSize threeLines s.cache p : Int)) ∧
            (newWrite s.cache 1 40 2).partId < ocfUserIoClassMax),
          decide (∀ x < threeLines.collisionEntries,
            leadsOn threeLines s.cache (newWrite s.cache 1 40 2) x = false ∨
              s.cache.md.partitionId x ≠ (newWrite s.cache 1 40 2).partId ∨
              s.cache.md.partitionId (x + 1) = (newWrite s.cache 1 40 2).partId))) =
      some (some [(1, false), (2, true)], true, true) := by
    decide +kernel
  obtain ⟨s, hs, hrun⟩ := bind_eq_some_iff.mp hrun
  obtain ⟨s', hs', hvals⟩ := map_eq_some_iff.mp hrun
  simp only [Prod.mk.injEq, decide_eq_true_eq] at hvals
  obtain ⟨hlog, ⟨hcap, hpart⟩, hleads⟩ := hvals
  obtain ⟨s2, h2, h3⟩ := bind_eq_some_iff.mp hs
  obtain ⟨s1, h1, h2⟩ := bind_eq_some_iff.mp h2
  have hreach := mapOne_reachable (mapOne_reachable (mapOne_reachable (.refl trivial) (by decide) h1)
    (by decide) h2) (by decide) h3
  have hpermitted := mapPermitted_of_mapOne (start_startThree (by decide +kernel)) hreach h3 hpart
  have hown : OwnNeighbours threeLines (.ofCache s.cache) (.map (newWrite s.cache 1 40 2)) := by
    intro _ _ x hx hin
    rcases hleads x (Nat.lt_of_succ_lt (leadsOn_lt hx)) with hno | hout | hnext
    · exact absurd hx (Bool.eq_false_iff.mp hno)
    · exact absurd hin hout
    · exact hnext
  have hcapped : Capped threeLines (MapState.ofCache s.cache).cache := hcap
  exact ⟨s, s', hs, hs', hlog, capKept_run hcapped rfl
    (Reachable.next (.refl trivial) (.map (newWrite s.cache 1 40 2)) ⟨hpermitted, hown⟩ hs')⟩

end OcfCache.SpaceLimits
