import OcfCache.AcpPopulate
import OcfCache.CleaningSwitch
import OcfCache.Unwind
import Mathlib.Algebra.Order.Floor.Div

/-!
# Initialisation of the ACP cleaning policy

Embedding of `cleaning_policy_acp_initialize` with every allocation that may
fail, and of the two cleanup routines that it nests. The resources of the world
are the context, its lock and the chunk tables. The module shows that the
initialisation unwinds unless the chunk table of a core is not allocated, where
the cleanup stops at the assertion for that core.
-/

namespace OcfCache.AcpInit

open Function Acp Unwind Loops CleaningSwitch

/-- What the policy sets up. -/
inductive Resource
  /-- Memory of the context. -/
  | context
  /-- `chunks_lock`. -/
  | chunksLock
  /-- The chunk table of a core. -/
  | table (core : Nat)
  deriving DecidableEq

/-- The cache while the policy starts. -/
structure State where
  /-- Cores and contents of the context. -/
  cache : Acp.State
  /-- `cleaning_policy_context` is not `NULL`. -/
  context : Bool
  /-- What is set up. -/
  world : World Resource

/-- Results of the calls that may fail. -/
structure Faults where
  /-- The context is allocated. -/
  context : Bool
  /-- Result of `env_rwsem_init`. -/
  rwsem : Int
  /-- The chunk table of a core is allocated. -/
  table : Nat → Bool

/-- `cleaning_policy_acp_add_core`. -/
def addCore (faults : Faults) (s : State) (core : Nat) : Option (Int × State) :=
  (cleaningPolicyAcpAddCore s.cache core (faults.table core)).map fun cache =>
    if faults.table core then (0, { s with cache, world := s.world.init (.table core) })
    else (errNoMem, { s with cache })

/-- `cleaning_policy_acp_remove_core`. -/
def removeCore (s : State) (core : Nat) : Option State :=
  (cleaningPolicyAcpRemoveCore s.cache core).map fun cache =>
    { s with cache, world := s.world.destroy (.table core) }

/-- The loop of `_acp_remove_cores`. -/
def removeLoop : List Nat → State → Option State
  | [], s => some s
  | core :: cores, s =>
    (if s.cache.added core then removeCore s core else some s).bind (removeLoop cores)

/-- `_acp_remove_cores`. -/
def acpRemoveCores (s : State) : Option State := removeLoop (List.range ocfCoreNum) s

/-- The loop of `_acp_load_cores` up to the first error. -/
def loadLoop (faults : Faults) : List Nat → State → Option (Int × State)
  | [], s => some (0, s)
  | core :: cores, s =>
    if s.cache.added core then
      (addCore faults s core).bind fun r => if r.1 ≠ 0 then some r else loadLoop faults cores r.2
    else loadLoop faults cores s

/-- `_acp_load_cores`. -/
def acpLoadCores (faults : Faults) (s : State) : Option (Int × State) :=
  (loadLoop faults (List.range ocfCoreNum) s).bind fun r =>
    if r.1 ≠ 0 then (acpRemoveCores r.2).map fun s => (r.1, s) else some r

/-- `cleaning_policy_acp_deinitialize`. -/
def cleaningPolicyAcpDeinitialize (s : State) : Option State :=
  (acpRemoveCores s).map fun s =>
    { s with context := false, world := (s.world.destroy .chunksLock).destroy .context }

/-- The context is set up and its buckets are empty. -/
def State.setContext (cfg : Config) (s : State) : State where
  cache := { s.cache with acp := emptyContext cfg }
  context := true
  world := (s.world.init .context).init .chunksLock

/-- `cleaning_policy_acp_initialize`, with `conf_meta->core_count`; `none` is an
`ENV_BUG_ON`. -/
def cleaningPolicyAcpInitialize (cfg : Config) (faults : Faults) (coreCount : Nat) (s : State) :
    Option (Int × State) :=
  if s.context then none
  else if faults.context = false then some (errNoMem, s)
  else if faults.rwsem ≠ 0 then
    some (faults.rwsem, { s with world := (s.world.init .context).destroy .context })
  else if 0 < coreCount then
    (acpLoadCores faults (s.setContext cfg)).bind fun r =>
      if r.1 ≠ 0 then
        ( OcfCache.AcpInit.cleaningPolicyAcpDeinitialize r.2).map fun s => (r.1, s)
      else some (0, r.2)
  else some (0, s.setContext cfg)

section Remove

variable {s s' : State} {core other : Nat}

theorem removeCore_allocated (h : removeCore s core = some s') (hne : other ≠ core) :
    s'.cache.acp.allocated other = s.cache.acp.allocated other ∧ s'.cache.added = s.cache.added := by
  obtain ⟨cache, hcache, rfl⟩ := Option.map_eq_some_iff.mp h
  rw [cleaningPolicyAcpRemoveCore] at hcache
  split at hcache
  · exact absurd hcache nofun
  · split at hcache
    · exact absurd hcache nofun
    · obtain rfl := Option.some.inj hcache
      have hloop : (forRange (s.cache.acp.numChunks core) (fun acp i => acp.listDel (core, i))
          (s.cache.acp.resetState core)).allocated = s.cache.acp.allocated := by
        refine forRange_inv (fun _ (acp : AcpContext) => acp.allocated = s.cache.acp.allocated) ?_
          fun _ _ _ hacp => hacp
        unfold AcpContext.resetState
        split <;> rfl
      refine ⟨?_, rfl⟩
      simp only [AcpContext.release, update_of_ne hne]
      rw [hloop]

theorem removeCore_missing (h : s.cache.acp.allocated core = false) : removeCore s core = none := by
  rw [removeCore, cleaningPolicyAcpRemoveCore]
  split
  · rfl
  · rfl

theorem removeLoop_missing {cores : List Nat} (hin : core ∈ cores) (hadded : s.cache.added core = true)
    (h : s.cache.acp.allocated core = false) : removeLoop cores s = none := by
  induction cores generalizing s with
  | nil => exact absurd hin (List.not_mem_nil)
  | cons first cores ih =>
    rw [removeLoop]
    by_cases hfirst : core = first
    · rw [← hfirst, if_pos hadded, removeCore_missing h]
      rfl
    · have hrest : core ∈ cores := (List.mem_cons.mp hin).resolve_left hfirst
      by_cases hother : s.cache.added first = true
      · rw [if_pos hother]
        cases hstep : removeCore s first with
        | none => rfl
        | some t =>
          have hframe := removeCore_allocated hstep hfirst
          exact ih hrest (by rw [hframe.2, hadded]) (by rw [hframe.1, h])
      · rw [if_neg hother]
        exact ih hrest hadded h

end Remove

section Load

variable {faults : Faults} {s0 s : State} {done : Finset Nat}

/-- The tables of some cores. -/
def tablesOf (done : Finset Nat) : Set Resource := {r | ∃ core ∈ done, Resource.table core = r}

/-- The context after some cores were loaded. -/
structure Loaded (s0 : State) (done : Finset Nat) (s : State) : Prop where
  /-- Cores. -/
  added : s.cache.added = s0.cache.added
  /-- Their lengths. -/
  length : s.cache.length = s0.cache.length
  /-- The context stays. -/
  context : s.context = true
  /-- Chunk lists. -/
  listed : Listed s.cache.acp
  /-- Tables. -/
  allocated_iff : ∀ core, s.cache.acp.allocated core = true ↔ core ∈ done
  /-- Their sizes. -/
  numChunks_eq : ∀ core ∈ done, s.cache.acp.numChunks core = numChunksOf (s0.cache.length core)
  /-- The chunks are in the first bucket. -/
  chunk_eq : ∀ core ∈ done, ∀ i < numChunksOf (s0.cache.length core),
    s.cache.acp.chunk (core, i) = some ⟨0, 0⟩
  /-- Number of all chunks. -/
  chunksTotal_eq : s.cache.acp.chunksTotal = ∑ core ∈ done, numChunksOf (s0.cache.length core)
  /-- What is set up. -/
  world : s.world.Holds ({.context, .chunksLock} ∪ tablesOf done)

theorem loaded_empty (cfg : Config) (hworld : s.world.Holds ∅) :
    Loaded s ∅ (s.setContext cfg) where
  added := rfl
  length := rfl
  context := rfl
  listed := by
    refine ⟨fun b key => ?_, fun b => List.nodup_nil⟩
    have hnone : (emptyContext cfg).chunk key = none := if_neg (by simp [emptyContext])
    change key ∈ [] ↔ ∃ chunk, (emptyContext cfg).chunk key = some chunk ∧ chunk.bucketId = b
    simp [hnone]
  allocated_iff core := by simp [State.setContext, emptyContext]
  numChunks_eq core hin := absurd hin (Finset.notMem_empty core)
  chunk_eq core hin := absurd hin (Finset.notMem_empty core)
  chunksTotal_eq := rfl
  world := by
    have hcontext := hworld.init (Set.notMem_empty Resource.context)
    refine (hcontext.init (r := .chunksLock) (by simp)).congr ?_
    ext r
    cases r <;> simp [tablesOf]

theorem Loaded.add {core : Nat} (h : Loaded s0 done s) (hnew : core ∉ done)
    (htable : faults.table core = true) :
    ∃ t, addCore faults s core = some (0, t) ∧ Loaded s0 (insert core done) t := by
  have hfree : s.cache.acp.allocated core = false := by
    rw [← Bool.not_eq_true, h.allocated_iff]
    exact hnew
  obtain ⟨cache, hcache, hl, -, -, hadded, hlength, -, ha, hn, htotal, hchunk⟩ :=
    addCore_spec hfree h.listed
  refine ⟨{ s with cache, world := s.world.init (.table core) }, ?_, ?_⟩
  · rw [addCore, htable, hcache]
    rfl
  · refine ⟨hadded.trans h.added, hlength.trans h.length, h.context, hl, fun other => ?_,
      fun other hin => ?_, fun other hin i hi => ?_, ?_, ?_⟩
    · change cache.acp.allocated other = true ↔ _
      rw [ha, update_apply, Finset.mem_insert]
      split
      · rename_i heq
        exact iff_of_true rfl (.inl heq)
      · rename_i hne
        rw [h.allocated_iff]
        exact (or_iff_right hne).symm
    · change cache.acp.numChunks other = _
      rw [hn, h.length]
      rcases Finset.mem_insert.mp hin with heq | hin
      · rw [heq, update_self]
      · have hne : other ≠ core := ne_of_mem_of_not_mem hin hnew
        rw [update_of_ne hne]
        exact h.numChunks_eq other hin
    · change cache.acp.chunk (other, i) = _
      rw [hchunk, h.length]
      rcases Finset.mem_insert.mp hin with heq | hin
      · rw [if_pos heq, ← heq, if_pos hi]
      · have hne : other ≠ core := ne_of_mem_of_not_mem hin hnew
        rw [if_neg hne]
        exact h.chunk_eq other hin i hi
    · change cache.acp.chunksTotal = _
      rw [htotal, h.chunksTotal_eq, h.length, Finset.sum_insert hnew]
      exact Nat.add_comm _ _
    · have hfresh : Resource.table core ∉ ({.context, .chunksLock} ∪ tablesOf done : Set Resource) := by
        simp [tablesOf, hnew]
      refine (h.world.init hfresh).congr ?_
      ext r
      cases r <;> simp [tablesOf, eq_comm]

theorem Loaded.addError {core : Nat} (h : Loaded s0 done s) (hnew : core ∉ done)
    (htable : faults.table core = false) : addCore faults s core = some (errNoMem, s) := by
  have hfree : s.cache.acp.allocated core = false := by
    rw [← Bool.not_eq_true, h.allocated_iff]
    exact hnew
  rw [addCore, htable, cleaningPolicyAcpAddCore, hfree]
  rfl

theorem Loaded.loop (h : Loaded s0 done s) {cores : List Nat} (hd : cores.Nodup)
    (hnew : ∀ core ∈ cores, core ∉ done)
    (htable : ∀ core ∈ cores, s0.cache.added core = true → faults.table core = true) :
    ∃ t, loadLoop faults cores s = some (0, t) ∧
      Loaded s0 (done ∪ cores.toFinset.filter fun core => s0.cache.added core) t := by
  induction cores generalizing s done with
  | nil => exact ⟨s, rfl, by simpa using h⟩
  | cons core cores ih =>
    obtain ⟨hout, hd⟩ := List.nodup_cons.mp hd
    have hrest : ∀ other ∈ cores, other ∉ done := fun other hin => hnew other (List.mem_cons_of_mem _ hin)
    have htables := fun other hin => htable other (List.mem_cons_of_mem core hin)
    rw [loadLoop, h.added]
    by_cases hadded : s0.cache.added core = true
    · obtain ⟨t, ht, hload⟩ := h.add (hnew core (List.mem_cons_self ..))
        (htable core (List.mem_cons_self ..) hadded)
      have hstill : ∀ other ∈ cores, other ∉ insert core done := by
        intro other hin hmem
        rcases Finset.mem_insert.mp hmem with rfl | hmem
        · exact hout hin
        · exact hrest other hin hmem
      obtain ⟨u, hu, hend⟩ := ih hload hd hstill htables
      refine ⟨u, ?_, ?_⟩
      · rw [if_pos hadded, ht]
        exact hu
      · rw [List.toFinset_cons, Finset.filter_insert, if_pos hadded, Finset.union_insert]
        rwa [Finset.insert_union] at hend
    · rw [if_neg hadded, List.toFinset_cons, Finset.filter_insert, if_neg hadded]
      exact ih h hd hrest htables

theorem Loaded.loop_error (h : Loaded s0 done s) {cores : List Nat} (hd : cores.Nodup)
    (hnew : ∀ core ∈ cores, core ∉ done) {core : Nat} (hin : core ∈ cores)
    (hadded : s0.cache.added core = true) (htable : faults.table core = false) :
    ∃ t failed, loadLoop faults cores s = some (errNoMem, t) ∧ failed ∈ cores ∧
      t.cache.added failed = true ∧ t.cache.acp.allocated failed = false := by
  induction cores generalizing s done with
  | nil => exact absurd hin List.not_mem_nil
  | cons first cores ih =>
    obtain ⟨hout, hd⟩ := List.nodup_cons.mp hd
    have hrest : ∀ other ∈ cores, other ∉ done := fun other hin => hnew other (List.mem_cons_of_mem _ hin)
    have hfirst := hnew first (List.mem_cons_self ..)
    rw [loadLoop, h.added]
    by_cases hother : s0.cache.added first = true
    · rw [if_pos hother]
      cases hfault : faults.table first with
      | false =>
        refine ⟨s, first, ?_, List.mem_cons_self .., by rw [h.added, hother], ?_⟩
        · rw [h.addError hfirst hfault]
          rfl
        · rw [← Bool.not_eq_true, h.allocated_iff]
          exact hfirst
      | true =>
        obtain ⟨t, ht, hload⟩ := h.add hfirst hfault
        have hstill : ∀ other ∈ cores, other ∉ insert first done := by
          intro other hlist hmem
          rcases Finset.mem_insert.mp hmem with heq | hmem
          · exact hout (heq ▸ hlist)
          · exact hrest other hlist hmem
        have hlater : core ∈ cores := by
          refine (List.mem_cons.mp hin).resolve_left fun heq => ?_
          rw [heq, hfault] at htable
          exact absurd htable nofun
        obtain ⟨u, failed, hu, hfailed, hend⟩ := ih hload hd hstill hlater
        refine ⟨u, failed, ?_, List.mem_cons_of_mem _ hfailed, hend⟩
        rw [ht]
        exact hu
    · rw [if_neg hother]
      have hlater : core ∈ cores := by
        refine (List.mem_cons.mp hin).resolve_left fun heq => ?_
        exact hother (heq ▸ hadded)
      obtain ⟨u, failed, hu, hfailed, hend⟩ := ih h hd hrest hlater
      exact ⟨u, failed, hu, List.mem_cons_of_mem _ hfailed, hend⟩

end Load

section Initialize

variable {cfg : Config} {faults : Faults} {coreCount : Nat} {s : State}

/-- The cores of the cache. -/
def coresOf (s : State) : Finset Nat :=
  (Finset.range ocfCoreNum).filter fun core => s.cache.added core

/-- Some call of the initialisation fails. -/
def Fails (faults : Faults) (s : State) : Prop :=
  faults.context = false ∨ faults.rwsem ≠ 0 ∨ ∃ core ∈ coresOf s, faults.table core = false

/-- Every core has a chunk table with all of its chunks in the first bucket. -/
structure Tables (s t : State) : Prop where
  /-- A core has a table with a chunk for every started `ACP_CHUNK_SIZE` bytes. -/
  table : ∀ core ∈ coresOf s, t.cache.acp.allocated core = true ∧
    t.cache.acp.numChunks core = s.cache.length core ⌈/⌉ acpChunkSize
  /-- The chunks are on the list of the first bucket. -/
  bucket : ∀ core ∈ coresOf s, ∀ i < t.cache.acp.numChunks core, (core, i) ∈ t.cache.acp.chunkList 0
  /-- Number of all chunks. -/
  total : t.cache.acp.chunksTotal = ∑ core ∈ coresOf s, t.cache.acp.numChunks core

/-- The initialisation unwinds when a call fails and sets everything up when
none does. -/
structure Unwinds (cfg : Config) (faults : Faults) (coreCount : Nat) (s : State) : Prop where
  /-- After a failure there is an error, no context, and nothing is left. -/
  failure : Fails faults s → ∃ err t,
    cleaningPolicyAcpInitialize cfg faults coreCount s = some (err, t) ∧
      err ≠ 0 ∧ t.context = false ∧ t.world.Holds ∅
  /-- Without a failure the context, its lock and all tables are set up. -/
  success : ¬Fails faults s → ∃ t,
    cleaningPolicyAcpInitialize cfg faults coreCount s = some (0, t) ∧
      t.context = true ∧ t.world.Holds ({.context, .chunksLock} ∪ tablesOf (coresOf s)) ∧ Tables s t

theorem numChunksOf_eq (length : Nat) : numChunksOf length = length ⌈/⌉ acpChunkSize := by
  have hpos : 1 ≤ acpChunkSize := by decide
  rw [Nat.ceilDiv_eq_add_pred_div, Nat.add_sub_assoc hpos, numChunksOf]

theorem Loaded.tables {t : State} (h : Loaded s (coresOf s) t) : Tables s t where
  table core hcore := by
    rw [← numChunksOf_eq]
    exact ⟨(h.allocated_iff core).mpr hcore, h.numChunks_eq core hcore⟩
  bucket core hcore i hi := by
    rw [h.numChunks_eq core hcore] at hi
    exact (h.listed.mem_iff 0 (core, i)).mpr ⟨_, h.chunk_eq core hcore i hi, rfl⟩
  total := by
    rw [h.chunksTotal_eq]
    exact Finset.sum_congr rfl fun core hcore => (h.numChunks_eq core hcore).symm

theorem coresOf_eq (s : State) :
    ∅ ∪ (List.range ocfCoreNum).toFinset.filter (fun core => s.cache.added core) = coresOf s := by
  ext core
  simp [coresOf]

theorem initialize_success (hcontext : s.context = false) (hworld : s.world.Holds ∅)
    (hcount : coresOf s ≠ ∅ → 0 < coreCount) (hok : ¬Fails faults s) :
    ∃ t, cleaningPolicyAcpInitialize cfg faults coreCount s = some (0, t) ∧ Loaded s (coresOf s) t := by
  have hfault : faults.context ≠ false := fun h => hok (.inl h)
  have hrwsem : faults.rwsem = 0 := not_not.mp fun h => hok (.inr (.inl h))
  have htable : ∀ core ∈ List.range ocfCoreNum, s.cache.added core = true →
      faults.table core = true := by
    intro core hin hadded
    rw [← Bool.not_eq_false]
    intro hfalse
    exact hok (.inr (.inr ⟨core, Finset.mem_filter.mpr ⟨Finset.mem_range.mpr (List.mem_range.mp hin),
      hadded⟩, hfalse⟩))
  obtain ⟨t, ht, hload⟩ := (loaded_empty cfg hworld).loop List.nodup_range
    (fun core _ => Finset.notMem_empty core) htable
  rw [coresOf_eq] at hload
  rw [cleaningPolicyAcpInitialize, hcontext, if_neg Bool.false_ne_true, if_neg hfault,
    if_neg (not_not.mpr hrwsem)]
  by_cases hpos : 0 < coreCount
  · refine ⟨t, ?_, hload⟩
    rw [if_pos hpos, acpLoadCores, ht]
    rfl
  · have hnone : coresOf s = ∅ := not_not.mp fun hne => hpos (hcount hne)
    refine ⟨_, if_neg hpos, ?_⟩
    rw [hnone]
    exact loaded_empty cfg hworld

theorem initialize_bug (hcontext : s.context = false) (hworld : s.world.Holds ∅)
    (hcount : coresOf s ≠ ∅ → 0 < coreCount) (hfault : faults.context = true) (hrwsem : faults.rwsem = 0)
    {core : Nat} (hcore : core ∈ coresOf s) (htable : faults.table core = false) :
    cleaningPolicyAcpInitialize cfg faults coreCount s = none := by
  obtain ⟨hrange, hadded⟩ := Finset.mem_filter.mp hcore
  have hin : core ∈ List.range ocfCoreNum := List.mem_range.mpr (Finset.mem_range.mp hrange)
  have hpos : 0 < coreCount := hcount (Finset.ne_empty_of_mem hcore)
  obtain ⟨t, failed, ht, hfailed, hfadded, hmissing⟩ := (loaded_empty cfg hworld).loop_error
    List.nodup_range (fun core _ => Finset.notMem_empty core) hin hadded htable
  have hremove : acpRemoveCores t = none := removeLoop_missing hfailed hfadded hmissing
  have hload : acpLoadCores faults (s.setContext cfg) = none := by
    have herr : errNoMem ≠ 0 := by decide
    rw [acpLoadCores, ht, Option.bind_some, if_pos herr, hremove]
    rfl
  rw [cleaningPolicyAcpInitialize, hcontext, if_neg Bool.false_ne_true, hfault,
    if_neg (fun h => Bool.false_ne_true h.symm), if_neg (not_not.mpr hrwsem), if_pos hpos, hload]
  rfl

theorem context_undone (hworld : s.world.Holds ∅) :
    ((s.world.init .context).destroy .context).Holds ∅ := by
  have hcontext := hworld.init (Set.notMem_empty Resource.context)
  refine (hcontext.destroy (Set.mem_insert _ _)).congr ?_
  ext r
  cases r <;> simp

/-- `cleaning_policy_acp_initialize` unwinds if and only if the context or its
lock fails first, or the table of every core is allocated. -/
theorem unwinds_iff (hcontext : s.context = false) (hworld : s.world.Holds ∅)
    (hcount : coresOf s ≠ ∅ → 0 < coreCount) : Unwinds cfg faults coreCount s ↔
      faults.context = false ∨ faults.rwsem ≠ 0 ∨ ∀ core ∈ coresOf s, faults.table core = true := by
  constructor
  · intro h
    by_contra hcond
    have hfault : faults.context = true := by
      rw [← Bool.not_eq_false]
      exact fun hfalse => hcond (.inl hfalse)
    have hrwsem : faults.rwsem = 0 := not_not.mp fun hne => hcond (.inr (.inl hne))
    have htables : ¬∀ core ∈ coresOf s, faults.table core = true := fun hall => hcond (.inr (.inr hall))
    push Not at htables
    obtain ⟨core, hcore, htable⟩ := htables
    have hfalse : faults.table core = false := Bool.not_eq_true _ ▸ htable
    obtain ⟨err, t, ht, -⟩ := h.failure (.inr (.inr ⟨core, hcore, hfalse⟩))
    rw [initialize_bug hcontext hworld hcount hfault hrwsem hcore hfalse] at ht
    exact absurd ht nofun
  · intro hcond
    refine ⟨fun hfails => ?_, fun hok => ?_⟩
    · by_cases hfault : faults.context = false
      · refine ⟨errNoMem, s, ?_, by decide, hcontext, hworld⟩
        rw [cleaningPolicyAcpInitialize, hcontext, if_neg Bool.false_ne_true, if_pos hfault]
      · have hrwsem : faults.rwsem ≠ 0 := by
          rintro hzero
          obtain ⟨core, hcore, htable⟩ := (hfails.resolve_left hfault).resolve_left (not_not.mpr hzero)
          have hall := (hcond.resolve_left hfault).resolve_left (not_not.mpr hzero)
          rw [hall core hcore] at htable
          exact absurd htable nofun
        refine ⟨faults.rwsem, { s with world := (s.world.init .context).destroy .context }, ?_, hrwsem,
          hcontext, context_undone hworld⟩
        rw [cleaningPolicyAcpInitialize, hcontext, if_neg Bool.false_ne_true, if_neg hfault, if_pos hrwsem]
    · obtain ⟨t, ht, hload⟩ := initialize_success hcontext hworld hcount hok
      exact ⟨t, ht, hload.context, hload.world, hload.tables⟩

end Initialize

/-- A cache with one core before the policy starts. -/
def oneCore : State := ⟨oneDirtyLine, false, .empty⟩

theorem zero_mem_oneCore : 0 ∈ coresOf oneCore := by
  refine Finset.mem_filter.mpr ⟨Finset.mem_range.mpr (Nat.succ_pos _), rfl⟩

/-- The initialisation with one core and a lock that fails. -/
theorem unwinds_iff_one : oneCore.context = false ∧ oneCore.world.Holds ∅ ∧
    (coresOf oneCore ≠ ∅ → 0 < 1) ∧ (Unwinds oneLine ⟨true, -1, fun _ => true⟩ 1 oneCore ↔
      true = false ∨ (-1 : Int) ≠ 0 ∨ ∀ core ∈ coresOf oneCore, true = true) :=
  ⟨rfl, World.holds_empty, fun _ => Nat.one_pos,
    unwinds_iff rfl World.holds_empty fun _ => Nat.one_pos⟩

/-- With one core whose table is not allocated the initialisation does not return. -/
theorem unwinds_fails : ¬∀ (cfg : Config) (faults : Faults) (coreCount : Nat) (s : State),
    s.context = false → s.world.Holds ∅ → (coresOf s ≠ ∅ → 0 < coreCount) →
      Unwinds cfg faults coreCount s := by
  intro h
  have hall := h oneLine ⟨true, 0, fun _ => false⟩ 1 oneCore rfl World.holds_empty fun _ => Nat.one_pos
  obtain ⟨err, t, ht, -⟩ := hall.failure (.inr (.inr ⟨0, zero_mem_oneCore, rfl⟩))
  rw [initialize_bug rfl World.holds_empty (fun _ => Nat.one_pos) rfl rfl zero_mem_oneCore rfl] at ht
  exact absurd ht nofun

end OcfCache.AcpInit
