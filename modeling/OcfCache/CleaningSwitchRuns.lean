import OcfCache.CleaningStages

/-!
# Runs of the policy switch

Every stage of a switch has one state of the cleaner: its counter, its context
and what the new policy tracks. The stages follow each other along the
pipeline, the operations of the cache keep the stage, and the switch ends with
the new policy on all dirty lines or with no policy. This needs that
prepopulating succeeds: its error ends the pipeline without the rollback that
an error of the update takes, so the context stays behind.
-/

namespace OcfCache.CleaningSwitch

open Function Metadata Loops CacheLine Runs
open Alru (Cared Wanted Mapped)

/-- A dirty line that the scan still comes to. -/
def Pending (cfg : Acp.Config) (md : LineTable) (rest : Nat → Option (List Nat)) (x : Nat) : Prop :=
  match rest (bucketOf cfg.geometry md x) with
  | none => True
  | some xs => x ∈ xs

/-- The buckets that a scan has begun. -/
def ScanOk (cfg : Acp.Config) (md : LineTable) (rest : Nat → Option (List Nat)) : Prop :=
  ∀ hash xs, rest hash = some xs → hash < cfg.geometry.hashEntries ∧ ∀ x ∈ xs, x ∈ md.hash hash

/-- The cleaner in every stage of a switch. -/
inductive Stage (cfg : Acp.Config) (c : Cache) : Pipeline → Prop
  /-- The old policy works. -/
  | start {new : Policy} (hf : c.freeze = 0) (hctx : c.context = contextOf c.policy) :
      Stage cfg c ⟨new, false, setPolicySteps, false, false, 0, .queued⟩
  /-- The cleaner is frozen. -/
  | freezing {new : Policy} (hf : c.freeze = 1) (hctx : c.context = contextOf c.policy) :
      Stage cfg c ⟨new, true, [.setPolicyInitialize, .setPolicyPrepopulate, .setPolicyUpdate], false, false, 0, .waitZero⟩
  /-- The old policy is gone. -/
  | stopped {new : Policy} (hf : c.freeze = 1) (hctx : c.context = none) :
      Stage cfg c ⟨new, true, [.setPolicyInitialize, .setPolicyPrepopulate, .setPolicyUpdate], false, false, 0, .queued⟩
  /-- The new policy could not be set up. -/
  | failed {new : Policy} {e : Int} (hf : c.freeze = 1) (hctx : c.context = none) (he : e ≠ 0) :
      Stage cfg c ⟨new, true, [.setPolicyPrepopulate, .setPolicyUpdate], false, true, e, .queued⟩
  /-- The new policy is set up. -/
  | prepopulate {new : Policy} (hf : c.freeze = 1) (hctx : c.context = contextOf new)
      (hfresh : new = .acp → Acp.Fresh cfg c.acpState) :
      Stage cfg c ⟨new, true, [.setPolicyPrepopulate, .setPolicyUpdate], false, false, 0, .queued⟩
  /-- The new policy tracks nothing. -/
  | update {new : Policy} (hf : c.freeze = 1) (hctx : c.context = contextOf new) (hblank : Blank cfg c new) :
      Stage cfg c ⟨new, true, [.setPolicyUpdate], false, false, 0, .queued⟩
  /-- The new policy works and gets the dirty lines. -/
  | scanning {rest : Nat → Option (List Nat)} (hf : c.freeze = 0) (hctx : c.context = contextOf c.policy)
      (hcov : Covers cfg c (Pending cfg c.md rest)) (hscan : ScanOk cfg c.md rest) :
      Stage cfg c ⟨c.policy, false, [], false, false, 0, .scanning rest⟩
  /-- The new policy has all dirty lines. -/
  | done (hf : c.freeze = 0) (hctx : c.context = contextOf c.policy) (hcov : Covers cfg c fun _ => False) :
      Stage cfg c ⟨c.policy, false, [], false, false, 0, .queued⟩
  /-- The update could not start. -/
  | rollback {e : Int} (hf : c.freeze = 0) (hctx : c.context = contextOf c.policy) (he : e ≠ 0) :
      Stage cfg c ⟨c.policy, false, [Step.setPolicyDeinitialize], true, false, e, .queued⟩
  /-- The cleaner is frozen again. -/
  | rollbackWait {e : Int} (hf : c.freeze = 1) (hctx : c.context = contextOf c.policy) (he : e ≠ 0) :
      Stage cfg c ⟨c.policy, true, [], true, false, e, .waitZero⟩
  /-- The new policy is gone again. -/
  | rolledBack {e : Int} (hf : c.freeze = 1) (hctx : c.context = none) (he : e ≠ 0) :
      Stage cfg c ⟨c.policy, true, [], true, false, e, .queued⟩

/-- The cleaner between two switches. -/
structure Idle (cfg : Acp.Config) (c : Cache) (result : Option (Policy × Int)) : Prop where
  /-- The cleaner is not frozen. -/
  freeze : c.freeze = 0
  /-- The policy is set up. -/
  context : c.context = contextOf c.policy
  /-- The last switch succeeded. -/
  success : ∀ new, result = some (new, 0) → c.policy = new ∧ Covers cfg c fun _ => False
  /-- The last switch failed. -/
  failure : ∀ new e, result = some (new, e) → e ≠ 0 → c.policy = .nop

/-- The invariant of a run. -/
structure Inv (cfg : Acp.Config) (w : World) : Prop where
  /-- The metadata is sound. -/
  md : MdOk cfg w.cache
  /-- No switch is in progress. -/
  idle : w.pipeline = none → Idle cfg w.cache w.result
  /-- A switch is in progress. -/
  stage : ∀ p, w.pipeline = some p → Stage cfg w.cache p

variable {rest : Nat → Option (List Nat)}

section Stages

variable {cfg : Acp.Config} {w w' : World} {c c' : Cache} {p : Pipeline} {o : Outcome}

theorem Inv.of_stage (hok : MdOk cfg c) (h : Stage cfg c p) {result : Option (Policy × Int)} :
    Inv cfg ⟨c, some p, result⟩ where
  md := hok
  idle := fun hn => by cases hn
  stage := fun p' hp => by cases hp; exact h

theorem Inv.of_idle {result : Option (Policy × Int)} (hok : MdOk cfg c) (h : Idle cfg c result) :
    Inv cfg ⟨c, none, result⟩ where
  md := hok
  idle := fun _ => h
  stage := fun p' hp => by cases hp

theorem MdOk.frozen (hok : MdOk cfg c) : MdOk cfg { c with freeze := c.freeze + 1 } :=
  hok.congr rfl rfl (fun x hx => hok.inPartitions x hx.1 hx.2) rfl rfl

section

variable (hok : MdOk cfg w.cache)
include hok

/-- `_ocf_mngt_cleaning_set_finish` after an error. -/
theorem finish_failed (hf : w.cache.freeze = 1) (hctx : w.cache.context = none)
    (he : p.error ≠ 0) (hfrozen : p.cleanerFrozen = true) (h : cleaningSetFinish w p = some w') : Inv cfg w' := by
  obtain ⟨c, hc, rfl⟩ := Option.map_eq_some_iff.mp h
  rw [if_pos he, if_pos hfrozen, envRefcntUnfreeze] at hc
  split at hc
  · cases hc
  · cases hc
    refine .of_idle (hok.congr rfl rfl (fun x hx => hok.inPartitions x hx.1 hx.2) rfl rfl)
      ⟨?_, hctx, fun new hr => ?_, fun _ _ _ _ => rfl⟩
    · change w.cache.freeze - 1 = 0
      omega
    · obtain ⟨-, herr⟩ := Prod.mk.inj (Option.some.inj hr)
      exact absurd herr he

/-- `_ocf_mngt_cleaning_set_finish` after a success. -/
theorem finish_done (hf : w.cache.freeze = 0)
    (hctx : w.cache.context = contextOf w.cache.policy) (hcov : Covers cfg w.cache fun _ => False)
    (hnew : p.newPolicy = w.cache.policy) (he : p.error = 0) (hfrozen : p.cleanerFrozen = false)
    (h : cleaningSetFinish w p = some w') : Inv cfg w' := by
  obtain ⟨c, hc, rfl⟩ := Option.map_eq_some_iff.mp h
  rw [if_neg (not_not.mpr he), if_neg (by rw [hfrozen]; exact Bool.false_ne_true), hnew] at hc
  cases hc
  refine .of_idle hok ⟨hf, hctx, fun new hr => ?_, fun new e hr hne => ?_⟩
  · obtain ⟨rfl, -⟩ := Prod.mk.inj (Option.some.inj hr)
    exact ⟨hnew.symm, hcov⟩
  · obtain ⟨-, herr⟩ := Prod.mk.inj (Option.some.inj hr)
    exact absurd (herr.symm.trans he) hne

/-- `_ocf_mngt_cache_cleaning_set_policy_update`. -/
theorem update_inv {new : Policy} (hf : w.cache.freeze = 1)
    (hctx : w.cache.context = contextOf new) (hblank : Blank cfg w.cache new)
    (h : setPolicyUpdate o w ⟨new, true, [], false, false, 0, .queued⟩ = some w') : Inv cfg w' := by
  obtain ⟨c, hc, rfl⟩ := Option.map_eq_some_iff.mp h
  rw [envRefcntUnfreeze] at hc
  split at hc
  · cases hc
  cases hc
  obtain ⟨c, hcdef⟩ : ∃ c, ({ w.cache with policy := new, freeze := w.cache.freeze - 1 } : Cache) = c := ⟨_, rfl⟩
  have hokc : MdOk cfg c := hcdef ▸ hok.congr rfl rfl (fun x hx => hok.inPartitions x hx.1 hx.2) rfl rfl
  have hfc : c.freeze = 0 := by
    rw [← hcdef]
    change w.cache.freeze - 1 = 0
    omega
  have hpc : c.policy = new := hcdef ▸ rfl
  have hctxc : c.context = contextOf c.policy := by
    rw [hpc, ← hcdef]
    exact hctx
  have hblankc : Blank cfg c c.policy := by
    rw [hpc, ← hcdef]
    cases new <;> exact hblank
  have hall : Covers cfg c (Pending cfg c.md fun _ => none) := hblankc.covers
  have hscan : ScanOk cfg c.md fun _ => none := fun hash xs hx => by cases hx
  have hnext : Stage cfg c { (⟨new, false, [], false, false, 0, .queued⟩ : Pipeline) with
      phase := .scanning fun _ => none } := by
    rw [← hpc]
    exact .scanning hfc hctxc hall hscan
  have hback (he : o.create ≠ 0) : Stage cfg c
      ((⟨new, false, [], false, false, 0, .queued⟩ : Pipeline).rollBack o.create) := by
    rw [← hpc]
    exact .rollback hfc hctxc he
  dsimp only
  rw [hcdef]
  cases new with
  | nop =>
    refine .of_stage hokc ?_
    have hdone : Stage cfg c ⟨c.policy, false, [], false, false, 0, .queued⟩ := .done hfc hctxc (covers_nop hpc _)
    rwa [hpc] at hdone
  | alru =>
    dsimp only
    split
    next he => exact .of_stage hokc (hback he)
    · exact .of_stage hokc hnext
  | acp =>
    dsimp only
    split
    next he => exact .of_stage hokc (hback he)
    · exact .of_stage hokc hnext

theorem runStep_inv (h : Stage cfg w.cache p) (hq : p.phase = .queued)
    (ho : p.finish = false → p.steps.head? = some .setPolicyPrepopulate → p.newPolicy = .alru → o.create = 0)
    (hs : pipelineRunStep cfg o w p = some w') : Inv cfg w' := by
  cases h with
  | start hf hctx =>
    cases hs
    exact .of_stage hok.frozen (.freezing (congrArg (· + 1) hf) hctx)
  | freezing hf hctx => cases hq
  | stopped hf hctx =>
    obtain ⟨⟨c, e⟩, hc, rfl⟩ := Option.map_eq_some_iff.mp hs
    obtain ⟨hsame, hzero, hne⟩ := initialize_spec hok hctx hc
    refine .of_stage (hok.same hsame) ?_
    dsimp only [Pipeline.nextOnSuccess]
    split
    next he => exact .failed (hsame.freeze.trans hf) (hne he) he
    next he =>
      obtain ⟨hctx', hfresh⟩ := hzero (not_not.mp he)
      exact .prepopulate (hsame.freeze.trans hf) hctx' hfresh
  | failed hf hctx he => exact finish_failed hok hf hctx he rfl hs
  | prepopulate hf hctx hfresh =>
    obtain ⟨⟨c, e⟩, hc, rfl⟩ := Option.map_eq_some_iff.mp hs
    obtain ⟨hsame, hctx', rfl, hblank⟩ := prepopulate_spec (ho rfl rfl) hfresh hc
    exact .of_stage (hok.same hsame) (.update (hsame.freeze.trans hf) (hctx'.trans hctx) hblank)
  | update hf hctx hblank => exact update_inv hok hf hctx hblank hs
  | scanning => cases hq
  | done hf hctx hcov =>
    change cleaningSetFinish w ⟨w.cache.policy, false, [], false, false, 0, .queued⟩ = some w' at hs
    exact finish_done hok hf hctx hcov rfl rfl rfl hs
  | rollback hf hctx he =>
    cases hs
    exact .of_stage hok.frozen (.rollbackWait (congrArg (· + 1) hf) hctx he)
  | rollbackWait => cases hq
  | rolledBack hf hctx he => exact finish_failed hok hf hctx he rfl hs

/-- `_ocf_mngt_cache_cleaning_set_policy_zero_cb`. -/
theorem zeroCallback_inv (h : Stage cfg w.cache p) (hwait : p.phase = .waitZero)
    (hc : ocfCleaningDeinitialize w.cache = some c) : Inv cfg { w with cache := c, pipeline := some p.next } := by
  cases h with
  | freezing hf hctx =>
    obtain ⟨hsame, hnone⟩ := deinitialize_spec hctx hc
    exact .of_stage (hok.same hsame) (.stopped (hsame.freeze.trans hf) hnone)
  | rollbackWait hf hctx he =>
    obtain ⟨hsame, hnone⟩ := deinitialize_spec hctx hc
    refine .of_stage (hok.same hsame) ?_
    rw [← hsame.policy]
    exact .rolledBack (hsame.freeze.trans hf) hnone he
  | start => cases hwait
  | stopped => cases hwait
  | failed => cases hwait
  | prepopulate => cases hwait
  | update => cases hwait
  | scanning => cases hwait
  | done => cases hwait
  | rollback => cases hwait
  | rolledBack => cases hwait

end

theorem scanBucket_inv {hash : Nat} (hok : MdOk cfg c)
    (hlt : hash < cfg.geometry.hashEntries) (hcov : Covers cfg c (Pending cfg c.md rest)) (hscan : ScanOk cfg c.md rest) :
    Covers cfg c (Pending cfg c.md (update rest hash (some (c.md.hash hash)))) ∧
      ScanOk cfg c.md (update rest hash (some (c.md.hash hash))) := by
  constructor
  · obtain ⟨T, hT, hsub, hcov⟩ := hcov
    refine ⟨T, hT, hsub, fun x hx => (hcov x hx).imp_right fun hp => ?_⟩
    rw [Pending]
    by_cases hb : bucketOf cfg.geometry c.md x = hash
    · rw [hb, update_self, ← hb]
      exact hok.inBucket x ⟨hx.1, hx.2.1⟩
    · rw [update_of_ne hb]
      exact hp
  · intro b xs hb
    by_cases heq : b = hash
    · rw [heq, update_self] at hb
      cases hb
      rw [heq]
      exact ⟨hlt, fun x hx => hx⟩
    · rw [update_of_ne heq] at hb
      exact hscan b xs hb

theorem scanLine_inv {hash x : Nat} {xs : List Nat} {T : Nat → Prop}
    (hmd : c'.md = c.md) (hrest : rest hash = some (x :: xs)) (hT : PolicyTracks cfg c' T)
    (hsub : ∀ y, T y → Wanted cfg.geometry c.md y)
    (hcov : ∀ y, Wanted cfg.geometry c.md y → T y ∨ Pending cfg c.md rest y)
    (hx : Wanted cfg.geometry c.md x → T x) (hscan : ScanOk cfg c.md rest) :
    Covers cfg c' (Pending cfg c'.md (update rest hash (some xs))) ∧
      ScanOk cfg c'.md (update rest hash (some xs)) := by
  rw [hmd]
  constructor
  · refine ⟨T, hT, fun y hy => by rw [hmd]; exact hsub y hy, fun y hy => ?_⟩
    rw [hmd] at hy
    by_cases hyx : y = x
    · exact .inl (hyx ▸ hx (hyx ▸ hy))
    · refine (hcov y hy).imp_right fun hp => ?_
      rw [Pending] at hp ⊢
      by_cases hb : bucketOf cfg.geometry c.md y = hash
      · rw [hb, hrest] at hp
        rw [hb, update_self]
        exact (List.mem_cons.mp hp).resolve_left hyx
      · rwa [update_of_ne hb]
  · intro b ys hb
    by_cases heq : b = hash
    · rw [heq, update_self] at hb
      cases hb
      obtain ⟨hlt, hin⟩ := hscan hash _ hrest
      rw [heq]
      exact ⟨hlt, fun y hy => hin y (List.mem_cons_of_mem x hy)⟩
    · rw [update_of_ne heq] at hb
      exact hscan b ys hb

theorem scanEnd_covers (hok : MdOk cfg c)
    (hall : ∀ hash < cfg.geometry.hashEntries, rest hash = some [])
    (hcov : Covers cfg c (Pending cfg c.md rest)) : Covers cfg c fun _ => False := by
  obtain ⟨T, hT, hsub, hcov⟩ := hcov
  refine ⟨T, hT, hsub, fun x hx => (hcov x hx).imp_right fun hp => ?_⟩
  have hthrough : rest (bucketOf cfg.geometry c.md x) = some [] := hall _ (hok.bucket_lt _ _)
  rw [Pending, hthrough] at hp
  exact List.not_mem_nil hp

theorem Stage.of_scanning (h : Stage cfg c p) (hp : p.phase = .scanning rest) :
    c.freeze = 0 ∧ c.context = contextOf c.policy ∧ Covers cfg c (Pending cfg c.md rest) ∧ ScanOk cfg c.md rest ∧
      p = ⟨c.policy, false, [], false, false, 0, .scanning rest⟩ := by
  cases h with
  | scanning hf hctx hcov hscan =>
    cases hp
    exact ⟨hf, hctx, hcov, hscan, rfl⟩
  | start => cases hp
  | freezing => cases hp
  | stopped => cases hp
  | failed => cases hp
  | prepopulate => cases hp
  | update => cases hp
  | done => cases hp
  | rollback => cases hp
  | rollbackWait => cases hp
  | rolledBack => cases hp

theorem pending_congr {md md' : LineTable} {x : Nat}
    (hinfo : md'.coreInfo x = md.coreInfo x) (h : Pending cfg md rest x) : Pending cfg md' rest x := by
  rw [Pending, bucketOf, hinfo]
  exact h

theorem Stage.withMd {md : LineTable} (h : Stage cfg c p) (hf : c.freeze ≠ 0)
    (hatt : Acp.Attached cfg { c.acpState with md }) : Stage cfg { c with md } p := by
  cases h with
  | freezing hf hctx => exact .freezing hf hctx
  | stopped hf hctx => exact .stopped hf hctx
  | failed hf hctx he => exact .failed hf hctx he
  | prepopulate hf hctx hfresh => exact .prepopulate hf hctx fun hn => (hfresh hn).withMd hatt
  | update hf hctx hblank => exact .update hf hctx (hblank.withMd hatt)
  | rollbackWait hf hctx he => exact Stage.rollbackWait (c := { c with md }) hf hctx he
  | rolledBack hf hctx he => exact Stage.rolledBack (c := { c with md }) hf hctx he
  | start hz => exact absurd hz hf
  | scanning hz => exact absurd hz hf
  | done hz => exact absurd hz hf
  | rollback hz => exact absurd hz hf

theorem Stage.of_op (hpl : w.pipeline = some p) (h : Stage cfg w.cache p) (hop : OpSpec cfg w w') :
    Stage cfg w'.cache p := by
  by_cases hf : w.cache.freeze = 0
  · have hf' : w'.cache.freeze = 0 := hop.kept.freeze.trans hf
    have hctx' : w.cache.context = contextOf w.cache.policy → w'.cache.context = contextOf w'.cache.policy := by
      rw [hop.kept.context, hop.kept.policy]
      exact id
    cases h with
    | start _ hctx => exact .start hf' (hctx' hctx)
    | @scanning rest _ hctx hcov hscan =>
      rw [← hop.kept.policy]
      refine .scanning hf' (hctx' hctx) (hop.covers hf _ _ hcov fun y hy hp => pending_congr hy hp)
        fun hash xs hxs => ⟨(hscan hash xs hxs).1, fun x hx => ?_⟩
      have hlocked : ¬Unlocked w hash := by
        intro hu
        rcases hu _ rest hpl rfl with hn | hn
        · rw [hn] at hxs
          cases hxs
        · rw [hn] at hxs
          cases hxs
          exact List.not_mem_nil hx
      rw [hop.hash hash hlocked]
      exact (hscan hash xs hxs).2 x hx
    | done _ hctx hcov =>
      rw [← hop.kept.policy]
      exact .done hf' (hctx' hctx) (hop.covers hf _ _ hcov fun _ _ hp => hp)
    | rollback _ hctx he =>
      rw [← hop.kept.policy]
      exact .rollback hf' (hctx' hctx) he
    | freezing hone => omega
    | stopped hone => omega
    | failed hone => omega
    | prepopulate hone => omega
    | update hone => omega
    | rollbackWait hone => omega
    | rolledBack hone => omega
  · have heq := hop.kept.frozen hf
    rw [heq]
    refine h.withMd hf ?_
    have hatt := hop.md.attached
    rw [heq] at hatt
    exact hatt

theorem Inv.of_op (h : Inv cfg w) (hop : OpSpec cfg w w') : Inv cfg w' where
  md := hop.md
  idle := by
    rw [hop.pipeline, hop.result]
    intro hn
    have hidle := h.idle hn
    refine ⟨hop.kept.freeze.trans hidle.freeze, ?_, fun new hr => ?_, fun new e hr he => ?_⟩
    · rw [hop.kept.context, hop.kept.policy]
      exact hidle.context
    · obtain ⟨hp, hcov⟩ := hidle.success new hr
      exact ⟨hop.kept.policy.trans hp, hop.covers hidle.freeze _ _ hcov fun _ _ hp => hp⟩
    · exact hop.kept.policy.trans (hidle.failure new e hr he)
  stage := by
    rw [hop.pipeline]
    exact fun p hp => (h.stage p hp).of_op hp hop

end Stages

section System

variable (cfg : Acp.Config)

/-- Prepopulating does not fail: `ocf_parallelize_create` in
`cleaning_policy_alru_fill` succeeds. -/
def Prepopulates (w : World) : Act → Prop
  | .run o => ∀ p, w.pipeline = some p → p.finish = false → p.steps.head? = some .setPolicyPrepopulate →
      p.newPolicy = .alru → o.create = 0
  | _ => True

/-- Runs in which only some of the allowed steps are taken. -/
def system (allowed : World → Act → Prop) : System World Act where
  guard w act := guard cfg w act ∧ allowed w act
  step := step cfg

/-- A cache without a switch in progress or behind it. -/
structure Settled (w : World) : Prop where
  /-- The metadata is sound. -/
  md : MdOk cfg w.cache
  /-- No switch is in progress. -/
  pipeline : w.pipeline = none
  /-- No switch has ended. -/
  result : w.result = none
  /-- The cleaner is not frozen. -/
  freeze : w.cache.freeze = 0
  /-- The policy is set up. -/
  context : w.cache.context = contextOf w.cache.policy

/-- A switch is atomic: when it has ended, the cleaner is not frozen, and the
new policy tracks exactly the dirty lines or there is no policy and no context. -/
def Atomic (w : World) : Prop :=
  ∀ new e, w.pipeline = none → w.result = some (new, e) → w.cache.freeze = 0 ∧
    (e = 0 → w.cache.policy = new ∧ PolicyTracks cfg w.cache (Wanted cfg.geometry w.cache.md)) ∧
    (e ≠ 0 → w.cache.policy = .nop ∧ w.cache.context = none)

/-- A policy that is about to be set up finds no context. -/
def NoContext (w : World) : Prop :=
  ∀ p, w.pipeline = some p → p.phase = .queued → p.finish = false → p.steps.head? = some .setPolicyInitialize →
    w.cache.context = none

variable {cfg} {w w' : World}

/-- A step keeps the structures of the policy in step with the cache. -/
theorem step_inv (h : Inv cfg w) {act : Act} (hg : guard cfg w act) (hpre : Prepopulates w act)
    (hs : step cfg w act = some w') : Inv cfg w' := by
  cases act with
  | setPolicy new =>
    cases hs
    have hidle := h.idle hg.1
    exact .of_stage h.md (.start hidle.freeze hidle.context)
  | run o =>
    obtain ⟨p, hp, hq⟩ := hg
    have hrun : pipelineRunStep cfg o w p = some w' := by
      rw [step, hp] at hs
      exact hs
    exact runStep_inv h.md (h.stage p hp) hq (hpre p hp) hrun
  | zeroCallback =>
    obtain ⟨p, hp, hwait⟩ := hg
    rw [step, hp] at hs
    obtain ⟨c, hc, rfl⟩ := Option.map_eq_some_iff.mp hs
    exact zeroCallback_inv h.md (h.stage p hp) hwait hc
  | scanBucket hash =>
    obtain ⟨p, rest, hp, hphase, hlt, -⟩ := hg
    obtain ⟨hf, hctx, hcov, hscan, rfl⟩ := (h.stage p hp).of_scanning hphase
    rw [step, withScan, hp] at hs
    cases hs
    obtain ⟨hcov', hscan'⟩ := scanBucket_inv h.md hlt hcov hscan
    exact .of_stage h.md (.scanning hf hctx hcov' hscan')
  | scanLine hash =>
    obtain ⟨p, rest, x, xs, hp, hphase, hrest⟩ := hg
    obtain ⟨hf, hctx, ⟨T, hT, hsub, hcov⟩, hscan, rfl⟩ := (h.stage p hp).of_scanning hphase
    obtain ⟨hlt, hin⟩ := hscan hash _ hrest
    obtain ⟨hcare, -⟩ := h.md.cared hash hlt x (hin x List.mem_cons_self)
    rw [step, withScan, hp] at hs
    dsimp only [Option.bind_some] at hs
    rw [hrest] at hs
    obtain ⟨c, hc, rfl⟩ := Option.map_eq_some_iff.mp hs
    by_cases hd : metadataTestDirty cfg.geometry w.cache.md x = true
    · rw [if_pos hd] at hc
      have hhot : w.cache.policy ≠ .nop ∧ ocfCleaningSetHotCacheLine cfg w.cache x = some c := by
        rw [ocfCleaningSetHotCacheLine, if_neg (not_not.mpr hf)]
        obtain hpol | hpol | hpol := policy_cases w.cache
        · rw [hpol] at hc
          cases hc
        · rw [hpol] at hc ⊢
          exact ⟨by decide, hc⟩
        · rw [hpol] at hc ⊢
          exact ⟨by decide, hc⟩
      obtain ⟨hkept, hmd⟩ := setHot_kept hhot.2
      obtain ⟨c', hc', htr⟩ := hT.setHot h.md hf hcare
      cases hc'.symm.trans hhot.2
      obtain ⟨hcov', hscan'⟩ := scanLine_inv (c := w.cache) hmd hrest htr
        (fun y hy => hy.elim (hsub y) fun hyx => hyx ▸ ⟨hcare.1, hcare.2, hd⟩)
        (fun y hy => (hcov y hy).imp_left .inl) (fun _ => .inr rfl) hscan
      have hok : MdOk cfg c := h.md.same ⟨hmd, hkept.added, hkept.length, hkept.policy, hkept.freeze⟩
      have hctx' : c.context = contextOf c.policy := by
        rw [hkept.context, hkept.policy]
        exact hctx
      have hst := Stage.scanning (hkept.freeze.trans hf) hctx' hcov' hscan'
      rw [hkept.policy] at hst
      exact .of_stage hok hst
    · rw [if_neg hd] at hc
      cases hc
      obtain ⟨hcov', hscan'⟩ := scanLine_inv (c := w.cache) rfl hrest hT hsub hcov (fun hx => absurd hx.2.2 hd) hscan
      exact .of_stage h.md (.scanning hf hctx hcov' hscan')
  | scanEnd =>
    obtain ⟨p, rest, hp, hphase, hall⟩ := hg
    obtain ⟨hf, hctx, hcov, hscan, rfl⟩ := (h.stage p hp).of_scanning hphase
    rw [step, withScan, hp] at hs
    cases hs
    exact .of_stage h.md (.done hf hctx (scanEnd_covers h.md hall hcov))
  | map core coreLine x p => exact h.of_op (map_spec h.md hg hs)
  | setDirty start stop x => exact h.of_op (setDirty_spec h.md hg hs)
  | setClean start stop x => exact h.of_op (setClean_spec h.md hg hs)
  | setInvalid waiters start stop x => exact h.of_op (setInvalid_spec h.md hg hs)
  | move x new => exact h.of_op (move_spec h.md hg hs)

theorem Settled.inv (h : Settled cfg w) : Inv cfg w where
  md := h.md
  idle := by
    intro _
    rw [h.result]
    exact ⟨h.freeze, h.context, fun new hr => (by cases hr), fun new e hr => (by cases hr)⟩
  stage := by
    rw [h.pipeline]
    exact fun p hp => (by cases hp)

/-- The invariant holds through any switches. -/
theorem Inv.run (h0 : Inv cfg w) (h : Reachable (system cfg Prepopulates) w w') : Inv cfg w' :=
  h.invariant (fun _ => h0) fun _ _ _ hinv _ hg hs _ => step_inv hinv hg.1 hg.2 hs

theorem Inv.atomic (h : Inv cfg w) : Atomic cfg w := by
  intro new e hpl hr
  have hidle := h.idle hpl
  refine ⟨hidle.freeze, fun he => ?_, fun he => ?_⟩
  · rw [he] at hr
    obtain ⟨hp, hcov⟩ := hidle.success new hr
    exact ⟨hp, hcov.exact⟩
  · have hp := hidle.failure new e hr he
    refine ⟨hp, ?_⟩
    rw [hidle.context, hp]
    rfl

theorem Inv.noContext (h : Inv cfg w) : NoContext w := by
  intro p hp hq hfin hsteps
  have hstage := h.stage p hp
  cases hstage with
  | stopped _ hctx => exact hctx
  | start => cases hsteps
  | freezing => cases hq
  | failed => cases hfin
  | prepopulate => cases hsteps
  | update => cases hsteps
  | scanning => cases hq
  | done => cases hsteps
  | rollback => cases hsteps
  | rollbackWait => cases hq
  | rolledBack => cases hsteps

/-- In every run in which prepopulating succeeds every switch of the cleaning
policy is atomic and no policy that is set up finds a context. -/
theorem switch_atomic (h0 : Settled cfg w) (h : Reachable (system cfg Prepopulates) w w') :
    Atomic cfg w' ∧ NoContext w' :=
  ⟨(h0.inv.run h).atomic, (h0.inv.run h).noContext⟩

end System

/-- A cache of one line that nothing is mapped to. -/
def blankCache (policy : Policy) : Cache where
  md := Alru.blankCache.md
  links := Alru.blankCache.links
  part := Alru.blankCache.part
  acpDirty := fun _ => false
  added := fun _ => false
  length := fun _ => 0
  acp := Acp.emptyContext Acp.oneLine
  policy := policy
  context := contextOf policy
  freeze := 0

/-- Nothing has happened to the cache. -/
def blankWorld (policy : Policy) : World := ⟨blankCache policy, none, none⟩

/-- Every allocation succeeds. -/
def noFailure : Outcome := ⟨0, fun _ => true, 0⟩

/-- A cache of two lines in one bucket. -/
def twoLines : Acp.Config := { Acp.oneLine with geometry := { Acp.oneLine.geometry with collisionEntries := 2 } }

/-- One core is added, and nothing is mapped. -/
def addedWorld : World := ⟨{ blankCache .nop with added := fun core => core == 0, length := fun _ => 8192 }, none, none⟩

theorem addedWorld_settled : Settled twoLines addedWorld where
  md := by
    refine ⟨by decide, fun x _ hm => absurd rfl hm, ⟨fun a b _ _ hm _ => absurd hm (Nat.lt_irrefl _), fun a _ hm => absurd rfl hm⟩,
      fun x hx => absurd rfl hx.2, fun hash _ x hx => absurd hx List.not_mem_nil, fun hash _ => List.nodup_nil⟩
  pipeline := rfl
  result := rfl
  freeze := rfl
  context := rfl

/-- The switch to ALRU with a dirty line. While the cleaner is frozen that line
becomes clean, and a new one is mapped and becomes dirty. -/
theorem switch_atomic_dirty : ∃ w, Settled twoLines addedWorld ∧
    Reachable (system twoLines Prepopulates) addedWorld w ∧ w.result = some (.alru, 0) ∧
    (metadataTestDirty twoLines.geometry w.cache.md 0, metadataTestDirty twoLines.geometry w.cache.md 1) = (false, true) ∧
    PolicyTracks twoLines w.cache (Wanted twoLines.geometry w.cache.md) := by
  have hrun (w : World) : Prepopulates w (.run noFailure) := fun _ _ _ _ _ => rfl
  have h0 : Reachable (system twoLines Prepopulates) addedWorld addedWorld := .refl trivial
  have h1 := h0.next (.map 0 0 0 1) ⟨⟨by decide, rfl, by decide, by decide, rfl, by decide, by decide, by decide,
    fun _ _ h => by cases h⟩, trivial⟩ rfl
  have h2 := h1.next (.setDirty 0 0 0) ⟨⟨⟨by decide, by decide, fun _ _ h => by cases h⟩, by decide, by decide⟩, trivial⟩ rfl
  have h3 := h2.next (.setPolicy .alru) ⟨⟨rfl, by decide⟩, trivial⟩ rfl
  -- the cleaner is frozen
  have h4 := h3.next (.run noFailure) ⟨⟨_, rfl, rfl⟩, hrun _⟩ rfl
  have h5 := h4.next (.map 0 1 1 2) ⟨⟨by decide, rfl, by decide, by decide, rfl, by decide, by decide, by decide,
    fun _ _ h h' => by cases h; cases h'⟩, trivial⟩ rfl
  have h6 := h5.next .zeroCallback ⟨⟨_, rfl, rfl⟩, trivial⟩ rfl
  have h7 := h6.next (.run noFailure) ⟨⟨_, rfl, rfl⟩, hrun _⟩ rfl
  have h8 := h7.next (.run noFailure) ⟨⟨_, rfl, rfl⟩, hrun _⟩ rfl
  have h9 := h8.next (.setDirty 0 0 1) ⟨⟨⟨by decide, by decide, fun _ _ h h' => by cases h; cases h'⟩, by decide, by decide⟩,
    trivial⟩ rfl
  have h10 := h9.next (.setClean 0 0 0) ⟨⟨by decide, by decide, fun _ _ h h' => by cases h; cases h'⟩, trivial⟩ rfl
  -- the update lets the cleaner go on and scans the bucket
  have h11 := h10.next (.run noFailure) ⟨⟨_, rfl, rfl⟩, hrun _⟩ rfl
  have h12 := h11.next (.scanBucket 0) ⟨⟨_, _, rfl, rfl, by decide, rfl⟩, trivial⟩ rfl
  have h13 := h12.next (.scanLine 0) ⟨⟨_, _, _, _, rfl, rfl, rfl⟩, trivial⟩ rfl
  have h14 := h13.next (.scanLine 0) ⟨⟨_, _, _, _, rfl, rfl, rfl⟩, trivial⟩ rfl
  have h15 := h14.next .scanEnd ⟨⟨_, _, rfl, rfl, by decide⟩, trivial⟩ rfl
  have h16 := h15.next (.run noFailure) ⟨⟨_, rfl, rfl⟩, hrun _⟩ rfl
  have hatomic := (switch_atomic addedWorld_settled h16).1 .alru 0 rfl rfl
  exact ⟨_, addedWorld_settled, h16, rfl, rfl, (hatomic.2.1 rfl).2⟩

/-- The handler of ALRU cannot be created. -/
def noHandler : Outcome := ⟨0, fun _ => true, errNoMem⟩

/-- The handler that prepopulates ALRU cannot be created: the switch ends with
an error and leaves the context of ALRU behind, so that the next switch, to
ACP, aborts. -/
theorem prepopulate_error_leaves_context :
    ∃ w, Reachable (system Acp.oneLine fun _ _ => True) (blankWorld .nop) w ∧ ¬Atomic Acp.oneLine w ∧
      ∃ w', Reachable (system Acp.oneLine fun _ _ => True) w w' ∧ guard Acp.oneLine w' (.run noFailure) ∧
        ¬NoContext w' ∧ ∀ o, step Acp.oneLine w' (.run o) = none := by
  have hnone : Reachable (system Acp.oneLine fun _ _ => True) (blankWorld .nop) (blankWorld .nop) := .refl trivial
  have h1 := hnone.next (.setPolicy .alru) ⟨⟨rfl, by decide⟩, trivial⟩ rfl
  have h2 := h1.next (.run noFailure) ⟨⟨_, rfl, rfl⟩, trivial⟩ rfl
  have h3 := h2.next .zeroCallback ⟨⟨_, rfl, rfl⟩, trivial⟩ rfl
  have h4 := h3.next (.run noFailure) ⟨⟨_, rfl, rfl⟩, trivial⟩ rfl
  have h5 := h4.next (.run noHandler) ⟨⟨_, rfl, rfl⟩, trivial⟩ rfl
  have h6 := h5.next (.run noHandler) ⟨⟨_, rfl, rfl⟩, trivial⟩ rfl
  refine ⟨_, h6, fun h => ?_, ?_⟩
  · have hctx := ((h .alru errNoMem rfl rfl).2.2 (by decide)).2
    cases hctx
  · obtain ⟨w, hw⟩ : ∃ w : World, w = ⟨{ blankCache .nop with context := some .alru }, none, some (.alru, errNoMem)⟩ :=
      ⟨_, rfl⟩
    have hstart : Reachable (system Acp.oneLine fun _ _ => True) w w := .refl trivial
    rw [hw] at hstart
    have g1 := hstart.next (.setPolicy .acp) ⟨⟨rfl, by decide⟩, trivial⟩ rfl
    have g2 := g1.next (.run noFailure) ⟨⟨_, rfl, rfl⟩, trivial⟩ rfl
    have g3 := g2.next .zeroCallback ⟨⟨_, rfl, rfl⟩, trivial⟩ rfl
    refine ⟨_, g3, ⟨_, rfl, rfl⟩, fun h => ?_, fun o => rfl⟩
    have hctx := h _ rfl rfl rfl rfl
    cases hctx

end OcfCache.CleaningSwitch
