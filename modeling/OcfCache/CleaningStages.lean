import OcfCache.CleaningSwitchOps

/-!
# The steps of a switch

What the operations of the policies that a switch calls do: a policy that is
set up has its context, one that is not has none, a prepopulated policy tracks
nothing, and all of them leave the metadata alone. A policy that tracks nothing
goes on to do so while the cleaner is frozen.
-/

namespace OcfCache.CleaningSwitch

open Metadata Loops CacheLine
open Option (bind_eq_some_iff map_eq_some_iff)
open Alru (Cared Wanted Mapped)

/-- The context of a policy that is set up. -/
def contextOf : Policy → Option Policy
  | .nop => none
  | .alru => some .alru
  | .acp => some .acp

/-- Only the contents of the policies and the context differ. -/
structure SameCache (c c' : Cache) : Prop where
  /-- Metadata. -/
  md : c'.md = c.md
  /-- Cores. -/
  added : c'.added = c.added
  /-- Their lengths. -/
  length : c'.length = c.length
  /-- The policy. -/
  policy : c'.policy = c.policy
  /-- The cleaner counter. -/
  freeze : c'.freeze = c.freeze

theorem SameCache.refl (c : Cache) : SameCache c c := ⟨rfl, rfl, rfl, rfl, rfl⟩

/-- A policy that was prepopulated and has not tracked a line yet. -/
def Blank (cfg : Acp.Config) (c : Cache) : Policy → Prop
  | .nop => True
  | .alru => ∃ lists, Alru.Tracks cfg.geometry c.alruState c.md.partitionId (fun _ => False)
      (· < cfg.geometry.collisionEntries) lists
  | .acp => Acp.Fresh cfg c.acpState ∧ ∀ x < cfg.geometry.collisionEntries, c.acpDirty x = false

section Contexts

variable {s s' t : Acp.State} {table : Nat → Bool} {core : Nat}

/-- `cleaning_policy_acp_add_core` changes the context only. -/
theorem addCore_acp {alloc : Bool} (h : Acp.cleaningPolicyAcpAddCore s core alloc = some s') :
    s' = { s with acp := s'.acp } := by
  rw [Acp.cleaningPolicyAcpAddCore] at h
  split at h
  · cases h
  · split at h <;> cases h <;> rfl

/-- `cleaning_policy_acp_remove_core` changes the context only. -/
theorem removeCore_acp (h : Acp.cleaningPolicyAcpRemoveCore s core = some s') : s' = { s with acp := s'.acp } := by
  rw [Acp.cleaningPolicyAcpRemoveCore] at h
  split at h
  · cases h
  · split at h
    · cases h
    · cases h
      rfl

/-- `_acp_remove_cores` changes the context only. -/
theorem removeCores_acp (h : acpRemoveCores s = some s') : s' = { s with acp := s'.acp } := by
  refine foldlM_inv (fun _ t => t = { s with acp := t.acp }) (fun done core t t' _ ht hstep => ?_)
    List.nodup_range rfl h
  split at hstep
  · rw [removeCore_acp hstep, ht]
  · cases hstep
    exact ht

theorem loadCore_acp {st st' : Acp.State × Bool} (h : acpLoadCore table st core = some st') :
    st'.1 = { st.1 with acp := st'.1.acp } := by
  rw [acpLoadCore] at h
  split at h
  · cases h
    rfl
  · obtain ⟨t, ht, rfl⟩ := map_eq_some_iff.mp h
    exact addCore_acp ht

theorem loadCore_failed (xs : List Nat) (s : Acp.State) : xs.foldlM (acpLoadCore table) (s, false) = some (s, false) := by
  induction xs with
  | nil => rfl
  | cons core xs ih => rwa [List.foldlM_cons, acpLoadCore, if_pos (Or.inl rfl)]

theorem loadCore_all (xs : List Nat) {added : Nat → Bool} (hadded : s.added = added)
    (h : xs.foldlM (acpLoadCore table) (s, true) = some (t, true)) :
    xs.foldlM (fun s core => if added core then Acp.cleaningPolicyAcpAddCore s core true else some s) s = some t := by
  induction xs generalizing s with
  | nil =>
    cases h
    rfl
  | cons core xs ih =>
    obtain ⟨⟨u, flag⟩, hu, hrest⟩ := bind_eq_some_iff.mp h
    have hframe := loadCore_acp hu
    have hflag : flag = true := by
      cases flag with
      | true => rfl
      | false =>
        rw [loadCore_failed] at hrest
        cases hrest
    subst hflag
    have hu' : (if added core then Acp.cleaningPolicyAcpAddCore s core true else some s) = some u := by
      rw [acpLoadCore] at hu
      by_cases hcore : added core = true
      · rw [if_pos hcore]
        rw [if_neg (by simp [hadded, hcore])] at hu
        obtain ⟨v, hv, heq⟩ := map_eq_some_iff.mp hu
        obtain ⟨rfl, htable⟩ := Prod.mk.inj heq
        rwa [htable] at hv
      · rw [if_neg hcore]
        rw [if_pos (Or.inr (by rw [hadded]; exact Bool.not_eq_true _ ▸ hcore))] at hu
        obtain ⟨rfl, -⟩ := Prod.mk.inj (Option.some.inj hu)
        rfl
    rw [List.foldlM_cons, hu']
    change u = { s with acp := u.acp } at hframe
    have hsame : u.added = added := by
      rw [hframe]
      exact hadded
    exact ih hsame hrest

/-- `_acp_load_cores` changes the context only. -/
theorem loadCores_acp {r : Acp.State × Bool} (h : acpLoadCores table s = some r) : r.1 = { s with acp := r.1.acp } := by
  obtain ⟨st, hst, hres⟩ := bind_eq_some_iff.mp h
  have hfold : st.1 = { s with acp := st.1.acp } := by
    refine foldlM_inv (fun _ (t : Acp.State × Bool) => t.1 = { s with acp := t.1.acp })
      (fun done core t t' _ ht hstep => ?_) List.nodup_range rfl hst
    rw [loadCore_acp hstep, ht]
  split at hres
  · cases hres
    exact hfold
  · obtain ⟨u, hu, rfl⟩ := map_eq_some_iff.mp hres
    rw [removeCores_acp hu, hfold]

/-- `_acp_load_cores` if all tables are allocated. -/
theorem loadCores_all (h : acpLoadCores table s = some (t, true)) :
    Acp.forEachCore s.added (fun s core => Acp.cleaningPolicyAcpAddCore s core true) s = some t := by
  obtain ⟨⟨u, flag⟩, hu, hres⟩ := bind_eq_some_iff.mp h
  cases flag with
  | true =>
    cases hres
    exact loadCore_all _ rfl hu
  | false =>
    rw [if_neg Bool.false_ne_true] at hres
    obtain ⟨v, hv, heq⟩ := map_eq_some_iff.mp hres
    cases heq

end Contexts

section Steps

variable {cfg : Acp.Config} {c c' : Cache} {o : Outcome} {new : Policy} {e : Int}

theorem MdOk.same (h : MdOk cfg c) (hsame : SameCache c c') : MdOk cfg c' :=
  h.congr (by rw [hsame.md]) (by rw [hsame.md]) (fun x hx => by rw [hsame.md]; exact h.inPartitions x hx.1 hx.2)
    hsame.added hsame.length

theorem sameCache_setAcp {s : Acp.State} {context : Option Policy} (h : s = { c.acpState with acp := s.acp }) :
    SameCache c { c.setAcp s with context } := by
  rw [h]
  exact ⟨rfl, rfl, rfl, rfl, rfl⟩

/-- `cleaning_policy_acp_deinitialize`. -/
theorem acpDeinitialize_spec (h : cleaningPolicyAcpDeinitialize c = some c') :
    SameCache c c' ∧ c'.context = none := by
  obtain ⟨s, hs, rfl⟩ := map_eq_some_iff.mp h
  exact ⟨sameCache_setAcp (removeCores_acp hs), rfl⟩

/-- `ocf_cleaning_deinitialize` leaves no context behind. -/
theorem deinitialize_spec (hctx : c.context = contextOf c.policy) (h : ocfCleaningDeinitialize c = some c') :
    SameCache c c' ∧ c'.context = none := by
  rw [ ocfCleaningDeinitialize] at h
  obtain hp | hp | hp := policy_cases c
  · simp only [hp] at h
    cases h
    rw [hp] at hctx
    exact ⟨.refl c, hctx⟩
  · simp only [hp] at h
    cases h
    exact ⟨⟨rfl, rfl, rfl, hp.symm, rfl⟩, rfl⟩
  · simp only [hp] at h
    exact acpDeinitialize_spec h

/-- `cleaning_policy_acp_initialize`. -/
theorem acpInitialize_spec (hok : MdOk cfg c) (h : cleaningPolicyAcpInitialize cfg o c = some (c', e)) :
    SameCache c c' ∧ (e = 0 → c'.context = some .acp ∧ Acp.Fresh cfg c'.acpState) ∧ (e ≠ 0 → c'.context = none) := by
  rw [cleaningPolicyAcpInitialize] at h
  split at h
  · cases h
  next hctx =>
    have hctx := not_not.mp hctx
    split at h
    next ho =>
      cases h
      exact ⟨.refl c, fun he => absurd he ho, fun _ => hctx⟩
    obtain ⟨⟨s, flag⟩, hs, hres⟩ := bind_eq_some_iff.mp h
    change acpLoadCores o.table { c.acpState with acp := Acp.emptyContext cfg } = some (s, flag) at hs
    have hframe : s = { c.acpState with acp := s.acp } := loadCores_acp hs
    cases flag with
    | true =>
      cases hres
      obtain ⟨s', hs', hfresh, -⟩ := Acp.initialize_spec hok.attached
      rw [Acp.cleaningPolicyAcpInitialize] at hs'
      have hall := loadCores_all hs
      rw [hs'] at hall
      cases hall
      exact ⟨sameCache_setAcp hframe, fun _ => ⟨rfl, hfresh⟩, fun he => absurd rfl he⟩
    | false =>
      rw [if_neg Bool.false_ne_true] at hres
      obtain ⟨c1, hc1, heq⟩ := map_eq_some_iff.mp hres
      cases heq
      obtain ⟨hsame, hnone⟩ := acpDeinitialize_spec hc1
      have hset : SameCache c { c.setAcp s with context := some .acp } := sameCache_setAcp hframe
      refine ⟨⟨hsame.md.trans hset.md, hsame.added.trans hset.added, hsame.length.trans hset.length,
        hsame.policy.trans hset.policy, hsame.freeze.trans hset.freeze⟩, fun he => ?_, fun _ => hnone⟩
      exact absurd he (by decide)

/-- `ocf_cleaning_initialize` sets a context up or reports an error. -/
theorem initialize_spec (hok : MdOk cfg c) (hctx : c.context = none)
    (h : ocfCleaningInitialize cfg o c new = some (c', e)) : SameCache c c' ∧
      (e = 0 → c'.context = contextOf new ∧ (new = .acp → Acp.Fresh cfg c'.acpState)) ∧
      (e ≠ 0 → c'.context = none) := by
  cases new with
  | nop =>
    cases h
    exact ⟨.refl c, fun _ => ⟨hctx, fun hn => by cases hn⟩, fun _ => hctx⟩
  | alru =>
    rw [ocfCleaningInitialize, cleaningPolicyAlruInitialize] at h
    split at h
    next ho =>
      cases h
      exact ⟨.refl c, fun he => absurd he ho, fun _ => hctx⟩
    · cases h
      exact ⟨⟨rfl, rfl, rfl, rfl, rfl⟩, fun _ => ⟨rfl, fun hn => by cases hn⟩, fun he => absurd rfl he⟩
  | acp =>
    obtain ⟨hsame, hzero, hne⟩ := acpInitialize_spec hok h
    exact ⟨hsame, fun he => ⟨(hzero he).1, fun _ => (hzero he).2⟩, hne⟩

/-- `ocf_cleaning_prepopulate` if its handler can be created. -/
theorem prepopulate_spec (ho : new = .alru → o.create = 0) (hfresh : new = .acp → Acp.Fresh cfg c.acpState)
    (h : ocfCleaningPrepopulate cfg o c new = some (c', e)) :
    SameCache c c' ∧ c'.context = c.context ∧ e = 0 ∧ Blank cfg c' new := by
  cases new with
  | nop =>
    cases h
    exact ⟨.refl c, rfl, rfl, trivial⟩
  | alru =>
    rw [ocfCleaningPrepopulate, if_neg (not_not.mpr (ho rfl))] at h
    obtain ⟨s, hs, heq⟩ := map_eq_some_iff.mp h
    cases heq
    obtain ⟨s', hs', hmd, htr⟩ := Alru.prepopulate_tracks cfg.geometry c.alruState
    cases hs'.symm.trans hs
    refine ⟨⟨hmd, rfl, rfl, rfl, rfl⟩, rfl, rfl, fun _ => [], ?_⟩
    change Alru.Tracks _ s s.md.partitionId _ _ _
    rw [hmd]
    exact htr
  | acp =>
    cases h
    obtain ⟨flags, heq, hclean⟩ := Acp.prepopulate_spec cfg c.acpState
    rw [heq]
    exact ⟨⟨rfl, rfl, rfl, rfl, rfl⟩, rfl, rfl, (hfresh rfl).withFlags flags, hclean⟩

theorem Blank.withMd (h : Blank cfg c new) {md : LineTable} (hatt : Acp.Attached cfg { c.acpState with md }) :
    Blank cfg { c with md } new := by
  cases new with
  | nop => trivial
  | alru =>
    obtain ⟨lists, hl⟩ := h
    exact ⟨lists, hl.congr (fun _ => Iff.rfl) (fun _ hx => absurd hx id) (fun x hx => ⟨hx, fun _ => hx⟩) md⟩
  | acp => exact ⟨h.1.withMd hatt, h.2⟩

theorem Blank.covers (h : Blank cfg c c.policy) : Covers cfg c fun _ => True := by
  refine ⟨fun _ => False, ?_, fun x hx => absurd hx id, fun x _ => .inr trivial⟩
  obtain hp | hp | hp := policy_cases c
  · exact policyTracks_nop hp
  · rw [hp] at h
    obtain ⟨lists, hl⟩ := h
    exact (policyTracks_alru hp).mpr ⟨lists, hl.congr (fun _ => Iff.rfl) (fun _ _ => rfl)
      (fun x hx => ⟨hx.1, fun _ => hx.1⟩) c.md⟩
  · rw [hp] at h
    refine (policyTracks_acp hp).mpr ⟨h.1.inv h.2, h.1.allocated_eq, fun x hx => ?_⟩
    rw [h.2 x hx]
    exact ⟨fun hf => absurd hf Bool.false_ne_true, fun hf => absurd hf id⟩

theorem covers_nop (hp : c.policy = .nop) (pend : Nat → Prop) : Covers cfg c pend :=
  ⟨Wanted cfg.geometry c.md, policyTracks_nop hp, fun _ hx => hx, fun _ hx => .inl hx⟩

theorem Covers.exact (h : Covers cfg c fun _ => False) : PolicyTracks cfg c (Wanted cfg.geometry c.md) := by
  obtain ⟨T, hT, hsub, hcov⟩ := h
  refine hT.congr fun x => ⟨fun hx => ?_, hsub x⟩
  exact (hcov x hx).resolve_right id

end Steps

end OcfCache.CleaningSwitch
