import OcfCache.UtilsPipeline

/-!
# Runs of a pipeline

The calls that were made and the calls that remain at the place of the
pipeline are together the calls of its array. A foreach step moves its
argument behind the handler, so its request must not run before that, and the
handler must not roll back before that either, unless no rollback step uses
the argument.
-/

namespace OcfCache.UtilsPipeline

open Runs

/-- Calls of a step. -/
def callsOf (k : Nat) : Step → List Call
  | .single arg => [⟨k, 0, arg⟩]
  | .conditional arg => [⟨k, 0, arg⟩]
  | .foreach args => args.mapIdx fun i arg => ⟨k, i, arg⟩

/-- Calls of the steps from an index on. -/
def callsFrom (k : Nat) : List Step → List Call
  | [] => []
  | step :: rest => callsOf k step ++ callsFrom (k + 1) rest

/-- Calls of an array in the order of declaration. -/
def calls (steps : List Step) : List Call := callsFrom 0 steps

/-- A step goes through arguments. -/
def Step.isForeach : Step → Bool
  | .foreach _ => true
  | _ => false

/-- No step goes through arguments. -/
def NoForeach (steps : List Step) : Prop := ∀ st ∈ steps, st.isForeach = false

section Place

variable (props : Properties)

/-- The array that a pipeline goes through. -/
def State.array (s : State) : List Step := props.array s.pl.rollback

/-- The pipeline rolls back and needs no argument. -/
def Free (s : State) : Prop := s.pl.rollback = true ∧ NoForeach props.rollback

/-- Made and remaining calls at the place of a pipeline. -/
inductive Place (s : State) : Prop
  /-- It is between two steps. -/
  | between (harg : s.inside = 0 ∧ s.pl.arg = .null ∨ Free props s)
      (hcalls : s.events.map Event.call ++ callsFrom s.pl.step ((s.array props).drop s.pl.step) =
        calls (s.array props))
  /-- It is within a foreach step; a handler that has not returned has still to move the argument. -/
  | within {args : List Arg} {rest : List Step} {i : Nat}
      (hdrop : (s.array props).drop s.pl.step = .foreach args :: rest) (harg : s.pl.arg = .at s.pl.rollback s.pl.step i)
      (hinside : s.inside ≤ 1) (hle : i + s.inside ≤ args.length)
      (hcalls : s.events.map Event.call ++ ((callsOf s.pl.step (.foreach args)).drop (i + s.inside) ++
        callsFrom (s.pl.step + 1) rest) = calls (s.array props))

/-- Only calls of conditional steps are left out. -/
def Skips (s : State) : Prop :=
  ∀ e ∈ s.events, e.ran = false → ∃ arg, (s.array props)[e.call.step]? = some (.conditional arg)

/-- What a run of the request leaves alone. -/
structure SameRun (s s' : State) : Prop where
  /-- The array. -/
  rollback : s'.pl.rollback = s.pl.rollback
  /-- The pipeline is not finished. -/
  finish : s'.pl.finish = s.pl.finish
  /-- The error. -/
  error : s'.pl.error = s.pl.error
  /-- The queue. -/
  queued : s'.queued = s.queued
  /-- Calls before a rollback. -/
  past : s'.past = s.past
  /-- Errors. -/
  rollbackError : s'.rollbackError = s.rollbackError
  /-- Errors. -/
  finishError : s'.finishError = s.finishError

/-- A run of the request calls the finish handler behind all steps, or one handler. -/
structure RunSpec (s s' : State) : Prop where
  /-- What is left alone. -/
  same : SameRun s s'
  /-- Left out calls. -/
  skips : Skips props s'
  /-- What is called. -/
  cases : (s'.finished = s.finished ++ [s.pl.error] ∧ s'.busy = s.busy ∧
      s'.events.map Event.call = calls (s'.array props)) ∨
    (s'.finished = s.finished ∧ s'.busy = s.busy + 1 ∧ Place props s')

end Place

section Runs

variable {props : Properties} {s s' : State} {rest : List Step}

theorem RunSpec.of_same {t : State} (h : RunSpec props t s') (hsame : SameRun s t) (hfinished : t.finished = s.finished)
    (hbusy : t.busy = s.busy) : RunSpec props s s' := by
  refine ⟨⟨h.same.rollback.trans hsame.rollback, h.same.finish.trans hsame.finish, h.same.error.trans hsame.error,
    h.same.queued.trans hsame.queued, h.same.past.trans hsame.past, h.same.rollbackError.trans hsame.rollbackError,
    h.same.finishError.trans hsame.finishError⟩, h.skips, ?_⟩
  have hcases := h.cases
  rw [hfinished, hbusy, hsame.error] at hcases
  exact hcases

theorem drop_succ {steps : List Step} {k : Nat} {st : Step} (h : steps.drop k = st :: rest) :
    steps.drop (k + 1) = rest ∧ steps[k]? = some st := by
  constructor
  · rw [← List.tail_drop, h]
    rfl
  · rw [← List.head?_drop, h]
    rfl

theorem readArg_at {args : List Arg} {rollback : Bool} {k i : Nat}
    (h : (props.array rollback)[k]? = some (.foreach args)) (hle : i ≤ args.length) :
    readArg props (.at rollback k i) = some args[i]? := by
  rw [readArg, h]
  exact if_pos hle

theorem Skips.append {e : Event} (h : Skips props s)
    (he : e.ran = false → ∃ arg, (s.array props)[e.call.step]? = some (.conditional arg)) :
    ∀ e' ∈ s.events ++ [e], e'.ran = false → ∃ arg, (s.array props)[e'.call.step]? = some (.conditional arg) := by
  intro e' he'
  rcases List.mem_append.mp he' with hin | hin
  · exact h e' hin
  · rw [List.mem_singleton.mp hin]
    exact he

theorem callsOf_drop {args : List Arg} {k i : Nat} (hlt : i < args.length) :
    (callsOf k (.foreach args)).drop i = ⟨k, i, args[i]⟩ :: (callsOf k (.foreach args)).drop (i + 1) := by
  have hlen : i < (callsOf k (.foreach args)).length := by
    rw [callsOf, List.length_mapIdx]
    exact hlt
  rw [List.drop_eq_getElem_cons hlen]
  simp [callsOf]

/-- A foreach step of the request. -/
theorem runForeach_spec {pred : Nat → Bool} {args : List Arg} {i : Nat}
    (ih : ∀ {t : State}, (t.array props).drop t.pl.step = rest → Skips props t → t.inside = 0 → t.pl.arg = .null →
      t.events.map Event.call ++ callsFrom t.pl.step rest = calls (t.array props) →
      ∃ s', runSteps props pred t rest = some s' ∧ RunSpec props t s')
    (hdrop : (s.array props).drop s.pl.step = .foreach args :: rest) (hskips : Skips props s) (hinside : s.inside = 0)
    (harg : s.pl.arg = .at s.pl.rollback s.pl.step i) (hle : i ≤ args.length)
    (hcalls : s.events.map Event.call ++ ((callsOf s.pl.step (.foreach args)).drop i ++
      callsFrom (s.pl.step + 1) rest) = calls (s.array props)) :
    ∃ s', runSteps props pred s (.foreach args :: rest) = some s' ∧ RunSpec props s s' := by
  obtain ⟨hrest, hget⟩ := drop_succ hdrop
  have hread : readArg props s.pl.arg = some args[i]? := by
    rw [harg]
    exact readArg_at hget hle
  have hnull : s.pl.arg ≠ .null := by
    rw [harg]
    nofun
  rw [runSteps]
  rw [if_neg hnull, hread]
  by_cases hlt : i < args.length
  · rw [List.getElem?_eq_getElem hlt]
    rw [harg]
    refine ⟨_, rfl, ⟨rfl, rfl, rfl, rfl, rfl, rfl, rfl⟩, ?_, .inr ⟨rfl, rfl, ?_⟩⟩
    · exact hskips.append nofun
    · refine .within hdrop harg ?_ ?_ ?_
      · change s.inside + 1 ≤ 1
        omega
      · change i + (s.inside + 1) ≤ args.length
        omega
      · change (s.events ++ [_]).map Event.call ++ ((callsOf s.pl.step (.foreach args)).drop (i + (s.inside + 1)) ++
          callsFrom (s.pl.step + 1) rest) = calls (s.array props)
        rw [← hcalls, callsOf_drop hlt, hinside, List.map_append, List.append_assoc]
        rfl
  · have heq : i = args.length := by omega
    have hnone : args[i]? = none := List.getElem?_eq_none (by omega)
    rw [hnone]
    dsimp only
    have hbehind : (callsOf s.pl.step (.foreach args)).drop i = [] := by
      rw [List.drop_eq_nil_iff, callsOf, List.length_mapIdx]
      omega
    rw [hbehind, List.nil_append] at hcalls
    obtain ⟨s', hs', hspec⟩ := ih (t := { s with pl := { s.pl with arg := .null, step := s.pl.step + 1 } })
      hrest hskips hinside rfl hcalls
    exact ⟨s', hs', hspec.of_same ⟨rfl, rfl, rfl, rfl, rfl, rfl, rfl⟩ rfl rfl⟩

/-- The request runs steps up to a handler. -/
theorem runSteps_spec (pred : Nat → Bool) (hdrop : (s.array props).drop s.pl.step = rest) (hskips : Skips props s)
    (harg : s.inside = 0 ∧ s.pl.arg = .null ∨ Free props s)
    (hcalls : s.events.map Event.call ++ callsFrom s.pl.step rest = calls (s.array props)) :
    ∃ s', runSteps props pred s rest = some s' ∧ RunSpec props s s' := by
  induction rest generalizing s with
  | nil =>
    rw [callsFrom, List.append_nil] at hcalls
    exact ⟨_, rfl, ⟨rfl, rfl, rfl, rfl, rfl, rfl, rfl⟩, hskips, .inl ⟨rfl, rfl, hcalls⟩⟩
  | cons st rest ih =>
    obtain ⟨hrest, hget⟩ := drop_succ hdrop
    cases st with
    | single arg =>
      refine ⟨_, rfl, ⟨rfl, rfl, rfl, rfl, rfl, rfl, rfl⟩, hskips.append nofun, .inr ⟨rfl, rfl, .between harg ?_⟩⟩
      change (s.events ++ [_]).map Event.call ++ callsFrom (s.pl.step + 1) ((s.array props).drop (s.pl.step + 1)) =
        calls (s.array props)
      rw [hrest, ← hcalls, List.map_append, List.append_assoc]
      rfl
    | conditional arg =>
      rw [runSteps]
      by_cases hpred : pred s.pl.step = true
      · rw [if_pos hpred]
        refine ⟨_, rfl, ⟨rfl, rfl, rfl, rfl, rfl, rfl, rfl⟩, hskips.append nofun, .inr ⟨rfl, rfl, .between harg ?_⟩⟩
        change (s.events ++ [_]).map Event.call ++ callsFrom (s.pl.step + 1) ((s.array props).drop (s.pl.step + 1)) =
          calls (s.array props)
        rw [hrest, ← hcalls, List.map_append, List.append_assoc]
        rfl
      · rw [if_neg hpred]
        obtain ⟨s', hs', hspec⟩ := ih (s := { s with
          pl := { s.pl with step := s.pl.step + 1 }
          events := s.events ++ [⟨⟨s.pl.step, 0, arg⟩, false⟩] }) hrest
          (hskips.append fun _ => ⟨arg, hget⟩) harg (by
            change (s.events ++ [_]).map Event.call ++ callsFrom (s.pl.step + 1) rest = calls (s.array props)
            rw [← hcalls, List.map_append, List.append_assoc]
            rfl)
        exact ⟨s', hs', hspec.of_same ⟨rfl, rfl, rfl, rfl, rfl, rfl, rfl⟩ rfl rfl⟩
    | foreach args =>
      rcases harg with ⟨hinside, hnull⟩ | ⟨hroll, hfree⟩
      · have hstart : runSteps props pred s (.foreach args :: rest) = runSteps props pred
            { s with pl := { s.pl with arg := .at s.pl.rollback s.pl.step 0 } } (.foreach args :: rest) := by
          rw [runSteps, runSteps]
          rw [if_pos hnull, if_neg nofun]
        rw [hstart]
        obtain ⟨s', hs', hspec⟩ := runForeach_spec
          (s := { s with pl := { s.pl with arg := .at s.pl.rollback s.pl.step 0 } }) (i := 0)
          (fun h1 h2 h3 h4 h5 => ih h1 h2 (.inl ⟨h3, h4⟩) h5) hdrop hskips hinside rfl (Nat.zero_le _) hcalls
        exact ⟨s', hs', hspec.of_same ⟨rfl, rfl, rfl, rfl, rfl, rfl, rfl⟩ rfl rfl⟩
      · have hmem : Step.foreach args ∈ props.rollback := by
          have hin : Step.foreach args ∈ (s.array props).drop s.pl.step := by
            rw [hdrop]
            exact List.mem_cons_self
          have harr : s.array props = props.rollback := by
            rw [State.array, Properties.array, if_pos hroll]
          rw [harr] at hin
          exact List.mem_of_mem_drop hin
        have hno := hfree _ hmem
        cases hno

end Runs

section System

variable (props : Properties)

/-- A foreach step moves its argument in time: the request does not run while
the handler of a foreach step has not returned, and such a handler does not
roll back when a rollback step goes through arguments. A run that only
finishes, or that needs no argument, does not count. -/
def InTurn (s : State) : Act → Prop
  | .run _ => s.inside = 0 ∨ s.pl.finish = true ∨ Free props s
  | .rollback _ => s.inside = 0 ∨ NoForeach props.rollback
  | _ => True

/-- The invariant of a run. -/
structure Inv (s : State) : Prop where
  /-- Either the request is queued, or a handler is busy, or the pipeline is finished. -/
  phase : (s.queued = 1 ∧ s.busy = 0 ∧ s.finished = []) ∨
    (s.queued = 0 ∧ s.busy = 1 ∧ s.finished = [] ∧ s.pl.finish = false) ∨
    (s.queued = 0 ∧ s.busy = 0 ∧ s.finished = [s.pl.error] ∧
      (s.pl.finish = false → s.events.map Event.call = calls (s.array props)))
  /-- The place of the pipeline. -/
  place : s.pl.finish = false → s.finished = [] → Place props s
  /-- The calls are made in order. -/
  ordered : s.events.map Event.call <+: calls (s.array props)
  /-- Left out calls. -/
  skips : Skips props s
  /-- Calls before a rollback. -/
  past : ∀ seg ∈ s.past, seg.2.map Event.call <+: calls (props.array seg.1)
  /-- Nothing is before the steps, and they are before all rollbacks. -/
  past_eq : s.past.map Prod.fst ++ [s.pl.rollback] = false :: List.replicate s.past.length true
  /-- The error that is kept. -/
  error_eq : s.pl.error = s.rollbackError.getD (s.finishError.getD 0)
  /-- The pipeline rolls back. -/
  rollback_eq : s.pl.rollback = s.rollbackError.isSome
  /-- The pipeline finishes. -/
  finish_eq : s.pl.finish = s.finishError.isSome

variable {props} {s s' : State}

theorem Place.ordered (h : Place props s) : s.events.map Event.call <+: calls (s.array props) := by
  cases h with
  | between _ hcalls => exact ⟨_, hcalls⟩
  | within _ _ _ _ hcalls => exact ⟨_, hcalls⟩

/-- A run of the request keeps the order. -/
theorem Inv.run (h : Inv props s) (pred : Nat → Bool) (hq : 0 < s.queued) (hin : InTurn props s (.run pred)) :
    ∃ s', step props s (.run pred) = some s' ∧ Inv props s' := by
  obtain ⟨hqueued, hbusy, hfin⟩ : s.queued = 1 ∧ s.busy = 0 ∧ s.finished = [] := by
    rcases h.phase with hp | ⟨hz, -⟩ | ⟨hz, -⟩
    · exact hp
    · omega
    · omega
  have hzero : s.queued - 1 = 0 := by omega
  rw [step, ocfPipelineRunStep]
  by_cases hfinish : s.pl.finish = true
  · rw [if_pos hfinish]
    refine ⟨_, rfl, .inr (.inr ⟨hzero, hbusy, ?_, fun hf => ?_⟩), fun hf => ?_, h.ordered, h.skips, h.past, h.past_eq,
      h.error_eq, h.rollback_eq, h.finish_eq⟩
    · change s.finished ++ [s.pl.error] = [s.pl.error]
      rw [hfin, List.nil_append]
    · rw [State.callFinish, hfinish] at hf
      cases hf
    · rw [State.callFinish, hfinish] at hf
      cases hf
  · have hnot : s.pl.finish = false := Bool.not_eq_true _ ▸ hfinish
    rw [if_neg hfinish]
    have hplace := h.place hnot hfin
    obtain ⟨s', hs', hspec⟩ : ∃ s', runSteps props pred { s with queued := s.queued - 1 }
        ((props.array s.pl.rollback).drop s.pl.step) = some s' ∧ RunSpec props { s with queued := s.queued - 1 } s' := by
      cases hplace with
      | between harg hcalls => exact runSteps_spec (s := { s with queued := s.queued - 1 }) pred rfl h.skips harg hcalls
      | within hdrop harg hinside hle hcalls =>
        have hnone : s.inside = 0 := by
          rcases hin with hz | hf | ⟨hroll, hfree⟩
          · exact hz
          · exact absurd hf hfinish
          · exfalso
            rw [State.array, Properties.array, if_pos hroll] at hdrop
            have hmem := List.mem_of_mem_drop (hdrop ▸ List.mem_cons_self)
            cases hfree _ hmem
        rw [hnone, Nat.add_zero] at hle hcalls
        change ∃ s', runSteps props pred _ ((s.array props).drop s.pl.step) = some s' ∧ _
        rw [hdrop]
        exact runForeach_spec (s := { s with queued := s.queued - 1 })
          (fun h1 h2 h3 h4 h5 => runSteps_spec pred h1 h2 (.inl ⟨h3, h4⟩) h5) hdrop h.skips hnone harg hle hcalls
    refine ⟨s', hs', ?_⟩
    have hsame := hspec.same
    have herr : s'.pl.error = s.pl.error := hsame.error
    have hq' : s'.queued = 0 := hsame.queued.trans hzero
    have hfin' : s'.pl.finish = false := hsame.finish.trans hnot
    have hrest : s'.past = s.past ∧ s'.rollbackError = s.rollbackError ∧ s'.finishError = s.finishError ∧
        s'.pl.rollback = s.pl.rollback := ⟨hsame.past, hsame.rollbackError, hsame.finishError, hsame.rollback⟩
    obtain ⟨hpast, hrerr, hferr, hroll⟩ := hrest
    have hpast' : ∀ seg ∈ s'.past, seg.2.map Event.call <+: calls (props.array seg.1) := by
      rw [hpast]
      exact h.past
    have hpastEq : s'.past.map Prod.fst ++ [s'.pl.rollback] = false :: List.replicate s'.past.length true := by
      rw [hpast, hroll]
      exact h.past_eq
    have herrEq : s'.pl.error = s'.rollbackError.getD (s'.finishError.getD 0) := by
      rw [herr, hrerr, hferr]
      exact h.error_eq
    have hrollEq : s'.pl.rollback = s'.rollbackError.isSome := by
      rw [hroll, hrerr]
      exact h.rollback_eq
    have hfinEq : s'.pl.finish = s'.finishError.isSome := by
      rw [hfin', hferr, ← h.finish_eq, hnot]
    rcases hspec.cases with ⟨hcalled, hbusy', hall⟩ | ⟨hcalled, hbusy', hplace'⟩
    · have hcalled' : s'.finished = [s'.pl.error] := by
        rw [hcalled, herr]
        change s.finished ++ _ = _
        rw [hfin, List.nil_append]
      have hbusy'' : s'.busy = 0 := hbusy'.trans hbusy
      refine ⟨.inr (.inr ⟨hq', hbusy'', hcalled', fun _ => hall⟩), fun _ hn => ?_, ?_, hspec.skips, hpast', hpastEq, herrEq,
        hrollEq, hfinEq⟩
      · rw [hcalled'] at hn
        cases hn
      · exact hall ▸ List.prefix_refl _
    · have hbusy'' : s'.busy = 1 := by
        rw [hbusy']
        change s.busy + 1 = 1
        omega
      exact ⟨.inr (.inl ⟨hq', hbusy'', hcalled.trans hfin, hfin'⟩), fun _ _ => hplace', hplace'.ordered, hspec.skips, hpast',
        hpastEq, herrEq, hrollEq, hfinEq⟩

theorem Inv.of_busy (h : Inv props s) (hb : 0 < s.busy) :
    s.queued = 0 ∧ s.busy = 1 ∧ s.finished = [] ∧ s.pl.finish = false := by
  rcases h.phase with ⟨-, hz, -⟩ | hp | ⟨-, hz, -⟩
  · omega
  · exact hp
  · omega

theorem Inv.rollback (h : Inv props s) {error : Int} (hb : 0 < s.busy) (hin : InTurn props s (.rollback error))
    (hs : step props s (.rollback error) = some s') : Inv props s' := by
  obtain ⟨hq, hone, hfin, hnot⟩ := h.of_busy hb
  have hferr : s.finishError = none := by
    have heq := h.finish_eq
    rw [hnot] at heq
    exact Option.not_isSome_iff_eq_none.mp (by rw [← heq]; exact Bool.false_ne_true)
  cases hs
  refine ⟨.inl ⟨?_, ?_, hfin⟩, fun _ _ => .between ?_ rfl, List.nil_prefix, nofun, fun seg hseg => ?_, ?_, rfl, rfl,
    h.finish_eq⟩
  · change s.queued + 1 = 1
    omega
  · change s.busy - 1 = 0
    omega
  · exact hin.imp (fun hz => ⟨hz, rfl⟩) fun hfree => ⟨rfl, hfree⟩
  · rcases List.mem_append.mp hseg with hold | hnew
    · exact h.past seg hold
    · rw [List.mem_singleton.mp hnew]
      exact h.ordered
  · change (s.past ++ [(s.pl.rollback, s.events)]).map Prod.fst ++ [true] =
      false :: List.replicate (s.past ++ [(s.pl.rollback, s.events)]).length true
    rw [List.map_append, List.length_append, List.length_singleton, List.replicate_succ']
    change _ ++ [s.pl.rollback] ++ _ = _
    rw [h.past_eq]
    rfl

/-- A step stays in the arrays and keeps the order. -/
theorem step_inv (h : Inv props s) {act : Act} (hg : guard s act) (hin : InTurn props s act) :
    ∃ s', step props s act = some s' ∧ Inv props s' := by
  cases act with
  | run pred => exact h.run pred hg hin
  | next =>
    obtain ⟨hq, hone, hfin, hnot⟩ := h.of_busy hg
    refine ⟨_, rfl, .inl ⟨?_, ?_, hfin⟩, fun _ _ => ?_, h.ordered, h.skips, h.past, h.past_eq, h.error_eq, h.rollback_eq,
      h.finish_eq⟩
    · change s.queued + 1 = 1
      omega
    · change s.busy - 1 = 0
      omega
    · cases h.place hnot hfin with
      | between harg hcalls => exact .between harg hcalls
      | within hdrop harg hinside hle hcalls => exact .within hdrop harg hinside hle hcalls
  | rollback error => exact ⟨_, rfl, h.rollback hg hin rfl⟩
  | finish error =>
    obtain ⟨hq, hone, hfin, hnot⟩ := h.of_busy hg
    refine ⟨_, rfl, .inl ⟨?_, ?_, hfin⟩, nofun, h.ordered, h.skips, h.past, h.past_eq, ?_, h.rollback_eq, rfl⟩
    · change s.queued + 1 = 1
      omega
    · change s.busy - 1 = 0
      omega
    · change (if s.pl.rollback = true then s.pl.error else error) = s.rollbackError.getD error
      have hroll := h.rollback_eq
      have herr := h.error_eq
      cases hr : s.rollbackError with
      | none =>
        rw [hr] at hroll
        rw [hroll]
        rfl
      | some e =>
        rw [hr] at hroll herr
        rw [hroll, herr]
        rfl
  | ret =>
    have hpos : 0 < s.inside := hg
    refine ⟨_, rfl, h.phase, fun hnot hfin => ?_, h.ordered, h.skips, h.past, h.past_eq, h.error_eq, h.rollback_eq,
      h.finish_eq⟩
    cases h.place hnot hfin with
    | between harg hcalls =>
      rcases harg with ⟨hz, -⟩ | hfree
      · omega
      · exact .between (.inr hfree) hcalls
    | @within args rest i hdrop harg hinside hle hcalls =>
      have hone : s.inside = 1 := by omega
      rw [hone] at hle hcalls
      refine Place.within (i := i + 1) hdrop ?_ ?_ ?_ ?_
      · change s.pl.arg.incr = _
        rw [harg]
        rfl
      · change s.inside - 1 ≤ 1
        omega
      · change i + 1 + (s.inside - 1) ≤ args.length
        omega
      · change s.events.map Event.call ++ ((callsOf s.pl.step (.foreach args)).drop (i + 1 + (s.inside - 1)) ++
          callsFrom (s.pl.step + 1) rest) = calls (s.array props)
        have hsum : i + 1 + (s.inside - 1) = i + 1 := by omega
        rw [hsum]
        exact hcalls

theorem inv_create (props : Properties) : Inv props ocfPipelineCreate :=
  ⟨.inl ⟨rfl, rfl, rfl⟩, fun _ _ => .between (.inl ⟨rfl, rfl⟩) rfl, List.nil_prefix, nofun, nofun, rfl, rfl, rfl, rfl⟩

variable (props)

/-- What the users of a pipeline rely on. -/
structure Ordered (s : State) : Prop where
  /-- The handlers run in the order of declaration, a foreach handler for one argument after the other. -/
  ordered : s.events.map Event.call <+: calls (s.array props)
  /-- Before a rollback they did so too. -/
  past : ∀ seg ∈ s.past, seg.2.map Event.call <+: calls (props.array seg.1)
  /-- The steps run first, then rollbacks. -/
  past_eq : s.past.map Prod.fst ++ [s.pl.rollback] = false :: List.replicate s.past.length true
  /-- Only conditional steps are left out. -/
  skips : Skips props s
  /-- The next handler is called when the last one has called on. -/
  one : s.busy + s.queued ≤ 1
  /-- The finish handler is called at most once, and once when nothing is to be done. -/
  finish : s.finished.length ≤ 1 ∧ (s.busy = 0 → s.queued = 0 → s.finished.length = 1)
  /-- It gets the error of the last rollback, or that of `ocf_pipeline_finish`. -/
  error : ∀ e ∈ s.finished, e = s.rollbackError.getD (s.finishError.getD 0)
  /-- Without `ocf_pipeline_finish` all steps were done. -/
  all : s.finished ≠ [] → s.finishError = none → s.events.map Event.call = calls (s.array props)

variable {props}

theorem Inv.toOrdered (h : Inv props s) : Ordered props s where
  ordered := h.ordered
  past := h.past
  past_eq := h.past_eq
  skips := h.skips
  one := by
    rcases h.phase with ⟨hq, hb, -⟩ | ⟨hq, hb, -⟩ | ⟨hq, hb, -⟩ <;> omega
  finish := by
    rcases h.phase with ⟨hq, -, hf⟩ | ⟨-, hb, hf, -⟩ | ⟨-, -, hf, -⟩
    · rw [hf]
      exact ⟨Nat.zero_le _, fun _ hz => absurd hz (by omega)⟩
    · rw [hf]
      exact ⟨Nat.zero_le _, fun hz => absurd hz (by omega)⟩
    · rw [hf]
      exact ⟨Nat.le_refl _, fun _ _ => rfl⟩
  error := by
    intro e he
    rcases h.phase with ⟨-, -, hf⟩ | ⟨-, -, hf, -⟩ | ⟨-, -, hf, -⟩
    · rw [hf] at he
      cases he
    · rw [hf] at he
      cases he
    · rw [hf] at he
      rw [List.mem_singleton.mp he]
      exact h.error_eq
  all := by
    intro hne hnone
    rcases h.phase with ⟨-, -, hf⟩ | ⟨-, -, hf, -⟩ | ⟨-, -, -, hall⟩
    · exact absurd hf hne
    · exact absurd hf hne
    · refine hall ?_
      rw [h.finish_eq, hnone]
      rfl

/-- In every run in which the foreach steps move their arguments in time the
handlers run once and in order, the finish handler is called once with the
error that is kept, and every step stays within the arrays. The pipeline is not
destroyed in the run, also not by the finish handler. -/
theorem pipeline_ordered (props : Properties) (h : Reachable (system props (InTurn props)) ocfPipelineCreate s) :
    Ordered props s ∧ ∀ act, guard s act → InTurn props s act → ∃ s', step props s act = some s' := by
  have hinv : Inv props s := h.invariant (fun _ => inv_create props) fun _ _ _ hs _ hg hstep _ => by
    obtain ⟨t, ht, hinv⟩ := step_inv hs hg.1 hg.2
    cases ht.symm.trans hstep
    exact hinv
  exact ⟨hinv.toOrdered, fun act hg hin => (step_inv hinv hg hin).imp fun _ => And.left⟩

/-- A foreach step with two arguments; the second handler rolls back. -/
def twoArgs : Properties where
  steps := [.foreach [.int 1, .int 2]]
  rollback := [.single .none]

/-- The handlers return before the request runs: both arguments have their
turn, then the rollback step, and the finish handler gets the error. -/
theorem pipeline_ordered_rollback : ∃ s, Reachable (system twoArgs (InTurn twoArgs)) ocfPipelineCreate s ∧
    s.finished = [-5] ∧ s.past = [(false, [⟨⟨0, 0, .int 1⟩, true⟩, ⟨⟨0, 1, .int 2⟩, true⟩])] ∧ Ordered twoArgs s := by
  have h0 : Reachable (system twoArgs (InTurn twoArgs)) ocfPipelineCreate ocfPipelineCreate := .refl trivial
  have h1 := h0.next (.run fun _ => true) ⟨Nat.one_pos, .inl rfl⟩ rfl
  have h2 := h1.next .next ⟨Nat.one_pos, trivial⟩ rfl
  have h3 := h2.next .ret ⟨Nat.one_pos, trivial⟩ rfl
  have h4 := h3.next (.run fun _ => true) ⟨Nat.one_pos, .inl rfl⟩ rfl
  have h5 := h4.next .ret ⟨Nat.one_pos, trivial⟩ rfl
  have h6 := h5.next (.rollback (-5)) ⟨Nat.one_pos, .inl rfl⟩ rfl
  have h7 := h6.next (.run fun _ => true) ⟨Nat.one_pos, .inl rfl⟩ rfl
  have h8 := h7.next .next ⟨Nat.one_pos, trivial⟩ rfl
  have h9 := h8.next (.run fun _ => true) ⟨Nat.one_pos, .inl rfl⟩ rfl
  exact ⟨_, h9, rfl, rfl, (pipeline_ordered twoArgs h9).1⟩

/-- The first handler calls on, and the request runs before the handler
returns: the handler runs for the first argument again, and when both have
returned the second argument is passed over. -/
theorem early_run_repeats : ∃ s, Reachable (system twoArgs fun _ _ => True) ocfPipelineCreate s ∧
    s.events = [⟨⟨0, 0, .int 1⟩, true⟩, ⟨⟨0, 0, .int 1⟩, true⟩] ∧ s.finished = [0] ∧ ¬Ordered twoArgs s := by
  have h0 : Reachable (system twoArgs fun _ _ => True) ocfPipelineCreate ocfPipelineCreate := .refl trivial
  have h1 := h0.next (.run fun _ => true) ⟨Nat.one_pos, trivial⟩ rfl
  have h2 := h1.next .next ⟨Nat.one_pos, trivial⟩ rfl
  have h3 := h2.next (.run fun _ => true) ⟨Nat.one_pos, trivial⟩ rfl
  have h4 := h3.next .ret ⟨Nat.two_pos, trivial⟩ rfl
  have h5 := h4.next .ret ⟨Nat.one_pos, trivial⟩ rfl
  have h6 := h5.next .next ⟨Nat.one_pos, trivial⟩ rfl
  have h7 := h6.next (.run fun _ => true) ⟨Nat.one_pos, trivial⟩ rfl
  refine ⟨_, h7, rfl, rfl, fun h => ?_⟩
  have hne := h.ordered
  revert hne
  decide

end System

end OcfCache.UtilsPipeline
