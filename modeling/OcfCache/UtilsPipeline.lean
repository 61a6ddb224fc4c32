import OcfCache.Runs

/-!
# Pipelines

`utils_pipeline.c`. A step array is the list of its steps up to the
terminator, and so is an argument array. A pointer to an argument knows the
step whose array it points into; incrementing a null pointer gives a wild one.
A run of the request and a handler that calls on may be in different threads:
the assignment behind the handler of a foreach step, `pipeline->arg++`, is a
step of its own, and the request may run before it.
-/

namespace OcfCache.UtilsPipeline

open Runs

/-- `struct ocf_pipeline_arg`. -/
inductive Arg
  /-- `ocf_pipeline_arg_none`. -/
  | none
  /-- `ocf_pipeline_arg_int`. -/
  | int (i : Int)
  /-- `ocf_pipeline_arg_ptr`. -/
  | ptr (p : Nat)
  deriving DecidableEq

/-- `struct ocf_pipeline_step`. -/
inductive Step
  /-- `ocf_pipeline_step_single`. -/
  | single (arg : Arg)
  /-- `ocf_pipeline_step_conditional`. -/
  | conditional (arg : Arg)
  /-- `ocf_pipeline_step_foreach`. -/
  | foreach (args : List Arg)
  deriving DecidableEq

/-- `struct ocf_pipeline_properties`. -/
structure Properties where
  /-- `steps`. -/
  steps : List Step
  /-- `rollback`. -/
  rollback : List Step

/-- `ocf_pipeline_arg_t`. -/
inductive ArgPtr
  /-- `NULL`. -/
  | null
  /-- An argument of a step of the rollback array or of the other one. -/
  | at (rollback : Bool) (step index : Nat)
  /-- `NULL + 1` and beyond. -/
  | wild
  deriving DecidableEq

/-- `pipeline->arg++`. -/
def ArgPtr.incr : ArgPtr → ArgPtr
  | .null => .wild
  | .at rollback step index => .at rollback step (index + 1)
  | .wild => .wild

/-- `struct ocf_pipeline`; the step pointer is an index into the array that `rollback` selects. -/
structure Pipeline where
  /-- `step`. -/
  step : Nat
  /-- `arg`. -/
  arg : ArgPtr
  /-- `rollback`. -/
  rollback : Bool
  /-- `finish`. -/
  finish : Bool
  /-- `error`. -/
  error : Int
  deriving DecidableEq

/-- Step array that the pipeline goes through. -/
def Properties.array (props : Properties) (rollback : Bool) : List Step :=
  if rollback then props.rollback else props.steps

/-- A call of the handler of a step. -/
structure Call where
  /-- Index of the step. -/
  step : Nat
  /-- Index of the argument. -/
  index : Nat
  /-- The argument. -/
  arg : Arg
  deriving DecidableEq

/-- A call that was made, or was left out because a predicate said so. -/
structure Event where
  /-- The call. -/
  call : Call
  /-- The handler ran. -/
  ran : Bool
  deriving DecidableEq

/-- A pipeline with its request and its handlers. -/
structure State where
  /-- The pipeline. -/
  pl : Pipeline
  /-- Times that the request is in the queue. -/
  queued : Nat
  /-- Handlers that have neither called on, nor rolled back, nor finished. -/
  busy : Nat
  /-- Handlers of foreach steps that have not returned. -/
  inside : Nat
  /-- Calls since the pipeline or its last rollback started. -/
  events : List Event
  /-- Calls before a rollback, with the array they were made for. -/
  past : List (Bool × List Event)
  /-- Errors that the finish handler was called with. -/
  finished : List Int
  /-- Error given to the last `ocf_pipeline_rollback`. -/
  rollbackError : Option Int
  /-- Error given to `ocf_pipeline_finish`. -/
  finishError : Option Int
  deriving DecidableEq

/-- `ocf_pipeline_create`, then `ocf_pipeline_next`. -/
def ocfPipelineCreate : State where
  pl := ⟨0, .null, false, false, 0⟩
  queued := 1
  busy := 0
  inside := 0
  events := []
  past := []
  finished := []
  rollbackError := none
  finishError := none

section Run

variable (props : Properties)

/-- The argument that a pointer points to: `none` is an invalid access, and
`some none` the terminator. -/
def readArg : ArgPtr → Option (Option Arg)
  | .at rollback step index =>
    match (props.array rollback)[step]? with
    | some (.foreach args) => if index ≤ args.length then some args[index]? else none
    | _ => none
  | _ => none

/-- The finish handler is called. -/
def State.callFinish (s : State) : State := { s with finished := s.finished ++ [s.pl.error] }

/-- The handler of a step is called. -/
def State.callHandler (s : State) (step index : Nat) (arg : Arg) : State :=
  { s with busy := s.busy + 1, events := s.events ++ [⟨⟨step, index, arg⟩, true⟩] }

/-- The loop of `_ocf_pipeline_run_step` over the rest of an array, with the
results of the predicates. -/
def runSteps (pred : Nat → Bool) (s : State) : List Step → Option State
  | [] => some s.callFinish
  | .single arg :: _ =>
    let step := s.pl.step
    some ({ s with pl := { s.pl with step := step + 1 } }.callHandler step 0 arg)
  | .conditional arg :: rest =>
    let step := s.pl.step
    let s := { s with pl := { s.pl with step := step + 1 } }
    if pred step then some (s.callHandler step 0 arg)
    else runSteps pred { s with events := s.events ++ [⟨⟨step, 0, arg⟩, false⟩] } rest
  | .foreach _ :: rest =>
    let step := s.pl.step
    let s := if s.pl.arg = .null then { s with pl := { s.pl with arg := .at s.pl.rollback step 0 } } else s
    match readArg props s.pl.arg with
    | none => none
    | some none => runSteps pred { s with pl := { s.pl with arg := .null, step := step + 1 } } rest
    | some (some arg) =>
      let index := match s.pl.arg with
        | .at _ _ index => index
        | _ => 0
      some ({ s with inside := s.inside + 1 }.callHandler step index arg)

/-- `_ocf_pipeline_run_step`. -/
def ocfPipelineRunStep (pred : Nat → Bool) (s : State) : Option State :=
  if s.pl.finish then some s.callFinish
  else runSteps props pred s ((props.array s.pl.rollback).drop s.pl.step)

end Run

/-- What happens to a pipeline. -/
inductive Act
  /-- A thread runs the request, and the predicates have some results. -/
  | run (pred : Nat → Bool)
  /-- A handler, or who it left its work to, calls `ocf_pipeline_next`. -/
  | next
  /-- The same with `ocf_pipeline_rollback`. -/
  | rollback (error : Int)
  /-- The same with `ocf_pipeline_finish`. -/
  | finish (error : Int)
  /-- The handler of a foreach step returns. -/
  | ret

/-- Effect of what happens; `none` is an invalid access. -/
def step (props : Properties) (s : State) : Act → Option State
  | .run pred => ocfPipelineRunStep props pred { s with queued := s.queued - 1 }
  | .next => some { s with queued := s.queued + 1, busy := s.busy - 1 }
  | .rollback error => some { s with
      pl := { s.pl with rollback := true, error, step := 0, arg := .null }
      queued := s.queued + 1
      busy := s.busy - 1
      events := []
      past := s.past ++ [(s.pl.rollback, s.events)]
      rollbackError := some error }
  | .finish error => some { s with
      pl := { s.pl with finish := true, error := if s.pl.rollback then s.pl.error else error }
      queued := s.queued + 1
      busy := s.busy - 1
      finishError := some error }
  | .ret => some { s with pl := { s.pl with arg := s.pl.arg.incr }, inside := s.inside - 1 }

/-- Every handler calls on, rolls back or finishes once. -/
def guard (s : State) : Act → Prop
  | .run _ => 0 < s.queued
  | .ret => 0 < s.inside
  | _ => 0 < s.busy

/-- Runs in which only some of the allowed steps are taken. -/
def system (props : Properties) (allowed : State → Act → Prop) : System State Act where
  guard s act := guard s act ∧ allowed s act
  step := step props

end OcfCache.UtilsPipeline
