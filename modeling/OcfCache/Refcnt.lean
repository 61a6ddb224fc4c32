import OcfCache.Loops
import OcfCache.Runs

/-!
# The freezable reference counter

`ocf_env_refcnt.c` step by step: every atomic operation is one transition of a
thread, and the threads interleave in any order. A reference belongs to
nobody, so any thread may drop it. The callback of a registration is its
number. The 32-bit range of the counter is out of reach of the number of
threads and references and is not modelled.
-/

namespace OcfCache.Refcnt

open Function Loops Runs

/-- `struct env_refcnt`. -/
structure EnvRefcnt where
  /-- `counter`. -/
  counter : Int
  /-- `freeze`. -/
  freeze : Int
  /-- `callback`. -/
  callback : Bool
  /-- The registration whose `cb` and `priv` are stored. -/
  cb : Nat

/-- What a thread does next. -/
inductive Pc
  /-- It is in no function of the counter. -/
  | idle
  /-- `env_refcnt_inc` has seen no freeze and increments. -/
  | incAdd
  /-- `env_refcnt_inc` has incremented to a value and looks at `freeze` again. -/
  | incTest (val : Int)
  /-- `env_refcnt_inc` has seen the freeze and calls `env_refcnt_dec`. -/
  | incUndo
  /-- `env_refcnt_register_zero_cb` has seen the freeze and looks at `callback`. -/
  | regTest (n : Nat)
  /-- It increments the counter. -/
  | regAdd (n : Nat)
  /-- It stores `cb` and `priv`. -/
  | regStore (n : Nat)
  /-- It sets `callback`. -/
  | regArm
  /-- It calls `env_refcnt_dec`. -/
  | regDec
  /-- `env_refcnt_dec` has decremented to zero and exchanges `callback`. -/
  | decTest
  /-- `env_refcnt_dec` has taken the callback and calls it. -/
  | decCall
  deriving DecidableEq

/-- The counter with its threads. -/
structure State (ι : Type*) where
  /-- The counter. -/
  rc : EnvRefcnt
  /-- The threads. -/
  pc : ι → Pc
  /-- References: `env_refcnt_inc` that returned true without their `env_refcnt_dec`. -/
  holders : Nat
  /-- Registrations so far. -/
  registered : Nat
  /-- Calls of the callback of a registration. -/
  invoked : Nat → Nat
  /-- A callback was called, and the counter has been frozen ever since. -/
  quiet : Bool

/-- `env_refcnt_init`. -/
def envRefcntInit {ι : Type*} : State ι where
  rc := ⟨0, 0, false, 0⟩
  pc := fun _ => .idle
  holders := 0
  registered := 0
  invoked := fun _ => 0
  quiet := false

section Steps

variable {ι : Type*} [DecidableEq ι]

/-- A thread moves on. -/
def State.goto (s : State ι) (t : ι) (pc : Pc) : State ι := { s with pc := update s.pc t pc }

/-- The atomic decrement of `env_refcnt_dec`. -/
def envRefcntDec (s : State ι) (t : ι) : Option (State ι) :=
  let val := s.rc.counter - 1
  if val < 0 then none
  else some ({ s with rc := { s.rc with counter := val } }.goto t (if val = 0 then .decTest else .idle))

/-- What the threads may do. -/
inductive Act (ι : Type*)
  /-- A thread calls `env_refcnt_inc`. -/
  | inc (t : ι)
  /-- A thread calls `env_refcnt_dec` for a reference. -/
  | dec (t : ι)
  /-- A thread calls `env_refcnt_freeze`. -/
  | freeze (t : ι)
  /-- A thread calls `env_refcnt_unfreeze`. -/
  | unfreeze (t : ι)
  /-- A thread calls `env_refcnt_register_zero_cb`. -/
  | register (t : ι)
  /-- A thread goes on. -/
  | next (t : ι)

/-- The next atomic operation of a thread inside a function; `none` is an `ENV_BUG_ON`. -/
def next (s : State ι) (t : ι) : Option (State ι) :=
  match s.pc t with
  | .idle => none
  | .incAdd => some ({ s with rc := { s.rc with counter := s.rc.counter + 1 } }.goto t (.incTest (s.rc.counter + 1)))
  | .incTest val =>
    if s.rc.freeze = 0 then some ({ s with holders := if val ≠ 0 then s.holders + 1 else s.holders }.goto t .idle)
    else some (s.goto t .incUndo)
  | .incUndo => envRefcntDec s t
  | .regTest n => if s.rc.callback then none else some (s.goto t (.regAdd n))
  | .regAdd n => some ({ s with rc := { s.rc with counter := s.rc.counter + 1 } }.goto t (.regStore n))
  | .regStore n => some ({ s with rc := { s.rc with cb := n } }.goto t .regArm)
  | .regArm => some ({ s with rc := { s.rc with callback := true } }.goto t .regDec)
  | .regDec => envRefcntDec s t
  | .decTest =>
    if s.rc.callback then some ({ s with rc := { s.rc with callback := false } }.goto t .decCall)
    else some (s.goto t .idle)
  | .decCall => some ({ s with
      invoked := update s.invoked s.rc.cb (s.invoked s.rc.cb + 1)
      quiet := decide (0 < s.rc.freeze) }.goto t .idle)

/-- Effect of what a thread does. -/
def step (s : State ι) : Act ι → Option (State ι)
  | .inc t => some (if s.rc.freeze = 0 then s.goto t .incAdd else s)
  | .dec t => envRefcntDec { s with holders := s.holders - 1 } t
  | .freeze _ => some { s with rc := { s.rc with freeze := s.rc.freeze + 1 } }
  | .unfreeze _ =>
    let val := s.rc.freeze - 1
    if val < 0 then none
    else some { s with rc := { s.rc with freeze := val }, quiet := s.quiet && decide (0 < val) }
  | .register t =>
    if s.rc.freeze = 0 then none
    else some ({ s with registered := s.registered + 1 }.goto t (.regTest s.registered))
  | .next t => next s t

/-- A thread has a registration whose callback is not armed, or a callback that it has not called yet. -/
def Pc.pending : Pc → Bool
  | .regTest _ => true
  | .regAdd _ => true
  | .regStore _ => true
  | .regArm => true
  | .decCall => true
  | _ => false

/-- A registered callback was not called yet. -/
def Pending (s : State ι) : Prop := s.rc.callback = true ∨ ∃ u, (s.pc u).pending = true

/-- What the callers ensure: a reference is dropped once, a freeze is undone
once, and callbacks are registered one at a time under a freeze. -/
def guard (s : State ι) : Act ι → Prop
  | .inc t => s.pc t = .idle
  | .dec t => s.pc t = .idle ∧ 0 < s.holders
  | .freeze t => s.pc t = .idle
  | .unfreeze t => s.pc t = .idle ∧ 0 < s.rc.freeze
  | .register t => s.pc t = .idle ∧ 0 < s.rc.freeze ∧ ¬Pending s
  | .next t => s.pc t ≠ .idle

/-- Runs in which only some of the allowed steps are taken. -/
def system (allowed : State ι → Act ι → Prop) : System (State ι) (Act ι) where
  guard s act := guard s act ∧ allowed s act
  step := step

end Steps

end OcfCache.Refcnt
