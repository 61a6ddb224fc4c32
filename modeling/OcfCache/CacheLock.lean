import OcfCache.Constants
import OcfCache.Loops
import OcfCache.Runs

/-!
# Locking of a cache by management

`ocf_mngt_common.c`: the four functions that lock a cache. A call takes a
reference on the cache, one on the lock, and then the asynchronous lock, which
gives any answer; other users, a stop and the teardown of the lock go on
between its steps. An `env_refcnt_inc` either adds a reference or finds the
counter frozen, as one step.
-/

namespace OcfCache.CacheLock

open Function Loops Runs

/-- `-OCF_ERR_CACHE_NOT_EXIST` -/
def cacheNotExist : Int := -1000017

/-- The counters `refcnt.cache` and `refcnt.lock`. -/
inductive Ref
  | cache
  | lock
  deriving DecidableEq

/-- `struct env_refcnt` -/
structure EnvRefcnt where
  /-- References. -/
  counter : Int
  /-- Calls of `env_refcnt_freeze` without their `env_refcnt_unfreeze`. -/
  freeze : Nat

/-- Pair of functions that lock and unlock. -/
inductive Mode
  /-- `ocf_async_lock`, `ocf_async_trylock` and `ocf_async_unlock` -/
  | write
  /-- `ocf_async_read_lock`, `ocf_async_read_trylock` and `ocf_async_read_unlock` -/
  | read
  deriving DecidableEq

/-- Helper that a function calls. -/
inductive Helper
  /-- `_ocf_mngt_cache_lock` -/
  | wait
  /-- `_ocf_mngt_cache_trylock` -/
  | once
  deriving DecidableEq

/-- What a call does next. -/
inductive Pc
  /-- It was not made. -/
  | idle
  /-- `ocf_mngt_cache_get` -/
  | get (helper : Helper) (mode : Mode)
  /-- `env_refcnt_inc` of `refcnt.lock` -/
  | incLock (helper : Helper) (mode : Mode)
  /-- `ocf_async_lock_new_waiter` -/
  | newWaiter (mode : Mode)
  /-- `env_refcnt_dec` of `refcnt.lock`, for lack of memory -/
  | undoInc
  /-- `lock_fn` or `trylock_fn` -/
  | take (helper : Helper) (mode : Mode)
  /-- The waiter is in the list of the lock. -/
  | queued (mode : Mode)
  /-- Test of `ocf_cache_state_stopping` -/
  | test (helper : Helper) (mode : Mode)
  /-- `unlock_fn`, as the cache is stopping -/
  | release (helper : Helper) (mode : Mode)
  /-- `ocf_mngt_cache_put`, then return of an error -/
  | put (error : Int)
  /-- `ocf_mngt_cache_put` of a refused `trylock_fn` -/
  | putRefused
  /-- Label `out` of `_ocf_mngt_cache_trylock` without the lock -/
  | out (error : Int)
  /-- Label `out` with it -/
  | outLocked (mode : Mode)
  /-- It succeeded. -/
  | locked (mode : Mode)
  /-- `ocf_mngt_cache_put` of `_ocf_mngt_cache_unlock` -/
  | putUnlocked
  /-- It was unlocked. -/
  | unlocked
  /-- It failed. -/
  | failed (error : Int)
  deriving DecidableEq

/-- `ocf_mngt_cache_lock` -/
def ocfMngtCacheLock : Pc := .get .wait .write

/-- `ocf_mngt_cache_read_lock` -/
def ocfMngtCacheReadLock : Pc := .get .wait .read

/-- `ocf_mngt_cache_trylock` -/
def ocfMngtCacheTrylock : Pc := .get .once .write

/-- `ocf_mngt_cache_read_trylock` -/
def ocfMngtCacheReadTrylock : Pc := .get .once .read

/-- A call. -/
structure Call where
  /-- Its next step. -/
  pc : Pc
  /-- `_ocf_mngt_cache_lock` is behind `lock_fn` and has not dropped
  `refcnt.lock` yet. The completion may run on another thread meanwhile. -/
  owes : Bool
  /-- References that it took, less those that it dropped. -/
  refs : Ref → Int
  /-- How it holds the lock. -/
  held : Option Mode
  /-- `_ocf_mngt_cache_trylock` had the lock and found the cache stopping. -/
  foundStopping : Bool

/-- Before a call. -/
def Call.new : Call := ⟨.idle, false, fun _ => 0, none, false⟩

/-- `env_refcnt_inc` and `env_refcnt_dec` of a counter. -/
def Call.add (c : Call) (r : Ref) (n : Int) : Call :=
  { c with refs := update c.refs r (c.refs r + n) }

/-- A step of a call. `live` tells the counters that are not frozen, `answer`
is what the allocation or the asynchronous lock answers. -/
def Call.next (live : Ref → Bool) (stopping answer : Bool) (c : Call) : Option Call :=
  match c.pc with
  | .get helper mode =>
    if live .cache then some ({ c with pc := .incLock helper mode }.add .cache 1)
    else some { c with pc := .failed cacheNotExist }
  | .incLock helper mode =>
    if live .lock then
      some ({ c with pc := if helper = Helper.wait then .newWaiter mode else .take helper mode }.add .lock 1)
    else some { c with pc := .put cacheNotExist }
  | .newWaiter mode => some { c with pc := if answer then .take .wait mode else .undoInc }
  | .undoInc => some ({ c with pc := .put errNoMem }.add .lock (-1))
  | .take .wait mode =>
    if answer then some { c with pc := .test .wait mode, owes := true, held := some mode }
    else some { c with pc := .queued mode, owes := true }
  | .take .once mode =>
    if answer then some { c with pc := .test .once mode, held := some mode }
    else some { c with pc := .putRefused }
  | .queued mode =>
    if answer then some { c with pc := .test .wait mode, held := some mode }
    else some { c with pc := .put errNoLock }
  | .test .wait mode => some { c with pc := if stopping then .release .wait mode else .locked mode }
  | .test .once mode =>
    if stopping then some { c with pc := .release .once mode, foundStopping := true }
    else some { c with pc := .outLocked mode }
  | .release .wait _ => some { c with pc := .put cacheNotExist, held := none }
  | .release .once _ => some { c with pc := .out cacheNotExist, held := none }
  | .put error => some ({ c with pc := .failed error }.add .cache (-1))
  | .putRefused => some ({ c with pc := .out errNoLock }.add .cache (-1))
  | .out error => some ({ c with pc := .failed error }.add .lock (-1))
  | .outLocked mode => some ({ c with pc := .locked mode }.add .lock (-1))
  | .putUnlocked => some ({ c with pc := .unlocked }.add .cache (-1))
  | _ => none

/-- `env_refcnt_dec` at the end of `_ocf_mngt_cache_lock` -/
def Call.drop (c : Call) : Option Call :=
  if c.owes then some ({ c with owes := false }.add .lock (-1)) else none

/-- `unlock_fn` of `_ocf_mngt_cache_unlock`, called with the mode of the lock -/
def Call.unlock (c : Call) (mode : Mode) : Option Call :=
  if c.pc = .locked mode then some { c with pc := .putUnlocked, held := none } else none

/-- The cache with the calls and its other users. -/
structure State (ι : Type*) where
  /-- The counters. -/
  refcnt : Ref → EnvRefcnt
  /-- References of other users. -/
  others : Ref → Int
  /-- `ocf_cache_state_stopping` -/
  stopping : Bool
  /-- The calls. -/
  call : ι → Call

/-- A cache in any state, before the first call. -/
def initial {ι : Type*} (others : Ref → Int) (freeze : Ref → Nat) (stopping : Bool) : State ι :=
  ⟨fun r => ⟨others r, freeze r⟩, others, stopping, fun _ => .new⟩

/-- What happens to the cache. -/
inductive Act (ι : Type*)
  /-- A call begins. -/
  | start (t : ι) (entry : Pc)
  /-- Its next step, with an answer. -/
  | next (t : ι) (answer : Bool)
  /-- The end of `_ocf_mngt_cache_lock`. -/
  | drop (t : ι)
  /-- The caller unlocks. -/
  | unlock (t : ι) (mode : Mode)
  /-- Another user takes or drops references. -/
  | other (r : Ref) (n : Int)
  /-- `env_refcnt_freeze` and `env_refcnt_unfreeze` -/
  | freeze (r : Ref) (n : Nat)
  /-- A stop begins or fails. -/
  | stop (stopping : Bool)

variable {ι : Type*} [DecidableEq ι]

/-- A call changed, and with it the counters. -/
def State.set (s : State ι) (t : ι) (c : Call) : State ι :=
  { s with
    refcnt := fun r =>
      { s.refcnt r with counter := (s.refcnt r).counter + (c.refs r - (s.call t).refs r) }
    call := update s.call t c }

/-- Effect of a step. -/
def step (s : State ι) (act : Act ι) : Option (State ι) :=
  match act with
  | .start t entry => some (s.set t { s.call t with pc := entry })
  | .next t answer =>
    ((s.call t).next (fun r => (s.refcnt r).freeze == 0) s.stopping answer).map (s.set t)
  | .drop t => (s.call t).drop.map (s.set t)
  | .unlock t mode => ((s.call t).unlock mode).map (s.set t)
  | .other r n => some { s with
      refcnt := update s.refcnt r ⟨(s.refcnt r).counter + n, (s.refcnt r).freeze⟩
      others := update s.others r (s.others r + n) }
  | .freeze r n => some { s with
      refcnt := update s.refcnt r ⟨(s.refcnt r).counter, n⟩ }
  | .stop stopping => some { s with stopping := stopping }

/-- One of the four functions is called. -/
def guard (s : State ι) (act : Act ι) : Prop :=
  ∀ t entry, act = .start t entry → (s.call t).pc = .idle ∧
    entry ∈ [ocfMngtCacheLock, ocfMngtCacheReadLock, ocfMngtCacheTrylock, ocfMngtCacheReadTrylock]

/-- The cache under all its users. -/
def system : System (State ι) (Act ι) := ⟨guard, step⟩

/-- References that a call has at its next step. -/
def Pc.refs (pc : Pc) (r : Ref) : Int :=
  match pc, r with
  | .idle, _ | .get _ _, _ | .failed _, _ | .unlocked, _ => 0
  | .incLock _ _, .cache => 1
  | .incLock _ _, .lock => 0
  | .newWaiter _, _ | .undoInc, _ | .take _ _, _ => 1
  | .queued _, .cache | .put _, .cache | .locked _, .cache | .putUnlocked, .cache => 1
  | .queued _, .lock | .put _, .lock | .locked _, .lock | .putUnlocked, .lock => 0
  | .test _ _, .cache | .release _ _, .cache => 1
  | .test helper _, .lock | .release helper _, .lock => if helper = .once then 1 else 0
  | .putRefused, _ | .outLocked _, _ => 1
  | .out _, .cache => 0
  | .out _, .lock => 1

/-- How it holds the lock there. -/
def Pc.held (pc : Pc) : Option Mode :=
  match pc with
  | .test _ mode | .release _ mode | .outLocked mode | .locked mode => some mode
  | _ => none

/-- Steps behind `lock_fn` of `_ocf_mngt_cache_lock`. -/
def Pc.mayOwe (pc : Pc) : Bool :=
  match pc with
  | .queued _ | .test .wait _ | .release .wait _ | .put _ | .locked _ | .putUnlocked | .unlocked
  | .failed _ => true
  | _ => false

/-- Steps behind the stopping check of `_ocf_mngt_cache_trylock`. -/
def Pc.mayHaveFound (pc : Pc) : Bool :=
  match pc with
  | .release .once _ | .out _ | .failed _ => true
  | _ => false

/-- `unlock_fn` of `_ocf_mngt_cache_trylock`. -/
def Pc.mustHaveFound (pc : Pc) : Bool :=
  match pc with
  | .release .once _ => true
  | _ => false

/-- Reference that was not dropped. -/
def Call.leaked (c : Call) : Int :=
  if c.foundStopping && c.pc.held.isNone then 1 else 0

/-- What a call has at each step. -/
structure Call.Sound (c : Call) : Prop where
  /-- The lock. -/
  held : c.held = c.pc.held
  /-- References on the cache. -/
  cache : c.refs .cache = c.pc.refs .cache + c.leaked
  /-- References on the lock. -/
  lock : c.refs .lock = c.pc.refs .lock + if c.owes then 1 else 0
  /-- The last reference on the lock is dropped behind `lock_fn`. -/
  owes : c.owes = true → c.pc.mayOwe = true
  /-- A cache that was found stopping is not locked. -/
  found : c.foundStopping = true → c.pc.mayHaveFound = true
  /-- A trylock gives the lock back only then. -/
  stopped : c.pc.mustHaveFound = true → c.foundStopping = true

theorem Call.new_sound : Call.new.Sound := by
  constructor <;> simp [Call.new, Pc.held, Pc.refs, Call.leaked, Pc.mustHaveFound]

theorem Call.Sound.next {live : Ref → Bool} {stopping answer : Bool} {c c' : Call} (h : c.Sound)
    (hs : c.next live stopping answer = some c') : c'.Sound := by
  obtain ⟨pc, owes, refs, held, found⟩ := c
  obtain ⟨hheld, hcache, hlock, howes, hfound, hstopped⟩ := h
  cases pc
  case' incLock helper mode => cases helper
  case' take helper mode => cases helper
  case' test helper mode => cases helper
  case' release helper mode => cases helper
  all_goals
    simp only [Call.next, reduceCtorEq, Option.some.injEq] at hs
    try split at hs
  all_goals
    try simp only [Option.some.injEq] at hs
    try subst hs
    try split
  all_goals
    simp only [Pc.held, Pc.refs, Pc.mayOwe, Pc.mayHaveFound, Pc.mustHaveFound, Call.leaked,
      reduceCtorEq, if_true, if_false] at hheld hcache hlock howes hfound hstopped
    constructor <;> simp only [Call.add, Pc.held, Pc.refs, Call.leaked, Pc.mayOwe, Pc.mayHaveFound,
      Pc.mustHaveFound, update_self, ne_eq, reduceCtorEq, not_false_iff,
      update_of_ne, if_true, if_false]
  all_goals cases owes <;> cases found <;> simp_all

theorem Call.Sound.drop {c c' : Call} (h : c.Sound) (hs : c.drop = some c') : c'.Sound := by
  obtain ⟨howes, rfl⟩ := Option.ite_none_right_eq_some.mp hs |>.imp_right Option.some.inj
  have hlock := h.lock
  rw [if_pos howes] at hlock
  have hcache : ({ c with owes := false }.add .lock (-1)).refs .cache = c.refs .cache := by
    simp [Call.add]
  refine ⟨h.held, hcache.trans h.cache, ?_, fun h0 => absurd h0 (by simp [Call.add]), h.found, h.stopped⟩
  simp [Call.add, hlock]

theorem Call.Sound.unlock {mode : Mode} {c c' : Call} (h : c.Sound)
    (hs : c.unlock mode = some c') : c'.Sound := by
  obtain ⟨hpc, rfl⟩ := Option.ite_none_right_eq_some.mp hs |>.imp_right Option.some.inj
  have hfound : c.foundStopping = false := by
    have hf := h.found
    rw [hpc] at hf
    simpa [Pc.mayHaveFound] using hf
  have hcache := h.cache
  have hlock := h.lock
  rw [hpc] at hcache hlock
  exact ⟨rfl, by simpa [Pc.refs, Call.leaked, hfound] using hcache, hlock, fun _ => rfl,
    fun h0 => absurd h0 (by simp [hfound]), fun h0 => absurd h0 (by simp [Pc.mustHaveFound])⟩

theorem Call.Sound.start {entry : Pc} {c : Call} (h : c.Sound) (hpc : c.pc = .idle)
    (hentry : entry ∈ [ocfMngtCacheLock, ocfMngtCacheReadLock, ocfMngtCacheTrylock,
      ocfMngtCacheReadTrylock]) : Call.Sound { c with pc := entry } := by
  obtain ⟨helper, mode, rfl⟩ : ∃ helper mode, entry = .get helper mode := by
    simp only [List.mem_cons, List.not_mem_nil, or_false] at hentry
    rcases hentry with rfl | rfl | rfl | rfl <;> exact ⟨_, _, rfl⟩
  obtain ⟨hheld, hcache, hlock, howes, hfound, -⟩ := h
  constructor <;> simp_all [Pc.held, Pc.refs, Call.leaked, Pc.mayOwe, Pc.mayHaveFound,
      Pc.mustHaveFound]

variable [Fintype ι]

/-- Invariant of all runs. -/
structure Inv (s : State ι) : Prop where
  /-- The counters count the references. -/
  counter : ∀ r, (s.refcnt r).counter = s.others r + ∑ t, (s.call t).refs r
  /-- Each call has what its next step says. -/
  sound : ∀ t, (s.call t).Sound

theorem Inv.set {s : State ι} (h : Inv s) {t : ι} {c : Call} (hc : c.Sound) : Inv (s.set t c) where
  counter r := by
    have hsum := sum_update (fun c => Call.refs c r) s.call t c
    have hold := h.counter r
    simp only [State.set]
    omega
  sound u := by
    by_cases hu : u = t
    · subst hu
      simpa [State.set] using hc
    · simpa [State.set, update_of_ne hu] using h.sound u

/-- A step of any thread keeps the counters. -/
theorem step_inv {s s' : State ι} {act : Act ι} (h : Inv s) (hg : guard s act)
    (hs : step s act = some s') : Inv s' := by
  cases act with
  | start t entry =>
    obtain rfl := Option.some.inj hs
    obtain ⟨hpc, hentry⟩ := hg t entry rfl
    exact h.set ((h.sound t).start hpc hentry)
  | next t answer =>
    obtain ⟨c, hc, rfl⟩ := Option.map_eq_some_iff.mp hs
    exact h.set ((h.sound t).next hc)
  | drop t =>
    obtain ⟨c, hc, rfl⟩ := Option.map_eq_some_iff.mp hs
    exact h.set ((h.sound t).drop hc)
  | unlock t mode =>
    obtain ⟨c, hc, rfl⟩ := Option.map_eq_some_iff.mp hs
    exact h.set ((h.sound t).unlock hc)
  | other r n =>
    obtain rfl := Option.some.inj hs
    refine ⟨fun r' => ?_, h.sound⟩
    have hold := h.counter r'
    by_cases hr : r' = r
    · subst hr
      simp only [update_self]
      omega
    · simpa only [update_of_ne hr] using hold
  | freeze r n =>
    obtain rfl := Option.some.inj hs
    refine ⟨fun r' => ?_, h.sound⟩
    have hold := h.counter r'
    by_cases hr : r' = r
    · subst hr
      simpa only [update_self] using hold
    · simpa only [update_of_ne hr] using hold
  | stop stopping =>
    obtain rfl := Option.some.inj hs
    exact ⟨h.counter, h.sound⟩

/-- What a caller relies on when its call, or the unlock behind it, is over. -/
structure Call.Traceless (c : Call) : Prop where
  /-- On success it holds the lock and one reference on the cache. -/
  locked : ∀ mode, c.pc = .locked mode → c.held = some mode ∧ c.refs .cache = 1 ∧ c.refs .lock = 0
  /-- The unlock returns both. -/
  unlocked : c.pc = .unlocked → c.held = none ∧ ∀ r, c.refs r = 0
  /-- A failed call has nothing. -/
  failed : ∀ error, c.pc = .failed error → c.held = none ∧ ∀ r, c.refs r = 0

/-- A call is over. -/
def Call.Ended (c : Call) : Prop :=
  c.owes = false ∧ ((∃ mode, c.pc = .locked mode) ∨ c.pc = .unlocked ∨ ∃ error, c.pc = .failed error)

theorem Call.Sound.traceless_iff {c : Call} (h : c.Sound) (hend : c.Ended) :
    c.Traceless ↔ c.foundStopping = false := by
  obtain ⟨howes, hpc⟩ := hend
  obtain ⟨hheld, hcache, hlock, -, hfound, -⟩ := h
  constructor
  · intro ht
    refine Bool.eq_false_iff.mpr fun hf => ?_
    have hmay := hfound hf
    rcases hpc with ⟨mode, hpc⟩ | hpc | ⟨error, hpc⟩
    · simp [hpc, Pc.mayHaveFound] at hmay
    · simp [hpc, Pc.mayHaveFound] at hmay
    · have hzero := (ht.failed error hpc).2 .cache
      rw [hzero, Call.leaked, hpc] at hcache
      simp [Pc.refs, Pc.held, hf] at hcache
  · intro hf
    rw [Call.leaked, hf] at hcache
    have hrefs : ∀ r, c.refs r = c.pc.refs r := fun r => by cases r <;> simp_all
    constructor
    · intro mode hpc
      rw [hheld, hrefs, hrefs, hpc]
      exact ⟨rfl, rfl, rfl⟩
    · intro hpc
      refine ⟨by rw [hheld, hpc]; rfl, fun r => ?_⟩
      rw [hrefs, hpc, Pc.refs]
    · intro error hpc
      refine ⟨by rw [hheld, hpc]; rfl, fun r => ?_⟩
      rw [hrefs, hpc, Pc.refs]

/-- In every run the counters count the references, and a call that is over
left no trace unless it was a trylock that got the lock of a stopping cache. -/
theorem traceless_iff_not_found {others : Ref → Int} {freeze : Ref → Nat} {stopping : Bool}
    {s : State ι} (h : Reachable system (initial others freeze stopping) s) :
    (∀ r, (s.refcnt r).counter = s.others r + ∑ t, (s.call t).refs r) ∧
      ∀ t, (s.call t).Ended → ((s.call t).Traceless ↔ (s.call t).foundStopping = false) := by
  have hinv : Inv s := by
    refine h.invariant (fun _ => ⟨fun r => ?_, fun t => Call.new_sound⟩)
      fun s act s' hi _ hg hs _ => step_inv hi hg hs
    simp [initial, Call.new]
  exact ⟨hinv.counter, fun t hend => (hinv.sound t).traceless_iff hend⟩

/-- A cache that is stopping and has two references of others, with one call. -/
def stoppingCache : State (Fin 1) := initial (fun _ => 2) (fun _ => 0) true

theorem stopping_reachable : ∃ s, Reachable system stoppingCache s ∧ (s.call 0).Ended ∧
    (s.call 0).foundStopping = true ∧ (s.call 0).pc = .failed cacheNotExist ∧
    (s.call 0).refs .cache = 1 ∧ (s.refcnt .cache).counter = 3 := by
  have hstart : Reachable system stoppingCache stoppingCache := .refl trivial
  have hcalled := hstart.next (.start 0 ocfMngtCacheTrylock) (fun t entry heq => by
    injection heq with ht hentry
    subst ht hentry
    exact ⟨rfl, by decide⟩) rfl
  have hnext : ∀ {s s' : State (Fin 1)}, Reachable system stoppingCache s →
      step s (.next 0 true) = some s' → Reachable system stoppingCache s' :=
    fun h hs => h.next (.next 0 true) (fun t entry heq => by cases heq) hs
  have hgot := hnext hcalled rfl
  have hlock := hnext hgot rfl
  have htaken := hnext hlock rfl
  have hfound := hnext htaken rfl
  have hreleased := hnext hfound rfl
  have hfailed := hnext hreleased rfl
  exact ⟨_, hfailed, ⟨rfl, .inr (.inr ⟨_, rfl⟩)⟩, rfl, rfl, rfl, rfl⟩

/-- Its call is not traceless. -/
theorem stopping_not_traceless : ∃ s, Reachable system stoppingCache s ∧ (s.call 0).Ended ∧
    ¬(s.call 0).Traceless := by
  obtain ⟨s, hs, hend, hfound, -⟩ := stopping_reachable
  refine ⟨s, hs, hend, fun ht => ?_⟩
  have hiff := (traceless_iff_not_found hs).2 0 hend
  rw [hfound] at hiff
  exact absurd (hiff.mp ht) (by decide)

/-- A failed trylock keeps its reference on a cache that is stopping. -/
theorem trylock_keeps_reference : ¬∀ s, Reachable system stoppingCache s →
    (s.call 0).Ended → (s.call 0).Traceless := by
  intro h
  obtain ⟨s, hs, hend, -, hpc, hcache, -⟩ := stopping_reachable
  have hzero := ((h s hs hend).failed _ hpc).2 .cache
  omega

end OcfCache.CacheLock
