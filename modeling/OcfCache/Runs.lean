import Mathlib.Data.List.Basic

/-!
# Runs of partial transition functions

A system is a guard saying which actions may be taken and a step function
that returns `none` when the action aborts. Nothing here mentions a concrete
system: the module collects the run relation, the invariant rule and the
pointwise reasoning along all states that a run goes through.
-/

namespace OcfCache.Runs

variable {σ α : Type*}

/-- A labelled system with partial steps. -/
structure System (σ α : Type*) where
  /-- Callers' contract of an action in a state. -/
  guard : σ → α → Prop
  /-- Effect of the action; `none` is an abort. -/
  step : σ → α → Option σ

/-- A run whose visited states all satisfy a predicate, both ends included. -/
inductive RunIn (sys : System σ α) (ok : σ → Prop) (start : σ) : σ → Prop
  | refl : ok start → RunIn sys ok start start
  | snoc {act : α} {state next : σ} :
      RunIn sys ok start state → sys.guard state act →
      sys.step state act = some next → ok next → RunIn sys ok start next

/-- Reachability is a run through arbitrary states. -/
abbrev Reachable (sys : System σ α) (start : σ) : σ → Prop :=
  RunIn sys (fun _ => True) start

variable {sys : System σ α}

theorem RunIn.step {ok : σ → Prop} {start state next : σ}
    (h : RunIn sys ok start state) (act : α) (hg : sys.guard state act)
    (hs : sys.step state act = some next) (hok : ok next) : RunIn sys ok start next :=
  .snoc h hg hs hok

theorem Reachable.next {start state next : σ}
    (h : Reachable sys start state) (act : α) (hg : sys.guard state act)
    (hs : sys.step state act = some next) : Reachable sys start next :=
  .snoc h hg hs trivial

variable {start state : σ}

theorem RunIn.last {ok : σ → Prop} (h : RunIn sys ok start state) : ok state := by
  cases h with
  | refl h => exact h
  | snoc _ _ _ h => exact h

/-- A step that is taken only if a check of its contract succeeds. -/
def checkedStep (sys : System σ α) (ok : σ → α → Bool) (s : σ) (a : α) : Option σ :=
  if ok s a then sys.step s a else none

variable {ok : σ → α → Bool}

theorem RunIn.of_checked {good : σ → Prop} {acts : List α} (h0 : good start)
    (hg : ∀ s a s', good s → ok s a = true → sys.step s a = some s' → sys.guard s a ∧ good s')
    (h : acts.foldlM (checkedStep sys ok) start = some state) : RunIn sys good start state := by
  have hgen : ∀ (acts : List α) (s : σ), RunIn sys good start s →
      acts.foldlM (checkedStep sys ok) s = some state → RunIn sys good start state := by
    intro acts
    induction acts with
    | nil =>
      intro s hs h
      cases h
      exact hs
    | cons a acts ih =>
      intro s hs h
      obtain ⟨t, ht, h⟩ := Option.bind_eq_some_iff.mp h
      obtain ⟨hok, ht⟩ := Option.ite_none_right_eq_some.mp ht
      obtain ⟨hguard, hgood⟩ := hg s a t hs.last hok ht
      exact ih t (hs.snoc hguard ht hgood) h
  exact hgen acts start (.refl h0) h

theorem Reachable.of_checked {acts : List α} (hg : ∀ s a, ok s a = true → sys.guard s a)
    (h : acts.foldlM (checkedStep sys ok) start = some state) : Reachable sys start state :=
  RunIn.of_checked trivial (fun s a _ _ hok _ => ⟨hg s a hok, trivial⟩) h

theorem RunIn.mono {ok ok' : σ → Prop} (hok : ∀ s, ok s → ok' s) (h : RunIn sys ok start state) :
    RunIn sys ok' start state := by
  induction h with
  | refl h => exact .refl (hok _ h)
  | snoc _ hg hs hn ih => exact .snoc ih hg hs (hok _ hn)

theorem RunIn.invariant {sys : System σ α} {ok inv : σ → Prop} {start state : σ}
    (h : RunIn sys ok start state) (h0 : ok start → inv start)
    (hstep : ∀ s a s', inv s → ok s → sys.guard s a → sys.step s a = some s' →
      ok s' → inv s') : inv state := by
  induction h with
  | refl hs => exact h0 hs
  | snoc hrun hg hs hn ih => exact hstep _ _ _ ih hrun.last hg hs hn

theorem RunIn.iff_of_prefix {p q : σ → Prop} {start : σ}
    (h : ∀ s, RunIn sys p start s → q s) (h' : ∀ s, q s → p s) (state : σ) :
    RunIn sys p start state ↔ RunIn sys q start state := by
  constructor
  · intro hp
    induction hp with
    | refl hs => exact .refl (h _ (.refl hs))
    | snoc hrun hg hs hn ih => exact .snoc ih hg hs (h _ (.snoc hrun hg hs hn))
  · exact RunIn.mono h'

end OcfCache.Runs
