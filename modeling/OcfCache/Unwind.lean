import Mathlib.Data.Set.Insert
import Mathlib.Tactic.Common

/-!
# Setting up and tearing down resources

Resources that are set up one by one, each by a call that may fail, and torn
down again on the way out. A world knows which resources are live, and whether a
live one was set up again or one that is not live was used or torn down. Loops
over arrays of resources come with the sets of resources they add and remove.
-/

namespace OcfCache.Unwind

open Function

/-- Live resources, and whether they have been misused. -/
structure World (ρ : Type*) where
  /-- The resource is set up. -/
  live : ρ → Bool
  /-- A live resource was set up, or another one used or torn down. -/
  misused : Bool

variable {ρ : Type*}

/-- Nothing is set up. -/
def World.empty : World ρ := ⟨fun _ => false, false⟩

/-- Exactly the resources of a set are live, and nothing was misused. -/
structure World.Holds (w : World ρ) (S : Set ρ) : Prop where
  /-- Nothing was misused. -/
  proper : w.misused = false
  /-- The live resources. -/
  live_iff : ∀ r, w.live r = true ↔ r ∈ S

/-- A procedure that sets up resources ends without error and with all of them,
or with an error and none. -/
def Exact (all : Set ρ) (result : Int) (w : World ρ) : Prop :=
  result = 0 ∧ w.Holds all ∨ result ≠ 0 ∧ w.Holds ∅

/-- The first elements of an array of resources. -/
def firsts (f : Nat → ρ) (n : Nat) : Set ρ := {r | ∃ i < n, f i = r}

section Sets

variable {w : World ρ} {S T : Set ρ}

theorem World.holds_empty : (World.empty : World ρ).Holds ∅ := ⟨rfl, fun _ => by simp [World.empty]⟩

theorem World.Holds.unique (hS : w.Holds S) (hT : w.Holds T) : S = T := by
  ext r
  rw [← hS.live_iff, ← hT.live_iff]

theorem World.Holds.congr (h : w.Holds S) (hST : S = T) : w.Holds T := hST ▸ h

theorem World.not_holds_of_misused (h : w.misused = true) : ¬w.Holds S := by
  intro hS
  have hproper := hS.proper
  rw [h] at hproper
  exact absurd hproper nofun

theorem firsts_succ (f : Nat → ρ) (n : Nat) : firsts f (n + 1) = insert (f n) (firsts f n) := by
  ext r
  constructor
  · rintro ⟨i, hi, rfl⟩
    by_cases hlast : i = n
    · exact .inl (congrArg f hlast)
    · exact .inr ⟨i, by omega, rfl⟩
  · rintro (rfl | ⟨i, hi, rfl⟩)
    · exact ⟨n, Nat.lt_succ_self n, rfl⟩
    · exact ⟨i, Nat.lt_succ_of_lt hi, rfl⟩

theorem Exact.holds_empty {all : Set ρ} {result : Int} (h : Exact all result w) (herr : result ≠ 0) :
    w.Holds ∅ := by
  cases h with
  | inl h => exact absurd h.1 herr
  | inr h => exact h.2

theorem not_exact_of_misused {all : Set ρ} {result : Int} (h : w.misused = true) :
    ¬Exact all result w := by
  rintro (⟨-, hall⟩ | ⟨-, hnone⟩)
  · exact World.not_holds_of_misused h hall
  · exact World.not_holds_of_misused h hnone

end Sets

variable [DecidableEq ρ]

/-- A resource is set up. -/
def World.init (w : World ρ) (r : ρ) : World ρ :=
  ⟨update w.live r true, w.misused || w.live r⟩

/-- A resource is torn down. -/
def World.destroy (w : World ρ) (r : ρ) : World ρ :=
  ⟨update w.live r false, w.misused || !w.live r⟩

/-- A resource is used. -/
def World.touch (w : World ρ) (r : ρ) : World ρ := ⟨w.live, w.misused || !w.live r⟩

/-- How a loop over an array of resources ends. -/
structure LoopExit (ρ : Type*) where
  /-- The loop counter. -/
  iter : Nat
  /-- The error of the last call, zero if all calls succeed. -/
  err : Int
  /-- The resources. -/
  world : World ρ

/-- Set up `f i`, `f (i + 1)` and so on, `n` of them, up to the first error. -/
def initLoop (call : Nat → Int) (f : Nat → ρ) : Nat → Nat → World ρ → LoopExit ρ
  | 0, i, w => ⟨i, 0, w⟩
  | n + 1, i, w =>
    if call i ≠ 0 then ⟨i, call i, w⟩ else initLoop call f n (i + 1) (w.init (f i))

/-- Tear down `f (n - 1)`, `f (n - 2)` and so on down to `f 0`. -/
def destroyDown (f : Nat → ρ) : Nat → World ρ → World ρ
  | 0, w => w
  | n + 1, w => destroyDown f n (w.destroy (f n))

namespace World

variable {w : World ρ} {S : Set ρ} {r : ρ}

theorem Holds.init (h : w.Holds S) (hr : r ∉ S) : (w.init r).Holds (insert r S) := by
  have hdead : w.live r = false := by
    rw [← Bool.not_eq_true, h.live_iff]
    exact hr
  refine ⟨by simp [World.init, h.proper, hdead], fun x => ?_⟩
  by_cases hx : x = r
  · simp [World.init, hx]
  · simp [World.init, hx, h.live_iff]

theorem Holds.destroy (h : w.Holds S) (hr : r ∈ S) : (w.destroy r).Holds (S \ {r}) := by
  have hlive : w.live r = true := (h.live_iff r).mpr hr
  refine ⟨by simp [World.destroy, h.proper, hlive], fun x => ?_⟩
  by_cases hx : x = r
  · simp [World.destroy, hx]
  · simp [World.destroy, hx, h.live_iff]

omit [DecidableEq ρ] in
theorem Holds.touch (h : w.Holds S) (hr : r ∈ S) : (w.touch r).Holds S :=
  ⟨by simp [World.touch, h.proper, (h.live_iff r).mpr hr], h.live_iff⟩

omit [DecidableEq ρ] in
theorem misused_touch (hr : w.live r = false) : (w.touch r).misused = true := by
  simp [World.touch, hr]

omit [DecidableEq ρ] in
theorem misused_touch_mono (h : w.misused = true) : (w.touch r).misused = true := by
  simp [World.touch, h]

theorem misused_destroy (hr : w.live r = false) : (w.destroy r).misused = true := by
  simp [World.destroy, hr]

theorem misused_destroy_mono (h : w.misused = true) : (w.destroy r).misused = true := by
  simp [World.destroy, h]

end World

section Loops

variable {call : Nat → Int} {f : Nat → ρ} {w : World ρ} {S : Set ρ}

section

variable (hinj : Injective f)
include hinj

theorem initLoop_from (hnew : ∀ i, f i ∉ S) (n i : Nat)
    (h : w.Holds (S ∪ firsts f i)) (hbefore : ∀ j < i, call j = 0) :
    let e := initLoop call f n i w
    e.world.Holds (S ∪ firsts f e.iter) ∧ (∀ j < e.iter, call j = 0) ∧
      (e.err = 0 ∧ e.iter = i + n ∨
        e.err ≠ 0 ∧ i ≤ e.iter ∧ e.iter < i + n ∧ e.err = call e.iter) := by
  induction n generalizing i w with
  | zero => exact ⟨h, hbefore, .inl ⟨rfl, rfl⟩⟩
  | succ n ih =>
    by_cases hcall : call i = 0
    · have hfresh : f i ∉ S ∪ firsts f i := by
        rintro (hS | ⟨j, hj, heq⟩)
        · exact hnew i hS
        · have hij := hinj heq
          omega
      have hworld : (w.init (f i)).Holds (S ∪ firsts f (i + 1)) := by
        refine (h.init hfresh).congr ?_
        rw [firsts_succ, Set.union_insert]
      have hbefore' : ∀ j < i + 1, call j = 0 := by
        intro j hj
        by_cases hlast : j = i
        · rw [hlast, hcall]
        · exact hbefore j (by omega)
      have hrest := ih (i + 1) hworld hbefore'
      have hloop : initLoop call f (n + 1) i w = initLoop call f n (i + 1) (w.init (f i)) := by
        rw [initLoop, if_neg (not_not.mpr hcall)]
      rw [hloop]
      refine ⟨hrest.1, hrest.2.1, ?_⟩
      have hend := hrest.2.2
      omega
    · have hloop : initLoop call f (n + 1) i w = ⟨i, call i, w⟩ := by
        rw [initLoop, if_pos hcall]
      rw [hloop]
      exact ⟨h, hbefore, .inr ⟨hcall, Nat.le_refl i, Nat.lt_add_of_pos_right (Nat.succ_pos n), rfl⟩⟩

theorem initLoop_spec (hnew : ∀ i, f i ∉ S) (n : Nat) (h : w.Holds S) :
    let e := initLoop call f n 0 w
    e.world.Holds (S ∪ firsts f e.iter) ∧ (∀ j < e.iter, call j = 0) ∧
      (e.err = 0 ∧ e.iter = n ∨ e.err ≠ 0 ∧ e.iter < n ∧ e.err = call e.iter) := by
  have hstart : w.Holds (S ∪ firsts f 0) := by
    refine h.congr ?_
    ext r
    simp [firsts]
  have hbefore : ∀ j < 0, call j = 0 := fun j hj => absurd hj (Nat.not_lt_zero j)
  have hend := initLoop_from hinj hnew n 0 hstart hbefore
  refine ⟨hend.1, hend.2.1, ?_⟩
  have hlast := hend.2.2
  omega

theorem initLoop_all (hnew : ∀ i, f i ∉ S) {n : Nat} (h : w.Holds S) (hcall : ∀ i < n, call i = 0) :
    let e := initLoop call f n 0 w
    e.world.Holds (S ∪ firsts f n) ∧ e.err = 0 ∧ e.iter = n := by
  intro e
  have hend : e.world.Holds (S ∪ firsts f e.iter) ∧ (∀ j < e.iter, call j = 0) ∧
      (e.err = 0 ∧ e.iter = n ∨ e.err ≠ 0 ∧ e.iter < n ∧ e.err = call e.iter) :=
    initLoop_spec hinj hnew n h
  obtain ⟨hworld, -, ⟨herr, hiter⟩ | ⟨herr, hiter, hlast⟩⟩ := hend
  · rw [hiter] at hworld
    exact ⟨hworld, herr, hiter⟩
  · exact absurd (hlast.trans (hcall _ hiter)) herr

theorem destroyDown_spec (n : Nat) (h : w.Holds S)
    (hlive : ∀ i < n, f i ∈ S) : (destroyDown f n w).Holds (S \ firsts f n) := by
  induction n generalizing w S with
  | zero =>
    refine h.congr ?_
    ext r
    simp [firsts]
  | succ n ih =>
    have hlast := h.destroy (hlive n (Nat.lt_succ_self n))
    have hrest := ih hlast fun i hi => ⟨hlive i (Nat.lt_succ_of_lt hi), fun heq => by
      have hin := hinj (Set.mem_singleton_iff.mp heq)
      omega⟩
    refine hrest.congr ?_
    rw [firsts_succ]
    ext r
    simp [and_assoc]

end

theorem misused_destroyDown_mono (n : Nat) (h : w.misused = true) :
    (destroyDown f n w).misused = true := by
  induction n generalizing w with
  | zero => exact h
  | succ n ih => exact ih (World.misused_destroy_mono h)

theorem misused_destroyDown {n : Nat} (h : w.live (f n) = false) :
    (destroyDown f (n + 1) w).misused = true :=
  misused_destroyDown_mono n (World.misused_destroy h)

end Loops

end OcfCache.Unwind
