import Mathlib.Tactic.Common

/-!
# Loops with a bound

A loop whose rounds are bounded has no result if the bound is too small. It
returns a value if it does so for every bound that is large enough. What is
composed of loops that return, returns.
-/

namespace OcfCache.FuelLoops

variable {α β : Type*}

/-- The value for every bound that is large enough. -/
def Returns (f : Nat → Option α) (a : α) : Prop := ∃ bound, ∀ n, bound ≤ n → f n = some a

theorem Returns.const (a : α) : Returns (fun _ => some a) a :=
  ⟨0, fun _ _ => rfl⟩

variable {f : Nat → Option α}

theorem Returns.unique {a b : α} (ha : Returns f a) (hb : Returns f b) : a = b := by
  obtain ⟨m, hm⟩ := ha
  obtain ⟨n, hn⟩ := hb
  have hma := hm (max m n) (Nat.le_max_left m n)
  have hnb := hn (max m n) (Nat.le_max_right m n)
  exact Option.some.inj (hma.symm.trans hnb)

variable {f g : Nat → Option α} {a : α}

theorem Returns.congr (h : Returns f a) (hfg : ∀ n, f n = some a → g n = some a) : Returns g a := by
  obtain ⟨bound, hbound⟩ := h
  exact ⟨bound, fun n hn => hfg n (hbound n hn)⟩

theorem Returns.succ (h : Returns f a)
    (hg : ∀ n, f n = some a → g (n + 1) = some a) : Returns g a := by
  obtain ⟨bound, hbound⟩ := h
  refine ⟨bound + 1, fun n hn => ?_⟩
  obtain ⟨m, rfl⟩ : ∃ m, n = m + 1 := ⟨n - 1, by omega⟩
  exact hg m (hbound m (by omega))

/-- A bound that is enough for a result may grow. -/
theorem Returns.of_succ (hf : ∀ n a, f n = some a → f (n + 1) = some a) {n : Nat} (h : f n = some a) :
    Returns f a := by
  refine ⟨n, fun m hm => ?_⟩
  induction hm with
  | refl => exact h
  | step _ ih => exact hf _ a ih

theorem Returns.last {g : Nat → Option α} (h : ∀ n, g (n + 1) = some a) : Returns g a :=
  (Returns.const a).succ fun n _ => h n

theorem Returns.bind {g : α → Nat → Option β} {b : β} (hf : Returns f a)
    (hg : Returns (g a) b) : Returns (fun n => (f n).bind fun a => g a n) b := by
  obtain ⟨m, hm⟩ := hf
  obtain ⟨k, hk⟩ := hg
  refine ⟨max m k, fun n hn => ?_⟩
  have hmn := hm n (by omega)
  have hkn := hk n (by omega)
  simp only [hmn, hkn, Option.bind_some]

theorem Returns.map (hf : Returns f a) (g : α → β) : Returns (fun n => (f n).map g) (g a) := by
  obtain ⟨m, hm⟩ := hf
  refine ⟨m, fun n hn => ?_⟩
  simp only [hm n hn, Option.map_some]

/-- A loop with a bound whose rounds contain loops with another bound: the value
for all bounds that are large enough. -/
def Returns₂ (f : Nat → Nat → Option α) (a : α) : Prop :=
  ∃ bound, ∀ m n, bound ≤ m → bound ≤ n → f m n = some a

variable {f : Nat → Nat → Option α}

theorem Returns₂.returns (h : Returns₂ f a) : Returns (fun n => f n n) a := by
  obtain ⟨bound, hbound⟩ := h
  exact ⟨bound, fun n hn => hbound n n hn hn⟩

theorem Returns₂.map (hf : Returns₂ f a) (g : α → β) :
    Returns₂ (fun m n => (f m n).map g) (g a) := by
  obtain ⟨k, hk⟩ := hf
  refine ⟨k, fun m n hm hn => ?_⟩
  simp only [hk m n hm hn, Option.map_some]

variable {h : Nat → Option β}

theorem Returns₂.succ {f g : Nat → Nat → Option α} {b : β} (hf : Returns₂ f a) (hh : Returns h b)
    (hg : ∀ m n, h m = some b → f m n = some a → g m (n + 1) = some a) : Returns₂ g a := by
  obtain ⟨k, hk⟩ := hf
  obtain ⟨l, hl⟩ := hh
  refine ⟨max k l + 1, fun m n hm hn => ?_⟩
  obtain ⟨n, rfl⟩ : ∃ n', n = n' + 1 := ⟨n - 1, by omega⟩
  exact hg m n (hl m (by omega)) (hk m n (by omega) (by omega))

theorem Returns₂.last {g : Nat → Nat → Option α} {b : β}
    (hh : Returns h b) (hg : ∀ m n, h m = some b → g m (n + 1) = some a) : Returns₂ g a := by
  have hconst : Returns₂ (fun _ _ => some a) a := ⟨0, fun _ _ _ _ => rfl⟩
  exact hconst.succ hh fun m n hm _ => hg m n hm

end OcfCache.FuelLoops
