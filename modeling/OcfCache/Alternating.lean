import Mathlib.Algebra.GroupWithZero.Nat
import Mathlib.Data.Nat.Log

/-!
# Alternating iteration

Iterating a decreasing function goes up and down. Each upper value is at most
the one before, each lower value at least the one before, so that the gap between
them never grows. Where the function changes slowly a large gap is halved, which
bounds the number of gaps that become smaller one after the other.
-/

namespace OcfCache.Alternating

variable {f : Nat → Nat} {top : Nat}

/-- A function that decreases up to a bound, with values up to the bound. -/
structure Decreasing (f : Nat → Nat) (top : Nat) : Prop where
  /-- Values are bounded. -/
  le_top : ∀ a ≤ top, f a ≤ top
  /-- It decreases. -/
  anti : ∀ a b, a ≤ b → b ≤ top → f b ≤ f a

/-- An upper value of the iteration, with a bound of the gap to the next value. -/
structure Upper (f : Nat → Nat) (top u gap : Nat) : Prop where
  /-- The value is in range. -/
  le_top : u ≤ top
  /-- The next value is not above. -/
  next_le : f u ≤ u
  /-- The gap is bounded. -/
  gap_le : u - f u ≤ gap
  /-- The value after the next one is not above. -/
  back_le : f (f u) ≤ u

theorem upper_top (hf : Decreasing f top) : Upper f top top top where
  le_top := le_rfl
  next_le := hf.le_top top le_rfl
  gap_le := Nat.sub_le _ _
  back_le := hf.le_top _ (hf.le_top top le_rfl)

theorem Upper.lower (hf : Decreasing f top) {u gap : Nat} (h : Upper f top u gap) :
    f u ≤ f (f u) ∧ f (f u) - f u ≤ gap := by
  have hle := hf.anti (f u) u h.next_le h.le_top
  have hgap := h.gap_le
  have hback := h.back_le
  omega

theorem Upper.next (hf : Decreasing f top) {u gap : Nat} (h : Upper f top u gap) :
    Upper f top (f (f u)) (f (f u) - f u) := by
  have hlow := (h.lower hf).1
  have hback := h.back_le
  have htop := h.le_top
  have hlower : f u ≤ f (f (f u)) := hf.anti (f (f u)) u h.back_le h.le_top
  have hupper : f (f (f u)) ≤ f (f u) := hf.anti (f u) (f (f u)) hlow (by omega)
  refine ⟨by omega, hupper, by omega, ?_⟩
  exact hf.anti (f u) (f (f (f u))) hlower (by omega)

/-- Bound of the number of gaps from a given one on: small gaps become smaller,
large ones are halved. -/
def rounds (small gap : Nat) : Nat := if gap ≤ small then gap else small + Nat.log 2 gap

theorem rounds_lt {small gap gap' : Nat} (hpos : 0 < small) (hless : gap' < gap)
    (hhalf : small < gap → gap' ≤ gap / 2) : rounds small gap' < rounds small gap := by
  unfold rounds
  by_cases hgap : gap ≤ small
  · rw [if_pos hgap, if_pos (by omega)]
    exact hless
  · have hle := hhalf (by omega)
    have hlog : Nat.log 2 (gap / 2) = Nat.log 2 gap - 1 := Nat.log_div_base 2 gap
    have hone : 0 < Nat.log 2 gap := Nat.log_pos (by decide) (by omega)
    split
    · omega
    · have hmono : Nat.log 2 gap' ≤ Nat.log 2 (gap / 2) := Nat.log_mono_right hle
      omega

theorem rounds_le {small gap n : Nat} (hgap : gap < 2 ^ n) : rounds small gap ≤ small + n := by
  unfold rounds
  split
  · omega
  · have hlog : Nat.log 2 gap < n := Nat.log_lt_of_lt_pow (by omega) hgap
    omega

end OcfCache.Alternating
