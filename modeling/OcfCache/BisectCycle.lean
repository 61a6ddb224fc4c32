import Mathlib.Data.Nat.Nth
import Mathlib.Data.Nat.Periodic
import OcfCache.FuelLoops
import OcfCache.PopulateShards

/-!
# The bisecting generator as a cycle

The calls of the generator from any offset. A position of the generator counts
on without a bound and stands for its remainder, the positions with a value
below the limit recur with the length of the map. A call goes on to the next of
them. The module shows that every call returns, that the values of the first
`limit` calls are the numbers below the limit and that the values repeat from
there on.
-/

namespace OcfCache.BisectCycle

open Bisect PopulateShards FuelLoops

/-- Loop of `ocf_generator_bisect_next`, the value and the new `curr`. The first
argument bounds its rounds. -/
def callLoop (limit clz : Nat) : Nat → Nat → Option (Nat × Nat)
  | 0, _ => none
  | fuel + 1, curr =>
    let value := (bitreverse32 (BitVec.ofNat 32 curr) >>> clz).toNat
    let next := (curr + 1) % 2 ^ (32 - clz)
    if limit ≤ value then callLoop limit clz fuel next else some (value, next)

/-- `ocf_generator_bisect_next` with its leading zeros and its loop. -/
def bisectCall (generator : Generator) (fuel : Nat) : Option (Nat × Generator) :=
  (builtinClz (generator.limit - 1)).bind fun clz =>
    (callLoop generator.limit clz fuel generator.curr).map fun next =>
      (next.1, { generator with curr := next.2 })

section Recurring

variable {p q : Nat → Prop} [DecidablePred p] [DecidablePred q] {len : Nat}

theorem count_congr_below {n : Nat} (h : ∀ k < n, p k ↔ q k) : n.count p = n.count q :=
  Nat.le_antisymm (Nat.count_mono_left fun k hk => (h k hk).mp)
    (Nat.count_mono_left fun k hk => (h k hk).mpr)

theorem count_add_period (hp : ∀ n, p (n + len) ↔ p n) (n : Nat) :
    Nat.count p (n + len) = n.count p + len.count p := by
  rw [Nat.count_add']
  simp only [hp]

theorem count_from_period (hp : ∀ n, p (n + len) ↔ p n) (n : Nat) :
    Nat.count (fun k => p (n + k)) len = len.count p := by
  have hadd := count_add_period hp n
  rw [Nat.count_add] at hadd
  exact Nat.add_left_cancel hadd

theorem nth_add_period (hp : ∀ n, p (n + len) ↔ p n) (hinf : {n | p n}.Infinite) (m : Nat) :
    Nat.nth p (m + len.count p) = Nat.nth p m + len := by
  have hmem : p (Nat.nth p m + len) := (hp _).mpr (Nat.nth_mem_of_infinite hinf m)
  have hcount : Nat.count p (Nat.nth p m + len) = m + len.count p := by
    rw [count_add_period hp, Nat.count_nth_of_infinite hinf]
  rw [← hcount]
  exact Nat.nth_count hmem

end Recurring

section Cycle

variable {limit : Nat}

/-- A position whose value is below the limit. -/
def Hit (limit q : Nat) : Prop := value limit (q % maplen limit) < limit

instance : DecidablePred (Hit limit) := fun _ => Nat.decLt _ _

theorem hit_add_maplen (q : Nat) : Hit limit (q + maplen limit) ↔ Hit limit q := by
  rw [Hit, Hit, Nat.add_mod_right]

theorem maplen_pos : 0 < maplen limit :=
  Nat.pow_pos (Nat.succ_pos 1)

theorem infinite_hit (hpos : 0 < limit) : {q | Hit limit q}.Infinite := by
  refine Set.infinite_of_forall_exists_gt fun n => ⟨(n + 1) * maplen limit, ?_, ?_⟩
  · have hzero : value limit 0 = 0 := by simp [value, bitreverse32]
    change value limit ((n + 1) * maplen limit % maplen limit) < limit
    rw [Nat.mul_mod_left, hzero]
    exact hpos
  · have hle : (n + 1) * 1 ≤ (n + 1) * maplen limit := Nat.mul_le_mul_left _ maplen_pos
    omega

theorem count_hit (hlimit : limit ≤ 2 ^ 32) : Nat.count (Hit limit) (maplen limit) = limit := by
  have hlen := (rest_zero_perm hlimit).length_eq
  rw [List.length_range, rest, List.filter_map, List.length_map, Nat.sub_zero,
    ← List.range_eq_range'] at hlen
  rw [Nat.count_eq_card_filter_range]
  refine Eq.trans ?_ hlen
  refine congrArg List.length (List.filter_congr fun q hq => ?_)
  have hmod : q % maplen limit = q := Nat.mod_eq_of_lt (List.mem_range.mp hq)
  simp only [Hit, hmod, Function.comp_apply]

/-- The position of the call number `n` from the position `q`. -/
noncomputable def hitFrom (limit q n : Nat) : Nat := Nat.nth (Hit limit) (q.count (Hit limit) + n)

theorem hit_hitFrom (hpos : 0 < limit) (q n : Nat) : Hit limit (hitFrom limit q n) :=
  Nat.nth_mem_of_infinite (infinite_hit hpos) _

theorem hitFrom_succ (hpos : 0 < limit) (q n : Nat) :
    hitFrom limit (hitFrom limit q n + 1) 0 = hitFrom limit q (n + 1) := by
  have hcount := Nat.count_nth_succ_of_infinite (infinite_hit hpos) (q.count (Hit limit) + n)
  rw [hitFrom, hitFrom, hcount]
  rfl

/-- Where the call number `n` starts. -/
noncomputable def callStart (limit q : Nat) : Nat → Nat
  | 0 => q
  | n + 1 => hitFrom limit q n + 1

theorem hitFrom_callStart (hpos : 0 < limit) (q n : Nat) :
    hitFrom limit (callStart limit q n) 0 = hitFrom limit q n := by
  cases n with
  | zero => rfl
  | succ n => exact hitFrom_succ hpos q n

/-- The value of the call number `n` from the position `q`. -/
noncomputable def callValue (limit q n : Nat) : Nat := value limit (hitFrom limit q n % maplen limit)

theorem hitFrom_add_limit (hpos : 0 < limit) (hlimit : limit ≤ 2 ^ 32) (q n : Nat) :
    hitFrom limit q (n + limit) = hitFrom limit q n + maplen limit := by
  have hnth := nth_add_period (@hit_add_maplen limit) (infinite_hit hpos)
    (q.count (Hit limit) + n)
  rw [count_hit hlimit] at hnth
  rw [hitFrom, ← Nat.add_assoc, hnth]
  rfl

theorem callLoop_eq {clz : Nat} (hpos : 0 < limit) (hclz : 32 - clz = bitLength (limit - 1))
    (hle : clz ≤ 32) (fuel q : Nat) (hfuel : hitFrom limit q 0 < q + fuel) :
    callLoop limit clz fuel (q % maplen limit) =
      some (value limit (hitFrom limit q 0 % maplen limit),
        (hitFrom limit q 0 + 1) % maplen limit) := by
  have hfrom : ∀ q, q ≤ hitFrom limit q 0 := fun q => Nat.le_nth_count (infinite_hit hpos) q
  induction fuel generalizing q with
  | zero => exact absurd hfuel (Nat.not_lt.mpr (hfrom q))
  | succ fuel ih =>
    have hback : 32 - bitLength (limit - 1) = clz := by omega
    have hnext : (q % maplen limit + 1) % 2 ^ (32 - clz) = (q + 1) % maplen limit := by
      rw [hclz]
      exact Nat.mod_add_mod q (maplen limit) 1
    have hvalue : (bitreverse32 (BitVec.ofNat 32 (q % maplen limit)) >>> clz).toNat =
        value limit (q % maplen limit) := by
      rw [value, hback]
    simp only [callLoop, hvalue, hnext]
    by_cases hq : Hit limit q
    · have hsame : hitFrom limit q 0 = q := Nat.nth_count hq
      rw [if_neg (Nat.not_le.mpr hq), hsame]
    · have hsame : hitFrom limit (q + 1) 0 = hitFrom limit q 0 := by
        rw [hitFrom, hitFrom, Nat.count_succ_eq_count_iff.mpr hq]
      rw [if_pos (Nat.not_lt.mp hq), ← hsame]
      exact ih (q + 1) (by omega)

theorem callValue_ne (hpos : 0 < limit) (hlimit : limit ≤ 2 ^ 32) {q a b : Nat}
    (hab : a < b) (hb : b < limit) : callValue limit q a ≠ callValue limit q b := by
  intro h
  have hk : bitLength (limit - 1) ≤ 32 := bitLength_le (by omega)
  have hmono : StrictMono (hitFrom limit q) := fun m n hmn =>
    Nat.nth_strictMono (infinite_hit hpos) (Nat.add_lt_add_left hmn _)
  have hmod := value_inj hk (Nat.mod_lt _ maplen_pos) (Nat.mod_lt _ maplen_pos) h
  have hlt : hitFrom limit q a < hitFrom limit q b := hmono hab
  have hwindow : hitFrom limit q b < hitFrom limit q a + maplen limit := by
    rw [← hitFrom_add_limit hpos hlimit]
    exact hmono (by omega)
  have hdvd : maplen limit ∣ hitFrom limit q b - hitFrom limit q a :=
    (Nat.modEq_iff_dvd' hlt.le).mp hmod
  have hge := Nat.le_of_dvd (by omega) hdvd
  omega

theorem callValue_perm (hpos : 0 < limit) (hlimit : limit ≤ 2 ^ 32) (q : Nat) :
    ((List.range limit).map (callValue limit q)).Perm (List.range limit) := by
  have hnodup : ((List.range limit).map (callValue limit q)).Nodup := by
    refine List.nodup_range.map_on fun a ha b hb h => ?_
    rw [List.mem_range] at ha hb
    by_contra hab
    rcases Nat.lt_or_gt_of_ne hab with hlt | hlt
    · exact callValue_ne hpos hlimit hlt hb h
    · exact callValue_ne hpos hlimit hlt ha h.symm
  refine (List.subperm_of_subset hnodup fun x hx => ?_).perm_of_length_le (by simp)
  obtain ⟨n, -, rfl⟩ := List.mem_map.mp hx
  exact List.mem_range.mpr (hit_hitFrom hpos q n)

/-- From every offset all calls return, the first `limit` values are the numbers
below the limit in some order, and the values repeat with this period. -/
theorem bisect_cycle {offset : Nat} (htwo : 2 ≤ limit) (hmax : limit ≤ 2 ^ 31)
    (hoffset : offset < limit) : ∃ (generator : Nat → Generator) (v : Nat → Nat),
      ocfGeneratorBisectInit limit offset = some (generator 0) ∧
      (∀ n, Returns (bisectCall (generator n)) (v n, generator (n + 1))) ∧
      ((List.range limit).map v).Perm (List.range limit) ∧ ∀ n, v (n + limit) = v n := by
  have hpos : 0 < limit := by omega
  have hlimit : limit ≤ 2 ^ 32 := by omega
  have hclz : builtinClz (limit - 1) = some (31 - Nat.log2 (limit - 1)) := if_neg (by omega)
  have hlen := builtinClz_bitLength hclz (by omega)
  have hmap : maplen limit ≤ 2 ^ 32 :=
    Nat.pow_le_pow_right (Nat.succ_pos 1) (bitLength_le (by omega))
  obtain ⟨q, hq⟩ : ∃ q, offset * maplen limit / limit = q := ⟨_, rfl⟩
  have hqlt : q < maplen limit := by
    rw [← hq, Nat.div_lt_iff_lt_mul hpos, Nat.mul_comm]
    exact Nat.mul_lt_mul_of_pos_left hoffset maplen_pos
  have hstart : offset * 2 ^ (32 - (31 - Nat.log2 (limit - 1))) / limit % 2 ^ 32 =
      q % maplen limit := by
    rw [hlen, ← maplen, hq, Nat.mod_eq_of_lt hqlt, Nat.mod_eq_of_lt (hqlt.trans_le hmap)]
  refine ⟨fun n => ⟨callStart limit q n % maplen limit, limit⟩, callValue limit q, ?_, fun n => ?_,
    callValue_perm hpos hlimit q, fun n => ?_⟩
  · simp only [ocfGeneratorBisectInit, hclz, Option.map_some, hstart]
    rfl
  · refine ⟨hitFrom limit q n + 1, fun fuel hfuel => ?_⟩
    have hfrom := hitFrom_callStart hpos q n
    have hcall := callLoop_eq hpos hlen (by omega) fuel (callStart limit q n) (by omega)
    rw [hfrom] at hcall
    simp only [bisectCall, hclz, Option.bind_some, hcall, Option.map_some]
    rfl
  · rw [callValue, hitFrom_add_limit hpos hlimit, Nat.add_mod_right, callValue]

/-- The generator of six values from the offset three. -/
theorem bisect_cycle_six : 2 ≤ 6 ∧ 6 ≤ 2 ^ 31 ∧ 3 < 6 ∧
    ∃ (generator : Nat → Generator) (v : Nat → Nat),
      ocfGeneratorBisectInit 6 3 = some (generator 0) ∧
      (∀ n, Returns (bisectCall (generator n)) (v n, generator (n + 1))) ∧
      ((List.range 6).map v).Perm (List.range 6) ∧ ∀ n, v (n + 6) = v n :=
  ⟨by decide, by decide, by decide, bisect_cycle (by decide) (by decide) (by decide)⟩

end Cycle

end OcfCache.BisectCycle
