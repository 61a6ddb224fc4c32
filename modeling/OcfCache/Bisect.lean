import Mathlib.Data.List.Nodup
import Mathlib.Data.List.Perm.Basic
import Mathlib.Tactic.IntervalCases

/-!
# The bisecting generator

Embedding of `utils_generator.c`: a generator of all numbers below a limit, in
an order that visits the middle of the range first. It runs through the numbers
of enough bits, reverses their bits and skips those at or above the limit. The
module shows that the first `limit` values are the numbers below the limit,
each once.
-/

namespace OcfCache.Bisect

/-- `bitreverse32`. -/
def bitreverse32 (x : BitVec 32) : BitVec 32 :=
  let x := ((x &&& 0xaaaaaaaa#32) >>> 1) ||| ((x &&& 0x55555555#32) <<< 1)
  let x := ((x &&& 0xcccccccc#32) >>> 2) ||| ((x &&& 0x33333333#32) <<< 2)
  let x := ((x &&& 0xf0f0f0f0#32) >>> 4) ||| ((x &&& 0x0f0f0f0f#32) <<< 4)
  let x := ((x &&& 0xff00ff00#32) >>> 8) ||| ((x &&& 0x00ff00ff#32) <<< 8)
  (x >>> 16) ||| (x <<< 16)

/-- Number of bits below the leading zeros, `32 - __builtin_clz(x)`; the builtin
is undefined for zero, where only the first value of the generator is used. -/
def bitLength (x : Nat) : Nat := if x = 0 then 0 else Nat.log2 x + 1

/-- `maplen`. -/
def maplen (limit : Nat) : Nat := 2 ^ bitLength (limit - 1)

/-- `bitreverse32(curr) >> clz`. -/
def value (limit curr : Nat) : Nat :=
  (bitreverse32 (BitVec.ofNat 32 curr) >>> (32 - bitLength (limit - 1))).toNat

/-- The loop of `ocf_generator_bisect_next`: the value and the new `curr`. -/
def bisectLoop (limit : Nat) : Nat → Nat → Nat × Nat
  | 0, curr => (value limit curr, curr)
  | fuel + 1, curr =>
    let next := (curr + 1) % maplen limit
    if limit ≤ value limit curr then bisectLoop limit fuel next else (value limit curr, next)

/-- `ocf_generator_bisect_next`. -/
def ocfGeneratorBisectNext (limit curr : Nat) : Nat × Nat := bisectLoop limit (maplen limit) curr

/-- The next `n` values of the generator. -/
def bisectValues (limit : Nat) : Nat → Nat → List Nat
  | 0, _ => []
  | n + 1, curr =>
    (ocfGeneratorBisectNext limit curr).1 ::
      bisectValues limit n (ocfGeneratorBisectNext limit curr).2

/-- All numbers below the limit in the order of the generator, from the
state after `ocf_generator_bisect_init` with offset zero. -/
def bisectOrder (limit : Nat) : List Nat := bisectValues limit limit 0

theorem swap_getLsbD (x m m' : BitVec 32) (s : Nat) {i : Nat} (hi : i < 32) :
    (((x &&& m) >>> s) ||| ((x &&& m') <<< s)).getLsbD i =
      ((x.getLsbD (i + s) && m.getLsbD (i + s)) ||
        (decide (s ≤ i) && (x.getLsbD (i - s) && m'.getLsbD (i - s)))) := by
  simp only [BitVec.getLsbD_or, BitVec.getLsbD_ushiftRight, BitVec.getLsbD_and,
    BitVec.getLsbD_shiftLeft, hi, decide_true, Bool.true_and, Nat.add_comm s i, ← Nat.not_lt,
    decide_not]

section

variable (x : BitVec 32)
include x

theorem swap_one {i : Nat} (hi : i < 32) :
    (((x &&& 0xaaaaaaaa#32) >>> 1) ||| ((x &&& 0x55555555#32) <<< 1)).getLsbD i =
      x.getLsbD (i ^^^ 1) := by
  rw [swap_getLsbD x _ _ _ hi]
  interval_cases i <;> simp

theorem swap_two {i : Nat} (hi : i < 32) :
    (((x &&& 0xcccccccc#32) >>> 2) ||| ((x &&& 0x33333333#32) <<< 2)).getLsbD i =
      x.getLsbD (i ^^^ 2) := by
  rw [swap_getLsbD x _ _ _ hi]
  interval_cases i <;> simp

theorem swap_four {i : Nat} (hi : i < 32) :
    (((x &&& 0xf0f0f0f0#32) >>> 4) ||| ((x &&& 0x0f0f0f0f#32) <<< 4)).getLsbD i =
      x.getLsbD (i ^^^ 4) := by
  rw [swap_getLsbD x _ _ _ hi]
  interval_cases i <;> simp

theorem swap_eight {i : Nat} (hi : i < 32) :
    (((x &&& 0xff00ff00#32) >>> 8) ||| ((x &&& 0x00ff00ff#32) <<< 8)).getLsbD i =
      x.getLsbD (i ^^^ 8) := by
  rw [swap_getLsbD x _ _ _ hi]
  interval_cases i <;> simp

theorem swap_sixteen {i : Nat} (hi : i < 32) :
    ((x >>> 16) ||| (x <<< 16)).getLsbD i = x.getLsbD (i ^^^ 16) := by
  simp only [BitVec.getLsbD_or, BitVec.getLsbD_ushiftRight, BitVec.getLsbD_shiftLeft, hi,
    decide_true, Bool.true_and]
  interval_cases i <;> simp

theorem bitreverse32_getLsbD {i : Nat} (hi : i < 32) :
    (bitreverse32 x).getLsbD i = x.getLsbD (31 - i) := by
  have hxor : ∀ j < 32, ∀ k < 32, j ^^^ k < 32 := by decide
  have hrev : ∀ j < 32, j ^^^ 16 ^^^ 8 ^^^ 4 ^^^ 2 ^^^ 1 = 31 - j := by decide
  have h1 := hxor i hi 16 (by decide)
  have h2 := hxor _ h1 8 (by decide)
  have h3 := hxor _ h2 4 (by decide)
  have h4 := hxor _ h3 2 (by decide)
  simp only [bitreverse32]
  rw [swap_sixteen _ hi, swap_eight _ h1, swap_four _ h2, swap_two _ h3, swap_one _ h4, hrev i hi]

end

theorem lt_two_pow_bitLength (x : Nat) : x < 2 ^ bitLength x := by
  by_cases h : x = 0
  · simp [bitLength, h]
  · rw [bitLength, if_neg h]
    exact Nat.lt_log2_self

theorem bitLength_le {x : Nat} (h : x < 2 ^ 32) : bitLength x ≤ 32 := by
  by_cases h0 : x = 0
  · simp [bitLength, h0]
  · have hlog : Nat.log2 x < 32 := (Nat.log2_lt h0).mpr h
    rw [bitLength, if_neg h0]
    omega

section Order

variable {limit : Nat}

theorem le_maplen : limit ≤ maplen limit := by
  have h := lt_two_pow_bitLength (limit - 1)
  rw [maplen]
  omega

theorem value_testBit (hk : bitLength (limit - 1) ≤ 32) {curr i : Nat}
    (hi : i < bitLength (limit - 1)) :
    (value limit curr).testBit i = curr.testBit (bitLength (limit - 1) - 1 - i) := by
  generalize hb : bitLength (limit - 1) = k at hk hi
  have hpos : 32 - k + i < 32 := by omega
  have hrev : 31 - (32 - k + i) = k - 1 - i := by omega
  have hlt : k - 1 - i < 32 := by omega
  rw [value, hb, BitVec.testBit_toNat, BitVec.getLsbD_ushiftRight, bitreverse32_getLsbD _ hpos, hrev,
    BitVec.getLsbD_ofNat]
  simp [hlt]

theorem value_lt (hk : bitLength (limit - 1) ≤ 32) (curr : Nat) :
    value limit curr < maplen limit := by
  rw [value, maplen, BitVec.toNat_ushiftRight, Nat.shiftRight_eq_div_pow]
  refine Nat.div_lt_of_lt_mul ?_
  rw [← Nat.pow_add, Nat.sub_add_cancel hk]
  exact BitVec.isLt _

theorem value_inj (hk : bitLength (limit - 1) ≤ 32) {a b : Nat} (ha : a < maplen limit)
    (hb : b < maplen limit) (h : value limit a = value limit b) : a = b := by
  refine Nat.eq_of_testBit_eq fun j => ?_
  by_cases hj : j < bitLength (limit - 1)
  · have hi : bitLength (limit - 1) - 1 - j < bitLength (limit - 1) := by omega
    have hback : bitLength (limit - 1) - 1 - (bitLength (limit - 1) - 1 - j) = j := by omega
    have hbit := congrArg (fun v => v.testBit (bitLength (limit - 1) - 1 - j)) h
    simp only [value_testBit hk hi, hback] at hbit
    exact hbit
  · have hpow : maplen limit ≤ 2 ^ j := Nat.pow_le_pow_right (by omega) (Nat.not_lt.mp hj)
    rw [Nat.testBit_lt_two_pow (Nat.lt_of_lt_of_le ha hpow),
      Nat.testBit_lt_two_pow (Nat.lt_of_lt_of_le hb hpow)]

/-- Values at the positions from `c` on that are below the limit. -/
def rest (limit c : Nat) : List Nat :=
  ((List.range' c (maplen limit - c)).map (value limit)).filter fun v => decide (v < limit)

theorem rest_of_lt {c : Nat} (hc : c < maplen limit) : rest limit c =
      if value limit c < limit then value limit c :: rest limit (c + 1) else rest limit (c + 1) := by
  have hlen : maplen limit - c = maplen limit - (c + 1) + 1 := by omega
  rw [rest, hlen, List.range'_succ, List.map_cons, List.filter_cons]
  simp only [decide_eq_true_eq]
  rfl

theorem rest_maplen : rest limit (maplen limit) = [] := by
  simp [rest]

theorem bisectLoop_spec {c fuel v : Nat} {t : List Nat} (hc : c < maplen limit)
    (hfuel : maplen limit ≤ fuel + c) (hrest : rest limit c = v :: t) :
    (bisectLoop limit fuel c).1 = v ∧ (bisectLoop limit fuel c).2 < maplen limit ∧
      (t = [] ∨ rest limit (bisectLoop limit fuel c).2 = t) := by
  induction fuel generalizing c with
  | zero => omega
  | succ fuel ih =>
    rw [rest_of_lt hc] at hrest
    have hlt : (c + 1) % maplen limit < maplen limit := Nat.mod_lt _ (by omega)
    have hnext : (c + 1) % maplen limit = c + 1 ∨ rest limit (c + 1) = [] := by
      by_cases hlast : c + 1 = maplen limit
      · exact .inr (hlast ▸ rest_maplen)
      · exact .inl (Nat.mod_eq_of_lt (by omega))
    simp only [bisectLoop]
    split at hrest
    · rename_i hv
      obtain ⟨rfl, rfl⟩ := List.cons.inj hrest
      rw [if_neg (Nat.not_le.mpr hv)]
      refine ⟨rfl, hlt, ?_⟩
      rcases hnext with hnext | hnext
      · exact .inr (by rw [hnext])
      · exact .inl hnext
    · rename_i hv
      rw [if_pos (Nat.not_lt.mp hv)]
      rcases hnext with hnext | hnext
      · rw [hnext] at hlt ⊢
        exact ih hlt (by omega) hrest
      · rw [hnext] at hrest
        cases hrest

theorem bisectValues_eq {c : Nat} (hc : c < maplen limit) :
    ∀ {vs : List Nat}, rest limit c = vs → bisectValues limit vs.length c = vs := by
  intro vs
  induction vs generalizing c with
  | nil =>
    intro _
    rfl
  | cons v t ih =>
    intro hrest
    obtain ⟨hv, hlt, ht⟩ := bisectLoop_spec hc (Nat.le_add_right (maplen limit) c) hrest
    simp only [List.length_cons, bisectValues, ocfGeneratorBisectNext, hv]
    rcases ht with rfl | ht
    · rfl
    · rw [ih hlt ht]

theorem rest_zero_perm (hlimit : limit ≤ 2 ^ 32) : (rest limit 0).Perm (List.range limit) := by
  have hk : bitLength (limit - 1) ≤ 32 := bitLength_le (by omega)
  have hpos : 0 < maplen limit := Nat.pow_pos (by omega)
  have hnodup : ((List.range' 0 (maplen limit)).map (value limit)).Nodup := by
    refine (List.nodup_range' 1 (by omega)).map_on fun a ha b hb h => ?_
    rw [List.mem_range'_1] at ha hb
    exact value_inj hk (by omega) (by omega) h
  have hperm : ((List.range' 0 (maplen limit)).map (value limit)).Perm
      (List.range (maplen limit)) := by
    refine (List.subperm_of_subset hnodup fun v hv => ?_).perm_of_length_le (by simp)
    obtain ⟨a, -, rfl⟩ := List.mem_map.mp hv
    exact List.mem_range.mpr (value_lt hk a)
  have hfilter := hperm.filter fun v => decide (v < limit)
  refine hfilter.trans ?_
  refine (List.perm_ext_iff_of_nodup (List.nodup_range.filter _) List.nodup_range).mpr fun v => ?_
  have hle : limit ≤ maplen limit := le_maplen
  simp only [List.mem_filter, List.mem_range, decide_eq_true_eq]
  omega

theorem bisectOrder_perm (hlimit : limit ≤ 2 ^ 32) :
    (bisectOrder limit).Perm (List.range limit) := by
  have hpos : 0 < maplen limit := Nat.pow_pos (by omega)
  have hperm := rest_zero_perm hlimit
  have hlen : (rest limit 0).length = limit := by
    rw [hperm.length_eq, List.length_range]
  have heq := bisectValues_eq hpos (rfl : rest limit 0 = _)
  rw [hlen] at heq
  rw [bisectOrder, heq]
  exact hperm

end Order

example : bisectOrder 6 = [0, 4, 2, 1, 5, 3] := by decide

end OcfCache.Bisect
