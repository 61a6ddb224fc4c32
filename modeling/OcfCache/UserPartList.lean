import Mathlib.Data.List.Perm.Subperm
import Mathlib.Data.List.Sort
import Mathlib.Data.Prod.Lex
import OcfCache.Constants
import OcfCache.RingLists

/-!
# The list of user partitions

`utils_list.c` and `utils_user_part.c`: a doubly linked list over the indexes
of the user partitions, whose head is an entry of its own, and its insertion
sort by priority.
-/

namespace OcfCache.UserPartList

open Function RingLists

/-- Index of the head of the list. -/
def invalid : Nat := ocfUserIoClassMax

/-- `OCF_LST_ENTRY_OUT`. -/
def ocfLstEntryOut : Nat := invalid + 1

/-- `SHRT_MAX`. -/
def shrtMax : Int := 32767

/-- `SHRT_MIN`. -/
def shrtMin : Int := -32768

/-- The persistent configuration of a user partition. Its bit `eviction`, which
is set by the sort, is kept apart. -/
structure PartConfig where
  /-- `name`. -/
  name : List UInt8
  /-- `min_size`. -/
  minSize : Nat
  /-- `max_size`. -/
  maxSize : Nat
  /-- `flags.valid`. -/
  valid : Bool
  /-- `flags.added`. -/
  added : Bool
  /-- `priority`. -/
  priority : Int
  /-- `cache_mode`. -/
  cacheMode : Int
  deriving DecidableEq

/-- The part of a cache that has to do with its user partitions. -/
structure Cache where
  /-- The cache is in standby state. -/
  standby : Bool
  /-- There is a cache device. -/
  device : Bool
  /-- `conf_meta->valid_parts_no`. -/
  validPartsNo : Int
  /-- The configuration in the metadata, which `user_parts` points to. -/
  config : Nat → PartConfig
  /-- `flags.eviction`. -/
  eviction : Nat → Bool
  /-- `curr_size`. -/
  currSize : Nat → Nat
  /-- `lst_valid.next`. -/
  next : Nat → Nat
  /-- `lst_valid.prev`. -/
  prev : Nat → Nat

/-- `ocf_lst_init_entry`. -/
def ocfLstInitEntry (s : Cache) (idx : Nat) : Cache :=
  { s with
    next := update s.next idx ocfLstEntryOut
    prev := update s.prev idx ocfLstEntryOut }

/-- `ocf_lst_empty`. -/
def ocfLstEmpty (s : Cache) : Bool := s.next invalid == invalid

/-- `ocf_lst_add`. -/
def ocfLstAdd (s : Cache) (idx : Nat) : Cache :=
  { s with
    next := update (update s.next idx (s.next invalid)) invalid idx
    prev := update (update s.prev (s.next invalid) idx) idx invalid }

/-- `ocf_lst_add_tail`. -/
def ocfLstAddTail (s : Cache) (idx : Nat) : Cache :=
  { s with
    next := update (update s.next idx invalid) (s.prev invalid) idx
    prev := update (update s.prev idx (s.prev invalid)) invalid idx }

/-- `ocf_lst_add_before`. -/
def ocfLstAddBefore (s : Cache) (pos idx : Nat) : Cache :=
  { s with
    next := update (update s.next idx pos) (s.prev pos) idx
    prev := update (update s.prev idx (s.prev pos)) pos idx }

/-- The size that the comparison sees. -/
def partSize (s : Cache) (p : Nat) : Nat := if s.device then s.currSize p else 0

/-- `v1` or `v2` of the comparison. -/
def partValue (s : Cache) (p : Nat) : Int :=
  if (s.config p).valid then (s.config p).priority
  else if partSize s p ≠ 0 then shrtMax else shrtMin

/-- `flags.eviction` behind a comparison. -/
def partEviction (s : Cache) (p : Nat) : Bool :=
  if (s.config p).valid then decide ((s.config p).priority ≠ ocfIoClassPrioPinned)
  else decide (partSize s p ≠ 0)

/-- The result of `ocf_user_part_lst_cmp_valid`. -/
def cmpValid (s : Cache) (p1 p2 : Nat) : Int :=
  if partValue s p1 = partValue s p2 then (p2 : Int) - p1 else partValue s p2 - partValue s p1

/-- `ocf_user_part_lst_cmp_valid`: it sets a flag of both partitions. -/
def ocfUserPartLstCmpValid (s : Cache) (p1 p2 : Nat) : Cache × Int :=
  ({ s with
      eviction := update (update s.eviction p1 (partEviction s p1)) p2
        (partEviction s p2) }, cmpValid s p1 p2)

/-- The inner loop of `ocf_lst_sort`: the position of an entry. -/
def sortPosition (iter : Nat) : Nat → Nat → Cache → Cache × Nat
  | 0, pos, s => (s, pos)
  | fuel + 1, pos, s =>
    if pos = invalid then (s, pos)
    else
      let r := ocfUserPartLstCmpValid s pos iter
      if 0 < r.2 then (r.1, pos) else sortPosition iter fuel (r.1.next pos) r.1

/-- One round of the outer loop: an entry is put where it belongs. -/
def sortEntry (s : Cache) (iter : Nat) : Cache :=
  let s := ocfLstInitEntry s iter
  if ocfLstEmpty s then ocfLstAdd s iter
  else
    let r := sortPosition iter (ocfUserIoClassMax + 1) (s.next invalid) s
    if r.2 = invalid then ocfLstAddTail r.1 iter else ocfLstAddBefore r.1 r.2 iter

/-- The outer loop of `ocf_lst_sort`. -/
def sortLoop : Nat → Nat → Nat → Cache → Cache
  | 0, _, _, s => s
  | fuel + 1, iterIdx, nextIdx, s =>
    if iterIdx = invalid then s
    else
      let s := sortEntry s iterIdx
      sortLoop fuel nextIdx (s.next nextIdx) s

/-- `ocf_lst_sort`. -/
def ocfLstSort (s : Cache) : Cache :=
  if ocfLstEmpty s then s
  else
    let iterIdx := s.next invalid
    sortLoop (ocfUserIoClassMax + 1) iterIdx (s.next iterIdx)
      { s with
        next := update s.next invalid invalid
        prev := update s.prev invalid invalid }

/-- `for_each_user_part`: the partitions in the order of the list. -/
def forEachUserPart (s : Cache) : List Nat :=
  walk s.next invalid (ocfUserIoClassMax + 1) (s.next invalid)

/-- The list holds the partitions `xs`. -/
structure Holds (s : Cache) (xs : List Nat) : Prop where
  /-- They form a ring with the head. -/
  ring : Ring s.next s.prev invalid xs
  /-- They are user partitions. -/
  lt : ∀ p ∈ xs, p < ocfUserIoClassMax

/-- Nothing but the list and the flag of the sort is changed. -/
structure SameParts (s t : Cache) : Prop where
  /-- `standby`. -/
  standby : t.standby = s.standby
  /-- `device`. -/
  device : t.device = s.device
  /-- `valid_parts_no`. -/
  validPartsNo : t.validPartsNo = s.validPartsNo
  /-- `config`. -/
  config : t.config = s.config
  /-- `curr_size`. -/
  currSize : t.currSize = s.currSize

theorem SameParts.refl (s : Cache) : SameParts s s := ⟨rfl, rfl, rfl, rfl, rfl⟩

theorem SameParts.trans {s t u : Cache} (h : SameParts s t) (h' : SameParts t u) : SameParts s u :=
  ⟨h'.standby.trans h.standby, h'.device.trans h.device, h'.validPartsNo.trans h.validPartsNo,
    h'.config.trans h.config, h'.currSize.trans h.currSize⟩

/-! ## The order of the comparison -/

/-- What the comparison orders by: the value and then the index. -/
def rank (s : Cache) (p : Nat) : Int ×ₗ Nat := toLex (partValue s p, p)

/-- A partition stands in front of another one, or is the same. -/
def Before (s : Cache) (x y : Nat) : Prop := rank s y ≤ rank s x

instance (s : Cache) : DecidableRel (Before s) :=
  fun x y => inferInstanceAs (Decidable (rank s y ≤ rank s x))

instance (s : Cache) : Std.Total (Before s) := ⟨fun x y => le_total (rank s y) (rank s x)⟩

instance (s : Cache) : IsTrans Nat (Before s) := ⟨fun _ _ _ h h' => le_trans h' h⟩

variable {s t : Cache} {xs : List Nat}

theorem rank_lt_iff (x y : Nat) : rank s x < rank s y ↔
    partValue s x < partValue s y ∨ partValue s x = partValue s y ∧ x < y := by
  unfold rank
  rw [Prod.Lex.toLex_lt_toLex]

theorem cmpValid_neg_iff (x y : Nat) : cmpValid s x y < 0 ↔ rank s y < rank s x := by
  rw [rank_lt_iff]
  unfold cmpValid
  by_cases hvalue : partValue s x = partValue s y
  · rw [if_pos hvalue]
    omega
  · rw [if_neg hvalue]
    omega

theorem cmpValid_pos_iff (x y : Nat) : 0 < cmpValid s x y ↔ rank s x < rank s y := by
  rw [rank_lt_iff]
  unfold cmpValid
  by_cases hvalue : partValue s x = partValue s y
  · rw [if_pos hvalue]
    omega
  · rw [if_neg hvalue]
    omega

theorem rank_injective : Injective (rank s) := by
  intro x y h
  exact (Prod.mk.inj (toLex.injective h)).2

theorem cmpValid_pos_iff_before {x y : Nat} (hne : x ≠ y) : 0 < cmpValid s y x ↔ Before s x y := by
  rw [cmpValid_pos_iff, Before, lt_iff_le_and_ne]
  exact and_iff_left fun heq => hne (rank_injective heq).symm

theorem SameParts.partValue (h : SameParts s t) (p : Nat) : partValue t p = partValue s p := by
  unfold UserPartList.partValue partSize
  rw [h.config, h.device, h.currSize]

theorem SameParts.rank (h : SameParts s t) (p : Nat) : rank t p = rank s p := by
  unfold UserPartList.rank
  rw [h.partValue]

theorem SameParts.cmpValid (h : SameParts s t) (x y : Nat) : cmpValid t x y = cmpValid s x y := by
  unfold UserPartList.cmpValid
  rw [h.partValue, h.partValue]

theorem SameParts.before (h : SameParts s t) (x y : Nat) : Before t x y ↔ Before s x y := by
  unfold Before
  rw [h.rank, h.rank]

/-! ## The sort -/

theorem Holds.length_lt (h : Holds s xs) : xs.length < ocfUserIoClassMax + 1 := by
  have hsub : xs ⊆ List.range ocfUserIoClassMax := fun p hp => List.mem_range.mpr (h.lt p hp)
  have hle := (List.subperm_of_subset (List.nodup_cons.mp h.ring.nodup).2 hsub).length_le
  rw [List.length_range] at hle
  omega

theorem Holds.eq_nil (h : Holds s xs) (hempty : ocfLstEmpty s = true) : xs = [] := by
  have hfirst : s.next invalid = invalid := by simpa [ocfLstEmpty] using hempty
  have hpath := h.ring.path
  rw [hfirst] at hpath
  exact hpath.unique rfl

theorem sameParts_cmp (s : Cache) (x y : Nat) : SameParts s (ocfUserPartLstCmpValid s x y).1 :=
  ⟨rfl, rfl, rfl, rfl, rfl⟩

theorem sortPosition_spec {iter fuel pos : Nat} (h : Path s.next invalid pos xs)
    (hfuel : xs.length < fuel) :
    (sortPosition iter fuel pos s).2 = (xs.find? fun y => decide (0 < cmpValid s y iter)).getD invalid ∧
      SameParts s (sortPosition iter fuel pos s).1 ∧
      (sortPosition iter fuel pos s).1.next = s.next ∧ (sortPosition iter fuel pos s).1.prev = s.prev := by
  induction xs generalizing fuel pos s with
  | nil =>
    obtain ⟨fuel, rfl⟩ := Nat.exists_eq_add_one_of_ne_zero (Nat.ne_zero_of_lt hfuel)
    have hend : pos = invalid := h
    rw [sortPosition, if_pos hend]
    exact ⟨hend, SameParts.refl s, rfl, rfl⟩
  | cons y ys ih =>
    obtain ⟨fuel, rfl⟩ := Nat.exists_eq_add_one_of_ne_zero (Nat.ne_zero_of_lt hfuel)
    obtain ⟨rfl, hne, hrest⟩ := h
    rw [sortPosition, if_neg hne]
    have hcmp : (ocfUserPartLstCmpValid s pos iter).2 = cmpValid s pos iter := rfl
    have hnext : (ocfUserPartLstCmpValid s pos iter).1.next = s.next := rfl
    simp only [hcmp, hnext]
    by_cases hpos : 0 < cmpValid s pos iter
    · rw [if_pos hpos, List.find?_cons_of_pos (by simpa using hpos)]
      exact ⟨rfl, sameParts_cmp s pos iter, rfl, rfl⟩
    · rw [if_neg hpos, List.find?_cons_of_neg (by simpa using hpos)]
      have hsame := sameParts_cmp s pos iter
      obtain ⟨h₁, h₂, h₃, h₄⟩ := @ih (ocfUserPartLstCmpValid s pos iter).1 fuel (s.next pos) hrest
        (by simpa using hfuel)
      exact ⟨h₁, hsame.trans h₂, h₃, h₄⟩

/-- A round of the sort inserts one entry in order. -/
theorem sortEntry_spec {x : Nat} (h : Holds s xs) (hx : x ∉ xs) (hlt : x < ocfUserIoClassMax) :
    SameParts s (sortEntry s x) ∧ Holds (sortEntry s x) (xs.orderedInsert (Before s) x) ∧
      ∀ y, y ∉ x :: invalid :: xs → (sortEntry s x).next y = s.next y := by
  have hxi : x ≠ invalid := Nat.ne_of_lt hlt
  have hout : x ∉ invalid :: xs := fun hmem => (List.mem_cons.mp hmem).elim hxi hx
  have hmem : ∀ p ∈ xs.orderedInsert (Before s) x, p < ocfUserIoClassMax := by
    intro p hp
    cases (List.mem_orderedInsert _).mp hp with
    | inl heq => exact heq ▸ hlt
    | inr hin => exact h.lt p hin
  have hinit : ∀ y ∈ invalid :: xs, y ≠ x := fun y hy heq => hout (heq ▸ hy)
  have hring : Ring (ocfLstInitEntry s x).next (ocfLstInitEntry s x).prev invalid xs :=
    h.ring.congr (fun y hy => update_of_ne (hinit y hy) ..)
      fun y hy => update_of_ne (hinit y hy) ..
  have hlength := h.length_lt
  have hsame : SameParts s (ocfLstInitEntry s x) := ⟨rfl, rfl, rfl, rfl, rfl⟩
  unfold sortEntry
  by_cases hempty : ocfLstEmpty (ocfLstInitEntry s x) = true
  · rw [if_pos hempty]
    have hnil : xs = [] := Holds.eq_nil ⟨hring, h.lt⟩ hempty
    subst hnil
    refine ⟨⟨rfl, rfl, rfl, rfl, rfl⟩, ⟨hring.insertHead hout, hmem⟩, fun y hy => ?_⟩
    obtain ⟨hyx, hyr⟩ := not_or.mp fun hor => hy (List.mem_cons.mpr hor)
    have hyi : y ≠ invalid := fun heq => hyr (heq ▸ List.mem_cons_self)
    simp only [ocfLstAdd, ocfLstInitEntry, update_of_ne hyi, update_of_ne hyx]
  · rw [if_neg hempty]
    obtain ⟨hpos, hsame', hnext, hprev⟩ := @sortPosition_spec (ocfLstInitEntry s x) xs x _ _ hring.path hlength
    generalize sortPosition x (ocfUserIoClassMax + 1) ((ocfLstInitEntry s x).next invalid)
      (ocfLstInitEntry s x) = r at hpos hsame' hnext hprev ⊢
    -- the entries in front of the position are those that stand before the new one
    have hsplit : ∃ as bs vs, xs = as ++ bs ∧ bs ++ [invalid] = r.2 :: vs ∧
        xs.orderedInsert (Before s) x = as ++ x :: bs := by
      have hkey : ∀ ys : List Nat, x ∉ ys → (∀ p ∈ ys, p ≠ invalid) → ∃ as bs vs, ys = as ++ bs ∧
          bs ++ [invalid] =
            (ys.find? fun y => decide (0 < cmpValid (ocfLstInitEntry s x) y x)).getD invalid :: vs ∧
          ys.orderedInsert (Before s) x = as ++ x :: bs := by
        intro ys
        induction ys with
        | nil => exact fun _ _ => ⟨[], [], [], rfl, rfl, rfl⟩
        | cons y ys ih =>
          intro hxy hin
          have hne : x ≠ y := fun heq => hxy (heq ▸ List.mem_cons_self)
          by_cases hbefore : Before s x y
          · have hcmp : 0 < cmpValid (ocfLstInitEntry s x) y x := by
              exact (cmpValid_pos_iff_before hne).mpr hbefore
            refine ⟨[], y :: ys, ys ++ [invalid], rfl, ?_, List.orderedInsert_cons_of_le _ ys hbefore⟩
            rw [List.find?_cons_of_pos (by simpa using hcmp)]
            rfl
          · have hcmp : ¬ 0 < cmpValid (ocfLstInitEntry s x) y x := by
              rw [hsame.cmpValid]
              exact fun hlt => hbefore ((cmpValid_pos_iff_before hne).mp hlt)
            obtain ⟨as, bs, vs, h₁, h₂, h₃⟩ := ih (fun hmem => hxy (List.mem_cons_of_mem y hmem))
              fun p hp => hin p (List.mem_cons_of_mem y hp)
            refine ⟨y :: as, bs, vs, congrArg (y :: ·) h₁, ?_, ?_⟩
            · rw [List.find?_cons_of_neg (by simpa using hcmp)]
              exact h₂
            · rw [List.orderedInsert_of_not_le _ ys hbefore, h₃]
              rfl
      rw [hpos]
      exact hkey xs hx fun p hp => Nat.ne_of_lt (h.lt p hp)
    obtain ⟨as, bs, vs, hxs, hbs, hinsert⟩ := hsplit
    rw [← hnext, ← hprev, hxs] at hring
    have hnew := hring.insertBefore hbs (hxs ▸ hout)
    rw [← hinsert] at hnew
    have hparts : SameParts s r.1 := hsame.trans hsame'
    -- the node in front of the position is one of the ring
    have hlink : r.1.prev r.2 ∈ invalid :: xs := by
      obtain ⟨us, a, ha⟩ := List.eq_nil_or_concat' (invalid :: as) |>.resolve_left
        (List.cons_ne_nil invalid as)
      rw [(hring.neighbours ha hbs).2, hxs, ← List.cons_append, ha]
      simp
    have hframe : ∀ y, y ∉ x :: invalid :: xs →
        update (update r.1.next x r.2) (r.1.prev r.2) x y = s.next y := by
      intro y hy
      obtain ⟨hyx, hyr⟩ := not_or.mp fun hor => hy (List.mem_cons.mpr hor)
      have hyp : y ≠ r.1.prev r.2 := fun heq => hyr (heq ▸ hlink)
      rw [update_of_ne hyp, update_of_ne hyx, hnext]
      exact update_of_ne hyx ..
    by_cases hend : r.2 = invalid
    · rw [if_pos hend]
      rw [hend] at hnew hframe
      exact ⟨hparts.trans ⟨rfl, rfl, rfl, rfl, rfl⟩, ⟨hnew, hmem⟩, hframe⟩
    · rw [if_neg hend]
      exact ⟨hparts.trans ⟨rfl, rfl, rfl, rfl, rfl⟩, ⟨hnew, hmem⟩, hframe⟩

/-- The sort goes through the rest of the list. -/
theorem sortLoop_spec (rest : List Nat) {fuel iterIdx nextIdx : Nat} (h : Holds s xs)
    (hpath : Path s.next invalid iterIdx rest) (hnext : rest ≠ [] → nextIdx = s.next iterIdx)
    (hrest : rest.Nodup) (hout : ∀ p ∈ rest, p ∉ xs) (hlt : ∀ p ∈ rest, p < ocfUserIoClassMax)
    (hfuel : rest.length < fuel) : SameParts s (sortLoop fuel iterIdx nextIdx s) ∧
      Holds (sortLoop fuel iterIdx nextIdx s)
        (rest.foldl (fun ys x => ys.orderedInsert (Before s) x) xs) := by
  induction rest generalizing fuel iterIdx nextIdx s xs with
  | nil =>
    obtain ⟨fuel, rfl⟩ := Nat.exists_eq_add_one_of_ne_zero (Nat.ne_zero_of_lt hfuel)
    have hend : iterIdx = invalid := hpath
    rw [sortLoop, if_pos hend]
    exact ⟨SameParts.refl s, h⟩
  | cons x rest ih =>
    obtain ⟨fuel, rfl⟩ := Nat.exists_eq_add_one_of_ne_zero (Nat.ne_zero_of_lt hfuel)
    obtain ⟨rfl, hne, htail⟩ := hpath
    obtain ⟨hxr, hnodup⟩ := List.nodup_cons.mp hrest
    have hnextIdx : nextIdx = s.next iterIdx := hnext (List.cons_ne_nil _ _)
    rw [sortLoop, if_neg hne]
    obtain ⟨hsame, hholds, hframe⟩ := sortEntry_spec h (hout iterIdx List.mem_cons_self)
      (hlt iterIdx List.mem_cons_self)
    have hkeep : ∀ y ∈ rest, (sortEntry s iterIdx).next y = s.next y := by
      intro y hy
      refine hframe y fun hmem => ?_
      have hylt := hlt y (List.mem_cons_of_mem _ hy)
      simp only [List.mem_cons] at hmem
      rcases hmem with heq | heq | hin
      · exact hxr (heq ▸ hy)
      · exact absurd heq (Nat.ne_of_lt hylt)
      · exact hout y (List.mem_cons_of_mem _ hy) hin
    have hpath' : Path (sortEntry s iterIdx).next invalid nextIdx rest := by
      rw [hnextIdx]
      exact htail.congr hkeep
    have hout' : ∀ p ∈ rest, p ∉ xs.orderedInsert (Before s) iterIdx := by
      intro p hp hmem
      cases (List.mem_orderedInsert _).mp hmem with
      | inl heq => exact hxr (heq ▸ hp)
      | inr hin => exact hout p (List.mem_cons_of_mem _ hp) hin
    obtain ⟨hsame', hholds'⟩ := ih hholds hpath' (fun _ => rfl) hnodup hout'
      (fun p hp => hlt p (List.mem_cons_of_mem _ hp)) (by simpa using hfuel)
    refine ⟨hsame.trans hsame', ?_⟩
    have horder : (fun (ys : List Nat) x => ys.orderedInsert (Before (sortEntry s iterIdx)) x) =
        fun ys x => ys.orderedInsert (Before s) x := by
      funext ys y
      induction ys with
      | nil => rfl
      | cons z zs ihz =>
        rw [List.orderedInsert_cons, List.orderedInsert_cons, ihz]
        simp only [hsame.before]
    rw [horder] at hholds'
    exact hholds'

theorem foldl_orderedInsert (rest : List Nat) (h : xs.Pairwise (Before s)) :
    (rest.foldl (fun ys x => ys.orderedInsert (Before s) x) xs).Pairwise (Before s) ∧
      (rest.foldl (fun ys x => ys.orderedInsert (Before s) x) xs).Perm (rest ++ xs) := by
  induction rest generalizing xs with
  | nil => exact ⟨h, List.Perm.refl xs⟩
  | cons x rest ih =>
    obtain ⟨hsorted, hperm⟩ := ih (h.orderedInsert x)
    refine ⟨hsorted, hperm.trans ?_⟩
    have hinsert := List.perm_orderedInsert (Before s) x xs
    exact (hinsert.append_left rest).trans List.perm_middle

theorem ocfLstSort_spec (h : Holds s xs) :
    SameParts s (ocfLstSort s) ∧ ∃ ys, Holds (ocfLstSort s) ys ∧ ys.Perm xs ∧
      ys.Pairwise fun x y => cmpValid s x y < 0 := by
  have hstrict : ∀ ys : List Nat, ys.Nodup → ys.Pairwise (Before s) →
      ys.Pairwise fun x y => cmpValid s x y < 0 := by
    intro ys hnodup hsorted
    refine (hnodup.and hsorted).imp fun hboth => ?_
    rw [cmpValid_neg_iff]
    exact lt_of_le_of_ne hboth.2 fun heq => hboth.1 (rank_injective heq).symm
  unfold ocfLstSort
  by_cases hempty : ocfLstEmpty s = true
  · rw [if_pos hempty]
    obtain rfl := h.eq_nil hempty
    exact ⟨SameParts.refl s, [], h, List.Perm.refl _, List.Pairwise.nil⟩
  · rw [if_neg hempty]
    obtain ⟨hout, hnodup⟩ := List.nodup_cons.mp h.ring.nodup
    have hne : ∀ y ∈ xs, y ≠ invalid := fun y hy heq => hout (heq ▸ hy)
    have hpath := h.ring.path
    have hfirst : xs ≠ [] → s.next invalid ≠ invalid := by
      intro hxs heq
      rw [heq] at hpath
      exact hxs (hpath.unique rfl)
    have hlength := h.length_lt
    have hholds : Holds { s with
        next := update s.next invalid invalid
        prev := update s.prev invalid invalid } [] :=
      ⟨Ring.empty (by simp) (by simp), fun p hp => absurd hp List.not_mem_nil⟩
    obtain ⟨hsame, hsorted⟩ := @sortLoop_spec _ [] xs _ (s.next invalid) (s.next (s.next invalid)) hholds
      (hpath.congr fun y hy => update_of_ne (hne y hy) ..)
      (fun hxs => by simp only [update_of_ne (hfirst hxs)]) hnodup
      (fun _ _ => List.not_mem_nil) h.lt hlength
    obtain ⟨hpairs, hperm⟩ := @foldl_orderedInsert { s with
        next := update s.next invalid invalid
        prev := update s.prev invalid invalid } [] xs List.Pairwise.nil
    rw [List.append_nil] at hperm
    have hempty' : SameParts s { s with
        next := update s.next invalid invalid
        prev := update s.prev invalid invalid } := ⟨rfl, rfl, rfl, rfl, rfl⟩
    exact ⟨hempty'.trans hsame, _, hsorted, hperm, hstrict _ (hperm.nodup_iff.mpr hnodup) hpairs⟩

theorem Holds.forEachUserPart (h : Holds s xs) : forEachUserPart s = xs := by
  exact h.ring.path.walk_eq h.length_lt

end OcfCache.UserPartList
