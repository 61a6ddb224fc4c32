import Mathlib.Algebra.BigOperators.Ring.List
import Mathlib.Algebra.Order.BigOperators.Group.List
import Mathlib.Algebra.Order.Group.Nat
import Mathlib.Algebra.Ring.Nat
import OcfCache.FuelLoops

/-!
# Ranges that a prefetch policy asks for

`ocf_prefetch_range`: the core lines of a range that are not cached are read in
sub-ranges, up to a limit. The scanner resumes behind the sub-range it found
last. Lines, counts and byte numbers wrap around like `uint64_t` and
`uint32_t`; the module shows that they never do. Which lines are cached does
not change meanwhile, and a request can be allocated.
-/

namespace OcfCache.PrefetchRange

open FuelLoops

/-- `ocf_cache_line_size_t`, without its bounds -/
inductive LineSize
  | size4
  | size8
  | size16
  | size32
  | size64

/-- Bytes of a cache line. -/
def LineSize.bytes : LineSize → Nat
  | .size4 => 4096
  | .size8 => 8192
  | .size16 => 16384
  | .size32 => 32768
  | .size64 => 65536

/-- `OCF_PF_MAX_TOTAL` -/
def ocfPfMaxTotal : Nat := 8388608

/-- `struct ocf_pf_range` -/
structure PfRange where
  /-- `core_line_first` -/
  first : Nat
  /-- `core_line_count` -/
  count : Nat

/-- The request for a sub-range: address and number of bytes. -/
structure Read where
  /-- `addr` -/
  addr : Nat
  /-- `bytes` -/
  bytes : Nat

/-- `ocf_lines_2_bytes` of both, as `ocf_prefetch_range` stores them -/
def PfRange.read (size : LineSize) (r : PfRange) : Read :=
  ⟨r.first * size.bytes % 2 ^ 64, r.count * size.bytes % 2 ^ 32⟩

variable (hit : Nat → Bool)

/-- First loop of `ocf_pf_next_sub_range_miss`, up to a line that is not cached. -/
def skipHits (stop : Nat) : Nat → Nat → Option Nat
  | 0, _ => none
  | fuel + 1, curr =>
    if curr < stop then if hit curr then skipHits stop fuel (curr + 1) else some curr
    else some curr

/-- Second loop, up to a line that is cached: the last one before it. -/
def collectMisses (stop : Nat) : Nat → Nat → Nat → Option Nat
  | 0, _, _ => none
  | fuel + 1, curr, lastMiss =>
    if curr < stop then
      if hit curr then some lastMiss else collectMisses stop fuel (curr + 1) curr
    else some lastMiss

/-- The second loop for a line that was found. -/
def subRangeFrom (stop maxLines fuel firstMiss : Nat) : Option PfRange :=
  let stop := min stop ((firstMiss + maxLines) % 2 ^ 64)
  (collectMisses hit stop fuel (firstMiss + 1) firstMiss).map fun lastMiss =>
    ⟨firstMiss, (lastMiss - firstMiss + 1) % 2 ^ 32⟩

/-- `ocf_pf_next_sub_range_miss` -/
def ocfPfNextSubRangeMiss (range subRange : PfRange) (maxLines fuel : Nat) :
    Option (Option PfRange) :=
  let curr := (subRange.first + subRange.count) % 2 ^ 64
  let stop := (range.first + range.count) % 2 ^ 64
  (skipHits hit stop fuel curr).bind fun curr =>
    if curr ≥ stop then some none else (subRangeFrom hit stop maxLines fuel curr).map some

/-- Loop of `ocf_prefetch_range`: the sub-ranges that are read. -/
def subRanges (range : PfRange) (maxTotal m : Nat) :
    Nat → PfRange → Nat → Nat → Option (List PfRange)
  | 0, _, _, _ => none
  | n + 1, subRange, total, curmax =>
    (ocfPfNextSubRangeMiss hit range subRange curmax m).bind fun found =>
      found.elim (some []) fun subRange =>
        let total := (total + subRange.count) % 2 ^ 32
        if total ≥ maxTotal then some [subRange]
        else (subRanges range maxTotal m n subRange total
          (min curmax (maxTotal - total))).map (subRange :: ·)

/-- `ocf_prefetch_range` for a core of some length -/
def ocfPrefetchRange (size : LineSize) (length : Nat) (range : PfRange) (n : Nat) :
    Option (List Read) :=
  let volumeLength := length / size.bytes
  let maxTotal := ocfPfMaxTotal / size.bytes % 2 ^ 32
  if range.first ≥ volumeLength then some []
  else
    let range := ⟨range.first, min range.count (volumeLength - range.first) % 2 ^ 32⟩
    (subRanges hit range maxTotal n n ⟨range.first, 0⟩ 0 (min range.count maxTotal)).map
      (List.map (PfRange.read size))

variable {hit}

/-- A core line is in a range. -/
def PfRange.Has (r : PfRange) (line : Nat) : Prop := r.first ≤ line ∧ line < r.first + r.count

theorem skipHits_spec {stop : Nat} (d : Nat) : ∀ {curr : Nat}, stop - curr ≤ d →
    ∃ c, Returns (fun fuel => skipHits hit stop fuel curr) c ∧ curr ≤ c ∧
      (c < stop → hit c = false) ∧ ∀ line, curr ≤ line → line < c → hit line = true := by
  induction d with
  | zero =>
    intro curr hd
    have hlt : ¬curr < stop := by omega
    exact ⟨curr, Returns.last fun n => by rw [skipHits, if_neg hlt], Nat.le_refl _,
      fun h => absurd h hlt, by omega⟩
  | succ d ih =>
    intro curr hd
    by_cases hlt : curr < stop
    · cases hhit : hit curr with
      | false =>
        exact ⟨curr, Returns.last fun n => by simp [skipHits, hlt, hhit], Nat.le_refl _,
          fun _ => hhit, by omega⟩
      | true =>
        obtain ⟨c, hc, hle, hmiss, hhits⟩ := ih (by omega : stop - (curr + 1) ≤ d)
        refine ⟨c, hc.succ fun n hn => by simp [skipHits, hlt, hhit, hn], by omega, hmiss,
          fun line hl hlc => ?_⟩
        by_cases heq : line = curr
        · rw [heq, hhit]
        · exact hhits line (by omega) hlc
    · exact ⟨curr, Returns.last fun n => by rw [skipHits, if_neg hlt], Nat.le_refl _,
        fun h => absurd h hlt, by omega⟩

theorem collectMisses_spec {stop firstMiss : Nat} (d : Nat) : ∀ {lastMiss : Nat},
    stop - lastMiss ≤ d → firstMiss ≤ lastMiss → (lastMiss = firstMiss ∨ lastMiss < stop) →
      (∀ line, firstMiss ≤ line → line ≤ lastMiss → hit line = false) →
      ∃ l, Returns (fun fuel => collectMisses hit stop fuel (lastMiss + 1) lastMiss) l ∧
        firstMiss ≤ l ∧ (l = firstMiss ∨ l < stop) ∧
        ∀ line, firstMiss ≤ line → line ≤ l → hit line = false := by
  induction d with
  | zero =>
    intro lastMiss hd hle hstop hmiss
    have hlt : ¬lastMiss + 1 < stop := by omega
    exact ⟨lastMiss, Returns.last fun n => by rw [collectMisses, if_neg hlt], hle, hstop, hmiss⟩
  | succ d ih =>
    intro lastMiss hd hle hstop hmiss
    by_cases hlt : lastMiss + 1 < stop
    · cases hhit : hit (lastMiss + 1) with
      | true =>
        exact ⟨lastMiss, Returns.last fun n => by simp [collectMisses, hlt, hhit], hle, hstop, hmiss⟩
      | false =>
        obtain ⟨l, hl, hrest⟩ := @ih (lastMiss + 1) (by omega) (by omega) (.inr hlt)
          fun line h1 h2 => by
            by_cases heq : line = lastMiss + 1
            · rw [heq, hhit]
            · exact hmiss line h1 (by omega)
        exact ⟨l, hl.succ fun n hn => by simp [collectMisses, hlt, hhit, hn], hrest⟩
    · exact ⟨lastMiss, Returns.last fun n => by rw [collectMisses, if_neg hlt], hle, hstop, hmiss⟩

/-- What the scanner finds behind a core line. -/
structure Next (hit : Nat → Bool) (curr stop maxLines : Nat) (s : PfRange) : Prop where
  /-- It goes on behind the line. -/
  le : curr ≤ s.first
  /-- The sub-range is not empty and not too long. -/
  count : 0 < s.count ∧ s.count ≤ maxLines
  /-- It is in the range. -/
  stop : s.first + s.count ≤ stop
  /-- It has no cached line. -/
  misses : ∀ line, s.Has line → hit line = false
  /-- All lines before it are cached. -/
  hits : ∀ line, curr ≤ line → line < s.first → hit line = true

/-- The next part of the range that misses. -/
theorem next_spec {range subRange : PfRange} {maxLines : Nat}
    (hrange : range.first + range.count < 2 ^ 63)
    (hsub : subRange.first + subRange.count ≤ range.first + range.count)
    (hmax : 0 < maxLines) (hmax32 : maxLines < 2 ^ 32) :
    (Returns (ocfPfNextSubRangeMiss hit range subRange maxLines) none ∧
      ∀ line, subRange.first + subRange.count ≤ line → line < range.first + range.count →
        hit line = true) ∨
    ∃ s, Returns (ocfPfNextSubRangeMiss hit range subRange maxLines) (some s) ∧
      Next hit (subRange.first + subRange.count) (range.first + range.count) maxLines s := by
  have hcurr : (subRange.first + subRange.count) % 2 ^ 64 = subRange.first + subRange.count :=
    Nat.mod_eq_of_lt (by omega)
  have hstop : (range.first + range.count) % 2 ^ 64 = range.first + range.count :=
    Nat.mod_eq_of_lt (by omega)
  obtain ⟨c, hc, hle, hmiss, hhits⟩ :=
    @skipHits_spec hit (range.first + range.count) _ (subRange.first + subRange.count) (Nat.le_refl _)
  have hnext : ∀ {r : Option PfRange},
      Returns (fun fuel => if c ≥ range.first + range.count then some none
        else (subRangeFrom hit (range.first + range.count) maxLines fuel c).map some) r →
      Returns (ocfPfNextSubRangeMiss hit range subRange maxLines) r := by
    intro r hr
    refine Returns.congr (hc.bind (g := fun c fuel => if c ≥ range.first + range.count then some none
      else (subRangeFrom hit (range.first + range.count) maxLines fuel c).map some) hr) fun n hn => ?_
    simpa only [ocfPfNextSubRangeMiss, hcurr, hstop] using hn
  by_cases hend : c ≥ range.first + range.count
  · exact .inl ⟨hnext (by simpa only [if_pos hend] using Returns.const none),
      fun line hl hlt => hhits line hl (by omega)⟩
  · have hmod : (c + maxLines) % 2 ^ 64 = c + maxLines := Nat.mod_eq_of_lt (by omega)
    obtain ⟨l, hl, hcl, hlt, hnot⟩ := @collectMisses_spec hit
      (min (range.first + range.count) (c + maxLines)) c _ c (Nat.le_refl _) (Nat.le_refl c)
      (.inl rfl) (fun line h1 h2 => by
        obtain rfl : line = c := by omega
        exact hmiss (by omega))
    have hlen : (l - c + 1) % 2 ^ 32 = l - c + 1 := Nat.mod_eq_of_lt (by omega)
    refine .inr ⟨⟨c, l - c + 1⟩, ?_, hle, ⟨by simp, ?_⟩, ?_, ?_, hhits⟩
    · refine hnext ?_
      simp only [if_neg hend, subRangeFrom, hmod, Option.map_map]
      have hfound := hl.map fun l => some (⟨c, (l - c + 1) % 2 ^ 32⟩ : PfRange)
      simpa only [hlen, Function.comp_def] using hfound
    · simp only
      omega
    · simp only
      omega
    · intro line hline
      simp only [PfRange.Has] at hline
      exact hnot line hline.1 (by omega)

/-- What the loop reads behind a core line, with a number of lines left. -/
structure Scanned (hit : Nat → Bool) (curr stop left : Nat) (subs : List PfRange) : Prop where
  /-- The sub-ranges are not empty, in the range and have no cached line. -/
  each : ∀ s ∈ subs, curr ≤ s.first ∧ 0 < s.count ∧ s.first + s.count ≤ stop ∧
    ∀ line, s.Has line → hit line = false
  /-- They are disjoint and in increasing order. -/
  ordered : subs.Pairwise fun s s' => s.first + s.count ≤ s'.first
  /-- They do not have more lines than are left. -/
  total : (subs.map PfRange.count).sum ≤ left
  /-- They have that many lines, or all lines that are not cached. -/
  cover : (subs.map PfRange.count).sum = left ∨ ∀ line, curr ≤ line → line < stop →
    hit line = false → ∃ s ∈ subs, s.Has line

theorem Scanned.cons {curr stop left maxLines : Nat} {s : PfRange} {subs : List PfRange}
    (hs : Next hit curr stop maxLines s) (hleft : s.count ≤ left)
    (h : Scanned hit (s.first + s.count) stop (left - s.count) subs) :
    Scanned hit curr stop left (s :: subs) := by
  have hle := hs.le
  constructor
  · intro s' hs'
    rcases List.mem_cons.mp hs' with rfl | hs'
    · exact ⟨hle, hs.count.1, hs.stop, hs.misses⟩
    · obtain ⟨hfirst, hrest⟩ := h.each s' hs'
      exact ⟨by omega, hrest⟩
  · exact List.pairwise_cons.mpr ⟨fun s' hs' => (h.each s' hs').1, h.ordered⟩
  · have htotal := h.total
    simp only [List.map_cons, List.sum_cons]
    omega
  · simp only [List.map_cons, List.sum_cons]
    rcases h.cover with hsum | hcover
    · exact .inl (by omega)
    · refine .inr fun line hl hlt hmiss => ?_
      by_cases hbefore : line < s.first
      · rw [hs.hits line hl hbefore] at hmiss
        cases hmiss
      · by_cases hin : line < s.first + s.count
        · exact ⟨s, List.mem_cons_self, by omega, hin⟩
        · obtain ⟨s', hs', hhas⟩ := hcover line (by omega) hlt hmiss
          exact ⟨s', List.mem_cons_of_mem s hs', hhas⟩

theorem Scanned.nil {curr stop left : Nat}
    (h : left = 0 ∨ ∀ line, curr ≤ line → line < stop → hit line = true) :
    Scanned hit curr stop left [] := by
  constructor
  · simp
  · exact .nil
  · simp
  · rcases h with h | h
    · exact .inl (by simp [h])
    · refine .inr fun line hl hlt hmiss => ?_
      rw [h line hl hlt] at hmiss
      cases hmiss

theorem subRanges_spec {range : PfRange} {maxTotal : Nat}
    (hrange : range.first + range.count < 2 ^ 63) (hmax : maxTotal < 2 ^ 32)
    (hpos : 0 < range.count) (d : Nat) :
    ∀ {subRange : PfRange} {total : Nat}, maxTotal - total ≤ d → total < maxTotal →
      range.first ≤ subRange.first → subRange.first + subRange.count ≤ range.first + range.count →
      ∃ subs, Returns₂ (fun m n => subRanges hit range maxTotal m n subRange total
          (min range.count (maxTotal - total))) subs ∧
        Scanned hit (subRange.first + subRange.count) (range.first + range.count)
          (maxTotal - total) subs := by
  induction d with
  | zero =>
    omega
  | succ d ih =>
    intro subRange total hd htotal hfirst hsub
    rcases @next_spec hit range subRange (min range.count (maxTotal - total)) hrange hsub
      (by omega) (by omega) with ⟨hnone, hhits⟩ | ⟨s, hsome, hs⟩
    · exact ⟨[], Returns₂.last hnone fun m n hm => by simp [subRanges, hm],
        Scanned.nil (.inr hhits)⟩
    · obtain ⟨hs0, hsmax⟩ := hs.count
      have hle := hs.le
      have hmod : (total + s.count) % 2 ^ 32 = total + s.count := Nat.mod_eq_of_lt (by omega)
      have hleft : maxTotal - total - s.count = maxTotal - (total + s.count) := by omega
      have hcur : min (min range.count (maxTotal - total)) (maxTotal - (total + s.count)) =
          min range.count (maxTotal - (total + s.count)) := by omega
      by_cases hdone : total + s.count ≥ maxTotal
      · refine ⟨[s], Returns₂.last hsome fun m n hm => ?_,
          Scanned.cons hs (by omega) (Scanned.nil (.inl (by omega)))⟩
        simp only [subRanges, hm, Option.bind_some, Option.elim_some, hmod, if_pos hdone]
      · obtain ⟨subs, hsubs, hscan⟩ := @ih s (total + s.count) (by omega) (by omega) (by omega)
          hs.stop
        rw [← hleft] at hscan
        refine ⟨s :: subs, (hsubs.map (s :: ·)).succ hsome fun m n hm hn => ?_,
          Scanned.cons hs (by omega) hscan⟩
        simp only [subRanges, hm, Option.bind_some, Option.elim_some, hmod, if_neg hdone, hcur, hn]

theorem maxTotal_spec (size : LineSize) : ocfPfMaxTotal / size.bytes % 2 ^ 32 ≤ 2048 ∧
    ocfPfMaxTotal / size.bytes % 2 ^ 32 * size.bytes = ocfPfMaxTotal := by
  cases size <;> decide

theorem bytes_bounds (size : LineSize) : 4096 ≤ size.bytes ∧ size.bytes ≤ 65536 := by
  cases size <;> decide

/-- What a prefetch of a range reads. -/
structure Prefetched (hit : Nat → Bool) (size : LineSize) (length : Nat) (range : PfRange)
    (subs : List PfRange) : Prop where
  /-- The reads are not empty, in the range and in the whole lines of the core. -/
  inside : ∀ s ∈ subs, 0 < s.count ∧ range.first ≤ s.first ∧
    s.first + s.count ≤ range.first + range.count ∧ (s.first + s.count) * size.bytes ≤ length
  /-- Their addresses and lengths do not wrap around. -/
  exactly : ∀ s ∈ subs, s.read size = ⟨s.first * size.bytes, s.count * size.bytes⟩
  /-- No cached line is read. -/
  misses : ∀ s ∈ subs, ∀ line, s.Has line → hit line = false
  /-- The reads are disjoint and in increasing order. -/
  ordered : subs.Pairwise fun s s' => s.first + s.count ≤ s'.first
  /-- They do not exceed the limit. -/
  total : (subs.map fun s => (s.read size).bytes).sum ≤ ocfPfMaxTotal
  /-- They have all whole lines of the range that are not cached, or reach it. -/
  cover : (subs.map fun s => (s.read size).bytes).sum = ocfPfMaxTotal ∨
    ∀ line, range.Has line → (line + 1) * size.bytes ≤ length → hit line = false →
      ∃ s ∈ subs, s.Has line

/-- Parts found one after the other make up the prefetch. -/
theorem Scanned.prefetched {size : LineSize} {length : Nat} {range : PfRange} {subs : List PfRange}
    (hlength : length < 2 ^ 64)
    (h : Scanned hit range.first (min (range.first + range.count) (length / size.bytes))
      (ocfPfMaxTotal / size.bytes % 2 ^ 32) subs) : Prefetched hit size length range subs := by
  obtain ⟨-, hmul⟩ := maxTotal_spec size
  have hpos : 0 < size.bytes := Nat.lt_of_lt_of_le (by decide) (bytes_bounds size).1
  have hend : ∀ n, n ≤ length / size.bytes ↔ n * size.bytes ≤ length := fun n =>
    Nat.le_div_iff_mul_le hpos
  have hcount : ∀ s ∈ subs, s.count * size.bytes ≤ ocfPfMaxTotal := by
    intro s hs
    have hle : s.count ≤ (subs.map PfRange.count).sum :=
      List.single_le_sum (fun _ _ => Nat.zero_le _) _ (List.mem_map_of_mem hs)
    rw [← hmul]
    exact Nat.mul_le_mul_right _ (hle.trans h.total)
  have hinside : ∀ s ∈ subs, 0 < s.count ∧ range.first ≤ s.first ∧
      s.first + s.count ≤ range.first + range.count ∧
      (s.first + s.count) * size.bytes ≤ length := by
    intro s hs
    obtain ⟨hfirst, hne, hstop, -⟩ := h.each s hs
    exact ⟨hne, hfirst, hstop.trans (Nat.min_le_left _ _),
      (hend _).mp (hstop.trans (Nat.min_le_right _ _))⟩
  have hread : ∀ s ∈ subs, s.read size = ⟨s.first * size.bytes, s.count * size.bytes⟩ := by
    intro s hs
    have hlen := (hinside s hs).2.2.2
    have hmax := hcount s hs
    rw [Nat.add_mul] at hlen
    have haddr : s.first * size.bytes % 2 ^ 64 = s.first * size.bytes := Nat.mod_eq_of_lt (by omega)
    have hbytes : s.count * size.bytes % 2 ^ 32 = s.count * size.bytes :=
      Nat.mod_eq_of_lt (Nat.lt_of_le_of_lt hmax (by decide))
    rw [PfRange.read, haddr, hbytes]
  have hsum : (subs.map fun s => (s.read size).bytes).sum =
      (subs.map PfRange.count).sum * size.bytes := by
    have hbytes : (subs.map fun s => (s.read size).bytes) = subs.map fun s => s.count * size.bytes :=
      List.map_congr_left fun s hs => by rw [hread s hs]
    rw [hbytes, List.sum_map_mul_right]
  refine ⟨hinside, hread, fun s hs => (h.each s hs).2.2.2, h.ordered, ?_, ?_⟩
  · rw [hsum, ← hmul]
    exact Nat.mul_le_mul_right _ h.total
  · rw [hsum, ← hmul]
    refine h.cover.imp (fun hc => by rw [hc]) fun hc line hline hwhole hmiss => ?_
    exact hc line hline.1 (Nat.lt_min.mpr ⟨hline.2, (hend (line + 1)).mpr hwhole⟩) hmiss

/-- A prefetch ends and reads the lines of its range that are not cached. -/
theorem ocfPrefetchRange_prefetched (hit : Nat → Bool) (size : LineSize)
    (length first : Fin (2 ^ 64)) (count : Fin (2 ^ 32)) :
    ∃ subs, Returns (ocfPrefetchRange hit size length ⟨first, count⟩)
        (subs.map (PfRange.read size)) ∧ Prefetched hit size length ⟨first, count⟩ subs := by
  obtain ⟨length, hlength⟩ := length
  obtain ⟨first, hfirst⟩ := first
  obtain ⟨count, hcount⟩ := count
  obtain ⟨hmax, hmul⟩ := maxTotal_spec size
  have hvolume : length / size.bytes ≤ 2 ^ 52 := by
    have hle : length / size.bytes ≤ length / 4096 := Nat.div_le_div_left (bytes_bounds size).1
      (by decide)
    omega
  have hmaxpos : 0 < ocfPfMaxTotal / size.bytes % 2 ^ 32 := by
    refine Nat.pos_of_ne_zero fun h0 => ?_
    rw [h0, Nat.zero_mul] at hmul
    exact absurd hmul (by decide)
  by_cases hout : first ≥ length / size.bytes
  · refine ⟨[], Returns.congr (Returns.const []) fun n _ => ?_, Scanned.prefetched hlength ?_⟩
    · simp only [ocfPrefetchRange, if_pos hout, List.map_nil]
    · refine Scanned.nil (.inr fun line hl hlt => ?_)
      simp only at hl hlt
      omega
  · obtain ⟨len, hlen⟩ : ∃ len, len = min count (length / size.bytes - first) := ⟨_, rfl⟩
    have hmod : min count (length / size.bytes - first) % 2 ^ 32 = len := by
      rw [hlen]
      exact Nat.mod_eq_of_lt (by omega)
    have hstop : min (first + count) (length / size.bytes) = first + len := by omega
    by_cases hzero : len = 0
    · refine ⟨[], Returns.last fun n => ?_, Scanned.prefetched hlength ?_⟩
      · have hstay : (first + 0) % 2 ^ 64 = first := Nat.mod_eq_of_lt hfirst
        simp only [ocfPrefetchRange, if_neg hout, hmod, hzero, subRanges, ocfPfNextSubRangeMiss,
          hstay, skipHits, Nat.lt_irrefl, if_false, Option.bind_some, ge_iff_le, Nat.le_refl, if_true,
          Option.elim_none, Option.map_some, List.map_nil]
      · refine Scanned.nil (.inr fun line hl hlt => ?_)
        simp only at hl hlt
        omega
    · obtain ⟨subs, hsubs, hscan⟩ := @subRanges_spec hit ⟨first, len⟩
        (ocfPfMaxTotal / size.bytes % 2 ^ 32) (by simp only; omega) (by omega)
        (by simp only; omega) _ ⟨first, 0⟩ 0 (Nat.le_refl _) hmaxpos (Nat.le_refl _) (by simp)
      refine ⟨subs, Returns.congr (hsubs.returns.map (List.map (PfRange.read size))) fun n hn => ?_,
        Scanned.prefetched hlength ?_⟩
      · simpa only [ocfPrefetchRange, if_neg hout, hmod, Nat.sub_zero] using hn
      · simpa only [hstop, Nat.add_zero, Nat.sub_zero] using hscan

end OcfCache.PrefetchRange
