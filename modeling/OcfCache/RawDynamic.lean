import Mathlib.Algebra.BigOperators.Ring.Finset
import OcfCache.MetadataLayout
import OcfCache.Runs

/-!
# Sparse metadata segments

`metadata_raw_dynamic.c`: a segment whose pages are allocated when an entry of
them is accessed. A page that is not allocated is flushed as zeros, and a page
of zeros that is loaded is not allocated. The module compares a segment with
what a flush and a load make of it.
-/

namespace OcfCache.RawDynamic

open Function Runs
open MetadataSize (divRoundUp)

/-- `RAW_DYNAMIC_LOAD_PAGES`. -/
def rawDynamicLoadPages : Nat := 128

/-- Bytes of a page. -/
abbrev Page := Fin pageSize → UInt8

/-- A page of zeros. -/
def zeroPage : Page := fun _ => 0

/-- A byte of a page. -/
def Page.byte (q : Page) (i : Nat) : UInt8 := if h : i < pageSize then q ⟨i, h⟩ else 0

/-- A page with one byte replaced. -/
def Page.setByte (q : Page) (i : Nat) (value : UInt8) : Page :=
  fun k => if k.val = i then value else q k

/-- `struct ocf_metadata_raw` of a sparse segment. -/
structure Raw where
  /-- `ssd_pages_offset`. -/
  ssdPagesOffset : Nat
  /-- `ssd_pages`. -/
  ssdPages : Nat
  /-- `entries`. -/
  entries : Nat
  /-- `entry_size`. -/
  entrySize : Nat
  /-- `entries_in_page`. -/
  entriesInPage : Nat
  /-- The entries of a page fit. -/
  size_le : entriesInPage * entrySize ≤ pageSize
  /-- The pages hold all entries. -/
  entries_le : entries ≤ ssdPages * entriesInPage

/-- `struct _raw_ctrl`. -/
structure Ctrl where
  /-- `count`. -/
  count : Int
  /-- `pages`. -/
  pages : Nat → Option Page

/-- `raw_dynamic_init`. -/
def rawDynamicInit : Ctrl := ⟨0, fun _ => none⟩

variable (raw : Raw)

/-- `raw_dynamic_segment_size_on_ssd`, with an alignment of 128 KiB. -/
def segmentSizeOnSsd : Nat := divRoundUp raw.ssdPages 32 * 32

/-- `_RAW_DYNAMIC_PAGE`. -/
def rawDynamicPage (entry : Nat) : Nat := entry / raw.entriesInPage

/-- `_RAW_DYNAMIC_PAGE_OFFSET`. -/
def rawDynamicPageOffset (entry : Nat) : Nat := entry % raw.entriesInPage * raw.entrySize

/-- A page is put in its place. -/
def Ctrl.setPage (c : Ctrl) (page : Nat) (count : Int) (q : Option Page) : Ctrl :=
  ⟨count, update c.pages page q⟩

/-- `_raw_dynamic_get_item`: the segment behind it, with a page and an offset
in it when there is memory; no result when the assertion fails. -/
def rawDynamicGetItem (c : Ctrl) (entry : Nat) (memory : Bool) :
    Option (Ctrl × Option (Nat × Nat)) :=
  let page := rawDynamicPage raw entry
  if raw.entries ≤ entry then none
  else
    let c := if c.pages page = none ∧ memory = true then
      c.setPage page (c.count + 1) (some zeroPage) else c
    some (c, if c.pages page = none then none else some (page, rawDynamicPageOffset raw entry))

/-- A byte of an entry is written through a pointer that an access returned. -/
def Ctrl.store (c : Ctrl) (entry k : Nat) (value : UInt8) : Ctrl :=
  let page := rawDynamicPage raw entry
  let q := (c.pages page).map fun q => q.setByte (rawDynamicPageOffset raw entry + k) value
  c.setPage page c.count q

/-- A byte of an entry as an access reads it. -/
def readEntry (c : Ctrl) (entry k : Nat) : UInt8 :=
  match rawDynamicGetItem raw c entry true with
  | some (c, some (page, offset)) => ((c.pages page).getD zeroPage).byte (offset + k)
  | _ => 0

/-- `raw_dynamic_checksum` with `env_crc32` for pages. -/
def rawDynamicChecksum (crc : UInt32 → Page → UInt32) (c : Ctrl) : UInt32 :=
  (List.range raw.ssdPages).foldl
    (fun acc i => match c.pages i with
      | some q => crc acc q
      | none => acc) 0

/-- What one round of `raw_dynamic_update_pages` does with a page. -/
def placePage (c : Ctrl) (page : Nat) (q : Page) : Ctrl :=
  if q = zeroPage then
    if c.pages page = none then c else c.setPage page (c.count - 1) none
  else c.setPage page (c.count + 1) (some q)

/-- `raw_dynamic_update_pages` from page `page` on: the segment, whether there
is an unused buffer, and the result. `mem` says for which pages a buffer can
be allocated. -/
def rawDynamicUpdatePages (mem : Nat → Bool) : List Page → Nat → Bool → Ctrl → Ctrl × Bool × Int
  | [], _, buffer, c => (c, buffer, 0)
  | q :: rest, page, buffer, c =>
    if buffer = false ∧ mem page = false then (c, false, errNoMem)
    else rawDynamicUpdatePages mem rest (page + 1) (decide (q = zeroPage)) (placePage c page q)

/-- `raw_dynamic_update`. -/
def rawDynamicUpdate (zpage : Bool) (mem : Nat → Bool) (data : List Page) (page : Nat) (c : Ctrl) :
    Ctrl × Int :=
  if zpage = false then (c, errNoMem)
  else
    let r := rawDynamicUpdatePages mem data page false c
    (r.1, r.2.2)

/-- First page of a copy of the segment on the device. -/
def copyOffset (idx : Nat) : Nat := raw.ssdPagesOffset + segmentSizeOnSsd raw * idx

/-- What the environment answers to a load. -/
structure Answers where
  /-- There is memory for the context, the page of zeros, the request and its data. -/
  memory : Bool
  /-- Pages that a buffer can be allocated for. -/
  mem : Nat → Bool
  /-- Errors of the reads, by their first page. -/
  io : Nat → Int

/-- `raw_dynamic_load_all_read` and `raw_dynamic_load_all_update` in turns. -/
def loadLoop (dev : Nat → Page) (idx : Nat) (ans : Answers) : Nat → Nat → Bool → Ctrl → Ctrl × Int
  | 0, _, _, c => (c, 0)
  | fuel + 1, iPage, buffer, c =>
    if ans.io iPage ≠ 0 then (c, ans.io iPage)
    else
      let count := min rawDynamicLoadPages (raw.ssdPages - iPage)
      let data := (List.range count).map fun k => dev (copyOffset raw idx + (iPage + k))
      let r := rawDynamicUpdatePages ans.mem data iPage buffer c
      if r.2.2 ≠ 0 ∨ raw.ssdPages ≤ iPage + count then (r.1, r.2.2)
      else loadLoop dev idx ans fuel (iPage + count) r.2.1 r.1

/-- `raw_dynamic_load_all`. -/
def rawDynamicLoadAll (c : Ctrl) (dev : Nat → Page) (idx : Nat) (ans : Answers) : Ctrl × Int :=
  if ans.memory = false then (c, errNoMem)
  else loadLoop raw dev idx ans (raw.ssdPages + 1) 0 false c

/-- `raw_dynamic_flush_all_fill`. -/
def flushAllFill (c : Ctrl) (idx page : Nat) : Page :=
  (c.pages (page - copyOffset raw idx)).getD zeroPage

/-- The device behind a successful `raw_dynamic_flush_all`. -/
def rawDynamicFlushAll (c : Ctrl) (dev : Nat → Page) (idx : Nat) : Nat → Page :=
  fun p => if copyOffset raw idx ≤ p ∧ p < copyOffset raw idx + raw.ssdPages then
    flushAllFill raw c idx p else dev p

/-- Number of allocated pages. -/
def allocated (c : Ctrl) : Nat :=
  ((Finset.range raw.ssdPages).filter fun p => (c.pages p).isSome).card

/-- What happens to a segment. -/
inductive Act
  /-- `raw_dynamic_access`. -/
  | access (entry : Nat) (memory : Bool)
  /-- A write through the pointer of an access. -/
  | store (entry k : Nat) (value : UInt8)
  /-- `raw_dynamic_update`. -/
  | update (zpage : Bool) (mem : Nat → Bool) (data : List Page) (page : Nat)
  /-- `raw_dynamic_load_all`. -/
  | load (dev : Nat → Page) (idx : Nat) (ans : Answers)

/-- One step of the history of a segment. -/
def step (c : Ctrl) : Act → Option Ctrl
  | .access entry memory => (rawDynamicGetItem raw c entry memory).map Prod.fst
  | .store entry k value => some (c.store raw entry k value)
  | .update zpage mem data page => some (rawDynamicUpdate zpage mem data page c).1
  | .load dev idx ans => some (rawDynamicLoadAll raw c dev idx ans).1

/-- Histories of a segment: entries are written where they are allocated, and
updates are for pages of the segment. -/
def history : System Ctrl Act where
  guard c
    | .store entry k _ => entry < raw.entries ∧ k < raw.entrySize ∧
      c.pages (rawDynamicPage raw entry) ≠ none
    | .update _ _ data page => page + data.length ≤ raw.ssdPages
    | _ => True
  step := step raw

/-- A load gives back the segment that was flushed. -/
structure RoundTrip (crc : UInt32 → Page → UInt32) (s t : Ctrl) : Prop where
  /-- Every entry reads the same. -/
  entries : ∀ entry < raw.entries, ∀ k < raw.entrySize,
    readEntry raw t entry k = readEntry raw s entry k
  /-- The checksum is the same. -/
  checksum : rawDynamicChecksum raw crc t = rawDynamicChecksum raw crc s
  /-- The counter is right. -/
  count : t.count = allocated raw t

variable {raw} {c : Ctrl}

/-! ## What a load does -/

/-- A page as a load represents it. -/
def ofPage (q : Page) : Option Page := if q = zeroPage then none else some q

/-- What placing a page adds to the counter. -/
def countDelta (old : Option Page) (q : Page) : Int :=
  if q = zeroPage then (if old = none then 0 else -1) else 1

theorem placePage_pages (c : Ctrl) (page : Nat) (q : Page) :
    (placePage c page q).pages = update c.pages page (ofPage q) := by
  unfold placePage ofPage
  by_cases hq : q = zeroPage
  · rw [if_pos hq, if_pos hq]
    by_cases hnone : c.pages page = none
    · rw [if_pos hnone, ← hnone, update_eq_self]
    · rw [if_neg hnone]
      rfl
  · rw [if_neg hq, if_neg hq]
    rfl

theorem placePage_count (c : Ctrl) (page : Nat) (q : Page) :
    (placePage c page q).count = c.count + countDelta (c.pages page) q := by
  unfold placePage countDelta
  by_cases hq : q = zeroPage
  · rw [if_pos hq, if_pos hq]
    by_cases hnone : c.pages page = none
    · rw [if_pos hnone, if_pos hnone, Int.add_zero]
    · rw [if_neg hnone, if_neg hnone]
      rfl
  · rw [if_neg hq, if_neg hq]
    rfl

/-- A segment whose first pages were loaded. -/
structure Loaded (c : Ctrl) (content : Nat → Page) (n : Nat) (t : Ctrl) : Prop where
  /-- The pages behind the load. -/
  pages : t.pages = fun p => if p < n then ofPage (content p) else c.pages p
  /-- The counter. -/
  count : t.count = c.count + ∑ p ∈ Finset.range n, countDelta (c.pages p) (content p)

theorem Loaded.start (c : Ctrl) (content : Nat → Page) : Loaded c content 0 c where
  pages := by simp
  count := by simp

variable {content : Nat → Page}

theorem Loaded.next {n : Nat} {t : Ctrl} (h : Loaded c content n t) :
    Loaded c content (n + 1) (placePage t n (content n)) where
  pages := by
    rw [placePage_pages, h.pages]
    funext p
    by_cases hp : p = n
    · rw [hp, update_self, if_pos (Nat.lt_succ_self n)]
    · rw [update_of_ne hp]
      by_cases hlt : p < n
      · rw [if_pos hlt, if_pos (by omega)]
      · rw [if_neg hlt, if_neg (by omega)]
  count := by
    have hold : t.pages n = c.pages n := by
      rw [h.pages]
      exact if_neg (Nat.lt_irrefl n)
    rw [placePage_count, h.count, Finset.sum_range_succ, hold, Int.add_assoc]

/-- There is no buffer for a page: none can be allocated, and the page in front
of it has used up the last one. -/
def Starved (content : Nat → Page) (mem : Nat → Bool) (p : Nat) : Prop :=
  mem p = false ∧ (p = 0 ∨ content (p - 1) ≠ zeroPage)

/-- A load ends in front of a page: a read that starts there fails or there is
no buffer. -/
def Stops (content : Nat → Page) (ans : Answers) (p : Nat) : Prop :=
  p % rawDynamicLoadPages = 0 ∧ ans.io p ≠ 0 ∨ Starved content ans.mem p

/-- How far a load that started at page `n` comes. -/
structure Reaches (c : Ctrl) (content : Nat → Page) (stop : Nat → Prop) (n total m : Nat) (t : Ctrl)
    (result : Int) : Prop where
  /-- The pages behind the load. -/
  loaded : Loaded c content m t
  /-- It does not go back. -/
  le : n ≤ m
  /-- Nothing ends it earlier. -/
  passed : ∀ q, n ≤ q → q < m → ¬ stop q
  /-- It comes to its end or reports an error. -/
  ends : m = total ∧ result = 0 ∨ m < total ∧ stop m ∧ result ≠ 0

theorem updatePages_reaches {content : Nat → Page} {mem : Nat → Bool} (count : Nat) {n : Nat}
    {buffer : Bool} {t : Ctrl} (h : Loaded c content n t)
    (hbuffer : buffer = true ↔ n ≠ 0 ∧ content (n - 1) = zeroPage) :
    ∃ m, Reaches c content (Starved content mem) n (n + count) m
      (rawDynamicUpdatePages mem ((List.range' n count).map content) n buffer t).1
      (rawDynamicUpdatePages mem ((List.range' n count).map content) n buffer t).2.2 ∧
      (m = n + count →
        ((rawDynamicUpdatePages mem ((List.range' n count).map content) n buffer t).2.1 = true ↔
          m ≠ 0 ∧ content (m - 1) = zeroPage)) := by
  induction count generalizing n buffer t with
  | zero =>
    exact ⟨n, ⟨h, le_rfl, fun q hq hlt => absurd hlt (by omega), .inl ⟨rfl, rfl⟩⟩, fun _ => hbuffer⟩
  | succ count ih =>
    rw [List.range'_succ, List.map_cons, rawDynamicUpdatePages]
    have hstop : buffer = false ∧ mem n = false ↔ Starved content mem n := by
      unfold Starved
      rw [and_comm, ← Bool.not_eq_true buffer, hbuffer, not_and_or, not_not]
    by_cases hmem : buffer = false ∧ mem n = false
    · rw [if_pos hmem]
      have hnone : errNoMem ≠ 0 := by decide
      exact ⟨n, ⟨h, le_rfl, fun q hq hlt => absurd hlt (by omega),
        .inr ⟨by omega, hstop.mp hmem, hnone⟩⟩, fun hend => absurd hend (by omega)⟩
    · rw [if_neg hmem]
      have hnext : decide (content n = zeroPage) = true ↔
          n + 1 ≠ 0 ∧ content (n + 1 - 1) = zeroPage := by simp
      obtain ⟨m, hm, hbuf⟩ := ih (t := placePage t n (content n)) h.next hnext
      have hsum : n + 1 + count = n + (count + 1) := by omega
      rw [hsum] at hm hbuf
      have hle := hm.le
      refine ⟨m, ⟨hm.loaded, by omega, fun q hq hlt => ?_, hm.ends⟩, hbuf⟩
      by_cases hfirst : q = n
      · rw [hfirst, ← hstop]
        exact hmem
      · exact hm.passed q (by omega) hlt

/-- The loop loads the pages in turn. -/
theorem loadLoop_reaches {dev : Nat → Page} {idx : Nat} {ans : Answers} (fuel : Nat) {n : Nat}
    {buffer : Bool} {t : Ctrl} (hfuel : raw.ssdPages < n + fuel)
    (hn : n < raw.ssdPages) (hchunk : n % rawDynamicLoadPages = 0)
    (h : Loaded c (fun p => dev (copyOffset raw idx + p)) n t)
    (hbuffer : buffer = true ↔ n ≠ 0 ∧ dev (copyOffset raw idx + (n - 1)) = zeroPage) :
    ∃ m, Reaches c (fun p => dev (copyOffset raw idx + p))
      (Stops (fun p => dev (copyOffset raw idx + p)) ans) n raw.ssdPages m
      (loadLoop raw dev idx ans fuel n buffer t).1 (loadLoop raw dev idx ans fuel n buffer t).2 := by
  induction fuel generalizing n buffer t with
  | zero => omega
  | succ fuel ih =>
    rw [loadLoop]
    by_cases hio : ans.io n = 0
    · rw [if_neg (not_not.mpr hio)]
      dsimp only
      have hdata : (List.range (min rawDynamicLoadPages (raw.ssdPages - n))).map
          (fun k => dev (copyOffset raw idx + (n + k))) =
          (List.range' n (min rawDynamicLoadPages (raw.ssdPages - n))).map
            fun p => dev (copyOffset raw idx + p) := by
        rw [List.range'_eq_map_range, List.map_map]
        rfl
      rw [hdata]
      obtain ⟨m, hm, hbuf⟩ := @updatePages_reaches c (fun p => dev (copyOffset raw idx + p)) ans.mem
        (min rawDynamicLoadPages (raw.ssdPages - n)) n buffer t h hbuffer
      generalize rawDynamicUpdatePages ans.mem _ n buffer t = r at hm hbuf
      have hpages : rawDynamicLoadPages = 128 := rfl
      have hn₁ : n % 128 = 0 := hchunk
      have hle := hm.le
      have hpassed : ∀ q, n ≤ q → q < m → ¬ Stops (fun p => dev (copyOffset raw idx + p)) ans q := by
        intro q hq hlt hstop
        cases hstop with
        | inl hread =>
          -- inside a chunk only its first page starts a read
          have hends := hm.ends
          have hq₁ : q % 128 = 0 := hread.1
          have hfirst : q = n := by omega
          exact hread.2 (hfirst ▸ hio)
        | inr hstarved => exact hm.passed q hq hlt hstarved
      by_cases hend : r.2.2 ≠ 0 ∨ raw.ssdPages ≤ n + min rawDynamicLoadPages (raw.ssdPages - n)
      · rw [if_pos hend]
        refine ⟨m, hm.loaded, hle, hpassed, ?_⟩
        cases hm.ends with
        | inl hall => exact .inl ⟨by omega, hall.2⟩
        | inr hstop => exact .inr ⟨by omega, .inr hstop.2.1, hstop.2.2⟩
      · rw [if_neg hend]
        obtain ⟨hzero, hmore⟩ := not_or.mp hend
        have hall := hm.ends.resolve_right fun hstop => hzero hstop.2.2
        have hchunk' : (n + min rawDynamicLoadPages (raw.ssdPages - n)) % 128 = 0 := by omega
        obtain ⟨k, hk⟩ := @ih (n + min rawDynamicLoadPages (raw.ssdPages - n)) r.2.1 r.1 (by omega)
          (by omega) hchunk'
          (hall.1 ▸ hm.loaded) (hall.1 ▸ hbuf hall.1)
        have hle' := hk.le
        refine ⟨k, hk.loaded, by omega, fun q hq hlt => ?_, hk.ends⟩
        by_cases hpart : q < m
        · exact hpassed q hq hpart
        · exact hk.passed q (by omega) hlt
    · rw [if_pos hio]
      exact ⟨n, h, le_rfl, fun q hq hlt => absurd hlt (by omega), .inr ⟨hn, .inl ⟨hchunk, hio⟩, hio⟩⟩

/-- What a load of a segment with pages does: nothing without memory, and
otherwise it loads the pages up to the first one in front of which it ends. -/
theorem rawDynamicLoadAll_reaches {dev : Nat → Page} {idx : Nat} {ans : Answers}
    (hpages : 0 < raw.ssdPages) (c : Ctrl) : ∃ m, Reaches c (fun p => dev (copyOffset raw idx + p))
      (fun p => ans.memory = false ∨ Stops (fun p => dev (copyOffset raw idx + p)) ans p) 0 raw.ssdPages m
      (rawDynamicLoadAll raw c dev idx ans).1 (rawDynamicLoadAll raw c dev idx ans).2 := by
  unfold rawDynamicLoadAll
  by_cases hmemory : ans.memory = false
  · rw [if_pos hmemory]
    have hnone : errNoMem ≠ 0 := by decide
    exact ⟨0, Loaded.start c _, le_rfl, fun q _ hlt => absurd hlt (Nat.not_lt_zero q),
      .inr ⟨hpages, .inl hmemory, hnone⟩⟩
  · rw [if_neg hmemory]
    obtain ⟨m, hm⟩ := @loadLoop_reaches raw c dev idx ans (raw.ssdPages + 1) 0 false c (by omega) hpages
      (Nat.zero_mod _) (Loaded.start c _) (by simp)
    refine ⟨m, hm.loaded, hm.le, fun q hq hlt hstop => ?_, ?_⟩
    · cases hstop with
      | inl hno => exact hmemory hno
      | inr hstop => exact hm.passed q hq hlt hstop
    · cases hm.ends with
      | inl hall => exact .inl hall
      | inr hstop => exact .inr ⟨hstop.1, .inr hstop.2.1, hstop.2.2⟩

variable {dev : Nat → Page} {idx : Nat} {ans : Answers}

theorem rawDynamicLoadAll_loaded {u : Ctrl} (hload : rawDynamicLoadAll raw c dev idx ans = (u, 0)) :
    Loaded c (fun p => dev (copyOffset raw idx + p)) raw.ssdPages u := by
  rcases Nat.eq_zero_or_pos raw.ssdPages with hzero | hpos
  · have hsame : u = c := by
      unfold rawDynamicLoadAll at hload
      split at hload
      · exact (Prod.mk.inj hload).1.symm
      · rw [loadLoop] at hload
        split at hload
        · exact (Prod.mk.inj hload).1.symm
        · simp only [hzero, Nat.zero_sub, Nat.min_zero, List.range_zero, List.map_nil,
            rawDynamicUpdatePages, Nat.zero_le, or_true, if_true] at hload
          exact (Prod.mk.inj hload).1.symm
    rw [hzero, hsame]
    exact Loaded.start c _
  · obtain ⟨m, hm⟩ := @rawDynamicLoadAll_reaches raw dev idx ans hpos c
    rw [hload] at hm
    have hall := hm.ends.resolve_right fun hstop => hstop.2.2 rfl
    rw [← hall.1]
    exact hm.loaded

theorem loadAll_loaded {s t u : Ctrl}
    (hload : rawDynamicLoadAll raw t (rawDynamicFlushAll raw s dev idx) idx ans = (u, 0)) :
    Loaded t (fun p => if p < raw.ssdPages then (s.pages p).getD zeroPage
      else dev (copyOffset raw idx + p)) raw.ssdPages u := by
  have h := rawDynamicLoadAll_loaded hload
  have hcontent : (fun p => rawDynamicFlushAll raw s dev idx (copyOffset raw idx + p)) =
      fun p => if p < raw.ssdPages then (s.pages p).getD zeroPage
        else dev (copyOffset raw idx + p) := by
    funext p
    unfold rawDynamicFlushAll flushAllFill
    by_cases hp : p < raw.ssdPages
    · rw [if_pos ⟨by omega, by omega⟩, if_pos hp, Nat.add_sub_cancel_left]
    · rw [if_neg (by omega), if_neg hp]
  rw [hcontent] at h
  exact h

/-! ## Entries and checksum -/

theorem ofPage_getD (q : Page) : (ofPage q).getD zeroPage = q := by
  unfold ofPage
  split
  · rename_i h
    exact h.symm
  · rfl

theorem rawDynamicPage_lt {entry : Nat} (h : entry < raw.entries) :
    rawDynamicPage raw entry < raw.ssdPages := by
  have hle := raw.entries_le
  refine Nat.div_lt_of_lt_mul ?_
  rw [Nat.mul_comm]
  omega

theorem readEntry_eq {entry : Nat} (h : entry < raw.entries) (k : Nat) :
    readEntry raw c entry k = ((c.pages (rawDynamicPage raw entry)).getD zeroPage).byte
      (rawDynamicPageOffset raw entry + k) := by
  unfold readEntry rawDynamicGetItem
  simp only [if_neg (Nat.not_le.mpr h)]
  cases hpage : c.pages (rawDynamicPage raw entry) with
  | none => simp [Ctrl.setPage]
  | some q => simp [hpage]

theorem checksum_congr {crc : UInt32 → Page → UInt32} {s t : Ctrl}
    (h : ∀ p < raw.ssdPages, t.pages p = s.pages p) :
    rawDynamicChecksum raw crc t = rawDynamicChecksum raw crc s := by
  refine List.foldl_ext _ _ 0 fun acc p hp => ?_
  rw [h p (List.mem_range.mp hp)]

/-- A checksum that tells an allocated page of zeros. -/
def zeroCrc (acc : UInt32) (q : Page) : UInt32 := if q = zeroPage then 1 else acc

theorem foldl_zeroCrc (c : Ctrl) (ps : List Nat) (acc : UInt32) :
    ps.foldl (fun acc i => match c.pages i with | some q => zeroCrc acc q | none => acc) acc =
      if ∃ p ∈ ps, c.pages p = some zeroPage then 1 else acc := by
  induction ps generalizing acc with
  | nil => simp
  | cons p ps ih =>
    rw [List.foldl_cons, ih]
    by_cases hrest : ∃ p ∈ ps, c.pages p = some zeroPage
    · obtain ⟨r, hr, hz⟩ := hrest
      rw [if_pos ⟨r, hr, hz⟩, if_pos ⟨r, List.mem_cons_of_mem _ hr, hz⟩]
    · rw [if_neg hrest]
      cases hp : c.pages p with
      | none =>
        rw [if_neg]
        rintro ⟨r, hr, hz⟩
        rcases List.mem_cons.mp hr with rfl | hr
        · rw [hp] at hz
          cases hz
        · exact hrest ⟨r, hr, hz⟩
      | some q =>
        by_cases hq : q = zeroPage
        · subst hq
          rw [if_pos ⟨p, List.mem_cons_self, hp⟩]
          exact if_pos rfl
        · rw [if_neg]
          · exact if_neg hq
          · rintro ⟨r, hr, hz⟩
            rcases List.mem_cons.mp hr with rfl | hr
            · rw [hp] at hz
              exact hq (Option.some.inj hz)
            · exact hrest ⟨r, hr, hz⟩

theorem checksum_zeroCrc (c : Ctrl) : rawDynamicChecksum raw zeroCrc c =
    if ∃ p < raw.ssdPages, c.pages p = some zeroPage then 1 else 0 := by
  unfold rawDynamicChecksum
  rw [foldl_zeroCrc]
  simp only [List.mem_range]

/-! ## The counter -/

theorem allocated_eq_sum (c : Ctrl) :
    (allocated raw c : Int) = ∑ p ∈ Finset.range raw.ssdPages, if c.pages p = none then 0 else 1 := by
  rw [allocated, Finset.natCast_card_filter]
  refine Finset.sum_congr rfl fun p _ => ?_
  cases c.pages p <;> rfl

theorem allocated_setPage {page : Nat} (hp : page < raw.ssdPages) (n : Int) (q : Option Page) :
    (allocated raw (c.setPage page n q) : Int) = allocated raw c -
      (if c.pages page = none then 0 else 1) + if q = none then 0 else 1 := by
  have hmem : page ∈ Finset.range raw.ssdPages := Finset.mem_range.mpr hp
  have hrest : ∑ p ∈ (Finset.range raw.ssdPages).erase page,
      (if (c.setPage page n q).pages p = none then (0 : Int) else 1) =
      ∑ p ∈ (Finset.range raw.ssdPages).erase page, if c.pages p = none then 0 else 1 := by
    refine Finset.sum_congr rfl fun p hp' => ?_
    have hne := Finset.ne_of_mem_erase hp'
    simp only [Ctrl.setPage, update_of_ne hne]
  rw [allocated_eq_sum, allocated_eq_sum, ← Finset.add_sum_erase _ _ hmem, hrest,
    ← Finset.add_sum_erase _ (fun p => if c.pages p = none then (0 : Int) else 1) hmem]
  simp only [Ctrl.setPage, update_self]
  omega

/-- The counter is never below the number of allocated pages. -/
def Counted (raw : Raw) (c : Ctrl) : Prop := (allocated raw c : Int) ≤ c.count

theorem Counted.placePage (h : Counted raw c) {page : Nat} (hp : page < raw.ssdPages) (q : Page) :
    Counted raw (placePage c page q) := by
  unfold Counted at h ⊢
  unfold RawDynamic.placePage
  by_cases hq : q = zeroPage
  · rw [if_pos hq]
    by_cases hnone : c.pages page = none
    · rw [if_pos hnone]
      exact h
    · rw [if_neg hnone, allocated_setPage hp, if_neg hnone]
      simp only [Ctrl.setPage, if_true]
      omega
  · rw [if_neg hq, allocated_setPage hp]
    simp only [Ctrl.setPage, reduceCtorEq, if_false]
    split <;> omega

theorem Counted.updatePages {mem : Nat → Bool} (data : List Page) {page : Nat} {buffer : Bool}
    (h : Counted raw c) (hp : page + data.length ≤ raw.ssdPages) :
    Counted raw (rawDynamicUpdatePages mem data page buffer c).1 := by
  induction data generalizing page buffer c with
  | nil => exact h
  | cons q rest ih =>
    rw [List.length_cons] at hp
    rw [rawDynamicUpdatePages]
    split
    · exact h
    · exact ih (h.placePage (by omega) q) (by omega)

theorem Counted.loadLoop (fuel : Nat) {n : Nat}
    {buffer : Bool} (h : Counted raw c) (hn : n ≤ raw.ssdPages) :
    Counted raw (loadLoop raw dev idx ans fuel n buffer c).1 := by
  induction fuel generalizing n buffer c with
  | zero => exact h
  | succ fuel ih =>
    rw [RawDynamic.loadLoop]
    split
    · exact h
    · dsimp only
      have hpart := @Counted.updatePages raw c ans.mem
        ((List.range (min rawDynamicLoadPages (raw.ssdPages - n))).map
          fun k => dev (copyOffset raw idx + (n + k))) n buffer h
        (by rw [List.length_map, List.length_range]; omega)
      split
      · exact hpart
      · exact ih hpart (by omega)

theorem Counted.step {t : Ctrl} {a : Act} (h : Counted raw c) (hg : (history raw).guard c a)
    (hstep : step raw c a = some t) : Counted raw t := by
  cases a with
  | access entry memory =>
    simp only [RawDynamic.step, rawDynamicGetItem] at hstep
    by_cases hin : raw.entries ≤ entry
    · rw [if_pos hin] at hstep
      cases hstep
    · rw [if_neg hin] at hstep
      obtain rfl := Option.some.inj hstep
      split
      · rename_i hnew
        unfold Counted at h ⊢
        rw [allocated_setPage (rawDynamicPage_lt (by omega)), if_pos hnew.1]
        simp only [Ctrl.setPage, reduceCtorEq, if_false]
        omega
      · exact h
  | store entry k value =>
    obtain ⟨hin, -, hpage⟩ := hg
    obtain rfl := Option.some.inj hstep
    unfold Counted at h ⊢
    simp only [Ctrl.store]
    rw [allocated_setPage (rawDynamicPage_lt hin), if_neg hpage]
    simp only [Option.map_eq_none_iff, hpage, if_false, Ctrl.setPage]
    omega
  | update zpage mem data page =>
    obtain rfl := Option.some.inj hstep
    unfold rawDynamicUpdate
    split
    · exact h
    · exact h.updatePages data hg
  | load dev idx ans =>
    obtain rfl := Option.some.inj hstep
    unfold rawDynamicLoadAll
    split
    · exact h
    · exact h.loadLoop _ (Nat.zero_le _)

theorem counted_of_reachable (h : Reachable (history raw) rawDynamicInit c) : Counted raw c :=
  h.invariant (fun _ => by simp [Counted, allocated, rawDynamicInit])
    fun _ _ _ hinv _ hg hstep _ => hinv.step hg hstep

/-- Pages that the segment holds and that receive data. -/
def replaced (raw : Raw) (s t : Ctrl) : Nat :=
  ((Finset.range raw.ssdPages).filter fun p =>
    t.pages p ≠ none ∧ (s.pages p).getD zeroPage ≠ zeroPage).card

theorem Loaded.count_sub {s t u : Ctrl}
    (hcontent : ∀ p < raw.ssdPages, content p = (s.pages p).getD zeroPage)
    (h : Loaded t content raw.ssdPages u) :
    u.count - allocated raw u = t.count - allocated raw t + replaced raw s t := by
  have hu : (allocated raw u : Int) = ∑ p ∈ Finset.range raw.ssdPages,
      if content p = zeroPage then 0 else 1 := by
    rw [allocated_eq_sum]
    refine Finset.sum_congr rfl fun p hp => ?_
    rw [h.pages]
    simp only [if_pos (Finset.mem_range.mp hp), ofPage]
    by_cases hz : content p = zeroPage
    · simp [hz]
    · simp [hz]
  have hr : (replaced raw s t : Int) = ∑ p ∈ Finset.range raw.ssdPages,
      if t.pages p ≠ none ∧ (s.pages p).getD zeroPage ≠ zeroPage then 1 else 0 := by
    rw [replaced, Finset.natCast_card_filter]
  have hsum : (∑ p ∈ Finset.range raw.ssdPages, countDelta (t.pages p) (content p)) =
      (allocated raw u : Int) - allocated raw t + replaced raw s t := by
    rw [hu, hr, allocated_eq_sum t, ← Finset.sum_sub_distrib, ← Finset.sum_add_distrib]
    refine Finset.sum_congr rfl fun p hp => ?_
    rw [← hcontent p (Finset.mem_range.mp hp), countDelta]
    by_cases hz : content p = zeroPage
    · by_cases hn : t.pages p = none
      · simp [hz, hn]
      · simp [hz, hn]
    · by_cases hn : t.pages p = none
      · simp [hz, hn]
      · simp [hz, hn]
  rw [h.count, hsum]
  omega

/-- The conditions under which a flush of `s` and a load into `t` give back
the segment: no allocated page of `s` is all zeros, the counter of `t` is
right, and no allocated page of `t` receives data. -/
structure Faithful (raw : Raw) (s t : Ctrl) : Prop where
  /-- No allocated page of the flushed segment is all zeros. -/
  nonzero : ∀ p < raw.ssdPages, s.pages p ≠ some zeroPage
  /-- The counter of the segment that is loaded into. -/
  count : t.count = allocated raw t
  /-- Pages that receive data are not allocated. -/
  fresh : ∀ p < raw.ssdPages, (s.pages p).getD zeroPage ≠ zeroPage → t.pages p = none

/-- After any histories of both segments and a successful load of what was
flushed, the segment is given back, for every checksum function, if and only
if the conditions hold. The entries read the same in any case. -/
theorem loadAll_roundTrip_iff (raw : Raw) (s t u : Ctrl) (_ : Reachable (history raw) rawDynamicInit s)
    (ht : Reachable (history raw) rawDynamicInit t) (dev : Nat → Page) (idx : Nat) (ans : Answers)
    (hload : rawDynamicLoadAll raw t (rawDynamicFlushAll raw s dev idx) idx ans = (u, 0)) :
    ((∀ crc, RoundTrip raw crc s u) ↔ Faithful raw s t) ∧
      ∀ entry < raw.entries, ∀ k < raw.entrySize, readEntry raw u entry k = readEntry raw s entry k := by
  have hloaded := loadAll_loaded hload
  have hpages : ∀ p < raw.ssdPages, u.pages p = ofPage ((s.pages p).getD zeroPage) := by
    intro p hp
    rw [hloaded.pages]
    simp only [if_pos hp]
  have hcount := hloaded.count_sub (s := s) fun p hp => if_pos hp
  have hcounted : (allocated raw t : Int) ≤ t.count := counted_of_reachable ht
  have hentries : ∀ entry < raw.entries, ∀ k < raw.entrySize,
      readEntry raw u entry k = readEntry raw s entry k := by
    intro entry hentry k _
    rw [readEntry_eq hentry, readEntry_eq hentry, hpages _ (rawDynamicPage_lt hentry), ofPage_getD]
  refine ⟨⟨fun h => ?_, fun h crc => ?_⟩, hentries⟩
  · have hright := (h zeroCrc).count
    have hzero : replaced raw s t = 0 := by omega
    exact {
      nonzero := by
        have hsum := (h zeroCrc).checksum
        have hu : ¬ ∃ p < raw.ssdPages, u.pages p = some zeroPage := by
          rintro ⟨p, hp, hz⟩
          rw [hpages p hp, ofPage] at hz
          split at hz
          · cases hz
          · exact absurd (Option.some.inj hz) (by assumption)
        rw [checksum_zeroCrc, checksum_zeroCrc, if_neg hu] at hsum
        intro p hp hz
        rw [if_pos ⟨p, hp, hz⟩] at hsum
        exact absurd hsum (by decide)
      count := by omega
      fresh := by
        intro p hp hdata
        by_contra hold
        have hmem : p ∈ (Finset.range raw.ssdPages).filter fun p =>
            t.pages p ≠ none ∧ (s.pages p).getD zeroPage ≠ zeroPage :=
          Finset.mem_filter.mpr ⟨Finset.mem_range.mpr hp, hold, hdata⟩
        rw [Finset.card_eq_zero.mp hzero] at hmem
        exact absurd hmem (Finset.notMem_empty p) }
  · have hsame : ∀ p < raw.ssdPages, u.pages p = s.pages p := by
      intro p hp
      rw [hpages p hp]
      cases hs : s.pages p with
      | none => exact if_pos rfl
      | some q => exact if_neg (fun hz => h.nonzero p hp (by rw [hs]; exact congrArg some hz))
    have hzero : replaced raw s t = 0 := by
      refine Finset.card_eq_zero.mpr (Finset.filter_eq_empty_iff.mpr fun p hp hboth => ?_)
      exact hboth.1 (h.fresh p (Finset.mem_range.mp hp) hboth.2)
    have heq := h.count
    exact ⟨hentries, checksum_congr hsame, by omega⟩

/-- A segment of one page with one entry. -/
def onePage : Raw := ⟨0, 1, 1, pageSize, 1, Nat.le_of_eq (Nat.one_mul _), Nat.le_refl 1⟩

/-- All memory is there and all reads succeed. -/
def noErrors : Answers := ⟨true, fun _ => true, fun _ => 0⟩

/-- A page whose first byte is one. -/
def firstByteSet : Page := zeroPage.setByte 0 1

theorem firstByteSet_ne : firstByteSet ≠ zeroPage := by
  intro h
  have hbyte := congrFun h ⟨0, by decide⟩
  simp [firstByteSet, Page.setByte, zeroPage] at hbyte

/-- The segment with an entry that holds data. -/
def written : Ctrl := ⟨1, update (fun _ => none) 0 (some firstByteSet)⟩

theorem reachable_written : Reachable (history onePage) rawDynamicInit written := by
  have h₁ : Reachable (history onePage) rawDynamicInit
      ⟨1, update (fun _ => none) 0 (some zeroPage)⟩ :=
    Reachable.next (.refl trivial) (.access 0 true) trivial rfl
  exact h₁.next (.store 0 0 1)
    ⟨Nat.zero_lt_one, (show 0 < pageSize by decide), by simp [onePage, rawDynamicPage]⟩ (by
      simp [history, step, Ctrl.store, Ctrl.setPage, rawDynamicPage, rawDynamicPageOffset, onePage,
        written, firstByteSet])

theorem load_onePage (t : Ctrl) (dev : Nat → Page) (hdev : dev 0 ≠ zeroPage) :
    rawDynamicLoadAll onePage t dev 0 noErrors = (t.setPage 0 (t.count + 1) (some (dev 0)), 0) := by
  simp [rawDynamicLoadAll, noErrors, loadLoop, onePage, rawDynamicLoadPages, copyOffset,
    rawDynamicUpdatePages, placePage, hdev]

theorem flush_written (dev : Nat → Page) :
    rawDynamicFlushAll onePage written dev 0 0 = firstByteSet := by
  simp [rawDynamicFlushAll, flushAllFill, copyOffset, onePage, written]

/-- What is flushed and loaded into a new segment. -/
theorem roundTrip_written :
    RoundTrip onePage zeroCrc written ⟨1, update (fun _ => none) 0 (some firstByteSet)⟩ := by
  have hload := load_onePage rawDynamicInit (rawDynamicFlushAll onePage written (fun _ => zeroPage) 0)
    (by rw [flush_written]; exact firstByteSet_ne)
  have hiff := (loadAll_roundTrip_iff onePage written rawDynamicInit _ reachable_written (.refl trivial)
    (fun _ => zeroPage) 0 noErrors hload).1
  refine hiff.mpr ⟨fun p hp hz => ?_, rfl, fun p _ _ => rfl⟩ zeroCrc
  obtain rfl : p = 0 := Nat.lt_one_iff.mp hp
  exact firstByteSet_ne (Option.some.inj hz)

/-- A load over an allocated page counts it twice, whatever the checksum. -/
theorem load_counts_twice :
    ¬ ∃ crc : UInt32 → Page → UInt32, ∀ (raw : Raw) (s t u : Ctrl), Reachable (history raw) rawDynamicInit s →
      Reachable (history raw) rawDynamicInit t → ∀ (dev : Nat → Page) (idx : Nat) (ans : Answers),
      rawDynamicLoadAll raw t (rawDynamicFlushAll raw s dev idx) idx ans = (u, 0) →
      RoundTrip raw crc s u := by
  rintro ⟨crc, h⟩
  have hload := load_onePage written (rawDynamicFlushAll onePage written (fun _ => zeroPage) 0)
    (by rw [flush_written]; exact firstByteSet_ne)
  have hround := h onePage written written _ reachable_written reachable_written
    (fun _ => zeroPage) 0 noErrors hload
  have hcount := hround.count
  rw [allocated_setPage (show 0 < onePage.ssdPages from Nat.zero_lt_one)] at hcount
  have hone : (allocated onePage written : Int) = 1 := by
    rw [allocated_eq_sum]
    simp [onePage, written]
  rw [hone] at hcount
  simp [Ctrl.setPage, written] at hcount

end OcfCache.RawDynamic
