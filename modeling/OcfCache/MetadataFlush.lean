import Mathlib.Data.List.GetD
import Mathlib.Data.List.Perm.Basic
import OcfCache.Requests
import OcfCache.Runs

/-!
# Flush of the collision metadata of a request

`_raw_ram_flush_do_asynch`: the pages of the flagged cache lines are sorted and
written in ranges of neighbours. Every call of `metadata_io_write_i_asynch` may
be refused at once or call back later, with or without an error, and the
callbacks may come in any order and at any time. The module shows which pages
the calls write and how often the flush completes.
-/

namespace OcfCache.MetadataFlush

open Requests Runs

/-- `struct ocf_metadata_raw` as far as the flush uses it. -/
structure Raw where
  /-- `entries_in_page`. -/
  entriesInPage : Nat
  /-- `ssd_pages_offset`. -/
  ssdPagesOffset : Nat

/-- A request as far as the flush uses it. -/
structure FlushRequest where
  /-- The map, `core_line_count` entries long. -/
  map : List MapInfo
  /-- `info.flush_metadata`. -/
  flushMetadata : Bool

/-- Arguments of a call of `metadata_io_write_i_asynch`. -/
structure PageRange where
  /-- First page on the device. -/
  page : Nat
  /-- Number of pages. -/
  count : Nat
  deriving DecidableEq, Repr

/-- Pages of a range. -/
def PageRange.pages (r : PageRange) : List Nat := List.range' r.page r.count

/-- Pages of a list of ranges, in their order. -/
def pagesOf (rs : List PageRange) : List Nat := rs.flatMap PageRange.pages

variable (raw : Raw) (req : FlushRequest)

/-- `_RAW_RAM_PAGE`. -/
def rawRamPage (line : Nat) : Nat := line / raw.entriesInPage

/-- `__raw_ram_flush_do_asynch_add_pages`. -/
def addPages : List Nat :=
  (req.map.filter fun e => e.flush).map fun e => rawRamPage raw e.collIdx

/-- The table of pages behind `env_sort`. -/
def pagesTab : List Nat := (addPages raw req).mergeSort

/-- The inner loop from index `i` with `count` pages: it passes over the same
page and takes the next one. -/
def growRange (tab : List Nat) : Nat → Nat → Nat → Nat × Nat
  | 0, i, count => (i, count)
  | fuel + 1, i, count =>
    if tab.length ≤ i + 1 then (i, count)
    else if tab.getD i 0 = tab.getD (i + 1) 0 then growRange tab fuel (i + 1) count
    else if tab.getD i 0 + 1 ≠ tab.getD (i + 1) 0 then (i, count)
    else growRange tab fuel (i + 1) (count + 1)

/-- What the caller does next. -/
inductive Caller
  /-- It looks at the flag and allocates. -/
  | start
  /-- It is in the outer loop. -/
  | loop (i : Nat)
  /-- It calls its own completion. -/
  | finish (result : Int)
  /-- It has returned. -/
  | returned (result : Int)
  deriving DecidableEq

/-- `struct _raw_ram_flush_ctx` with what happened. -/
structure State where
  /-- The caller. -/
  caller : Caller
  /-- `flush_req_cnt`. -/
  flushReqCnt : Int
  /-- `error`. -/
  error : Int
  /-- Writes that were accepted and have not called back. -/
  pending : List PageRange
  /-- Writes that called back without an error. -/
  written : List PageRange
  /-- Results that the calls of `metadata_io_write_i_asynch` returned. -/
  answers : List Int
  /-- Errors that `complete` was called with. -/
  completed : List Int

/-- The call begins. -/
def initial : State := ⟨.start, 0, 0, [], [], [], []⟩

/-- Outcome of the allocations. -/
inductive Alloc
  /-- All memory is there. -/
  | ok
  /-- There is no memory for the context. -/
  | noCtx
  /-- There is no memory for the table. -/
  | noTab
  deriving DecidableEq

/-- What may happen next. -/
inductive Act
  /-- The caller looks at the flag and allocates. -/
  | begin (alloc : Alloc)
  /-- One round of the outer loop; the call returns `answer`. -/
  | write (answer : Int)
  /-- The outer loop is over. -/
  | leave
  /-- The caller calls its own completion and returns. -/
  | finish
  /-- A write calls back. -/
  | ioComplete (r : PageRange) (error : Int)
  deriving DecidableEq

/-- `_raw_ram_flush_do_asynch_io_complete`. -/
def ioComplete (s : State) (error : Int) : State :=
  let s := if error ≠ 0 then { s with error } else s
  let s := { s with flushReqCnt := s.flushReqCnt - 1 }
  if s.flushReqCnt ≠ 0 then s else { s with completed := s.completed ++ [s.error] }

/-- The range that a round of the outer loop writes, with its last index. -/
def nextRange (tab : List Nat) (i : Nat) : Nat × PageRange :=
  let r := growRange tab tab.length i 1
  (r.1, ⟨raw.ssdPagesOffset + tab.getD i 0, r.2⟩)

/-- One step; no result when it is not the turn of the actor. -/
def step (s : State) : Act → Option State
  | .begin alloc =>
    if s.caller = .start then
      if req.flushMetadata = false then
        some { s with caller := .returned 0, completed := s.completed ++ [0] }
      else if alloc = .noCtx then
        some { s with caller := .returned errNoMem, completed := s.completed ++ [errNoMem] }
      else if alloc = .noTab then
        if req.map.length ≤ maxStackTabSize then none
        else some { s with caller := .returned errNoMem, completed := s.completed ++ [errNoMem] }
      else some { s with caller := .loop 0, flushReqCnt := 1 }
    else none
  | .write answer =>
    match s.caller with
    | .loop i =>
      if i < (pagesTab raw req).length then
        let r := nextRange raw (pagesTab raw req) i
        let s := { s with flushReqCnt := s.flushReqCnt + 1, answers := s.answers ++ [answer] }
        if answer ≠ 0 then some { s with caller := .finish answer }
        else some { s with caller := .loop (r.1 + 1), pending := s.pending ++ [r.2] }
      else none
    | _ => none
  | .leave =>
    match s.caller with
    | .loop i => if i < (pagesTab raw req).length then none else some { s with caller := .finish 0 }
    | _ => none
  | .finish =>
    match s.caller with
    | .finish result => some { ioComplete s result with caller := .returned result }
    | _ => none
  | .ioComplete r error =>
    if r ∈ s.pending then
      some (ioComplete { s with
        pending := s.pending.erase r
        written := if error = 0 then s.written ++ [r] else s.written } error)
    else none

/-- The flush with all its interleavings. -/
def system : System State Act where
  guard _ _ := True
  step := step raw req

/-- The caller has returned and every accepted write has called back. -/
def Settled (s : State) : Prop := (∃ result, s.caller = .returned result) ∧ s.pending = []

/-- A page of a flagged cache line on the device. -/
def Flagged (p : Nat) : Prop :=
  ∃ e ∈ req.map, e.flush = true ∧ p = raw.ssdPagesOffset + rawRamPage raw e.collIdx

/-- Exactly the pages of the flagged cache lines were written, each in exactly
one range. -/
def AllWritten (s : State) : Prop :=
  (∀ p, p ∈ pagesOf s.written ↔ Flagged raw req p) ∧ (pagesOf s.written).Nodup

/-- What the flush promises of a state: it completes once, and with zero only
when the right pages were written. -/
structure FlushRight (s : State) : Prop where
  /-- It does not complete twice. -/
  once : s.completed.length ≤ 1
  /-- Zero says that the pages are written. -/
  zero : 0 ∈ s.completed → AllWritten raw req s
  /-- It completes. -/
  done : Settled s → s.completed ≠ []

variable {raw req}

/-! ## The ranges -/

/-- A table whose pages do not decrease. -/
def Ascending (tab : List Nat) : Prop :=
  ∀ i j, i ≤ j → j < tab.length → tab.getD i 0 ≤ tab.getD j 0

theorem pagesTab_ascending : Ascending (pagesTab raw req) := by
  intro i j hij hj
  have hsorted : (pagesTab raw req).Pairwise (fun a b => decide (a ≤ b) = true) :=
    List.pairwise_mergeSort (fun a b c hab hbc => by simp only [decide_eq_true_eq] at *; omega)
      (fun a b => by simp only [Bool.or_eq_true, decide_eq_true_eq]; omega) _
  have hi : i < (pagesTab raw req).length := by omega
  rw [List.getD_eq_getElem _ _ hi, List.getD_eq_getElem _ _ hj]
  rcases Nat.lt_or_eq_of_le hij with hlt | heq
  · have hle := List.pairwise_iff_getElem.mp hsorted i j hi hj hlt
    simpa using hle
  · simp only [heq, le_refl]

theorem mem_pagesTab {p : Nat} : p ∈ pagesTab raw req ↔ p ∈ addPages raw req := by
  simp [pagesTab]

theorem flagged_iff {p : Nat} : Flagged raw req p ↔
      ∃ k < (pagesTab raw req).length, p = raw.ssdPagesOffset + (pagesTab raw req).getD k 0 := by
  constructor
  · rintro ⟨e, he, hflush, hp⟩
    have hmem : rawRamPage raw e.collIdx ∈ pagesTab raw req := by
      rw [mem_pagesTab]
      exact List.mem_map.mpr ⟨e, List.mem_filter.mpr ⟨he, hflush⟩, rfl⟩
    obtain ⟨k, hk, hget⟩ := List.mem_iff_getElem.mp hmem
    exact ⟨k, hk, by rw [List.getD_eq_getElem _ _ hk, hget, hp]⟩
  · rintro ⟨k, hk, hp⟩
    have hmem : (pagesTab raw req).getD k 0 ∈ addPages raw req := by
      rw [List.getD_eq_getElem _ _ hk, ← mem_pagesTab]
      exact List.getElem_mem hk
    obtain ⟨e, he, heq⟩ := List.mem_map.mp hmem
    obtain ⟨he, hflush⟩ := List.mem_filter.mp he
    exact ⟨e, he, hflush, by rw [hp, heq]⟩

theorem growRange_spec {tab : List Nat} (fuel i count start : Nat) (hi : i < tab.length)
    (hfuel : tab.length ≤ i + fuel + 1) (hcount : tab.getD i 0 + 1 = start + count)
    (hall : ∀ p, start ≤ p → p ≤ tab.getD i 0 → ∃ k ≤ i, tab.getD k 0 = p) :
    i ≤ (growRange tab fuel i count).1 ∧ (growRange tab fuel i count).1 < tab.length ∧
      tab.getD (growRange tab fuel i count).1 0 + 1 = start + (growRange tab fuel i count).2 ∧
      (∀ p, start ≤ p → p ≤ tab.getD (growRange tab fuel i count).1 0 →
        ∃ k ≤ (growRange tab fuel i count).1, tab.getD k 0 = p) ∧
      ((growRange tab fuel i count).1 + 1 < tab.length → tab.getD (growRange tab fuel i count).1 0 ≠
            tab.getD ((growRange tab fuel i count).1 + 1) 0 ∧
          tab.getD (growRange tab fuel i count).1 0 + 1 ≠
            tab.getD ((growRange tab fuel i count).1 + 1) 0) := by
  induction fuel generalizing i count with
  | zero => exact ⟨le_rfl, hi, hcount, hall, fun h => by simp only [growRange] at h; omega⟩
  | succ fuel ih =>
    rw [growRange]
    by_cases hend : tab.length ≤ i + 1
    · rw [if_pos hend]
      exact ⟨le_rfl, hi, hcount, hall, fun h => by simp only at h; omega⟩
    · rw [if_neg hend]
      by_cases hsame : tab.getD i 0 = tab.getD (i + 1) 0
      · rw [if_pos hsame]
        obtain ⟨hle, hrest⟩ := ih (i + 1) count (by omega) (by omega) (by rw [← hsame]; exact hcount)
          (fun p hp hp' => by
            obtain ⟨k, hk, heq⟩ := hall p hp (by rw [hsame]; exact hp')
            exact ⟨k, by omega, heq⟩)
        exact ⟨by omega, hrest⟩
      · rw [if_neg hsame]
        by_cases hnext : tab.getD i 0 + 1 = tab.getD (i + 1) 0
        · rw [if_neg (not_not.mpr hnext)]
          obtain ⟨hle, hrest⟩ := ih (i + 1) (count + 1) (by omega) (by omega) (by omega)
            (fun p hp hp' => by
              by_cases hlast : p = tab.getD (i + 1) 0
              · exact ⟨i + 1, le_rfl, hlast.symm⟩
              · obtain ⟨k, hk, heq⟩ := hall p hp (by omega)
                exact ⟨k, by omega, heq⟩)
          exact ⟨by omega, hrest⟩
        · rw [if_pos hnext]
          exact ⟨le_rfl, hi, hcount, hall, fun _ => ⟨hsame, hnext⟩⟩

/-- The ranges are those of the table in front of index `i`. -/
structure Cut (tab : List Nat) (off i : Nat) (rs : List PageRange) : Prop where
  /-- Their pages. -/
  mem : ∀ p, p ∈ pagesOf rs ↔ ∃ k < i, k < tab.length ∧ p = off + tab.getD k 0
  /-- No page is in two of them, or twice in one. -/
  nodup : (pagesOf rs).Nodup
  /-- The next page is a new one. -/
  fresh : ∀ k < i, i < tab.length → tab.getD k 0 < tab.getD i 0

theorem Cut.start (tab : List Nat) (off : Nat) : Cut tab off 0 [] where
  mem p := by simp [pagesOf]
  nodup := by simp [pagesOf]
  fresh k hk := by omega

/-- The next range of adjacent pages. -/
theorem Cut.next {tab : List Nat} {i : Nat} {rs : List PageRange} (hs : Ascending tab)
    (h : Cut tab raw.ssdPagesOffset i rs) (hi : i < tab.length) :
    i ≤ (nextRange raw tab i).1 ∧ (nextRange raw tab i).1 < tab.length ∧
      Cut tab raw.ssdPagesOffset ((nextRange raw tab i).1 + 1) (rs ++ [(nextRange raw tab i).2]) := by
  obtain ⟨hle, hlt, hlast, hall, hnew⟩ := growRange_spec tab.length i 1 (tab.getD i 0) hi
    (by omega) rfl (fun p hp hp' => ⟨i, le_rfl, by omega⟩)
  simp only [nextRange]
  generalize growRange tab tab.length i 1 = r at hle hlt hlast hall hnew ⊢
  have hpages : ∀ p, p ∈ (⟨raw.ssdPagesOffset + tab.getD i 0, r.2⟩ : PageRange).pages ↔
      ∃ k, i ≤ k ∧ k ≤ r.1 ∧ p = raw.ssdPagesOffset + tab.getD k 0 := by
    intro p
    simp only [PageRange.pages, List.mem_range'_1]
    constructor
    · rintro ⟨hp, hp'⟩
      obtain ⟨k, hk, heq⟩ := hall (p - raw.ssdPagesOffset) (by omega) (by omega)
      refine ⟨k, ?_, hk, by omega⟩
      by_contra hki
      have hfresh := h.fresh k (by omega) hi
      omega
    · rintro ⟨k, hik, hkr, rfl⟩
      have hlow := hs i k hik (by omega)
      have hhigh := hs k r.1 hkr hlt
      omega
  refine ⟨hle, hlt, ⟨fun p => ?_, ?_, fun k hk hlen => ?_⟩⟩
  · simp only [pagesOf, List.flatMap_append, List.flatMap_cons, List.flatMap_nil, List.append_nil,
      List.mem_append]
    rw [hpages p, show p ∈ List.flatMap PageRange.pages rs ↔ p ∈ pagesOf rs from Iff.rfl, h.mem p]
    constructor
    · rintro (⟨k, hk, hkl, hp⟩ | ⟨k, -, hk, hp⟩)
      · exact ⟨k, by omega, hkl, hp⟩
      · exact ⟨k, by omega, by omega, hp⟩
    · rintro ⟨k, hk, hkl, hp⟩
      by_cases hki : k < i
      · exact .inl ⟨k, hki, hkl, hp⟩
      · exact .inr ⟨k, by omega, by omega, hp⟩
  · simp only [pagesOf, List.flatMap_append, List.flatMap_cons, List.flatMap_nil, List.append_nil]
    refine List.nodup_append.mpr ⟨h.nodup, List.nodup_range', fun a ha b hb hab => ?_⟩
    obtain ⟨k, hk, -, hak⟩ := (h.mem a).mp ha
    obtain ⟨k', hik, hkr, hbk⟩ := (hpages b).mp hb
    have hfresh := h.fresh k hk hi
    have hlow := hs i k' hik (by omega)
    omega
  · have hle' := hs k r.1 (by omega) hlt
    have hstep := hs r.1 (r.1 + 1) (by omega) hlen
    obtain ⟨hne, -⟩ := hnew hlen
    omega

variable {s t : State}

theorem Cut.allWritten {i : Nat} {rs : List PageRange}
    (h : Cut (pagesTab raw req) raw.ssdPagesOffset i rs) (hi : (pagesTab raw req).length ≤ i)
    (hp : s.written.Perm rs) : AllWritten raw req s := by
  have hpages : (pagesOf s.written).Perm (pagesOf rs) := hp.flatMap_right _
  refine ⟨fun p => ?_, hpages.nodup_iff.mpr h.nodup⟩
  rw [hpages.mem_iff, h.mem p, flagged_iff]
  constructor
  · rintro ⟨k, -, hk, hpk⟩
    exact ⟨k, hk, hpk⟩
  · rintro ⟨k, hk, hpk⟩
    exact ⟨k, by omega, hk, hpk⟩

/-! ## The counter -/

/-- References that are not of a pending write: the caller's own until it has
finished, and one for each refused call. -/
def State.owed (s : State) : Nat :=
  (match s.caller with
    | .returned _ => 0
    | _ => 1) + s.answers.countP fun e => e ≠ 0

/-- No call was refused. -/
def AllAccepted (s : State) : Prop := ∀ e ∈ s.answers, e = 0

theorem refused_eq_zero : (s.answers.countP fun e => e ≠ 0) = 0 ↔ AllAccepted s := by
  simp [List.countP_eq_zero, AllAccepted]

/-- Where the caller is, with the ranges in front of its index. -/
def AtIndex (tab : List Nat) (s : State) (i : Nat) : Prop :=
  match s.caller with
  | .start => False
  | .loop j => i = j ∧ AllAccepted s
  | .finish result | .returned result =>
    (result = 0 → tab.length ≤ i ∧ AllAccepted s) ∧ (result ≠ 0 → ¬ AllAccepted s)

/-- A flush with a context. -/
structure Live (raw : Raw) (req : FlushRequest) (s : State) : Prop where
  /-- There was something to flush. -/
  marked : req.flushMetadata = true
  /-- The counter counts the pending writes and what is owed. -/
  count : s.flushReqCnt = s.pending.length + s.owed
  /-- The flush completes when the counter gets to zero. -/
  completed : s.completed = if s.flushReqCnt = 0 then [s.error] else []
  /-- The writes so far, as long as there is no error. -/
  issued : ∃ rs i, Cut (pagesTab raw req) raw.ssdPagesOffset i rs ∧
    AtIndex (pagesTab raw req) s i ∧ (s.error = 0 → (s.pending ++ s.written).Perm rs)

/-- A flush that was over before it had a context. -/
structure Early (req : FlushRequest) (s : State) : Prop where
  /-- The caller has returned. -/
  returned : ∃ result, s.caller = .returned result
  /-- Nothing was written. -/
  untouched : s.pending = [] ∧ s.written = [] ∧ s.answers = []
  /-- It completed with zero without a mark, and without memory otherwise. -/
  completed : (req.flushMetadata = false ∧ s.completed = [0]) ∨
    (req.flushMetadata = true ∧ s.completed = [errNoMem])

/-- The three kinds of states. -/
def Inv (raw : Raw) (req : FlushRequest) (s : State) : Prop :=
  s = initial ∨ Early req s ∨ Live raw req s

theorem ioComplete_eq (s : State) (error : Int) : ioComplete s error = { s with
    error := if error ≠ 0 then error else s.error
    flushReqCnt := s.flushReqCnt - 1
    completed := if s.flushReqCnt - 1 ≠ 0 then s.completed
      else s.completed ++ [if error ≠ 0 then error else s.error] } := by
  unfold ioComplete
  by_cases herr : error = 0
  · by_cases hzero : s.flushReqCnt - 1 = 0
    · simp [herr, hzero]
    · simp [herr, hzero]
  · by_cases hzero : s.flushReqCnt - 1 = 0
    · simp [herr, hzero]
    · simp [herr, hzero]

theorem ioComplete_live {error : Int} {k : Nat}
    (hcount : s.flushReqCnt = k + 1) (hdone : s.completed = []) (ht : ioComplete s error = t) :
    t.flushReqCnt = k ∧ t.completed = (if t.flushReqCnt = 0 then [t.error] else []) ∧
      t.error = (if error ≠ 0 then error else s.error) ∧ t.pending = s.pending ∧
      t.written = s.written ∧ t.answers = s.answers ∧ t.caller = s.caller := by
  have hk : s.flushReqCnt - 1 = k := by omega
  rw [ioComplete_eq, hk, hdone] at ht
  subst ht
  refine ⟨rfl, ?_, rfl, rfl, rfl, rfl, rfl⟩
  by_cases hzero : (k : Int) = 0
  · rw [if_neg (not_not.mpr hzero), if_pos hzero, List.nil_append]
  · rw [if_pos hzero, if_neg hzero]

section

variable (h : Live raw req s)
include h

theorem Live.open {k : Nat} (hk : s.flushReqCnt = k + 1) : s.completed = [] := by
  rw [h.completed, if_neg (by omega)]

/-- One round of the outer loop. -/
theorem Live.step_write {answer : Int}
    (hstep : step raw req s (.write answer) = some t) : Live raw req t := by
  obtain ⟨rs, i, hcut, hat, hperm⟩ := h.issued
  simp only [step] at hstep
  split at hstep
  · rename_i j hcaller
    simp only [AtIndex, hcaller] at hat
    obtain ⟨rfl, hacc⟩ := hat
    have hcount := h.count
    simp only [State.owed, hcaller] at hcount
    have hopen := h.open (k := s.pending.length + s.answers.countP fun e => e ≠ 0)
      (by rw [hcount]; push_cast; omega)
    obtain ⟨hi, hstep⟩ := Option.ite_none_right_eq_some.mp hstep
    obtain ⟨hle, hlt, hnext⟩ := hcut.next pagesTab_ascending hi
    by_cases hrefused : answer = 0
    · rw [if_neg (not_not.mpr hrefused)] at hstep
      obtain rfl := Option.some.inj hstep
      have hacc' : ∀ e ∈ s.answers ++ [answer], e = 0 := by
        intro e he
        rcases List.mem_append.mp he with he | he
        · exact hacc e he
        · rw [List.mem_singleton.mp he, hrefused]
      exact {
        marked := h.marked
        count := by
          simp only [State.owed, List.countP_append, List.countP_singleton, hrefused,
            List.length_append, List.length_singleton, hcount]
          simp only [ne_eq, not_true_eq_false, decide_false, Bool.false_eq_true, if_false]
          omega
        completed := by
          simp only
          rw [if_neg (by omega), hopen]
        issued := by
          refine ⟨_, _, hnext, ⟨rfl, hacc'⟩, fun herr => ?_⟩
          have hswap : (s.pending ++ [(nextRange raw (pagesTab raw req) i).2] ++ s.written).Perm
              (s.pending ++ s.written ++ [(nextRange raw (pagesTab raw req) i).2]) := by
            rw [List.append_assoc, List.append_assoc]
            exact (List.perm_append_comm).append_left _
          exact hswap.trans ((hperm herr).append_right _) }
    · rw [if_pos hrefused] at hstep
      obtain rfl := Option.some.inj hstep
      exact {
        marked := h.marked
        count := by
          simp only [State.owed, List.countP_append, List.countP_singleton, hcount]
          simp only [ne_eq, hrefused, not_false_eq_true, decide_true, if_true]
          push_cast
          omega
        completed := by
          simp only
          rw [if_neg (by omega), hopen]
        issued := by
          refine ⟨rs, i, hcut, ⟨fun hz => absurd hz hrefused, fun _ hall => ?_⟩, hperm⟩
          exact hrefused (hall answer (List.mem_append_right _ (List.mem_singleton_self _))) }
  · cases hstep

theorem Live.step_leave (hstep : step raw req s .leave = some t) : Live raw req t := by
  obtain ⟨rs, i, hcut, hat, hperm⟩ := h.issued
  simp only [step] at hstep
  split at hstep
  · rename_i j hcaller
    simp only [AtIndex, hcaller] at hat
    obtain ⟨rfl, hacc⟩ := hat
    obtain ⟨hi, hstep⟩ := Option.ite_none_left_eq_some.mp hstep
    obtain rfl := Option.some.inj hstep
    exact {
      marked := h.marked
      count := by
        have hcount := h.count
        simp only [State.owed, hcaller] at hcount ⊢
        exact hcount
      completed := h.completed
      issued := ⟨rs, i, hcut, ⟨fun _ => ⟨by omega, hacc⟩, fun hne => absurd rfl hne⟩, hperm⟩ }
  · cases hstep

theorem Live.step_finish (hstep : step raw req s .finish = some t) : Live raw req t := by
  obtain ⟨rs, i, hcut, hat, hperm⟩ := h.issued
  simp only [step] at hstep
  split at hstep
  · rename_i result hcaller
    obtain rfl := Option.some.inj hstep
    simp only [AtIndex, hcaller] at hat
    have hcount := h.count
    simp only [State.owed, hcaller] at hcount
    have hcount' : s.flushReqCnt =
        ((s.pending.length + s.answers.countP fun e => e ≠ 0 : Nat) : Int) + 1 := by
      omega
    obtain ⟨hcnt, hdone, herr, hpend, hwrit, hans, -⟩ :=
      ioComplete_live hcount' (h.open hcount') (rfl : ioComplete s result = _)
    exact {
      marked := h.marked
      count := by
        simp only [State.owed, hcnt, hpend, hans]
        omega
      completed := hdone
      issued := by
        refine ⟨rs, i, hcut, ?_, fun hz => ?_⟩
        · simp only [AtIndex, AllAccepted, hans]
          exact hat
        · simp only [herr] at hz
          split at hz
          · contradiction
          · simp only [hpend, hwrit]
            exact hperm hz }
  · cases hstep

theorem Live.step_ioComplete {r : PageRange} {error : Int}
    (hstep : step raw req s (.ioComplete r error) = some t) : Live raw req t := by
  obtain ⟨rs, i, hcut, hat, hperm⟩ := h.issued
  obtain ⟨hr, hstep⟩ := Option.ite_none_right_eq_some.mp hstep
  have hlen : (s.pending.erase r).length + 1 = s.pending.length := by
    rw [List.length_erase_of_mem hr]
    have hpos := List.length_pos_of_mem hr
    omega
  have hcount : s.flushReqCnt = (((s.pending.erase r).length + s.owed : Nat) : Int) + 1 := by
    rw [h.count, ← hlen]
    omega
  obtain ⟨hcnt, hdone, herr, hpend, hwrit, hans, hcaller⟩ :=
    ioComplete_live (s := { s with
      pending := s.pending.erase r
      written := if error = 0 then s.written ++ [r] else s.written }) hcount (h.open hcount)
      (Option.some.inj hstep)
  exact {
    marked := h.marked
    count := by
      simp only [State.owed, hcnt, hpend, hans, hcaller]
      rfl
    completed := hdone
    issued := by
      refine ⟨rs, i, hcut, ?_, fun hz => ?_⟩
      · simp only [AtIndex, AllAccepted, hans, hcaller]
        exact hat
      · rw [herr] at hz
        by_cases hok : error = 0
        · rw [if_neg (not_not.mpr hok)] at hz
          rw [hpend, hwrit, if_pos hok]
          have hmove : (s.pending.erase r ++ (s.written ++ [r])).Perm (s.pending ++ s.written) := by
            have hfront : (s.pending.erase r ++ (s.written ++ [r])).Perm
                (r :: (s.pending.erase r ++ s.written)) := by
              rw [← List.append_assoc]
              exact List.perm_append_singleton r _
            have hback : (r :: s.pending.erase r).Perm s.pending :=
              (List.perm_cons_erase hr).symm
            exact hfront.trans (hback.append_right s.written)
          exact hmove.trans (hperm hz)
        · rw [if_pos hok] at hz
          exact absurd hz hok }

end

theorem Inv.step_begin (h : Inv raw req s) {alloc : Alloc}
    (hstep : step raw req s (.begin alloc) = some t) : Inv raw req t := by
  obtain ⟨hcaller, hstep⟩ := Option.ite_none_right_eq_some.mp hstep
  have hinit : s = initial := by
    rcases h with h | h | h
    · exact h
    · obtain ⟨result, hret⟩ := h.returned
      rw [hret] at hcaller
      cases hcaller
    · obtain ⟨rs, i, -, hat, -⟩ := h.issued
      simp only [AtIndex, hcaller] at hat
  subst hinit
  by_cases hmark : req.flushMetadata = false
  · rw [if_pos hmark] at hstep
    obtain rfl := Option.some.inj hstep
    exact .inr (.inl ⟨⟨0, rfl⟩, ⟨rfl, rfl, rfl⟩, .inl ⟨hmark, rfl⟩⟩)
  · have hmark' : req.flushMetadata = true := by simpa using hmark
    rw [if_neg hmark] at hstep
    cases alloc with
    | noCtx =>
      obtain rfl := Option.some.inj hstep
      exact .inr (.inl ⟨⟨errNoMem, rfl⟩, ⟨rfl, rfl, rfl⟩, .inr ⟨hmark', rfl⟩⟩)
    | noTab =>
      obtain ⟨-, hstep⟩ := Option.ite_none_left_eq_some.mp hstep
      obtain rfl := Option.some.inj hstep
      exact .inr (.inl ⟨⟨errNoMem, rfl⟩, ⟨rfl, rfl, rfl⟩, .inr ⟨hmark', rfl⟩⟩)
    | ok =>
      obtain rfl := Option.some.inj hstep
      refine .inr (.inr ⟨hmark', rfl, rfl, [], 0, Cut.start _ _, ⟨rfl, fun e he => ?_⟩, fun _ => ?_⟩)
      · exact absurd he (List.not_mem_nil)
      · exact List.Perm.nil

theorem Inv.live {a : Act} (h : Inv raw req s) (ha : ∀ alloc, a ≠ .begin alloc)
    (hstep : step raw req s a = some t) : Live raw req s := by
  rcases h with rfl | h | h
  · cases a with
    | begin alloc => exact absurd rfl (ha alloc)
    | ioComplete r error => simp [step, initial] at hstep
    | write answer => cases hstep
    | leave => cases hstep
    | finish => cases hstep
  · obtain ⟨result, hret⟩ := h.returned
    cases a with
    | begin alloc => exact absurd rfl (ha alloc)
    | ioComplete r error => simp [step, h.untouched.1] at hstep
    | write answer => simp [step, hret] at hstep
    | leave => simp [step, hret] at hstep
    | finish => simp [step, hret] at hstep
  · exact h

/-- A step keeps the account of the flush. -/
theorem Inv.step {a : Act} (h : Inv raw req s)
    (hstep : step raw req s a = some t) : Inv raw req t := by
  cases a with
  | begin alloc => exact h.step_begin hstep
  | write answer => exact .inr (.inr ((h.live (by simp) hstep).step_write hstep))
  | leave => exact .inr (.inr ((h.live (by simp) hstep).step_leave hstep))
  | finish => exact .inr (.inr ((h.live (by simp) hstep).step_finish hstep))
  | ioComplete r error => exact .inr (.inr ((h.live (by simp) hstep).step_ioComplete hstep))

/-- The account holds in every run of a flush. -/
theorem inv_of_reachable (h : Reachable (system raw req) initial s) : Inv raw req s :=
  h.invariant (fun _ => .inl rfl) fun _ _ _ hinv _ _ hstep _ => hinv.step hstep

/-! ## Progress -/

/-- Steps that are left, at most. -/
def State.todo (tab : List Nat) (s : State) : Nat :=
  s.pending.length + match s.caller with
    | .start => 2 * tab.length + 3
    | .loop i => 2 * (tab.length - i) + 2
    | .finish _ => 1
    | .returned _ => 0

theorem le_nextRange {tab : List Nat} {i : Nat} (hi : i < tab.length) :
    i ≤ (nextRange raw tab i).1 :=
  (growRange_spec tab.length i 1 (tab.getD i 0) hi (by omega) rfl
    fun p hp hp' => ⟨i, le_rfl, by omega⟩).1

theorem step_todo {a : Act} (hstep : step raw req s a = some t) :
    t.todo (pagesTab raw req) < s.todo (pagesTab raw req) := by
  cases a with
  | begin alloc =>
    obtain ⟨hcaller, hstep⟩ := Option.ite_none_right_eq_some.mp hstep
    simp only [State.todo, hcaller]
    split at hstep
    · obtain rfl := Option.some.inj hstep
      simp only
      omega
    · split at hstep
      · obtain rfl := Option.some.inj hstep
        simp only
        omega
      · split at hstep
        · obtain ⟨-, hstep⟩ := Option.ite_none_left_eq_some.mp hstep
          obtain rfl := Option.some.inj hstep
          simp only
          omega
        · obtain rfl := Option.some.inj hstep
          simp only
          omega
  | write answer =>
    simp only [step] at hstep
    split at hstep
    · rename_i i hcaller
      obtain ⟨hi, hstep⟩ := Option.ite_none_right_eq_some.mp hstep
      have hle := @le_nextRange raw _ _ hi
      simp only [State.todo, hcaller]
      split at hstep
      · obtain rfl := Option.some.inj hstep
        simp only
        omega
      · obtain rfl := Option.some.inj hstep
        simp only [List.length_append, List.length_singleton]
        omega
    · cases hstep
  | leave =>
    simp only [step] at hstep
    split at hstep
    · rename_i i hcaller
      obtain ⟨hi, hstep⟩ := Option.ite_none_left_eq_some.mp hstep
      obtain rfl := Option.some.inj hstep
      simp only [State.todo, hcaller]
      omega
    · cases hstep
  | finish =>
    simp only [step] at hstep
    split at hstep
    · rename_i result hcaller
      obtain rfl := Option.some.inj hstep
      simp only [State.todo, hcaller, ioComplete_eq]
      omega
    · cases hstep
  | ioComplete r error =>
    obtain ⟨hr, hstep⟩ := Option.ite_none_right_eq_some.mp hstep
    obtain rfl := Option.some.inj hstep
    have hpos := List.length_pos_of_mem hr
    have hlen := List.length_erase_of_mem hr
    simp only [State.todo, ioComplete_eq]
    omega

/-- A flush that has not settled can go on. -/
theorem exists_step (h : ¬ Settled s) : ∃ a t, step raw req s a = some t := by
  by_cases hpend : s.pending = []
  · cases hcaller : s.caller with
    | start =>
      by_cases hmark : req.flushMetadata = false
      · refine ⟨.begin .ok, { s with caller := .returned 0, completed := s.completed ++ [0] }, ?_⟩
        simp [step, hcaller, hmark]
      · refine ⟨.begin .ok, { s with caller := .loop 0, flushReqCnt := 1 }, ?_⟩
        simp [step, hcaller, hmark]
    | loop i =>
      by_cases hi : i < (pagesTab raw req).length
      · refine ⟨.write errNoMem, { s with
          caller := .finish errNoMem, flushReqCnt := s.flushReqCnt + 1
          answers := s.answers ++ [errNoMem] }, ?_⟩
        simp [step, hcaller, hi, errNoMem]
      · exact ⟨.leave, { s with caller := .finish 0 }, by simp [step, hcaller, hi]⟩
    | finish result =>
      exact ⟨.finish, { ioComplete s result with caller := .returned result }, by
        simp [step, hcaller]⟩
    | returned result => exact absurd ⟨⟨result, hcaller⟩, hpend⟩ h
  · obtain ⟨r, rest, hr⟩ := List.exists_cons_of_ne_nil hpend
    have hmem : r ∈ s.pending := by simp [hr]
    refine ⟨.ioComplete r 0, ioComplete { s with
      pending := s.pending.erase r, written := s.written ++ [r] } 0, ?_⟩
    simp [step, hmem]

/-! ## How often the flush completes -/

/-- The request is marked when one of its lines is flagged. -/
def Marked (req : FlushRequest) : Prop :=
  req.flushMetadata = true ∨ ∀ e ∈ req.map, e.flush = false

theorem Live.allWritten (h : Live raw req s) (hcnt : s.flushReqCnt = 0)
    (herr : s.error = 0) : AllWritten raw req s := by
  obtain ⟨rs, i, hcut, hat, hperm⟩ := h.issued
  have hcount := h.count
  have hpend : s.pending = [] := List.length_eq_zero_iff.mp (by omega)
  have howed : s.owed = 0 := by omega
  have hperm' := hperm herr
  rw [hpend, List.nil_append] at hperm'
  have hacc : AllAccepted s := refused_eq_zero.mp (by unfold State.owed at howed; omega)
  cases hcaller : s.caller with
  | start => simp [State.owed, hcaller] at howed
  | loop j => simp [State.owed, hcaller] at howed
  | finish result => simp [State.owed, hcaller] at howed
  | returned result =>
    simp only [AtIndex, hcaller] at hat
    have hzero : result = 0 := by
      by_contra hne
      exact hat.2 hne hacc
    exact hcut.allWritten (hat.1 hzero).1 hperm'

theorem Inv.flushRight (h : Inv raw req s) (hacc : AllAccepted s)
    (hmark : Marked req) : FlushRight raw req s := by
  rcases h with rfl | h | h
  · refine ⟨Nat.zero_le _, fun hz => absurd hz List.not_mem_nil, fun hset => ?_⟩
    obtain ⟨⟨result, hret⟩, -⟩ := hset
    cases hret
  · obtain ⟨-, hwritten, -⟩ := h.untouched
    rcases h.completed with ⟨hflag, hdone⟩ | ⟨-, hdone⟩
    · refine ⟨by simp [hdone], fun _ => ⟨fun p => ?_, by simp [hwritten, pagesOf]⟩, by simp [hdone]⟩
      have hnone : ∀ e ∈ req.map, e.flush = false := hmark.resolve_left (by simp [hflag])
      simp only [hwritten, pagesOf, List.flatMap_nil, List.not_mem_nil, false_iff]
      rintro ⟨e, he, hflush, -⟩
      rw [hnone e he] at hflush
      cases hflush
    · refine ⟨by simp [hdone], fun hz => ?_, by simp [hdone]⟩
      rw [hdone, List.mem_singleton] at hz
      cases hz
  · refine ⟨?_, fun hz => ?_, fun hset => ?_⟩
    · rw [h.completed]
      split <;> simp
    · rw [h.completed] at hz
      split at hz
      · rename_i hcnt
        exact h.allWritten hcnt (List.mem_singleton.mp hz).symm
      · cases hz
    · obtain ⟨⟨result, hret⟩, hpend⟩ := hset
      have hcnt : s.flushReqCnt = 0 := by
        have hrefused := refused_eq_zero.mpr hacc
        rw [h.count, State.owed, hret, hrefused, hpend]
        rfl
      rw [h.completed, if_pos hcnt]
      simp

theorem Inv.accepted (h : Inv raw req s) (hset : Settled s)
    (hright : FlushRight raw req s) : AllAccepted s ∧ Marked req := by
  obtain ⟨⟨result, hret⟩, hpend⟩ := hset
  rcases h with rfl | h | h
  · cases hret
  · obtain ⟨-, hwritten, hans⟩ := h.untouched
    refine ⟨by simp [AllAccepted, hans], ?_⟩
    rcases h.completed with ⟨-, hdone⟩ | ⟨hflag, -⟩
    · refine .inr fun e he => ?_
      by_contra hflush
      have hall := hright.zero (by simp [hdone])
      have hflush' : e.flush = true := by simpa using hflush
      have hin := (hall.1 _).mpr ⟨e, he, hflush', rfl⟩
      simp [hwritten, pagesOf] at hin
    · exact .inl hflag
  · refine ⟨refused_eq_zero.mp ?_, .inl h.marked⟩
    have hdone := hright.done ⟨⟨result, hret⟩, hpend⟩
    rw [h.completed] at hdone
    have hcnt : s.flushReqCnt = 0 := by
      by_contra hne
      exact hdone (if_neg hne)
    have hcount := h.count
    simp only [State.owed, hret] at hcount
    omega

/-- The flush of a request keeps its promises in every state of every run
without a refused call, and breaks them at the end of every other run; every
run gets to its end. -/
theorem flush_completes (raw : Raw) (req : FlushRequest) (s : State)
    (h : Reachable (system raw req) initial s) :
    (AllAccepted s ∧ Marked req → FlushRight raw req s) ∧
      (Settled s → (FlushRight raw req s ↔ AllAccepted s ∧ Marked req)) ∧
      (Settled s ∨ ∃ a t, step raw req s a = some t) ∧ ∀ a t, step raw req s a = some t →
        t.todo (pagesTab raw req) < s.todo (pagesTab raw req) := by
  have hinv := inv_of_reachable h
  refine ⟨fun hok => hinv.flushRight hok.1 hok.2, fun hset => ⟨hinv.accepted hset, ?_⟩, ?_, ?_⟩
  · exact fun hok => hinv.flushRight hok.1 hok.2
  · by_cases hset : Settled s
    · exact .inl hset
    · exact .inr (exists_step hset)
  · exact fun a t hstep => step_todo hstep

/-- A raw segment with 64 entries in a page. -/
def smallRaw : Raw := ⟨64, 100⟩

/-- A request whose only line is flagged. -/
def oneLine : FlushRequest := ⟨[⟨0, 70, 0, 0, .hit, false, false, true⟩], true⟩

theorem pagesTab_oneLine : pagesTab smallRaw oneLine = [1] := by
  simp [pagesTab, addPages, oneLine, rawRamPage, smallRaw]

/-- The flush of one line whose write is accepted and succeeds. -/
theorem flush_completes_oneLine :
    FlushRight smallRaw oneLine ⟨.returned 0, 0, 0, [], [⟨101, 1⟩], [0], [0]⟩ := by
  have hrange : nextRange smallRaw [1] 0 = (0, ⟨101, 1⟩) := by rfl
  have hrun : Reachable (system smallRaw oneLine) initial
      ⟨.returned 0, 0, 0, [], [⟨101, 1⟩], [0], [0]⟩ := by
    have h₁ : Reachable (system smallRaw oneLine) initial ⟨.loop 0, 1, 0, [], [], [], []⟩ :=
      Reachable.next (.refl trivial) (.begin .ok) trivial rfl
    have h₂ : Reachable (system smallRaw oneLine) initial
        ⟨.loop 1, 2, 0, [⟨101, 1⟩], [], [0], []⟩ :=
      h₁.next (.write 0) trivial (by simp [system, step, pagesTab_oneLine, hrange])
    have h₃ : Reachable (system smallRaw oneLine) initial
        ⟨.finish 0, 2, 0, [⟨101, 1⟩], [], [0], []⟩ :=
      h₂.next .leave trivial (by simp [system, step, pagesTab_oneLine])
    have h₄ : Reachable (system smallRaw oneLine) initial
        ⟨.returned 0, 1, 0, [⟨101, 1⟩], [], [0], []⟩ :=
      h₃.next .finish trivial (by simp [system, step, ioComplete])
    exact h₄.next (.ioComplete ⟨101, 1⟩ 0) trivial (by simp [system, step, ioComplete])
  exact (flush_completes smallRaw oneLine _ hrun).1
    ⟨fun e he => List.mem_singleton.mp he, .inl rfl⟩

/-- A refused write leaves the flush without a completion. -/
theorem refused_write_not_completed : ¬ ∀ (raw : Raw) (req : FlushRequest) (s : State),
      Reachable (system raw req) initial s → FlushRight raw req s := by
  intro h
  have hrun : Reachable (system smallRaw oneLine) initial
      ⟨.returned errNoMem, 1, errNoMem, [], [], [errNoMem], []⟩ := by
    have h₁ : Reachable (system smallRaw oneLine) initial ⟨.loop 0, 1, 0, [], [], [], []⟩ :=
      Reachable.next (.refl trivial) (.begin .ok) trivial rfl
    have h₂ : Reachable (system smallRaw oneLine) initial
        ⟨.finish errNoMem, 2, 0, [], [], [errNoMem], []⟩ :=
      h₁.next (.write errNoMem) trivial (by simp [system, step, pagesTab_oneLine, errNoMem])
    exact h₂.next .finish trivial (by simp [system, step, ioComplete, errNoMem])
  exact (h smallRaw oneLine _ hrun).done ⟨⟨errNoMem, rfl⟩, rfl⟩ rfl

end OcfCache.MetadataFlush
