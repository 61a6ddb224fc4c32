import OcfCache.BisectCycle

/-!
# The iterator of the LRU lists

Embedding of the iterator of `ocf_lru.c` with its bitmap. The lists that have
not been found empty are the bits of a word that is kept rotated so that the
current list is the top bit. A call scans the current list, and the next ones as
long as no line can be locked. The module shows that the bits stand for the
lists without a failed scan, that every call returns, that a call for eviction
comes back empty only after the last scan of every list has failed and that the
calls for cleaning return each line once before all lines have been tried.
-/

namespace OcfCache.LruIterator

open Function LruList LinkedLists FuelLoops BisectCycle Runs
open Lru (ocfNumLruLists ocfLruMaxLruElementIdx)

/-- `ocf_rotate_right`. -/
def ocfRotateRight (bits : BitVec 64) (shift width : Nat) : BitVec 64 :=
  ((bits >>> shift) ||| (bits <<< (width - shift))) &&& ((1#64 <<< width) - 1#64)

/-- `__builtin_ffsll`, zero without a bit. -/
def builtinFfsll (bits : BitVec 64) : Nat :=
  (((List.range 64).find? bits.getLsbD).map (· + 1)).getD 0

/-- Number of bits that are set. -/
def popcount (bits : BitVec 64) : Nat := Nat.count (fun k => bits.getLsbD k = true) 64

/-- `struct ocf_lru_iter`, as far as the calls change it. -/
structure LruIter where
  /-- `next_avail_lru`. -/
  nextAvailLru : BitVec 64
  /-- `num_avail_lrus`. -/
  numAvailLrus : Nat
  /-- `lru_idx`. -/
  lruIdx : Nat
  /-- `lru_element_idx`. -/
  lruElementIdx : Nat
  /-- `curr_cline`. -/
  currCline : Nat → Option Nat

/-- `lru_iter_init` on the lists of a partition. -/
def lruIterInit (startLru : Nat) (heads : Nat → LruHead) : LruIter :=
  { nextAvailLru := (1#64 <<< ocfNumLruLists) - 1#64
    numAvailLrus := ocfNumLruLists
    lruIdx := (startLru + ocfNumLruLists - 1) % ocfNumLruLists
    lruElementIdx := 0
    currCline := fun i => (heads i).tail }

/-- `_lru_iter_advance_list`. -/
def lruIterAdvanceList (it : LruIter) : LruIter :=
  let increment := builtinFfsll it.nextAvailLru
  { it with
    nextAvailLru := ocfRotateRight it.nextAvailLru increment ocfNumLruLists
    lruIdx := (it.lruIdx + increment) % ocfNumLruLists }

/-- `_lru_lru_is_empty`. -/
def lruLruIsEmpty (it : LruIter) : Bool :=
  it.nextAvailLru &&& (1#64 <<< (ocfNumLruLists - 1)) == 0#64

/-- `lru_iter_advance`. -/
def lruIterAdvance (it : LruIter) : LruIter :=
  let it := { it with lruElementIdx := it.lruElementIdx + 1 }
  if ocfLruMaxLruElementIdx ≤ it.lruElementIdx || lruLruIsEmpty it then
    { lruIterAdvanceList it with lruElementIdx := 0 }
  else it

/-- `_lru_lru_set_empty`. -/
def lruLruSetEmpty (it : LruIter) : LruIter :=
  { it with
    nextAvailLru := it.nextAvailLru &&& ~~~(1#64 <<< (ocfNumLruLists - 1))
    numAvailLrus := it.numAvailLrus - 1 }

/-- `_lru_lru_all_empty`. -/
def lruLruAllEmpty (it : LruIter) : Bool := it.numAvailLrus == 0

/-- The lists of a partition with their lines. -/
structure Lists where
  /-- Links of the lines. -/
  nodes : Nodes
  /-- The lists. -/
  heads : Nat → LruHead
  /-- Lines of each list. -/
  lines : Nat → List Nat
  /-- The lists have these lines. -/
  listed : ∀ i < ocfNumLruLists, Lru nodes (heads i) (lines i)
  /-- A line is on one list. -/
  one_list : ∀ i j x, x ∈ lines i → x ∈ lines j → i = j

/-- A scan of a list. -/
structure Scan where
  /-- The scanned list. -/
  list : Nat
  /-- Number of scans before this one. -/
  time : Nat
  /-- Lines that were tried. -/
  tried : List Nat
  /-- The line that was locked. -/
  found : Option Nat

/-- The iterator and the scans so far, the latest first. -/
structure State where
  /-- The iterator. -/
  it : LruIter
  /-- The scans. -/
  scans : List Scan

/-- Loop over a list from `cline` to the first line that can be locked, with the
lines it tries. The bound is for the rounds. -/
def scanLoop (prev : Nat → Option Nat) (lock : Nat → Bool) :
    Nat → Option Nat → Option (List Nat × Option Nat)
  | 0, _ => none
  | _ + 1, none => some ([], none)
  | fuel + 1, some cline =>
    if lock cline then some ([cline], some cline)
    else (scanLoop prev lock fuel (prev cline)).map fun r => (cline :: r.1, r.2)

/-- What the calls for eviction and for cleaning differ in. -/
structure Kind where
  /-- Where the scan of a list starts. -/
  start : Lists → LruIter → Option Nat
  /-- `curr_cline` after a line was locked. -/
  take : Lists → LruIter → Nat → Nat → Option Nat

/-- `lru_iter_eviction_next` and `lru_iter_free_next` scan a list from its tail. -/
def eviction : Kind := ⟨fun l it => (l.heads it.lruIdx).tail, fun _ it _ => it.currCline⟩

/-- `lru_iter_cleaning_next` goes on behind the line it returned last. -/
def cleaning : Kind :=
  ⟨fun _ it => it.currCline it.lruIdx,
    fun l it x => update it.currCline it.lruIdx (l.nodes x).prev⟩

variable {kind : Kind} {lists : Nat → Lists} {lock : Nat → Nat → Bool}

/-- The end of a round: a locked line is taken, a list without one is marked. -/
def settle (kind : Kind) (l : Lists) (it : LruIter) (scan : Scan) (scans : List Scan) :
    Option Nat × State :=
  match scan.found with
  | some x => (some x, ⟨{ it with currCline := kind.take l it x }, scan :: scans⟩)
  | none => (none, ⟨if lruLruIsEmpty it then it else lruLruSetEmpty it, scan :: scans⟩)

/-- One round of a call: the lists and the outcomes of the attempts are those
at the time of the scan. -/
def round (kind : Kind) (lists : Nat → Lists) (lock : Nat → Nat → Bool) (s : State) (fuel : Nat) :
    Option (Option Nat × State) :=
  let it := lruIterAdvance s.it
  let time := s.scans.length
  let l := lists time
  (scanLoop (fun x => (l.nodes x).prev) (lock time) fuel (kind.start l it)).map fun r =>
    settle kind l it ⟨it.lruIdx, time, r.1, r.2⟩ s.scans

/-- The rounds of a call. -/
def nextLoop (kind : Kind) (lists : Nat → Lists) (lock : Nat → Nat → Bool) (fuel : Nat) :
    Nat → State → Option (Option Nat × State)
  | 0, _ => none
  | rounds + 1, s =>
    (round kind lists lock s fuel).bind fun r =>
      if r.1.isNone && !lruLruAllEmpty r.2.it then nextLoop kind lists lock fuel rounds r.2
      else some r

/-- A call of the iterator. -/
def iterNext (kind : Kind) (lists : Nat → Lists) (lock : Nat → Nat → Bool) (s : State)
    (fuel : Nat) : Option (Option Nat × State) :=
  nextLoop kind lists lock fuel fuel s

section Bitmap

variable {bits : BitVec 64} {it : LruIter} {k : Nat}

/-- A word for 32 lists. -/
def Narrow (bits : BitVec 64) : Prop := ∀ k, 32 ≤ k → bits.getLsbD k = false

theorem mask_getLsbD : ((1#64 <<< 32) - 1#64).getLsbD k = decide (k < 32) := by
  have hmask : (1#64 <<< 32) - 1#64 = BitVec.ofNat 64 (2 ^ 32 - 1) := by decide
  rw [hmask, BitVec.getLsbD_ofNat, Nat.testBit_two_pow_sub_one, Bool.and_eq_right_iff_imp]
  intro hk
  have hlt := of_decide_eq_true hk
  exact decide_eq_true (by omega)

theorem ocfRotateRight_getLsbD {shift : Nat} (hbits : Narrow bits)
    (hs : shift ≤ 32) (k : Nat) : (ocfRotateRight bits shift 32).getLsbD k =
      (decide (k < 32) && bits.getLsbD ((k + shift) % 32)) := by
  rw [ocfRotateRight, BitVec.getLsbD_and, mask_getLsbD, Bool.and_comm]
  by_cases hk : k < 32
  · simp only [BitVec.getLsbD_or, BitVec.getLsbD_ushiftRight, BitVec.getLsbD_shiftLeft, hk,
      decide_true, Bool.true_and]
    by_cases hwrap : k + shift < 32
    · have hlow : k < 32 - shift := by omega
      rw [Nat.mod_eq_of_lt hwrap, Nat.add_comm]
      simp [hlow]
    · have hmod : (k + shift) % 32 = k - (32 - shift) := by omega
      have hlow : ¬k < 32 - shift := by omega
      have hlt : k < 64 := by omega
      rw [hmod, hbits _ (by omega)]
      simp [hlow, hlt]
  · simp [hk]

theorem builtinFfsll_spec (hbits : Narrow bits) :
    (builtinFfsll bits = 0 ∧ ∀ k, bits.getLsbD k = false) ∨
      ∃ k < 32, builtinFfsll bits = k + 1 ∧ bits.getLsbD k = true := by
  rw [builtinFfsll]
  cases hfind : (List.range 64).find? bits.getLsbD with
  | none =>
    refine .inl ⟨rfl, fun k => ?_⟩
    by_cases hk : k < 64
    · have hnot := List.find?_eq_none.mp hfind k (List.mem_range.mpr hk)
      exact Bool.not_eq_true _ ▸ hnot
    · exact hbits k (by omega)
  | some k =>
    have hk := List.find?_some hfind
    refine .inr ⟨k, ?_, rfl, hk⟩
    by_contra hge
    rw [hbits k (by omega)] at hk
    exact absurd hk nofun

theorem top_getLsbD : (1#64 <<< 31).getLsbD k = decide (k = 31) := by
  have htop : 1#64 <<< 31 = BitVec.twoPow 64 31 := rfl
  rw [htop, BitVec.getLsbD_twoPow]
  by_cases hk : k = 31
  · simp [hk]
  · simp [hk, Ne.symm hk]

theorem lruLruIsEmpty_eq : lruLruIsEmpty it = !it.nextAvailLru.getLsbD 31 := by
  have htop : 1#64 <<< (ocfNumLruLists - 1) = BitVec.twoPow 64 31 := rfl
  rw [lruLruIsEmpty, htop, BitVec.and_twoPow]
  cases it.nextAvailLru.getLsbD 31 <;> rfl

theorem setEmpty_getLsbD (hbits : Narrow it.nextAvailLru) (k : Nat) :
    (lruLruSetEmpty it).nextAvailLru.getLsbD k =
      (it.nextAvailLru.getLsbD k && !decide (k = 31)) := by
  have hword : (lruLruSetEmpty it).nextAvailLru = it.nextAvailLru &&& ~~~(1#64 <<< 31) := rfl
  rw [hword, BitVec.getLsbD_and, BitVec.getLsbD_not, top_getLsbD]
  by_cases hk : k < 32
  · have hlt : k < 64 := by omega
    simp [hlt]
  · simp [hbits k (by omega)]

theorem popcount_eq (hbits : Narrow bits) :
    popcount bits = Nat.count (fun k => bits.getLsbD k = true) 32 := by
  have hhigh : Nat.count (fun k => bits.getLsbD (32 + k) = true) 32 = 0 := by
    refine Nat.count_iff_forall_not.mpr fun k _ => ?_
    rw [hbits (32 + k) (by omega)]
    exact Bool.false_ne_true
  rw [popcount, Nat.count_add _ 32 32, hhigh, Nat.add_zero]

theorem popcount_rotate {shift : Nat} (hbits : Narrow bits)
    (hs : shift ≤ 32) : popcount (ocfRotateRight bits shift 32) = popcount bits := by
  have hrotate := ocfRotateRight_getLsbD hbits hs
  have hperiod := @count_from_period (fun k => bits.getLsbD (k % 32) = true) _ 32
    (fun n => by rw [Nat.add_mod_right]) shift
  rw [popcount_eq hbits, popcount_eq fun k hk => by simp [hrotate, Nat.not_lt.mpr hk]]
  refine (count_congr_below fun k hk => ?_).trans (hperiod.trans (count_congr_below fun k hk => ?_))
  · rw [hrotate, Nat.add_comm k shift]
    simp [hk]
  · rw [Nat.mod_eq_of_lt hk]

theorem popcount_setEmpty (hbits : Narrow it.nextAvailLru)
    (htop : it.nextAvailLru.getLsbD 31 = true) :
    popcount (lruLruSetEmpty it).nextAvailLru + 1 = popcount it.nextAvailLru := by
  have hword := setEmpty_getLsbD hbits
  rw [popcount_eq hbits, popcount_eq fun k hk => by simp [hword, hbits k hk]]
  rw [Nat.count_succ _ 31, Nat.count_succ _ 31, hword 31, htop]
  refine congrArg (· + 1) (count_congr_below fun k hk => ?_)
  rw [hword]
  simp [hk.ne]

end Bitmap

/-- A scan of the list has failed. -/
def Exhausted (scans : List Scan) (i : Nat) : Prop :=
  ∃ scan ∈ scans, scan.list = i ∧ scan.found = none

/-- The last scan of a list has failed. -/
def LastFailed (scans : List Scan) (i : Nat) : Prop :=
  ∃ scan, scans.find? (fun scan => scan.list == i) = some scan ∧ scan.found = none

/-- The bitmap of an iterator: bit `k` stands for the list `lru_idx + 1 + k`. -/
structure Bitmap (s : State) : Prop where
  /-- The current list. -/
  lt : s.it.lruIdx < ocfNumLruLists
  /-- There is one bit for each list. -/
  width : Narrow s.it.nextAvailLru
  /-- The bit of a list is set as long as no scan of it has failed. -/
  stands : ∀ k < ocfNumLruLists, (s.it.nextAvailLru.getLsbD k = true ↔
    ¬Exhausted s.scans ((s.it.lruIdx + 1 + k) % ocfNumLruLists))
  /-- The count of the lists is that of the bits. -/
  count : s.it.numAvailLrus = popcount s.it.nextAvailLru

/-- The iterator with its bitmap, and the lists that have no bit. -/
structure Tracks (s : State) : Prop extends Bitmap s where
  /-- The last scan of a list without a bit has failed; behind the end only the
  current list is scanned again. -/
  last : ∀ i, Exhausted s.scans i →
    LastFailed s.scans i ∨ (s.it.numAvailLrus = 0 ∧ i = s.it.lruIdx)

section Steps

variable {s : State}

theorem Bitmap.none_left (h : Bitmap s) (hzero : s.it.numAvailLrus = 0) (k : Nat) :
    s.it.nextAvailLru.getLsbD k = false := by
  have hcount := h.count
  rw [hzero, popcount_eq h.width] at hcount
  by_cases hk : k < 32
  · exact Bool.not_eq_true _ ▸ Nat.count_iff_forall_not.mp hcount.symm k hk
  · exact h.width k (Nat.not_lt.mp hk)

theorem Bitmap.exhausted_of_none_left (h : Bitmap s) (hzero : s.it.numAvailLrus = 0) {i : Nat}
    (hi : i < ocfNumLruLists) : Exhausted s.scans i := by
  have hlt := h.lt
  have h32 : ocfNumLruLists = 32 := rfl
  rw [h32] at hi hlt
  have hback : (s.it.lruIdx + 1 + (i + 31 - s.it.lruIdx) % 32) % 32 = i := by omega
  have hstands := h.stands ((i + 31 - s.it.lruIdx) % 32) (Nat.mod_lt _ (by omega))
  rw [h.none_left hzero, h32, hback] at hstands
  by_contra hnot
  exact absurd (hstands.mpr hnot) nofun

/-- What an advance of the iterator keeps. -/
structure Advanced (it it' : LruIter) : Prop where
  /-- The count of the lists. -/
  numAvailLrus : it'.numAvailLrus = it.numAvailLrus
  /-- The lines in the lists. -/
  currCline : it'.currCline = it.currCline
  /-- The current list is one that is left. -/
  current : 0 < it.numAvailLrus → it'.nextAvailLru.getLsbD 31 = true
  /-- The current list stays if none is left. -/
  stays : it.numAvailLrus = 0 → it'.lruIdx = it.lruIdx

theorem Bitmap.advanceList (h : Bitmap s) :
    Bitmap ⟨lruIterAdvanceList s.it, s.scans⟩ ∧ Advanced s.it (lruIterAdvanceList s.it) := by
  have h32 : ocfNumLruLists = 32 := rfl
  have hle : builtinFfsll s.it.nextAvailLru ≤ 32 := by
    rcases builtinFfsll_spec h.width with ⟨hzero, -⟩ | ⟨k, hk, hffs, -⟩
    · omega
    · omega
  have hrotate := ocfRotateRight_getLsbD h.width hle
  refine ⟨⟨Nat.mod_lt _ (Nat.succ_pos 31), fun k hk => ?_, fun k hk => ?_, ?_⟩, ⟨rfl, rfl, ?_, ?_⟩⟩
  · refine (hrotate k).trans ?_
    have hlt : ¬k < 32 := Nat.not_lt.mpr hk
    rw [decide_eq_false hlt, Bool.false_and]
  · have hlt : k < 32 := hk
    have hstands := h.stands ((k + builtinFfsll s.it.nextAvailLru) % 32) (Nat.mod_lt _ (by omega))
    have hlist : (s.it.lruIdx + 1 + (k + builtinFfsll s.it.nextAvailLru) % 32) % 32 =
        ((s.it.lruIdx + builtinFfsll s.it.nextAvailLru) % 32 + 1 + k) % 32 := by omega
    have hbit := hrotate k
    rw [decide_eq_true hlt, Bool.true_and] at hbit
    rw [h32, hlist, ← hbit] at hstands
    exact hstands
  · exact h.count.trans (popcount_rotate h.width hle).symm
  · intro hpos
    rcases builtinFfsll_spec h.width with ⟨-, hnone⟩ | ⟨k, hk, hffs, hbit⟩
    · have hcount := h.count
      rw [popcount_eq h.width, Nat.count_iff_forall_not.mpr fun k _ => by simp [hnone k]] at hcount
      omega
    · have hback : (31 + (k + 1)) % 32 = k := by omega
      refine (hrotate 31).trans ?_
      rw [hffs, hback, hbit]
      rfl
  · intro hzero
    rcases builtinFfsll_spec h.width with ⟨hffs, -⟩ | ⟨k, -, -, hbit⟩
    · have hlt := h.lt
      change (s.it.lruIdx + builtinFfsll s.it.nextAvailLru) % 32 = s.it.lruIdx
      rw [hffs]
      exact Nat.mod_eq_of_lt hlt
    · rw [h.none_left hzero] at hbit
      exact absurd hbit nofun

theorem Bitmap.advance (h : Bitmap s) :
    Bitmap ⟨lruIterAdvance s.it, s.scans⟩ ∧ Advanced s.it (lruIterAdvance s.it) := by
  obtain ⟨hmap, hadv⟩ := h.advanceList
  by_cases hmove : ocfLruMaxLruElementIdx ≤ s.it.lruElementIdx + 1 ∨
      s.it.nextAvailLru.getLsbD 31 = false
  · have heq : lruIterAdvance s.it = { lruIterAdvanceList s.it with lruElementIdx := 0 } := by
      simp only [lruIterAdvance, lruLruIsEmpty_eq]
      rw [if_pos (by simpa using hmove)]
      rfl
    rw [heq]
    exact ⟨⟨hmap.lt, hmap.width, hmap.stands, hmap.count⟩, hadv.1, hadv.2, hadv.3, hadv.4⟩
  · have heq : lruIterAdvance s.it = { s.it with lruElementIdx := s.it.lruElementIdx + 1 } := by
      simp only [lruIterAdvance, lruLruIsEmpty_eq]
      rw [if_neg (by simpa using hmove)]
    rw [heq]
    rw [not_or, Bool.not_eq_false] at hmove
    exact ⟨⟨h.lt, h.width, h.stands, h.count⟩, rfl, rfl, fun _ => hmove.2, fun _ => rfl⟩

theorem Tracks.advance (h : Tracks s) : Tracks ⟨lruIterAdvance s.it, s.scans⟩ := by
  obtain ⟨hmap, hadv⟩ := h.toBitmap.advance
  refine ⟨hmap, fun i hi => ?_⟩
  refine (h.last i hi).imp_right fun hend => ?_
  exact ⟨hadv.numAvailLrus.trans hend.1, hend.2.trans (hadv.stays hend.1).symm⟩

theorem Bitmap.current_left (h : Bitmap s) (htop : s.it.nextAvailLru.getLsbD 31 = true) :
    ¬Exhausted s.scans s.it.lruIdx := by
  have hstands := (h.stands 31 (Nat.lt_succ_self 31)).mp htop
  have hlist : (s.it.lruIdx + 1 + 31) % 32 = s.it.lruIdx := by
    have hlt : s.it.lruIdx < 32 := h.lt
    omega
  rw [← hlist]
  exact hstands

theorem exhausted_cons {scan : Scan} {scans : List Scan} {i : Nat} :
    Exhausted (scan :: scans) i ↔ (scan.list = i ∧ scan.found = none) ∨ Exhausted scans i := by
  simp only [Exhausted, List.mem_cons, exists_eq_or_imp]

theorem LastFailed.cons {scan : Scan} {scans : List Scan} {i : Nat} (h : LastFailed scans i)
    (hne : scan.list ≠ i) : LastFailed (scan :: scans) i := by
  obtain ⟨last, hlast, hfound⟩ := h
  refine ⟨last, ?_, hfound⟩
  rw [List.find?_cons_of_neg (by simpa using hne)]
  exact hlast

theorem lastFailed_head {scan : Scan} {scans : List Scan} (h : scan.found = none) :
    LastFailed (scan :: scans) scan.list :=
  ⟨scan, List.find?_cons_of_pos (beq_self_eq_true _), h⟩

/-- What a round does. -/
structure Rounded (s : State) (r : Option Nat × State) : Prop where
  /-- There is one more scan, of the current list. -/
  scan : ∃ scan, r.2.scans = scan :: s.scans ∧ scan.list = r.2.it.lruIdx ∧ scan.found = r.1
  /-- There is one list less after a failed scan. -/
  left : r.1 = none → r.2.it.numAvailLrus < s.it.numAvailLrus ∨ r.2.it.numAvailLrus = 0

section Scanned

variable {it : LruIter} {scans : List Scan} {scan : Scan} (h : Tracks ⟨it, scans⟩)
  (hleft : 0 < it.numAvailLrus → it.nextAvailLru.getLsbD 31 = true) (hlist : scan.list = it.lruIdx)
include h hleft hlist

theorem Tracks.found (hfound : scan.found ≠ none) (curr : Nat → Option Nat) :
    Tracks ⟨{ it with currCline := curr }, scan :: scans⟩ := by
  have hsame : ∀ i, Exhausted (scan :: scans) i ↔ Exhausted scans i := fun i => by
    simp [exhausted_cons, hfound]
  refine ⟨⟨h.lt, h.width, fun k hk => ?_, h.count⟩, fun i hi => ?_⟩
  · rw [hsame]
    exact h.stands k hk
  · have hbefore := (hsame i).mp hi
    by_cases hidx : i = it.lruIdx
    · refine .inr ⟨?_, hidx⟩
      by_contra hpos
      have hcurrent := h.current_left (hleft (Nat.pos_of_ne_zero hpos))
      exact hcurrent (hidx ▸ hbefore)
    · exact (h.last i hbefore).imp_left fun hlast =>
        hlast.cons fun heq => hidx (heq.symm.trans hlist)

/-- A list without a line is marked empty. -/
theorem Tracks.failed (hfound : scan.found = none) :
    Tracks ⟨if lruLruIsEmpty it then it else lruLruSetEmpty it, scan :: scans⟩ := by
  have h32 : ocfNumLruLists = 32 := rfl
  have hlt : it.lruIdx < 32 := h.lt
  have hlast : ∀ i, Exhausted (scan :: scans) i → LastFailed (scan :: scans) i := by
    intro i hi
    by_cases hidx : scan.list = i
    · exact hidx ▸ lastFailed_head hfound
    · have hbefore := (exhausted_cons.mp hi).resolve_left fun heq => hidx heq.1
      refine ((h.last i hbefore).resolve_right fun hend => ?_).cons hidx
      exact hidx (hlist.trans hend.2.symm)
  rw [lruLruIsEmpty_eq]
  cases htop : it.nextAvailLru.getLsbD 31 with
  | true =>
    have hword := setEmpty_getLsbD h.width
    have hcount : popcount (lruLruSetEmpty it).nextAvailLru + 1 = popcount it.nextAvailLru :=
      popcount_setEmpty h.width htop
    refine ⟨⟨h.lt, fun k hk => ?_, fun k hk => ?_, ?_⟩, fun i hi => .inl (hlast i hi)⟩
    · exact (hword k).trans (by rw [h.width k hk, Bool.false_and])
    · have hk' : k < 32 := hk
      have hstands := h.stands k hk
      change (lruLruSetEmpty it).nextAvailLru.getLsbD k = true ↔
        ¬Exhausted (scan :: scans) ((it.lruIdx + 1 + k) % 32)
      rw [hword, exhausted_cons, hlist]
      by_cases hlastbit : k = 31
      · have hidx : (it.lruIdx + 1 + k) % 32 = it.lruIdx := by omega
        rw [hidx]
        simp [hlastbit, hfound]
      · have hidx : it.lruIdx ≠ (it.lruIdx + 1 + k) % 32 := by omega
        rw [h32] at hstands
        simpa [hlastbit, hidx] using hstands
    · have hbefore : it.numAvailLrus = popcount it.nextAvailLru := h.count
      change it.numAvailLrus - 1 = popcount (lruLruSetEmpty it).nextAvailLru
      omega
  | false =>
    have hzero : it.numAvailLrus = 0 := by
      by_contra hpos
      rw [hleft (Nat.pos_of_ne_zero hpos)] at htop
      exact absurd htop nofun
    refine ⟨⟨h.lt, h.width, fun k hk => ?_, h.count⟩, fun i hi => .inl (hlast i hi)⟩
    have hbit := h.none_left hzero k
    have hall := h.exhausted_of_none_left hzero (Nat.mod_lt (it.lruIdx + 1 + k) (Nat.succ_pos 31))
    have hmem := (@exhausted_cons scan _ _).mpr (.inr hall)
    refine iff_of_false (fun hset => ?_) (not_not.mpr hmem)
    exact absurd (hbit.symm.trans hset) nofun

theorem Tracks.settled (kind : Kind) (l : Lists) :
    Tracks (settle kind l it scan scans).2 ∧ Rounded ⟨it, scans⟩ (settle kind l it scan scans) := by
  cases hfound : scan.found with
  | some x =>
    have hne : scan.found ≠ none := by simp [hfound]
    simp only [settle, hfound]
    exact ⟨h.found hleft hlist hne _, ⟨scan, rfl, hlist, hfound⟩, nofun⟩
  | none =>
    simp only [settle, hfound]
    refine ⟨h.failed hleft hlist hfound, ⟨scan, rfl, ?_, hfound⟩, fun _ => ?_⟩
    · split
      · exact hlist
      · exact hlist
    · change (if lruLruIsEmpty it then it else lruLruSetEmpty it).numAvailLrus < it.numAvailLrus ∨ _
      rw [lruLruIsEmpty_eq]
      by_cases hzero : it.numAvailLrus = 0
      · refine .inr ?_
        split
        · exact hzero
        · exact (congrArg (· - 1) hzero :)
      · have htop := hleft (Nat.pos_of_ne_zero hzero)
        rw [htop, Bool.not_true, if_neg Bool.false_ne_true]
        exact .inl (Nat.sub_lt (Nat.pos_of_ne_zero hzero) Nat.one_pos)

end Scanned

end Steps

section Scans

variable {prev next : Nat → Option Nat} {xs : List Nat}

/-- The lines from a start on. -/
def Back (prev : Nat → Option Nat) : Option Nat → List Nat → Prop
  | start, [] => start = none
  | start, x :: xs => start = some x ∧ Back prev (prev x) xs

theorem back_of_segment {q : Option Nat} (h : Segment prev next none xs q) :
    Back prev xs.getLast? xs.reverse := by
  induction xs using List.reverseRecOn generalizing q with
  | nil => rfl
  | append_singleton xs x ih =>
    obtain ⟨hinit, hlast⟩ := segment_append.mp h
    have hprev : prev x = xs.getLast?.or none := hlast.1
    rw [Option.or_none] at hprev
    rw [List.getLast?_concat, List.reverse_concat]
    refine ⟨rfl, ?_⟩
    rw [hprev]
    exact ih hinit

theorem Lists.back (l : Lists) {i : Nat} (hi : i < ocfNumLruLists) :
    Back (fun x => (l.nodes x).prev) (l.heads i).tail (l.lines i).reverse := by
  obtain ⟨hot, cold, heq, hlru, -⟩ := l.listed i hi
  rw [hlru.tail, ← heq]
  exact back_of_segment hlru.linked

/-- What a scan of the lines `xs` has done. -/
structure Scanned (prev : Nat → Option Nat) (lock : Nat → Bool) (xs : List Nat)
    (r : List Nat × Option Nat) : Prop where
  /-- A failed scan has tried all lines. -/
  failed : r.2 = none → r.1 = xs ∧ ∀ x ∈ xs, lock x = false
  /-- Otherwise the last line tried was locked, the others are left. -/
  found : ∀ x, r.2 = some x → lock x = true ∧ x ∈ r.1 ∧
    ∃ rest, xs = r.1 ++ rest ∧ Back prev (prev x) rest

theorem scanLoop_spec (lock : Nat → Bool) {start : Option Nat} (h : Back prev start xs) :
    ∃ r, Returns (fun fuel => scanLoop prev lock fuel start) r ∧ Scanned prev lock xs r := by
  induction xs generalizing start with
  | nil =>
    have hstart : start = none := h
    subst hstart
    exact ⟨([], none), .last fun _ => rfl, fun _ => ⟨rfl, by simp⟩, nofun⟩
  | cons x xs ih =>
    obtain ⟨rfl, hrest⟩ := h
    cases hlock : lock x with
    | true =>
      refine ⟨([x], some x), .last fun _ => by simp [scanLoop, hlock], nofun, fun y hy => ?_⟩
      obtain rfl := Option.some.inj hy
      exact ⟨hlock, List.mem_singleton_self _, xs, rfl, hrest⟩
    | false =>
      obtain ⟨r, hr, hscan⟩ := ih hrest
      refine ⟨(x :: r.1, r.2), (hr.map fun r => (x :: r.1, r.2)).succ fun n hn => ?_, fun hnone => ?_,
        fun y hy => ?_⟩
      · rw [scanLoop, hlock, if_neg Bool.false_ne_true]
        exact hn
      · obtain ⟨htried, hall⟩ := hscan.failed hnone
        exact ⟨congrArg (x :: ·) htried, List.forall_mem_cons.mpr ⟨hlock, hall⟩⟩
      · obtain ⟨hy', hmem, rest, hxs, hback⟩ := hscan.found y hy
        exact ⟨hy', List.mem_cons_of_mem x hmem, rest, congrArg (x :: ·) hxs, hback⟩

end Scans

section Calls

variable {Inv : State → Prop} {s : State}

/-- What a call does. -/
structure Called (s : State) (r : Option Nat × State) : Prop where
  /-- No scan but the last one found a line. -/
  scans : ∃ new, r.2.scans = new ++ s.scans ∧ new.filterMap Scan.found = r.1.toList
  /-- Without a line no list is left. -/
  none_left : r.1 = none → r.2.it.numAvailLrus = 0
  /-- Without a line the last scan has failed. -/
  last : r.1 = none → LastFailed r.2.scans r.2.it.lruIdx

theorem nextLoop_spec (hround : ∀ s, Inv s →
      ∃ r, Returns (round kind lists lock s) r ∧ Inv r.2 ∧ Rounded s r) (h : Inv s) :
    ∃ r, Returns₂ (fun fuel n => nextLoop kind lists lock fuel n s) r ∧ Inv r.2 ∧ Called s r := by
  generalize hn : s.it.numAvailLrus = n
  induction n using Nat.strongRecOn generalizing s with
  | ind n ih =>
    obtain ⟨r, hr, hinv, hrounded⟩ := hround s h
    obtain ⟨scan, hscans, hlist, hfound⟩ := hrounded.scan
    by_cases hmore : r.1.isNone && !lruLruAllEmpty r.2.it
    · have hcond := hmore
      rw [Bool.and_eq_true, Option.isNone_iff_eq_none, lruLruAllEmpty, Bool.not_eq_true',
        beq_eq_false_iff_ne] at hcond
      have hless := (hrounded.left hcond.1).resolve_right hcond.2
      obtain ⟨r', hr', hinv', hcalled⟩ := ih _ (hn ▸ hless) hinv rfl
      obtain ⟨new, hnew, hlines⟩ := hcalled.scans
      refine ⟨r', hr'.succ hr fun m n hm hrest => ?_, hinv', ⟨new ++ [scan], ?_, ?_⟩, hcalled.none_left,
        hcalled.last⟩
      · rw [nextLoop, hm, Option.bind_some, if_pos hmore]
        exact hrest
      · rw [hnew, hscans, List.append_assoc]
        rfl
      · rw [List.filterMap_append, hlines]
        simp [hfound, hcond.1]
    · refine ⟨r, .last hr fun m n hm => ?_, hinv, ⟨[scan], hscans, ?_⟩, fun hnone => ?_, fun hnone => ?_⟩
      · rw [nextLoop, hm, Option.bind_some, if_neg hmore]
      · cases hr1 : r.1 with
        | none => simp [hfound, hr1]
        | some x => simp [hfound, hr1]
      · simpa [hnone, lruLruAllEmpty] using hmore
      · rw [hscans, ← hlist]
        exact lastFailed_head (hfound.trans hnone)

theorem Tracks.next_round (kind : Kind) (lock : Nat → Nat → Bool) (h : Tracks s) {l : Lists}
    {it : LruIter} (hl : lists s.scans.length = l) (hit : lruIterAdvance s.it = it) {xs : List Nat}
    (hback : Back (fun x => (l.nodes x).prev) (kind.start l it) xs) :
    ∃ scan, scan.list = it.lruIdx ∧ scan.time = s.scans.length ∧
      Scanned (fun x => (l.nodes x).prev) (lock s.scans.length) xs (scan.tried, scan.found) ∧
      Returns (round kind lists lock s) (settle kind l it scan s.scans) ∧
      Tracks (settle kind l it scan s.scans).2 ∧ Rounded s (settle kind l it scan s.scans) := by
  subst hl hit
  obtain ⟨-, hadv⟩ := h.toBitmap.advance
  obtain ⟨r, hr, hscanned⟩ := scanLoop_spec (lock s.scans.length) hback
  have hleft : 0 < (lruIterAdvance s.it).numAvailLrus →
      (lruIterAdvance s.it).nextAvailLru.getLsbD 31 = true := fun hpos =>
    hadv.current (hadv.numAvailLrus ▸ hpos)
  obtain ⟨htracks, hrounded⟩ := @Tracks.settled _ _
    ⟨(lruIterAdvance s.it).lruIdx, s.scans.length, r.1, r.2⟩ h.advance hleft rfl kind
    (lists s.scans.length)
  refine ⟨_, rfl, rfl, hscanned, hr.map _, htracks, hrounded.scan, fun hnone => ?_⟩
  exact (hrounded.left hnone).imp_left fun hless => hadv.numAvailLrus ▸ hless

end Calls

/-- Invariant of the calls for eviction. -/
structure Evicting (lists : Nat → Lists) (lock : Nat → Nat → Bool) (s : State) : Prop
    extends Tracks s where
  /-- A failed scan found no line of its list to lock. -/
  failed : ∀ scan ∈ s.scans, scan.found = none →
    ∀ x ∈ (lists scan.time).lines scan.list, lock scan.time x = false

/-- Invariant of the calls for cleaning. -/
structure Cleaning (l : Lists) (lock : Nat → Nat → Bool) (s : State) : Prop extends Tracks s where
  /-- The lines of a list up to the current one have been tried, the others have
  not been returned. -/
  split : ∀ i < ocfNumLruLists, ∃ done todo, (l.lines i).reverse = done ++ todo ∧
    Back (fun x => (l.nodes x).prev) (s.it.currCline i) todo ∧
    (∀ x ∈ done, ∃ scan ∈ s.scans, x ∈ scan.tried) ∧ ∀ x ∈ todo, x ∉ s.scans.filterMap Scan.found
  /-- A failed scan comes after all lines of its list have been tried. -/
  failed : ∀ i < ocfNumLruLists, Exhausted s.scans i →
    ∀ x ∈ l.lines i, ∃ scan ∈ s.scans, x ∈ scan.tried
  /-- No line is returned twice. -/
  nodup : (s.scans.filterMap Scan.found).Nodup
  /-- A line that is returned is one of the lists and was locked. -/
  locked : ∀ scan ∈ s.scans, ∀ x, scan.found = some x →
    (∃ i < ocfNumLruLists, x ∈ l.lines i) ∧ lock scan.time x = true

theorem settle_scans (kind : Kind) (l : Lists) (it : LruIter) (scan : Scan) (scans : List Scan) :
    (settle kind l it scan scans).2.scans = scan :: scans := by
  cases hfound : scan.found <;> simp [settle, hfound]

theorem Evicting.next_round {s : State} (h : Evicting lists lock s) :
    ∃ r, Returns (round eviction lists lock s) r ∧ Evicting lists lock r.2 ∧ Rounded s r := by
  have hlt := h.toTracks.advance.lt
  obtain ⟨scan, hlist, htime, hscanned, hr, htracks, hrounded⟩ :=
    h.toTracks.next_round eviction lock rfl rfl ((lists s.scans.length).back hlt)
  refine ⟨_, hr, ⟨htracks, ?_⟩, hrounded⟩
  rw [settle_scans]
  refine List.forall_mem_cons.mpr ⟨fun hnone x hx => ?_, h.failed⟩
  rw [htime] at hx ⊢
  rw [hlist] at hx
  exact (hscanned.failed hnone).2 x (List.mem_reverse.mpr hx)

/-- One round of the iterator of the cleaner. -/
theorem Cleaning.next_round {l : Lists} {s : State} (h : Cleaning l lock s) :
    ∃ r, Returns (round cleaning (fun _ => l) lock s) r ∧ Cleaning l lock r.2 ∧ Rounded s r := by
  have hlt := h.toTracks.advance.lt
  have hcurr := h.toBitmap.advance.2.currCline
  obtain ⟨it, hit⟩ : ∃ it, lruIterAdvance s.it = it := ⟨_, rfl⟩
  obtain ⟨i, hi⟩ : ∃ i, it.lruIdx = i := ⟨_, rfl⟩
  rw [hit] at hcurr hlt
  change it.lruIdx < _ at hlt
  rw [hi] at hlt
  obtain ⟨done, todo, hlines, hback, htried, hnew⟩ := h.split i hlt
  rw [← hcurr, ← hi] at hback
  obtain ⟨scan, hlist, htime, hscanned, hr, htracks, hrounded⟩ :=
    @Tracks.next_round (fun _ => l) s cleaning lock h.toTracks l it rfl hit todo hback
  rw [hi] at hlist hback
  have hkeep : ∀ x, (∃ t ∈ s.scans, x ∈ t.tried) → ∃ t ∈ scan :: s.scans, x ∈ t.tried :=
    fun x ⟨t, ht, hx⟩ => ⟨t, List.mem_cons_of_mem scan ht, hx⟩
  have hnow : ∀ x ∈ scan.tried, ∃ t ∈ scan :: s.scans, x ∈ t.tried :=
    fun x hx => ⟨scan, List.mem_cons_self, hx⟩
  have hmem : ∀ x ∈ todo, x ∈ l.lines i := fun x hx =>
    List.mem_reverse.mp (hlines ▸ List.mem_append_right done hx)
  refine ⟨_, hr, ⟨htracks, fun j hj => ?_, ?_, ?_, ?_⟩, hrounded⟩
  · obtain ⟨done', todo', hlines', hback', htried', hnew'⟩ := h.split j hj
    cases hfound : scan.found with
    | none =>
      have hnext : (settle cleaning l it scan s.scans).2.it.currCline =
          s.it.currCline := by
        simp only [settle, hfound]
        split
        · exact hcurr
        · exact hcurr
      rw [hnext, settle_scans, List.filterMap_cons_none hfound]
      exact ⟨done', todo', hlines', hback', fun x hx => hkeep x (htried' x hx), hnew'⟩
    | some x =>
      obtain ⟨-, hx, rest, htodo, hrest⟩ := hscanned.found x hfound
      have hxi := hmem x (htodo ▸ List.mem_append_left rest hx)
      have hnext : (settle cleaning l it scan s.scans).2.it.currCline =
          update s.it.currCline i (l.nodes x).prev := by
        simp only [settle, hfound, cleaning, hcurr, hi]
      rw [hnext, settle_scans, List.filterMap_cons_some hfound]
      by_cases hji : j = i
      · have hsplit : (l.lines i).reverse = done ++ scan.tried ++ rest := by
          rw [hlines, htodo, List.append_assoc]
        have hnodup := List.nodup_reverse.mpr (l.listed i hlt).nodup
        rw [hsplit] at hnodup
        have hapart := List.disjoint_of_nodup_append hnodup
        rw [hji, update_self]
        refine ⟨done ++ scan.tried, rest, hsplit, hrest, fun y hy => ?_, fun y hy => ?_⟩
        · exact (List.mem_append.mp hy).elim (fun hy => hkeep y (htried y hy)) (hnow y)
        · have hyx : y ≠ x := fun heq => hapart (List.mem_append_right done hx) (heq ▸ hy)
          have hold := hnew y (htodo ▸ List.mem_append_right scan.tried hy)
          exact List.not_mem_cons_of_ne_of_not_mem hyx hold
      · rw [update_of_ne hji]
        refine ⟨done', todo', hlines', hback', fun y hy => hkeep y (htried' y hy), fun y hy => ?_⟩
        have hyj : y ∈ l.lines j :=
          List.mem_reverse.mp (hlines' ▸ List.mem_append_right done' hy)
        have hyx : y ≠ x := fun heq => hji (l.one_list j i x (heq ▸ hyj) hxi)
        exact List.not_mem_cons_of_ne_of_not_mem hyx (hnew' y hy)
  · rw [settle_scans]
    intro j hj hex x hx
    rcases exhausted_cons.mp hex with ⟨rfl, hnone⟩ | hbefore
    · have hx' : x ∈ done ++ todo := by
        rw [← hlines, ← hlist]
        exact List.mem_reverse.mpr hx
      rcases List.mem_append.mp hx' with hx' | hx'
      · exact hkeep x (htried x hx')
      · have htodo : scan.tried = todo := (hscanned.failed hnone).1
        exact hnow x (htodo ▸ hx')
    · exact hkeep x (h.failed j hj hbefore x hx)
  · rw [settle_scans]
    cases hfound : scan.found with
    | none => simpa [List.filterMap_cons, hfound] using h.nodup
    | some x =>
      obtain ⟨-, hx, rest, htodo, -⟩ := hscanned.found x hfound
      have hx' := hnew x (htodo ▸ List.mem_append_left rest hx)
      rw [List.filterMap_cons_some hfound]
      exact List.nodup_cons.mpr ⟨hx', h.nodup⟩
  · rw [settle_scans]
    refine List.forall_mem_cons.mpr ⟨fun x hx => ?_, h.locked⟩
    obtain ⟨hlock, hxtried, rest, htodo, -⟩ := hscanned.found x hx
    rw [htime]
    exact ⟨⟨i, hlt, hmem x (htodo ▸ List.mem_append_left rest hxtried)⟩, hlock⟩

/-- The iterator after some calls, and their results, the latest first. -/
structure Run where
  /-- The iterator and its scans. -/
  state : State
  /-- Results of the calls; `none` is the end marker. -/
  results : List (Option Nat)

/-- What is done with an iterator. -/
inductive Act
  /-- A call that returns. -/
  | call (result : Option Nat) (state : State)
  /-- `lru_req_next_cline` has found a line by itself. -/
  | reqNextCline

/-- Calls of an iterator and advances in between. -/
def iterSystem (kind : Kind) (lists : Nat → Lists) (lock : Nat → Nat → Bool) : System Run Act where
  guard s act := match act with
    | .call result state => Returns (iterNext kind lists lock s.state) (result, state)
    | .reqNextCline => True
  step s act := match act with
    | .call result state => some ⟨state, result :: s.results⟩
    | .reqNextCline => some ⟨⟨lruIterAdvance s.state.it, s.state.scans⟩, s.results⟩

/-- A new iterator. -/
def begin (startLru : Nat) (heads : Nat → LruHead) : Run := ⟨⟨lruIterInit startLru heads, []⟩, []⟩

/-- What holds of the calls for eviction. -/
structure EvictionComplete (lists : Nat → Lists) (lock : Nat → Nat → Bool) (s : Run) : Prop where
  /-- The next call returns, with the end marker only if the last scan of every
  list has found no line to lock in the list as it was. -/
  next : ∃ result state, Returns (iterNext eviction lists lock s.state) (result, state) ∧
    (result = none → ∀ i < ocfNumLruLists, ∃ scan, state.scans.find? (fun t => t.list == i) = some scan ∧
      ∀ x ∈ (lists scan.time).lines i, lock scan.time x = false)
  /-- The bits stand for the lists. -/
  bitmap : Bitmap s.state

/-- What holds of the calls for cleaning. -/
structure CleaningComplete (l : Lists) (lock : Nat → Nat → Bool) (s : Run) : Prop where
  /-- The next call returns. -/
  next : ∃ result state, Returns (iterNext cleaning (fun _ => l) lock s.state) (result, state)
  /-- No line is returned twice. -/
  once : (s.results.filterMap id).Nodup
  /-- A line that is returned is one of the lists and was locked. -/
  locked : ∀ x, some x ∈ s.results → (∃ i < ocfNumLruLists, x ∈ l.lines i) ∧
    ∃ scan ∈ s.state.scans, scan.found = some x ∧ lock scan.time x = true
  /-- Before the end marker all lines have been tried. -/
  tried : none ∈ s.results → ∀ i < ocfNumLruLists, ∀ x ∈ l.lines i,
    ∃ scan ∈ s.state.scans, x ∈ scan.tried
  /-- There are no more calls before the end marker than lines. -/
  ends : none ∉ s.results →
    s.results.length ≤ ((List.range ocfNumLruLists).flatMap l.lines).length
  /-- The bits stand for the lists. -/
  bitmap : Bitmap s.state

section Runs

variable {l : Lists} {start : Nat} {s : Run}

theorem tracks_begin (heads : Nat → LruHead) : Tracks (begin start heads).state := by
  have hbits : ∀ k, (begin start heads).state.it.nextAvailLru.getLsbD k = decide (k < 32) :=
    fun k => mask_getLsbD
  have hcount : 32 = popcount ((1#64 <<< 32) - 1#64) := by decide
  refine ⟨⟨Nat.mod_lt _ (Nat.succ_pos 31), fun k hk => ?_, fun k hk => ?_, hcount⟩, ?_⟩
  · rw [hbits]
    exact decide_eq_false (Nat.not_lt.mpr hk)
  · rw [hbits, decide_eq_true_iff]
    exact iff_of_true hk (fun h => by simp [Exhausted, begin] at h)
  · exact fun i h => by simp [Exhausted, begin] at h

theorem Exhausted.append {new scans : List Scan} {i : Nat} (h : Exhausted scans i) :
    Exhausted (new ++ scans) i := by
  obtain ⟨scan, hscan, hfail⟩ := h
  exact ⟨scan, List.mem_append_right new hscan, hfail⟩

theorem evicting_of_reachable {heads : Nat → LruHead}
    (h : Reachable (iterSystem eviction lists lock) (begin start heads) s) :
    Evicting lists lock s.state := by
  induction h with
  | refl => exact ⟨tracks_begin _, by simp [begin]⟩
  | @snoc act s s' _ hg hs _ hinv =>
    cases act with
    | call result state =>
      cases hs
      obtain ⟨r, hr, hr', -⟩ := nextLoop_spec (fun _ => Evicting.next_round) hinv
      obtain rfl := hr.returns.unique hg
      exact hr'
    | reqNextCline =>
      cases hs
      exact ⟨hinv.toTracks.advance, hinv.failed⟩

/-- Invariant of the calls for cleaning with their results. -/
structure CleaningRun (l : Lists) (lock : Nat → Nat → Bool) (s : Run) : Prop where
  /-- The iterator. -/
  state : Cleaning l lock s.state
  /-- The results are those of the scans. -/
  results : s.results.filterMap id = s.state.scans.filterMap Scan.found
  /-- At the end marker a scan of every list has failed. -/
  ended : none ∈ s.results → ∀ i < ocfNumLruLists, Exhausted s.state.scans i

theorem cleaningRun_of_reachable
    (h : Reachable (iterSystem cleaning (fun _ => l) lock) (begin start l.heads) s) :
    CleaningRun l lock s := by
  refine h.invariant (fun _ => ?_) fun s act s' hinv _ hg hs _ => ?_
  · refine ⟨⟨tracks_begin _, fun i hi => ⟨[], _, rfl, l.back hi, ?_, ?_⟩, ?_, ?_, ?_⟩, rfl, ?_⟩
    all_goals simp [begin, Exhausted]
  · cases act with
    | call result state =>
      cases hs
      obtain ⟨r, hr, hr', hcalled⟩ := nextLoop_spec (fun _ => Cleaning.next_round) hinv.state
      obtain rfl := hr.returns.unique hg
      obtain ⟨new, hnew, hfound⟩ := hcalled.scans
      refine ⟨hr', ?_, fun hnone i hi => ?_⟩
      · change (result :: s.results).filterMap id = state.scans.filterMap Scan.found
        rw [hnew, List.filterMap_append, hfound, ← hinv.results]
        cases result <;> rfl
      · rcases List.mem_cons.mp hnone with hnone | hnone
        · exact hr'.exhausted_of_none_left (hcalled.none_left hnone.symm) hi
        · change Exhausted state.scans i
          rw [hnew]
          exact (hinv.ended hnone i hi).append
    | reqNextCline =>
      cases hs
      have hcurr : (lruIterAdvance s.state.it).currCline = s.state.it.currCline :=
        hinv.state.toBitmap.advance.2.currCline
      refine ⟨⟨hinv.state.toTracks.advance, ?_, hinv.state.failed, hinv.state.nodup,
        hinv.state.locked⟩, hinv.results, hinv.ended⟩
      change ∀ i < ocfNumLruLists, ∃ done todo, _ ∧ Back _ ((lruIterAdvance s.state.it).currCline i) todo ∧ _
      rw [hcurr]
      exact hinv.state.split

/-- The calls for eviction and for cleaning are complete in every run. -/
theorem iterator_complete (lists : Nat → Lists) (l : Lists) (lock : Nat → Nat → Bool) (start : Nat)
    (heads : Nat → LruHead) :
    (∀ s, Reachable (iterSystem eviction lists lock) (begin start heads) s →
      EvictionComplete lists lock s) ∧
    ∀ s, Reachable (iterSystem cleaning (fun _ => l) lock) (begin start l.heads) s →
      CleaningComplete l lock s := by
  constructor
  · intro s h
    have hinv := evicting_of_reachable h
    obtain ⟨r, hr, hr', hcalled⟩ := nextLoop_spec (fun _ => Evicting.next_round) hinv
    refine ⟨⟨r.1, r.2, hr.returns, fun hnone i hi => ?_⟩, hinv.toBitmap⟩
    have hex := hr'.exhausted_of_none_left (hcalled.none_left hnone) hi
    have hlast : LastFailed r.2.scans i := by
      rcases hr'.last i hex with hlast | ⟨-, hidx⟩
      · exact hlast
      · exact hidx ▸ hcalled.last hnone
    obtain ⟨scan, hfind, hfailed⟩ := hlast
    have hlist : scan.list = i := by simpa using List.find?_some hfind
    refine ⟨scan, hfind, fun x hx => ?_⟩
    exact hr'.failed scan (List.mem_of_find?_eq_some hfind) hfailed x (hlist ▸ hx)
  · intro s h
    have hinv := cleaningRun_of_reachable h
    obtain ⟨r, hr, -, -⟩ := nextLoop_spec (fun _ => Cleaning.next_round) hinv.state
    have hlocked : ∀ x, some x ∈ s.results → (∃ i < ocfNumLruLists, x ∈ l.lines i) ∧
        ∃ scan ∈ s.state.scans, scan.found = some x ∧ lock scan.time x = true := by
      intro x hx
      have hmem : x ∈ s.results.filterMap id := List.mem_filterMap.mpr ⟨some x, hx, rfl⟩
      rw [hinv.results] at hmem
      obtain ⟨scan, hscan, hfound⟩ := List.mem_filterMap.mp hmem
      obtain ⟨hlist, hlock⟩ := hinv.state.locked scan hscan x hfound
      exact ⟨hlist, scan, hscan, hfound, hlock⟩
    have honce : (s.results.filterMap id).Nodup := hinv.results ▸ hinv.state.nodup
    refine ⟨⟨r.1, r.2, hr.returns⟩, honce, hlocked,
      fun hnone i hi => hinv.state.failed i hi (hinv.ended hnone i hi), fun hnone => ?_,
      hinv.state.toBitmap⟩
    have hall : (s.results.filterMap id).length = s.results.length :=
      List.filterMap_length_eq_length.mpr fun a ha =>
        Option.isSome_iff_ne_none.mpr fun heq => hnone (heq ▸ ha)
    rw [← hall]
    refine (List.subperm_of_subset honce fun x hx => ?_).length_le
    obtain ⟨_, hmem, rfl⟩ := List.mem_filterMap.mp hx
    obtain ⟨⟨i, hi, hin⟩, -⟩ := hlocked x hmem
    exact List.mem_flatMap.mpr ⟨i, List.mem_range.mpr hi, hin⟩

/-- Lines 0 and 1 are on list 3, and line 2 is on list 4. -/
def twoLists : Lists where
  nodes x := if x = 0 then ⟨none, some 1, true⟩ else if x = 1 then ⟨some 0, none, false⟩ else ⟨none, none, false⟩
  heads i :=
    if i = 3 then ⟨2, some 0, some 1, 1, some 0, true⟩
    else if i = 4 then ⟨1, some 2, some 2, 0, none, true⟩
    else lruInit true
  lines i := if i = 3 then [0, 1] else if i = 4 then [2] else []
  listed := by
    intro i _
    by_cases h3 : i = 3
    · subst h3
      exact ⟨[0], [1], rfl, ⟨⟨rfl, rfl, rfl, rfl, trivial⟩, by decide, rfl, rfl, rfl, rfl, rfl, by decide, by decide, nofun⟩, fun _ => rfl⟩
    · by_cases h4 : i = 4
      · subst h4
        exact ⟨[], [2], rfl, ⟨⟨rfl, rfl, trivial⟩, by decide, rfl, rfl, rfl, rfl, rfl, by decide, by decide, nofun⟩, fun _ => rfl⟩
      · rw [if_neg h3, if_neg h4, if_neg h3, if_neg h4]
        exact lru_lruInit _ true
  one_list := by
    intro i j x hi hj
    by_cases h3 : i = 3 <;> by_cases h4 : i = 4 <;> by_cases k3 : j = 3 <;> by_cases k4 : j = 4 <;> simp_all

/-- Line 1 is locked by others, and lines 0 and 2 are once they were taken. -/
def lockable (time x : Nat) : Bool := (x = 0 && time < 2) || (x = 2 && time < 4)

/-- A call with a bound that is large enough for the lists. -/
def callOnce (kind : Kind) (s : Run) : Option Run :=
  (iterNext kind (fun _ => twoLists) lockable s.state 40).map fun r => ⟨r.2, r.1 :: s.results⟩

/-- Three calls of a new iterator. -/
def threeCalls (kind : Kind) : Option Run :=
  ((callOnce kind (begin 3 twoLists.heads)).bind (callOnce kind)).bind (callOnce kind)

theorem scanLoop_succ {prev : Nat → Option Nat} {held : Nat → Bool} {n : Nat} {x : Option Nat}
    {r : List Nat × Option Nat} (h : scanLoop prev held n x = some r) : scanLoop prev held (n + 1) x = some r := by
  induction n generalizing x r with
  | zero => cases h
  | succ n ih =>
    cases x with
    | none => exact h
    | some x =>
      rw [scanLoop] at h ⊢
      split
      · rwa [if_pos ‹_›] at h
      · rw [if_neg ‹_›] at h
        obtain ⟨r', hr', rfl⟩ := Option.map_eq_some_iff.mp h
        rw [ih hr', Option.map_some]

theorem nextLoop_succ {n m : Nat} {s : State} {r : Option Nat × State}
    (h : nextLoop kind lists lock n m s = some r) : nextLoop kind lists lock (n + 1) (m + 1) s = some r := by
  induction m generalizing s with
  | zero => cases h
  | succ m ih =>
    obtain ⟨a, ha, hrest⟩ := Option.bind_eq_some_iff.mp h
    obtain ⟨b, hb, hr⟩ := Option.map_eq_some_iff.mp ha
    have hround : round kind lists lock s (n + 1) = some a := by
      rw [round, scanLoop_succ hb, Option.map_some, hr]
    rw [nextLoop, hround, Option.bind_some]
    split at hrest
    · rw [if_pos ‹_›]
      exact ih hrest
    · rwa [if_neg ‹_›]

theorem threeCalls_reachable {kind : Kind} (h : threeCalls kind = some s) :
    Reachable (iterSystem kind (fun _ => twoLists) lockable) (begin 3 twoLists.heads) s := by
  have hcall : ∀ s s', callOnce kind s = some s' →
      Reachable (iterSystem kind (fun _ => twoLists) lockable) (begin 3 twoLists.heads) s →
      Reachable (iterSystem kind (fun _ => twoLists) lockable) (begin 3 twoLists.heads) s' := by
    intro s s' hs hrun
    obtain ⟨r, hr, rfl⟩ := Option.map_eq_some_iff.mp hs
    exact hrun.next (.call r.1 r.2) (Returns.of_succ (fun _ _ => nextLoop_succ) hr) rfl
  obtain ⟨s2, h2, h3⟩ := Option.bind_eq_some_iff.mp h
  obtain ⟨s1, h1, h2⟩ := Option.bind_eq_some_iff.mp h2
  exact hcall _ _ h3 (hcall _ _ h2 (hcall _ _ h1 (.refl trivial)))

/-- Both iterators pass the locked line, take lines 0 and 2 and come to the end. -/
theorem iterator_complete_twoLists :
    (∃ s, threeCalls eviction = some s ∧ s.results = [none, some 2, some 0] ∧
      EvictionComplete (fun _ => twoLists) lockable s) ∧
    ∃ s, threeCalls cleaning = some s ∧ s.results = [none, some 2, some 0] ∧
      CleaningComplete twoLists lockable s := by
  have hall := iterator_complete (fun _ => twoLists) twoLists lockable 3 twoLists.heads
  have hevict : (threeCalls eviction).map Run.results = some [none, some 2, some 0] := by decide +kernel
  have hclean : (threeCalls cleaning).map Run.results = some [none, some 2, some 0] := by decide +kernel
  obtain ⟨s, hs, hres⟩ := Option.map_eq_some_iff.mp hevict
  obtain ⟨s', hs', hres'⟩ := Option.map_eq_some_iff.mp hclean
  exact ⟨⟨s, hs, hres, hall.1 s (threeCalls_reachable hs)⟩, s', hs', hres', hall.2 s' (threeCalls_reachable hs')⟩

end Runs

end OcfCache.LruIterator
