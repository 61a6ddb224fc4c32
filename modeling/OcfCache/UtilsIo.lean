import Mathlib.Algebra.Order.Ring.Nat
import OcfCache.Constants
import OcfCache.ForwardTokens
import OcfCache.FuelLoops

/-!
# Input and output of the management on the whole cache device

Embedding of `utils_io.c`: an operation of the management allocates its context
and a request, prepares the forwarding of the request, splits its range and waits
for the pieces. A function that is called through a pointer that is not set ends
the program: the result is `none`.
-/

namespace OcfCache.UtilsIo

open ForwardTokens FuelLoops

/-- Allocations that succeed. -/
structure Allocs where
  /-- The context. -/
  context : Bool
  /-- The request. -/
  request : Bool
  /-- The data. -/
  data : Bool

/-- Functions that `cache_forward_end` points to. -/
inductive Callback
  /-- `ocf_submit_cache_end`. -/
  | submitCacheEnd
  /-- `ocf_submit_cache_page_end`. -/
  | submitCachePageEnd

/-- A request; it is zeroed when it is allocated. -/
structure Req where
  /-- `cache_forward_end`. -/
  cacheForwardEnd : Option Callback
  /-- `priv` points to the context. -/
  priv : Bool

/-- A new request of the management. -/
def ocfReqNewMngt : Req := ⟨none, false⟩

/-- `ocf_req_forward_cache_init`. -/
def ocfReqForwardCacheInit (req : Req) (callback : Callback) : Req := { req with cacheForwardEnd := some callback }

/-- What an operation has done for its caller and with what it has allocated. -/
structure Effects where
  /-- Errors with which the completion was called. -/
  completions : List Int
  /-- Releases of the context. -/
  contextFrees : Nat
  /-- Releases of the request. -/
  requestPuts : Nat
  /-- Releases of the data. -/
  dataFrees : Nat

/-- Nothing was done. -/
def Effects.zero : Effects := ⟨[], 0, 0, 0⟩

/-- The last reference of a request was given back: `cache_forward_end` is called. -/
def cacheForwardEnd (req : Req) (eff : Effects) (error : Int) : Option Effects :=
  match req.cacheForwardEnd with
  | none => none
  | some callback =>
    if req.priv = false then none
    else match callback with
      | .submitCacheEnd =>
        some ⟨eff.completions ++ [error], eff.contextFrees + 1, eff.requestPuts + 1, eff.dataFrees⟩
      | .submitCachePageEnd =>
        some ⟨eff.completions ++ [error], eff.contextFrees + 1, eff.requestPuts + 1, eff.dataFrees + 1⟩

/-- Operations on the cache device. -/
inductive Kind
  /-- `ocf_req_forward_cache_flush`. -/
  | flush
  /-- `ocf_req_forward_cache_discard`. -/
  | discard
  /-- `ocf_req_forward_cache_write_zeros`. -/
  | writeZeros
  /-- `ocf_req_forward_cache_io`. -/
  | io (dir : Bool)

/-- An operation that is forwarded. -/
structure Piece where
  /-- The operation. -/
  kind : Kind
  /-- Address. -/
  addr : Nat
  /-- Length. -/
  bytes : Nat

/-- What the call of a function starts. -/
inductive Started
  /-- An allocation failed. -/
  | failed (eff : Effects)
  /-- Pieces are forwarded; the function holds the request meanwhile or not. -/
  | submitted (req : Req) (held : Bool) (pieces : List Piece)

/-- The loop that splits a range; `none` when the fuel runs out. -/
def splitLoop (kind : Kind) (maxLength : Nat) : Nat → Nat → Nat → Option (List Piece)
  | 0, _, length => if length = 0 then some [] else none
  | fuel + 1, addr, length =>
    if length = 0 then some []
    else
      let bytes := min length maxLength
      (splitLoop kind maxLength fuel ((addr + bytes) % 2 ^ 64) (length - bytes)).map (⟨kind, addr, bytes⟩ :: ·)

/-- `max_length` of `ocf_submit_cache_discard`: 32 bits without those of a sector. -/
def discardMaxLength : Nat := (2 ^ 32 - 1) / 512 * 512

/-- `max_length` of `ocf_submit_cache_write_zeros`: 32 bits without those of a page. -/
def writeZerosMaxLength : Nat := (2 ^ 32 - 1) / 4096 * 4096

section Code

variable (a : Allocs)

/-- `ocf_submit_cache_flush`. -/
def ocfSubmitCacheFlush : Started :=
  if a.context = false then .failed { Effects.zero with completions := [errNoMem] }
  else if a.request = false then .failed ⟨[errNoMem], 1, 0, 0⟩
  else
    let req := { ocfReqForwardCacheInit ocfReqNewMngt .submitCacheEnd with priv := true }
    .submitted req false [⟨.flush, 0, 0⟩]

/-- `ocf_submit_cache_discard`. -/
def ocfSubmitCacheDiscard (fuel addr length : Nat) : Option Started :=
  if a.context = false then some (.failed { Effects.zero with completions := [errNoMem] })
  else if a.request = false then some (.failed ⟨[errNoMem], 1, 0, 0⟩)
  else
    let req := { ocfReqForwardCacheInit ocfReqNewMngt .submitCacheEnd with priv := true }
    (splitLoop .discard discardMaxLength fuel addr length).map fun pieces => .submitted req true pieces

/-- `ocf_submit_cache_write_zeros`. -/
def ocfSubmitCacheWriteZeros (fuel addr length : Nat) : Option Started :=
  if a.context = false then some (.failed { Effects.zero with completions := [errNoMem] })
  else if a.request = false then some (.failed ⟨[errNoMem], 1, 0, 0⟩)
  else
    let req := ocfReqNewMngt
    (splitLoop .writeZeros writeZerosMaxLength fuel addr length).map fun pieces => .submitted req true pieces

/-- `ocf_submit_cache_page`. -/
def ocfSubmitCachePage (addr : Nat) (dir : Bool) : Started :=
  if a.context = false then .failed { Effects.zero with completions := [errNoMem] }
  else if a.request = false then .failed ⟨[errNoMem], 1, 0, 0⟩
  else if a.data = false then .failed ⟨[errNoMem], 1, 1, 0⟩
  else
    let req := { ocfReqForwardCacheInit ocfReqNewMngt .submitCachePageEnd with priv := true }
    .submitted req false [⟨.io dir, addr, 4096⟩]

/-- The functions of the management. -/
inductive Call
  /-- `ocf_submit_cache_flush`. -/
  | flush
  /-- `ocf_submit_cache_discard`. -/
  | discard (addr length : Nat)
  /-- `ocf_submit_cache_write_zeros`. -/
  | writeZeros (addr length : Nat)
  /-- `ocf_submit_cache_page`. -/
  | page (addr : Nat) (dir : Bool)

/-- A function of the management, with fuel for its loop. -/
def Call.start (fuel : Nat) : Call → Option Started
  | .flush => some (ocfSubmitCacheFlush a)
  | .discard addr length => ocfSubmitCacheDiscard a fuel addr length
  | .writeZeros addr length => ocfSubmitCacheWriteZeros a fuel addr length
  | .page addr dir => some (ocfSubmitCachePage a addr dir)

end Code

/-- What the function does with the references of its request. -/
def program (held : Bool) (pieces : List Piece) : List Op :=
  if held = true then .hold :: forwards pieces.length 0 else pieces.map fun _ => .forward

/-- Data that a callback releases. -/
def Callback.dataFrees : Callback → Nat
  | .submitCacheEnd => 0
  | .submitCachePageEnd => 1

/-- What has been done after a history of the references. -/
def effects (req : Req) (h : List Step) : Option Effects :=
  (Token.run ⟨0, 0, []⟩ h).calls.foldlM (cacheForwardEnd req) .zero

/-- The completion is called once, after all pieces have ended, with an error if and
only if an allocation or a piece has failed, and what was allocated is released
once. -/
def Completes (a : Allocs) (data : Nat) : Started → Prop
  | .failed eff => (∃ e, e ≠ 0 ∧ eff.completions = [e]) ∧ eff.contextFrees = a.context.toNat ∧
      eff.requestPuts = (a.context && a.request).toNat ∧ eff.dataFrees = 0
  | .submitted req held pieces => ∀ h, History (program held pieces) 0 h →
      (∀ k < h.length, (Token.run ⟨0, 0, []⟩ (h.take k)).calls = []) ∧
        ∃ eff e, effects req h = some eff ∧ eff.completions = [e] ∧ (e = 0 ↔ ∀ s ∈ h, s.error = 0) ∧
          eff.contextFrees = 1 ∧ eff.requestPuts = 1 ∧ eff.dataFrees = data

/-- Pieces that partition a range in order, none longer than a limit. -/
def Splits (kind : Kind) (maxLength : Nat) : Nat → Nat → List Piece → Prop
  | _, length, [] => length = 0
  | addr, length, p :: ps => p.kind = kind ∧ p.addr = addr ∧ 0 < p.bytes ∧ p.bytes ≤ maxLength ∧ p.bytes ≤ length ∧
      Splits kind maxLength ((addr + p.bytes) % 2 ^ 64) (length - p.bytes) ps

/-- The pieces of a function. -/
def Call.Covers : Call → List Piece → Prop
  | .flush, ps => ps = [⟨.flush, 0, 0⟩]
  | .discard addr length, ps => Splits .discard discardMaxLength addr length ps
  | .writeZeros addr length, ps => Splits .writeZeros writeZerosMaxLength addr length ps
  | .page addr dir, ps => ps = [⟨.io dir, addr, 4096⟩]

/-- Data that a function allocates. -/
def Call.data : Call → Nat
  | .page .. => 1
  | _ => 0

/-- A function ends, covers its range and completes. -/
def Correct (a : Allocs) (call : Call) : Prop :=
  ∃ s, Returns (fun fuel => call.start a fuel) s ∧
    (∀ req held pieces, s = .submitted req held pieces → call.Covers pieces) ∧ Completes a call.data s

/-- Writing zeros works only if an allocation fails, and discarding if the pieces can
be counted. -/
def Sound (a : Allocs) : Call → Prop
  | .discard _ length => a.context = true → a.request = true → length ≤ (2 ^ 32 - 1) * discardMaxLength
  | .writeZeros .. => a.context = false ∨ a.request = false
  | _ => True

theorem splitLoop_returns (kind : Kind) {maxLength : Nat} (hmax : 0 < maxLength) (addr length : Nat) :
    ∃ ps, Returns (fun fuel => splitLoop kind maxLength fuel addr length) ps ∧ Splits kind maxLength addr length ps ∧
      length ≤ ps.length * maxLength ∧ ps.length * maxLength < length + maxLength := by
  induction length using Nat.strong_induction_on generalizing addr with
  | h length ih =>
    by_cases hzero : length = 0
    · refine ⟨[], .last fun n => if_pos hzero, hzero, by omega, ?_⟩
      rw [List.length_nil, Nat.zero_mul]
      omega
    · obtain ⟨bytes, hbytes⟩ : ∃ bytes, min length maxLength = bytes := ⟨_, rfl⟩
      obtain ⟨ps, hps, hsplits, hle, hlt⟩ := ih (length - bytes) (by omega) ((addr + bytes) % 2 ^ 64)
      have hround := hps.map (⟨kind, addr, bytes⟩ :: ·)
      refine ⟨⟨kind, addr, bytes⟩ :: ps, hround.succ fun n hn => ?_, ⟨rfl, rfl, ?_, ?_, ?_, hsplits⟩, ?_, ?_⟩
      · unfold splitLoop
        simp only [if_neg hzero, hbytes]
        exact hn
      · change 0 < bytes
        omega
      · change bytes ≤ maxLength
        omega
      · change bytes ≤ length
        omega
      · rw [List.length_cons, Nat.succ_mul]
        omega
      · rw [List.length_cons, Nat.succ_mul]
        by_cases hlast : length ≤ maxLength
        · -- nothing is left after the last piece
          have hrest : length - bytes = 0 := by omega
          have hnone : ps.length * maxLength = 0 := by
            cases ps with
            | nil => exact Nat.zero_mul maxLength
            | cons p ps =>
              have hpos := hsplits.2.2.1
              have hfits := hsplits.2.2.2.2.1
              omega
          omega
        · omega

theorem completes_of_endsOnce {callback : Callback} {h : List Step} (hh : EndsOnce ⟨0, 0, []⟩ h) :
    (∀ k < h.length, (Token.run ⟨0, 0, []⟩ (h.take k)).calls = []) ∧
      ∃ eff e, effects ⟨some callback, true⟩ h = some eff ∧ eff.completions = [e] ∧ (e = 0 ↔ ∀ s ∈ h, s.error = 0) ∧
        eff.contextFrees = 1 ∧ eff.requestPuts = 1 ∧ eff.dataFrees = callback.dataFrees := by
  have herror : firstError 0 h = 0 ↔ ∀ s ∈ h, s.error = 0 := by
    rw [firstError_eq_zero]
    exact ⟨And.right, fun hall => ⟨rfl, hall⟩⟩
  refine ⟨hh.last, ?_⟩
  unfold effects
  rw [hh.calls]
  cases callback with
  | submitCacheEnd => exact ⟨_, _, rfl, rfl, herror, rfl, rfl, rfl⟩
  | submitCachePageEnd => exact ⟨_, _, rfl, rfl, herror, rfl, rfl, rfl⟩

theorem discardMaxLength_pos : 0 < discardMaxLength := by decide

theorem writeZerosMaxLength_pos : 0 < writeZerosMaxLength := by decide

theorem completes_held (a : Allocs) {pieces : List Piece} (hlt : pieces.length < 2 ^ 32) :
    Completes a 0 (.submitted ⟨some .submitCacheEnd, true⟩ true pieces) :=
  fun _ hh => completes_of_endsOnce (hh.endsOnce_held hlt)

variable {a : Allocs}

theorem completes_failed {data frees puts : Nat} (hframes : frees = a.context.toNat)
    (hputs : puts = (a.context && a.request).toNat) : Completes a data (.failed ⟨[errNoMem], frees, puts, 0⟩) :=
  ⟨⟨errNoMem, by decide, rfl⟩, hframes, hputs, rfl⟩

theorem correct_flush (a : Allocs) : Correct a .flush := by
  refine ⟨ocfSubmitCacheFlush a, .const _, fun req held pieces hs => ?_, ?_⟩
  · unfold ocfSubmitCacheFlush at hs
    split at hs
    · exact absurd hs nofun
    · split at hs
      · exact absurd hs nofun
      · exact (Started.submitted.inj hs).2.2.symm
  · unfold ocfSubmitCacheFlush
    cases hc : a.context with
    | false => exact completes_failed (by rw [hc]; rfl) (by rw [hc]; rfl)
    | true =>
      cases hr : a.request with
      | false => exact completes_failed (by rw [hc]; rfl) (by rw [hc, hr]; rfl)
      | true => exact fun _ hh => completes_of_endsOnce hh.endsOnce_single

theorem correct_page (a : Allocs) (addr : Nat) (dir : Bool) : Correct a (.page addr dir) := by
  refine ⟨ocfSubmitCachePage a addr dir, .const _, fun req held pieces hs => ?_, ?_⟩
  · unfold ocfSubmitCachePage at hs
    split at hs
    · exact absurd hs nofun
    · split at hs
      · exact absurd hs nofun
      · split at hs
        · exact absurd hs nofun
        · exact (Started.submitted.inj hs).2.2.symm
  · unfold ocfSubmitCachePage
    cases hc : a.context with
    | false => exact completes_failed (by rw [hc]; rfl) (by rw [hc]; rfl)
    | true =>
      cases hr : a.request with
      | false => exact completes_failed (by rw [hc]; rfl) (by rw [hc, hr]; rfl)
      | true =>
        cases a.data with
        | false => exact completes_failed (by rw [hc]; rfl) (by rw [hc, hr]; rfl)
        | true => exact fun _ hh => completes_of_endsOnce hh.endsOnce_single

theorem discard_returns (hc : a.context = true) (hr : a.request = true) (addr length : Nat) :
    ∃ ps, Returns (fun fuel => (Call.discard addr length).start a fuel)
        (.submitted ⟨some .submitCacheEnd, true⟩ true ps) ∧
      Splits .discard discardMaxLength addr length ps ∧ length ≤ ps.length * discardMaxLength ∧
        ps.length * discardMaxLength < length + discardMaxLength := by
  obtain ⟨ps, hps, hspec⟩ := splitLoop_returns .discard discardMaxLength_pos addr length
  refine ⟨ps, (hps.map fun pieces => Started.submitted ⟨some .submitCacheEnd, true⟩ true pieces).congr fun n hn => ?_, hspec⟩
  change ocfSubmitCacheDiscard a n addr length = _
  unfold ocfSubmitCacheDiscard
  rw [hc, hr]
  exact hn

theorem writeZeros_returns (hc : a.context = true) (hr : a.request = true) (addr length : Nat) :
    ∃ ps, Returns (fun fuel => (Call.writeZeros addr length).start a fuel) (.submitted ocfReqNewMngt true ps) := by
  obtain ⟨ps, hps, -⟩ := splitLoop_returns .writeZeros writeZerosMaxLength_pos addr length
  refine ⟨ps, (hps.map fun pieces => Started.submitted ocfReqNewMngt true pieces).congr fun n hn => ?_⟩
  change ocfSubmitCacheWriteZeros a n addr length = _
  unfold ocfSubmitCacheWriteZeros
  rw [hc, hr]
  exact hn

section

variable (hno : a.context = false ∨ a.request = false)
include hno

theorem correct_refused {call : Call} (hcall : ∀ fuel, call.start a fuel =
      if a.context = false then some (.failed { Effects.zero with completions := [errNoMem] })
      else some (.failed ⟨[errNoMem], 1, 0, 0⟩)) : Correct a call := by
  cases hc : a.context with
  | false =>
    refine ⟨.failed ⟨[errNoMem], 0, 0, 0⟩, ⟨0, fun fuel _ => ?_⟩, fun _ _ _ hs => absurd hs nofun,
      completes_failed (by rw [hc]; rfl) (by rw [hc]; rfl)⟩
    exact (hcall fuel).trans (if_pos hc)
  | true =>
    have hr : a.request = false := hno.resolve_left (by rw [hc]; exact nofun)
    refine ⟨.failed ⟨[errNoMem], 1, 0, 0⟩, ⟨0, fun fuel _ => ?_⟩, fun _ _ _ hs => absurd hs nofun,
      completes_failed (by rw [hc]; rfl) (by rw [hc, hr]; rfl)⟩
    exact (hcall fuel).trans (if_neg (by rw [hc]; exact nofun))

theorem discard_refused (addr length : Nat) : Correct a (.discard addr length) := by
  refine correct_refused hno fun fuel => ?_
  change ocfSubmitCacheDiscard a fuel addr length = _
  unfold ocfSubmitCacheDiscard
  cases hc : a.context with
  | false => rfl
  | true =>
    rw [hc] at hno
    rw [hno.resolve_left nofun]
    rfl

theorem writeZeros_refused (addr length : Nat) : Correct a (.writeZeros addr length) := by
  refine correct_refused hno fun fuel => ?_
  change ocfSubmitCacheWriteZeros a fuel addr length = _
  unfold ocfSubmitCacheWriteZeros
  cases hc : a.context with
  | false => rfl
  | true =>
    rw [hc] at hno
    rw [hno.resolve_left nofun]
    rfl

end

theorem writeZeros_not_correct (hc : a.context = true) (hr : a.request = true) (addr length : Nat) :
    ¬Correct a (.writeZeros addr length) := by
  intro hcorrect
  obtain ⟨ps, hps⟩ := writeZeros_returns hc hr addr length
  obtain ⟨s, hs, -, hcompletes⟩ := hcorrect
  obtain rfl := hs.unique hps
  obtain ⟨-, eff, e, heff, -⟩ := hcompletes _ (.hold (history_oneByOne ps.length))
  have hrun : Token.run ⟨0, 0, []⟩ (.own .hold :: oneByOne ps.length) = ⟨0, 0, [0]⟩ := run_oneByOne ps.length
  unfold effects at heff
  rw [hrun] at heff
  exact absurd heff nofun

/-- A function of the management ends, covers its range and completes once if and only
if it is no write of zeros that gets a request, and no discard of more pieces than can
be counted. -/
theorem correct_iff (a : Allocs) (call : Call) : Correct a call ↔ Sound a call := by
  cases call with
  | flush => exact ⟨fun _ => trivial, fun _ => correct_flush a⟩
  | page addr dir => exact ⟨fun _ => trivial, fun _ => correct_page a addr dir⟩
  | discard addr length =>
    constructor
    · intro hcorrect hc hr
      obtain ⟨ps, hps, -, hle, -⟩ := discard_returns hc hr addr length
      obtain ⟨s, hs, -, hcompletes⟩ := hcorrect
      obtain rfl := hs.unique hps
      by_contra hlong
      have hmany : 2 ^ 32 ≤ ps.length := by
        by_contra hfew
        exact hlong (hle.trans (Nat.mul_le_mul_right _ (by omega)))
      obtain ⟨k, hk, hearly⟩ := allTogether_early hmany
      exact hearly ((hcompletes _ (history_allTogether _)).1 k hk)
    · intro hsound
      by_cases hno : a.context = false ∨ a.request = false
      · exact discard_refused hno addr length
      · have hc : a.context = true := by simpa using fun h => hno (.inl h)
        have hr : a.request = true := by simpa using fun h => hno (.inr h)
        obtain ⟨ps, hps, hsplits, -, hlt⟩ := discard_returns hc hr addr length
        have hfew : ps.length < 2 ^ 32 := by
          have hle := hsound hc hr
          by_contra hmany
          have hge : 2 ^ 32 * discardMaxLength ≤ ps.length * discardMaxLength := Nat.mul_le_mul_right _ (by omega)
          have hval : discardMaxLength = 4294966784 := rfl
          omega
        refine ⟨_, hps, fun req held pieces hs => ?_, completes_held a hfew⟩
        obtain rfl := (Started.submitted.inj hs).2.2
        exact hsplits
  | writeZeros addr length =>
    constructor
    · intro hcorrect
      by_contra hno
      have hc : a.context = true := by simpa using fun h => hno (.inl h)
      have hr : a.request = true := by simpa using fun h => hno (.inr h)
      exact writeZeros_not_correct hc hr addr length hcorrect
    · exact fun hno => writeZeros_refused hno addr length

/-- Writing zeros to the first page, with memory. -/
theorem page_not_zeroed : ¬∀ a call, Correct a call :=
  fun hall => writeZeros_not_correct rfl rfl 0 4096 (hall ⟨true, true, true⟩ (.writeZeros 0 4096))

end OcfCache.UtilsIo
