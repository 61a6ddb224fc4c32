import OcfCache.Constants
import OcfCache.ForwardTokens

/-!
# Routing of a composite volume

Embedding of the forward operations of `ocf_composite_volume.c`. The members lie
behind one another, and an operation on a range is cut at their ends. The member
of the first byte is checked before the loop and again inside it. A piece that is
forwarded takes a reference of the token, and the operation gives back the one of
the original forward at its end.
-/

namespace OcfCache.CompositeForward

open ForwardTokens

/-- `struct ocf_composite_volume`. -/
structure Composite where
  /-- Lengths of the members in bytes. -/
  lengths : List Nat
  /-- The volume of a member is opened. -/
  opened : Nat → Bool
  /-- `OCF_COMPOSITE_VOLUME_MEMBERS_MAX`. -/
  members_le : lengths.length ≤ 16
  /-- `length` has 64 bits. -/
  length_lt : lengths.sum < 2 ^ 64

/-- Forward operations on a range. -/
inductive Kind
  /-- `ocf_forward_io`. -/
  | io (dir : Bool)
  /-- `ocf_forward_discard`. -/
  | discard
  /-- `ocf_forward_write_zeros`. -/
  | writeZeros
  /-- `ocf_forward_metadata`. -/
  | metadata (dir : Bool)

/-- The offset that is passed on; a discard and a write of zeros have no buffer. -/
def Kind.buffer (offset : Nat) : Kind → Option Nat
  | .io _ => some offset
  | .discard => none
  | .writeZeros => none
  | .metadata _ => some offset

/-- An operation that is forwarded to a member. -/
structure Piece where
  /-- The member. -/
  member : Nat
  /-- The operation. -/
  kind : Kind
  /-- Address on the member. -/
  addr : Nat
  /-- Length. -/
  bytes : Nat
  /-- Offset in the buffer. -/
  offset : Option Nat

/-- What is done with the token. -/
inductive Emit
  /-- An operation is forwarded with it. -/
  | forward (piece : Piece)
  /-- `ocf_forward_end`. -/
  | forwardEnd (error : Int)

/-- Use of the token: `ocf_forward_io` and its variants take a reference. -/
def Emit.op : Emit → Op
  | .forward _ => .forward
  | .forwardEnd error => .finish error

/-- The forwarded operations, in order. -/
def piecesOf (out : List Emit) : List Piece :=
  out.filterMap fun
    | .forward piece => some piece
    | .forwardEnd _ => none

/-- Errors with which the token was ended for the original forward. -/
def endsOf (out : List Emit) : List Int :=
  out.filterMap fun
    | .forward _ => none
    | .forwardEnd error => some error

section Code

variable (c : Composite)

/-- `length`. -/
def Composite.length : Nat := c.lengths.sum

/-- `members_cnt`. -/
def Composite.membersCnt : Nat := c.lengths.length

/-- `end_addr`. -/
def Composite.endAddr (i : Nat) : Nat := (c.lengths.take (i + 1)).sum

/-- The first loop: the member of an address. -/
def findMember (addr : Nat) : Nat → Nat → Nat
  | 0, i => i
  | fuel + 1, i => if c.endAddr i ≤ addr then findMember addr fuel (i + 1) else i

/-- The second loop, and the end of the function behind it. -/
def forwardLoop (kind : Kind) : Nat → Nat → Nat → Nat → Nat → Nat → List Emit
  | 0, _, _, _, _, _ => [.forwardEnd 0]
  | fuel + 1, i, addr, caddr, bytes, offset =>
    if bytes = 0 then [.forwardEnd 0]
    else if c.opened i = false then [.forwardEnd errInval]
    else
      let memberBytes := min bytes (c.endAddr i - caddr)
      .forward ⟨i, kind, addr, memberBytes, kind.buffer offset⟩ ::
        forwardLoop kind fuel (i + 1) 0 (c.endAddr i) (bytes - memberBytes) ((offset + memberBytes) % 2 ^ 64)

/-- The four forward operations; `none` is a failed `ENV_BUG_ON`. -/
def forward (kind : Kind) (addr bytes offset : Nat) : Option (List Emit) :=
  if c.length ≤ addr ∨ c.length < (addr + bytes) % 2 ^ 64 then none
  else
    let i := findMember c addr c.membersCnt 0
    if i < c.membersCnt ∧ c.opened i = false then some [.forwardEnd errInval]
    else
      let memberAddr := addr - (if 0 < i then c.endAddr (i - 1) else 0)
      some (forwardLoop c kind (c.membersCnt - i) i memberAddr addr bytes offset)

/-- `ocf_composite_forward_io`. -/
def ocfCompositeForwardIo (dir : Bool) (addr bytes offset : Nat) : Option (List Emit) := forward c (.io dir) addr bytes offset

/-- `ocf_composite_forward_discard`. -/
def ocfCompositeForwardDiscard (addr bytes : Nat) : Option (List Emit) := forward c .discard addr bytes 0

/-- `ocf_composite_forward_write_zeros`. -/
def ocfCompositeForwardWriteZeros (addr bytes : Nat) : Option (List Emit) := forward c .writeZeros addr bytes 0

/-- `ocf_composite_forward_metadata`. -/
def ocfCompositeForwardMetadata (dir : Bool) (addr bytes offset : Nat) : Option (List Emit) :=
  forward c (.metadata dir) addr bytes offset

end Code

/-- First address of a member. -/
def Composite.startAddr (c : Composite) (i : Nat) : Nat := (c.lengths.take i).sum

/-- A member between the ends of a range: it starts before the end of the range and
ends after its start. -/
def Composite.InWay (c : Composite) (addr bytes i : Nat) : Prop :=
  i < c.membersCnt ∧ c.startAddr i < addr + bytes ∧ addr < c.endAddr i

/-- Pieces that cover a range in order, each inside an opened member at the address
of its bytes there, with the offset of its bytes in the buffer. -/
def Composite.Covers (c : Composite) (kind : Kind) (addr offset : Nat) : Nat → Nat → List Piece → Prop
  | a, b, [] => a = b
  | a, b, p :: ps => p.kind = kind ∧ p.member < c.membersCnt ∧ c.opened p.member = true ∧ c.startAddr p.member ≤ a ∧
      a + p.bytes ≤ c.endAddr p.member ∧ p.addr = a - c.startAddr p.member ∧ p.offset = kind.buffer ((a - addr + offset) % 2 ^ 64) ∧
        c.Covers kind addr offset (a + p.bytes) b ps

variable {c : Composite} {kind : Kind}

theorem Composite.endAddr_eq (c : Composite) (i : Nat) : c.endAddr i = c.startAddr (i + 1) := rfl

theorem Composite.startAddr_mono (c : Composite) {i j : Nat} (h : i ≤ j) : c.startAddr i ≤ c.startAddr j := by
  obtain ⟨k, rfl⟩ := Nat.exists_eq_add_of_le h
  unfold startAddr
  rw [List.take_add, List.sum_append]
  exact Nat.le_add_right _ _

theorem Composite.startAddr_membersCnt (c : Composite) : c.startAddr c.membersCnt = c.length := by
  unfold startAddr membersCnt length
  rw [List.take_length]

theorem findMember_spec {addr fuel i : Nat} (hfuel : i + fuel = c.membersCnt) (haddr : addr < c.length)
    (hbefore : c.startAddr i ≤ addr) : ∃ m, findMember c addr fuel i = m ∧ i ≤ m ∧ m < c.membersCnt ∧
      c.startAddr m ≤ addr ∧ addr < c.endAddr m := by
  induction fuel generalizing i with
  | zero =>
    have hend := c.startAddr_membersCnt
    rw [← hfuel, Nat.add_zero] at hend
    omega
  | succ fuel ih =>
    unfold findMember
    by_cases hle : c.endAddr i ≤ addr
    · rw [if_pos hle]
      obtain ⟨m, hm, him, hrest⟩ := ih (i := i + 1) (by omega) hle
      exact ⟨m, hm, by omega, hrest⟩
    · rw [if_neg hle]
      exact ⟨i, rfl, Nat.le_refl i, by omega, hbefore, by omega⟩

theorem forwardLoop_zero (fuel i addr caddr offset : Nat) :
    forwardLoop c kind fuel i addr caddr 0 offset = [.forwardEnd 0] := by
  cases fuel with
  | zero => rfl
  | succ fuel => exact if_pos rfl

/-- Pieces are forwarded, and then the token is ended once. -/
def emits (ps : List Piece) (error : Int) : List Emit := ps.map .forward ++ [.forwardEnd error]

theorem piecesOf_emits (ps : List Piece) (error : Int) : piecesOf (emits ps error) = ps := by
  induction ps with
  | nil => rfl
  | cons p ps ih => exact congrArg (p :: ·) ih

theorem endsOf_emits (ps : List Piece) (error : Int) : endsOf (emits ps error) = [error] := by
  induction ps with
  | nil => rfl
  | cons p ps ih => exact ih

theorem ops_emits (ps : List Piece) (error : Int) : (emits ps error).map Emit.op = forwards ps.length error := by
  induction ps with
  | nil => rfl
  | cons p ps ih => exact congrArg (Op.forward :: ·) ih

/-- Pieces from some member on. -/
theorem forwardLoop_spec {addr₀ offset₀ stop fuel i addr caddr bytes offset : Nat} (hfuel : i + fuel = c.membersCnt)
    (hstop : caddr + bytes = stop) (hlen : stop ≤ c.length) (hfirst : addr₀ ≤ caddr) (hstart : c.startAddr i ≤ caddr)
    (hin : bytes = 0 ∨ caddr ≤ c.endAddr i) (haddr : addr = caddr - c.startAddr i)
    (hoffset : offset = (caddr - addr₀ + offset₀) % 2 ^ 64) :
    ∃ ps error, forwardLoop c kind fuel i addr caddr bytes offset = emits ps error ∧ ps.length ≤ fuel ∧
      ((∀ j, i ≤ j → j < c.membersCnt → caddr < stop → c.startAddr j < stop → c.opened j = true) ∧
          error = 0 ∧ c.Covers kind addr₀ offset₀ caddr stop ps ∨
        ∃ j, i ≤ j ∧ j < c.membersCnt ∧ caddr < stop ∧ c.startAddr j < stop ∧ c.opened j = false ∧
          error = errInval ∧ c.Covers kind addr₀ offset₀ caddr (max caddr (c.startAddr j)) ps) := by
  induction fuel generalizing i addr caddr bytes offset with
  | zero =>
    have hend := c.startAddr_membersCnt
    rw [← hfuel, Nat.add_zero] at hend
    refine ⟨[], 0, rfl, Nat.le_refl 0, .inl ⟨fun j _ _ hlt => by omega, rfl, ?_⟩⟩
    change caddr = stop
    omega
  | succ fuel ih =>
    unfold forwardLoop
    by_cases hzero : bytes = 0
    · rw [if_pos hzero]
      refine ⟨[], 0, rfl, Nat.zero_le _, .inl ⟨fun j _ _ hlt => by omega, rfl, ?_⟩⟩
      change caddr = stop
      omega
    · rw [if_neg hzero]
      have hle : caddr ≤ c.endAddr i := hin.resolve_left hzero
      by_cases hopen : c.opened i = false
      · rw [if_pos hopen]
        refine ⟨[], errInval, rfl, Nat.zero_le _,
          .inr ⟨i, Nat.le_refl i, by omega, by omega, by omega, hopen, rfl, ?_⟩⟩
        change caddr = _
        omega
      · rw [if_neg hopen]
        have hopen' : c.opened i = true := by simpa using hopen
        have hstartEq : c.startAddr (i + 1) = c.endAddr i := rfl
        have hpiece : kind = kind ∧ i < c.membersCnt ∧ c.opened i = true := ⟨rfl, by omega, hopen'⟩
        by_cases hlast : bytes ≤ c.endAddr i - caddr
        · -- the range ends in this member
          have hmin : min bytes (c.endAddr i - caddr) = bytes := Nat.min_eq_left hlast
          have hfits : caddr + bytes ≤ c.endAddr i := by omega
          simp only [hmin, Nat.sub_self, forwardLoop_zero]
          refine ⟨[⟨i, kind, addr, bytes, kind.buffer offset⟩], 0, rfl, Nat.succ_le_succ (Nat.zero_le _),
            .inl ⟨fun j hij hj _ hlt => ?_, rfl, hpiece.1, hpiece.2.1, hpiece.2.2, hstart, hfits, haddr,
              congrArg (Kind.buffer · kind) hoffset, hstop⟩⟩
          by_cases hji : j = i
          · exact hji ▸ hopen'
          · have hmono : c.startAddr (i + 1) ≤ c.startAddr j := c.startAddr_mono (by omega)
            omega
        · have hmin : min bytes (c.endAddr i - caddr) = c.endAddr i - caddr := Nat.min_eq_right (by omega)
          have hsum : caddr + (c.endAddr i - caddr) = c.endAddr i := by omega
          obtain ⟨ps, error, heq, hcount, hrest⟩ := @ih (i + 1) 0 (c.endAddr i) (bytes - (c.endAddr i - caddr))
            ((offset + (c.endAddr i - caddr)) % 2 ^ 64) (by omega) (by omega) (by omega) (Nat.le_of_eq hstartEq)
            (.inr (c.startAddr_mono (Nat.le_succ (i + 1)))) (by omega) (by omega)
          simp only [hmin]
          refine ⟨⟨i, kind, addr, c.endAddr i - caddr, kind.buffer offset⟩ :: ps, error, congrArg (_ :: ·) heq,
            Nat.succ_le_succ hcount, ?_⟩
          obtain ⟨hopened, herror, hcovers⟩ | ⟨j, hij, hj, hlt, hstartj, hclosed, herror, hcovers⟩ := hrest
          · refine .inl ⟨fun j hij hj _ hlt => ?_, herror, hpiece.1, hpiece.2.1, hpiece.2.2, hstart, Nat.le_of_eq hsum,
              haddr, congrArg (Kind.buffer · kind) hoffset, by rwa [hsum]⟩
            by_cases hji : j = i
            · exact hji ▸ hopen'
            · exact hopened j (by omega) hj (by omega) hlt
          · have hmono : c.startAddr (i + 1) ≤ c.startAddr j := c.startAddr_mono hij
            have hmax : max caddr (c.startAddr j) = max (c.endAddr i) (c.startAddr j) := by omega
            refine .inr ⟨j, by omega, hj, by omega, hstartj, hclosed, herror, hpiece.1, hpiece.2.1, hpiece.2.2, hstart,
              Nat.le_of_eq hsum, haddr,
              congrArg (Kind.buffer · kind) hoffset, ?_⟩
            rw [hsum, hmax]
            exact hcovers

/-- An operation on a range of the volume covers it if all members in the way are
opened. Otherwise it covers the range up to a closed member and ends with an error.
In both cases the token is ended once for the original forward, and the callback of
one whose only reference is that of this forward is called once, when all pieces
have ended. -/
theorem forward_routes {addr bytes offset : Nat} (kind : Kind) (hoffset : offset < 2 ^ 64) (haddr : addr < c.length)
    (hlen : addr + bytes ≤ c.length) : ∃ out, forward c kind addr bytes offset = some out ∧
      ((∀ j, c.InWay addr bytes j → c.opened j = true) →
        c.Covers kind addr offset addr (addr + bytes) (piecesOf out) ∧ (0 < bytes → endsOf out = [0])) ∧
      ((∃ j, c.InWay addr bytes j ∧ c.opened j = false) → endsOf out = [errInval] ∧
        ∃ j, c.InWay addr bytes j ∧ c.opened j = false ∧
          c.Covers kind addr offset addr (max addr (c.startAddr j)) (piecesOf out)) ∧
      (endsOf out).length = 1 ∧ ∀ h, History (out.map Emit.op) 0 h → EndsOnce ⟨1, 0, []⟩ h := by
  have hzero : c.startAddr 0 ≤ addr := Nat.zero_le addr
  obtain ⟨m, hm, -, hlt, hstart, hend⟩ := @findMember_spec c addr c.membersCnt 0 (Nat.zero_add _) haddr hzero
  have hmod : (addr + bytes) % 2 ^ 64 = addr + bytes := Nat.mod_eq_of_lt (Nat.lt_of_le_of_lt hlen c.length_lt)
  have hnobug : ¬(c.length ≤ addr ∨ c.length < (addr + bytes) % 2 ^ 64) := by
    rw [hmod]
    omega
  have hbase : (if 0 < m then c.endAddr (m - 1) else 0) = c.startAddr m := by
    cases m with
    | zero => rfl
    | succ m => rfl
  -- a member in the way is not in front of the one of the address
  have hfrom : ∀ j, c.InWay addr bytes j → m ≤ j := by
    intro j hj
    by_contra hlt
    have hmono : c.startAddr (j + 1) ≤ c.startAddr m := c.startAddr_mono (by omega)
    have hjend := hj.2.2
    rw [c.endAddr_eq] at hjend
    omega
  unfold forward
  simp only [hnobug, if_false, hm, hbase]
  by_cases hopen : c.opened m = false
  · refine ⟨emits [] errInval, if_pos ⟨hlt, hopen⟩, fun hall => ?_, fun hclosed => ⟨rfl, ?_⟩, rfl, fun h hh => ?_⟩
    · by_cases hbytes : bytes = 0
      · exact ⟨hbytes.symm ▸ rfl, fun hpos => by omega⟩
      · exact absurd (hopen.symm.trans (hall m ⟨hlt, by omega, hend⟩)) nofun
    · obtain ⟨j, hj, -⟩ := hclosed
      have hmono := c.startAddr_mono (hfrom j hj)
      have hbefore := hj.2.1
      exact ⟨m, ⟨hlt, by omega, hend⟩, hopen, (Nat.max_eq_left hstart).symm⟩
    · exact hh.endsOnce (n := 0) rfl (by decide) 0
  · rw [if_neg fun hx => hopen hx.2]
    have hself : offset = (addr - addr + offset) % 2 ^ 64 := by
      rw [Nat.sub_self, Nat.zero_add]
      exact (Nat.mod_eq_of_lt hoffset).symm
    obtain ⟨ps, error, heq, hle, hspec⟩ := @forwardLoop_spec c kind addr offset (addr + bytes) (c.membersCnt - m) m
      (addr - c.startAddr m) addr bytes offset (by omega) rfl hlen (Nat.le_refl addr) hstart (.inr (Nat.le_of_lt hend))
      rfl hself
    rw [heq]
    refine ⟨_, rfl, fun hall => ?_, fun hclosed => ?_, by rw [endsOf_emits]; rfl, fun h hh => ?_⟩
    · rw [piecesOf_emits, endsOf_emits]
      obtain ⟨-, rfl, hcovers⟩ | ⟨j, hmj, hj, -, hbefore, hclosed, -⟩ := hspec
      · exact ⟨hcovers, fun _ => rfl⟩
      · have hmono : c.startAddr (m + 1) ≤ c.startAddr (j + 1) := c.startAddr_mono (by omega)
        have hjend : addr < c.endAddr j := Nat.lt_of_lt_of_le hend hmono
        exact absurd (hclosed.symm.trans (hall j ⟨hj, hbefore, hjend⟩)) nofun
    · rw [piecesOf_emits, endsOf_emits]
      obtain ⟨j, hj, hjclosed⟩ := hclosed
      have hmj := hfrom j hj
      obtain ⟨hopened, -⟩ | ⟨k, hmk, hk, -, hbefore, hkclosed, rfl, hcovers⟩ := hspec
      · -- the member of the address is opened, so the closed one is behind it
        have hne : m ≠ j := fun hmj => hopen (hmj ▸ hjclosed)
        have hnext : c.startAddr (m + 1) ≤ c.startAddr j := c.startAddr_mono (by omega)
        have hjbefore := hj.2.1
        rw [← c.endAddr_eq] at hnext
        exact absurd (hjclosed.symm.trans (hopened j hmj hj.1 (by omega) hjbefore)) nofun
      · have hmono : c.startAddr (m + 1) ≤ c.startAddr (k + 1) := c.startAddr_mono (by omega)
        exact ⟨rfl, k, ⟨hk, hbefore, Nat.lt_of_lt_of_le hend hmono⟩, hkclosed, hcovers⟩
    · rw [ops_emits] at hh
      have hmembers : c.membersCnt ≤ 16 := c.members_le
      exact hh.endsOnce rfl (by omega) 0

theorem twoMembers_sum : [4096, 0, 4096].length ≤ 16 ∧ [4096, 0, 4096].sum < 2 ^ 64 := by decide

/-- Two members with bytes, and a closed one without any between them. -/
def twoMembers : Composite := ⟨[4096, 0, 4096], fun i => i ≠ 1, twoMembers_sum.1, twoMembers_sum.2⟩

theorem fourMembers_sum : [4096, 0, 4096, 4096].length ≤ 16 ∧ [4096, 0, 4096, 4096].sum < 2 ^ 64 := by decide

/-- Four members, the second without bytes and the last one closed. -/
def fourMembers : Composite := ⟨[4096, 0, 4096, 4096], fun i => i ≠ 3, fourMembers_sum.1, fourMembers_sum.2⟩

/-- A range over all of them: three pieces, one of them empty, and an error. The
third piece ends first, and the callback comes with the last end. -/
theorem forward_routes_fourMembers : ∃ out, forward fourMembers (.io true) 1000 9000 7 = some out ∧
    endsOf out = [errInval] ∧ (piecesOf out).map (fun p => (p.member, p.addr, p.bytes, p.offset)) =
      [(0, 1000, 3096, some 7), (1, 0, 0, some 3103), (2, 0, 4096, some 3103)] ∧
    EndsOnce ⟨1, 0, []⟩ [.own .forward, .own .forward, .own .forward, .ended 0, .own (.finish errInval), .ended (-5),
      .ended 0] := by
  obtain ⟨out, hout, -, hclosed, -, htoken⟩ :=
    @forward_routes fourMembers 1000 9000 7 (.io true) (by decide) (by decide) (by decide)
  have herror := (hclosed ⟨3, ⟨by decide, by decide, by decide⟩, by decide⟩).1
  cases hout
  exact ⟨_, rfl, herror, by decide, htoken _ (.forward (.forward (.forward (.ended (.finish (.ended (.ended .nil)))))))⟩

/-- A member has a byte of a range. -/
def Composite.Shares (c : Composite) (addr bytes i : Nat) : Prop :=
  i < c.membersCnt ∧ ∃ b, addr ≤ b ∧ b < addr + bytes ∧ c.startAddr i ≤ b ∧ b < c.endAddr i

/-- A closed member without bytes stops an operation whose bytes all lie on opened
members. -/
theorem forward_stops_at_empty : ¬∀ (c : Composite) (kind : Kind) (addr bytes offset : Nat), offset < 2 ^ 64 →
    addr < c.length → addr + bytes ≤ c.length → (∀ j, c.Shares addr bytes j → c.opened j = true) →
      ∃ out, forward c kind addr bytes offset = some out ∧
        c.Covers kind addr offset addr (addr + bytes) (piecesOf out) := by
  intro hall
  have hshares : ∀ j, twoMembers.Shares 0 8192 j → twoMembers.opened j = true := by
    intro j hj
    obtain ⟨-, b, -, -, hstart, hend⟩ := hj
    have hne : j ≠ 1 := by
      intro hj1
      rw [hj1] at hstart hend
      exact absurd hend (Nat.not_lt.mpr hstart)
    simp [twoMembers, hne]
  obtain ⟨out, hout, hcovers⟩ := hall twoMembers .discard 0 8192 0 (by decide) (by decide) (by decide) hshares
  have hrun : forward twoMembers .discard 0 8192 0 = some [.forward ⟨0, .discard, 0, 4096, none⟩,
    .forwardEnd errInval] := rfl
  rw [hrun] at hout
  obtain rfl := Option.some.inj hout
  have hstop : 4096 = 8192 := hcovers.2.2.2.2.2.2.2
  exact absurd hstop (by decide)

end OcfCache.CompositeForward
