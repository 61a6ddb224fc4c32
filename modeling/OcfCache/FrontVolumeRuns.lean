import OcfCache.RequestNewSpec
import Mathlib.Algebra.Order.BigOperators.Group.Finset

/-!
# Runs of the quiesce counters

Every step moves a counter by what the requests and I/Os it changes hold, so a
counter is what they hold together. An I/O ends once whatever order its parts
complete in, because `req_remaining` counts the parts.
-/

namespace OcfCache.RequestNew

open Function Runs

section Io

/-- References of an I/O on `refcnt.metadata`. -/
def Io.refs (io : Io) : Nat := if io.holds then 1 else 0

/-- Parts of an I/O that are in flight. -/
def Io.inFlight (io : Io) : Int := (if io.forward then 1 else 0) + if io.locking then 1 else 0

/-- No part is in flight and there was no end callback. -/
def Io.Quiet (io : Io) : Prop :=
  io.forward = false ∧ io.locking = false ∧ io.tail = .pending ∧ io.ends = [] ∧ io.refused = false

/-- The submit function has taken the reference and waits for its parts. -/
def Io.Busy (io : Io) : Prop := io.tail = .pending ∧ io.ends = [] ∧ io.holds = true ∧ io.refused = false

/-- What holds of an I/O behind its submit function. -/
def Io.Settled (io : Io) : Prop :=
  match io.tail with
  | .pending => io.Busy ∧ 0 < io.inFlight ∧
      if io.kind = .io then io.reqRemaining = io.inFlight else io.locking = false
  | .ending _ => io.ends = [] ∧ io.holds = true ∧ io.refused = false ∧ io.inFlight = 0
  | .dropping => io.ends.length = 1 ∧ io.holds = true ∧ io.refused = false ∧ io.inFlight = 0
  | .finished => io.ends.length = 1 ∧ io.holds = io.refused ∧ io.inFlight = 0

/-- What holds of every I/O. -/
def Io.Inv (io : Io) : Prop :=
  match io.pc with
  | .start => io.Quiet ∧ io.holds = false
  | .test => io.Quiet ∧ io.holds = true
  | .forward => io.Quiet ∧ io.holds = true
  | .update => io.Busy ∧ io.kind = .io ∧ io.locking = false ∧ io.reqRemaining = io.inFlight + 2
  | .complete => io.Busy ∧ io.kind = .io ∧ io.reqRemaining = io.inFlight + 1
  | .returned => io.Settled

/-- Steps that an I/O still takes, at most. -/
def Io.todo (io : Io) : Nat :=
  (match io.pc with
    | .start => 20
    | .test => 19
    | .forward => 18
    | .update => 12
    | .complete => 8
    | .returned => 0) +
  (match io.tail with
    | .pending => 3
    | .ending _ => 2
    | .dropping => 1
    | .finished => 0) +
  (if io.forward then 1 else 0) + if io.locking then 1 else 0

/-- An I/O whose parts have all ended and whose last completion is through. -/
def Io.Finished (io : Io) : Prop := io.pc = .returned ∧ io.tail = .finished

theorem inFlight_nonneg (io : Io) : 0 ≤ io.inFlight := by
  unfold Io.inFlight
  split <;> split <;> omega

/-- Completions that the submit function itself still owes. -/
def Pc.owed : Pc → Int
  | .update => 2
  | .complete => 1
  | _ => 0

/-- The parts of an I/O are counted while its completions come in. -/
structure Io.Counting (io : Io) (left : Int) : Prop where
  /-- The submit function is behind the forwarding. -/
  pc : io.pc = .update ∧ io.locking = false ∨ io.pc = .complete ∨ io.pc = .returned
  /-- There was no last completion. -/
  busy : io.Busy
  /-- It is an I/O with several parts. -/
  kind : io.kind = .io
  /-- The completions to come. -/
  remaining : io.reqRemaining = io.inFlight + io.pc.owed + left

/-- `ocf_cache_io_complete`. -/
theorem complete_inv {io : Io} (error : Int) (h : io.Counting 1) : (io.complete error).Inv := by
  obtain ⟨hpc, ⟨htail, hends, hholds, hrefused⟩, hkind, hrem⟩ := h
  have hnn := inFlight_nonneg io
  have hlater : 0 < io.pc.owed → (io.complete error).Busy := fun hpos =>
    ⟨(if_neg (by omega)).trans htail, hends, hholds, hrefused⟩
  have hfl : (io.complete error).inFlight = io.inFlight := rfl
  unfold Io.Inv
  obtain ⟨hpc, hlocking⟩ | hpc | hpc := hpc
  · have hpc' : (io.complete error).pc = .update := hpc
    rw [hpc] at hrem hlater
    rw [hpc']
    refine ⟨hlater (by decide), hkind, hlocking, ?_⟩
    change io.reqRemaining - 1 = io.inFlight + 2
    simp only [Pc.owed] at hrem
    omega
  · have hpc' : (io.complete error).pc = .complete := hpc
    rw [hpc] at hrem hlater
    rw [hpc']
    refine ⟨hlater (by decide), hkind, ?_⟩
    change io.reqRemaining - 1 = io.inFlight + 1
    simp only [Pc.owed] at hrem
    omega
  · have hpc' : (io.complete error).pc = .returned := hpc
    rw [hpc] at hrem
    simp only [Pc.owed] at hrem
    rw [hpc']
    unfold Io.Settled
    by_cases hzero : io.reqRemaining - 1 = 0
    · have htail' : (io.complete error).tail = .ending error := if_pos hzero
      rw [htail']
      exact ⟨hends, hholds, hrefused, by omega⟩
    · have htail' : (io.complete error).tail = .pending := (if_neg hzero).trans htail
      have hkind' : (io.complete error).kind = .io := hkind
      rw [htail']
      refine ⟨⟨htail', hends, hholds, hrefused⟩, by omega, ?_⟩
      rw [if_pos hkind']
      change io.reqRemaining - 1 = io.inFlight
      omega

end Io

section Steps

variable {c : Cache} {s s' : State} {k : Nat}

/-- A request with other contents but the same references. -/
def Req.SameRefs (r r' : Req) : Prop :=
  r'.metadataRefs = r.metadataRefs ∧ r'.d2cRefs = r.d2cRefs ∧ r'.ioQueue = r.ioQueue ∧ r'.refCount = r.refCount

/-- A step of one I/O. -/
structure IoStep (s s' : State) (k : Nat) : Prop where
  /-- The other I/Os are as before. -/
  ios : s'.ios = update s.ios k (s'.ios k)
  /-- No I/O is submitted. -/
  submitted : s'.submitted = s.submitted
  /-- No request is made or freed. -/
  live : s'.live = s.live
  /-- The requests hold what they held. -/
  req : ∀ j, (s.req j).SameRefs (s'.req j)
  /-- The queues are as before. -/
  queues : s'.queues = s.queues
  /-- `refcnt.d2c` is as before. -/
  d2c : s'.d2c = s.d2c
  /-- Nothing is left behind on `refcnt.d2c`. -/
  lost : s'.lostD2c = s.lostD2c
  /-- `refcnt.metadata` follows the I/O. -/
  metadata : s'.metadata.counter + (s.ios k).refs = s.metadata.counter + (s'.ios k).refs
  /-- It is the same I/O. -/
  same : (s'.ios k).req = (s.ios k).req
  /-- Its invariant is kept. -/
  inv : (s'.ios k).Inv
  /-- It comes closer to its end. -/
  todo : (s'.ios k).todo < (s.ios k).todo
  /-- It is refused where the cache is not in standby. -/
  refused : (s'.ios k).refused = true → (s.ios k).refused = true ∨ (s.ios k).pc = .test ∧ s.standby = false

theorem Req.SameRefs.refl (r : Req) : r.SameRefs r := ⟨rfl, rfl, rfl, rfl⟩

theorem addError_sameRefs (r : Req) (error : Int) : r.SameRefs (r.addError error) := by
  unfold Req.addError
  split <;> exact ⟨rfl, rfl, rfl, rfl⟩

variable {io : Io}

theorem IoStep.of_setIo (hreq : io.req = (s.ios k).req) (hholds : io.holds = (s.ios k).holds)
    (hinv : io.Inv) (htodo : io.todo < (s.ios k).todo)
    (hrefused : io.refused = true → (s.ios k).refused = true ∨ (s.ios k).pc = .test ∧ s.standby = false) :
    IoStep s (s.setIo k io) k := by
  have hself : (s.setIo k io).ios k = io := update_self ..
  refine ⟨?_, rfl, rfl, fun j => .refl _, rfl, rfl, rfl, ?_, ?_, ?_, ?_, ?_⟩
  · rw [hself]
    rfl
  · rw [hself, Io.refs, Io.refs, hholds]
    rfl
  · rw [hself, hreq]
  · rw [hself]
    exact hinv
  · rw [hself]
    exact htodo
  · rw [hself]
    exact hrefused

theorem IoStep.of_count {metadata : EnvRefcnt}
    (hcount : metadata.counter + (s.ios k).refs = s.metadata.counter + io.refs) (hreq : io.req = (s.ios k).req)
    (hinv : io.Inv) (htodo : io.todo < (s.ios k).todo) (hrefused : io.refused = (s.ios k).refused) :
    IoStep s ({ s with metadata }.setIo k io) k := by
  have hself : ({ s with metadata }.setIo k io).ios k = io := update_self ..
  refine ⟨?_, rfl, rfl, fun j => .refl _, rfl, rfl, rfl, ?_, ?_, ?_, ?_, fun h => .inl ?_⟩
  · rw [hself]
    rfl
  · rw [hself]
    exact hcount
  · rw [hself, hreq]
  · rw [hself]
    exact hinv
  · rw [hself]
    exact htodo
  · rw [hself, hrefused] at h
    exact h

theorem IoStep.of_complete (error : Int) (hreq : io.req = (s.ios k).req)
    (hholds : io.holds = (s.ios k).holds) (hrefused : io.refused = (s.ios k).refused)
    (hcount : io.Counting 1) (htodo : io.todo < (s.ios k).todo) : IoStep s (ocfCacheIoComplete s k io error) k := by
  have hself : (ocfCacheIoComplete s k io error).ios k = io.complete ((s.req io.req).addError error).error :=
    update_self ..
  have hle : ∀ e, (io.complete e).todo ≤ io.todo := fun e => by
    have htail := hcount.busy.1
    unfold Io.complete Io.todo
    simp only [htail]
    by_cases hzero : io.reqRemaining - 1 = 0
    · rw [if_pos hzero]
      simp only
      omega
    · rw [if_neg hzero]
  refine ⟨?_, rfl, rfl, fun j => ?_, rfl, rfl, rfl, ?_, ?_, ?_, ?_, fun h => .inl ?_⟩
  · rw [hself]
    rfl
  · change (s.req j).SameRefs (((s.setReq io.req ((s.req io.req).addError error)).req) j)
    by_cases hj : j = io.req
    · rw [hj, setReq_self]
      exact addError_sameRefs _ _
    · rw [setReq_of_ne _ _ hj]
      exact .refl _
  · rw [hself]
    have hrefs : (io.complete ((s.req io.req).addError error).error).refs = (s.ios k).refs :=
      congrArg (fun b : Bool => if b then 1 else 0) hholds
    rw [hrefs]
    rfl
  · rw [hself]
    exact hreq
  · rw [hself]
    exact complete_inv _ hcount
  · rw [hself]
    exact lt_of_le_of_lt (hle _) htodo
  · rw [hself] at h
    exact hrefused ▸ h

theorem Io.Quiet.inFlight (h : io.Quiet) : io.inFlight = 0 := by
  unfold Io.inFlight
  rw [h.1, h.2.1]
  rfl

theorem refused_inv (h : io.Quiet) (e : Int) (refused : Bool) (hholds : io.holds = refused) :
    Io.Inv { io with pc := .returned, tail := .finished, ends := io.ends ++ [e], refused } := by
  refine ⟨?_, hholds, h.inFlight⟩
  rw [List.length_append, h.2.2.2.1]
  rfl

/-- Submission takes one I/O forward. -/
theorem submitGo_step {u : Update} (hinv : (s.ios k).Inv) (h : submitGo c s k u = some s') : IoStep s s' k := by
  unfold submitGo at h
  unfold Io.Inv at hinv
  cases hpc : (s.ios k).pc with
  | start =>
    simp only [hpc] at h hinv
    obtain ⟨hquiet, hholds⟩ := hinv
    have htodo : (s.ios k).todo = 23 := by
      simp [Io.todo, hpc, hquiet.1, hquiet.2.1, hquiet.2.2.1]
    by_cases hm : s.metadata.freeze = 0
    · rw [envRefcntInc_of_free hm] at h
      cases h
      refine .of_count ?_ rfl ⟨hquiet, rfl⟩ ?_ rfl
      · change s.metadata.counter + 1 + (s.ios k).refs = s.metadata.counter + 1
        rw [Io.refs, hholds]
        rfl
      · rw [htodo]
        simp [Io.todo, hquiet.1, hquiet.2.1, hquiet.2.2.1]
    · rw [envRefcntInc_of_frozen hm] at h
      cases h
      refine .of_setIo rfl rfl ?_ ?_ fun h => .inl h
      · exact refused_inv hquiet errIo _ (hholds.trans hquiet.2.2.2.2.symm)
      · rw [htodo]
        simp [Io.todo, hquiet.1, hquiet.2.1]
  | test =>
    simp only [hpc] at h hinv
    obtain ⟨hquiet, hholds⟩ := hinv
    have htodo : (s.ios k).todo = 22 := by
      simp [Io.todo, hpc, hquiet.1, hquiet.2.1, hquiet.2.2.1]
    cases hst : s.standby with
    | true =>
      rw [hst, if_pos rfl] at h
      cases h
      refine .of_setIo rfl rfl ⟨hquiet, hholds⟩ ?_ fun h => .inl h
      rw [htodo]
      simp [Io.todo, hquiet.1, hquiet.2.1, hquiet.2.2.1]
    | false =>
      rw [hst, if_neg nofun] at h
      cases h
      refine .of_setIo rfl rfl ?_ ?_ fun _ => .inr ⟨hpc, hst⟩
      · exact refused_inv hquiet errCacheNotStandby true hholds
      · rw [htodo]
        simp [Io.todo, hquiet.1, hquiet.2.1]
  | forward =>
    simp only [hpc] at h hinv
    obtain ⟨⟨hforward, hlocking, htail, hends, hrefused⟩, hholds⟩ := hinv
    have htodo : (s.ios k).todo = 21 := by simp [Io.todo, hpc, hforward, hlocking, htail]
    have hgeneric : ∀ kind : Kind, kind ≠ .io →
        IoStep s (s.setIo k { s.ios k with kind, pc := .returned, forward := true }) k := by
      intro kind hkind
      refine .of_setIo rfl rfl ?_ ?_ fun h => .inl h
      · unfold Io.Inv Io.Settled
        simp only [htail, if_neg hkind]
        refine ⟨⟨rfl, hends, hholds, hrefused⟩, ?_, hlocking⟩
        simp [Io.inFlight, hlocking]
      · rw [htodo]
        simp [Io.todo, hlocking, htail]
    cases hkind : (s.ios k).kind with
    | io =>
      simp only [hkind] at h
      cases h
      refine .of_setIo rfl rfl ⟨⟨htail, hends, hholds, hrefused⟩, rfl, hlocking, ?_⟩ ?_ fun h => .inl h
      · simp [Io.inFlight, hlocking]
      · rw [htodo]
        simp [Io.todo, hlocking, htail]
    | flush =>
      simp only [hkind] at h
      cases h
      exact hgeneric _ nofun
    | discard =>
      simp only [hkind] at h
      cases h
      exact hgeneric _ nofun
  | update =>
    simp only [hpc] at h hinv
    obtain ⟨hbusy, hkind, hlocking, hrem⟩ := hinv
    have htodo : (s.ios k).todo = 15 + if (s.ios k).forward then 1 else 0 := by
      simp [Io.todo, hpc, hlocking, hbusy.1]
    cases hu : ocfMetadataPassiveUpdate c (s.req (s.ios k).req) u with
    | some error =>
      simp only [hu] at h
      cases h
      refine .of_complete error rfl rfl rfl ⟨.inr (.inl rfl), hbusy, hkind, ?_⟩ ?_
      · change (s.ios k).reqRemaining = (s.ios k).inFlight + 1 + 1
        omega
      · rw [htodo]
        simp [Io.todo, hlocking, hbusy.1]
    | none =>
      simp only [hu] at h
      cases h
      refine .of_setIo rfl rfl ⟨hbusy, hkind, ?_⟩ ?_ fun h => .inl h
      · have hfl : (s.ios k).inFlight = if (s.ios k).forward then 1 else 0 := by
          rw [Io.inFlight, hlocking]
          exact add_zero _
        change (s.ios k).reqRemaining = ((if (s.ios k).forward then 1 else 0) + 1) + 1
        omega
      · rw [htodo]
        simp only [Io.todo, hbusy.1]
        split <;> simp
  | complete =>
    simp only [hpc] at h hinv
    obtain ⟨hbusy, hkind, hrem⟩ := hinv
    cases h
    refine .of_complete 0 rfl rfl rfl ⟨.inr (.inr rfl), hbusy, hkind, ?_⟩ ?_
    · change (s.ios k).reqRemaining = (s.ios k).inFlight + 0 + 1
      omega
    · simp only [Io.todo, hpc]
      omega
  | returned =>
    simp only [hpc] at h
    cases h

theorem counting_of_inFlight (hinv : io.Inv) (hfl : 0 < io.inFlight) :
    io.Busy ∧ (io.kind = .io → io.Counting 0) ∧ (io.kind ≠ .io → io.pc = .returned ∧ io.locking = false) := by
  unfold Io.Inv at hinv
  cases hpc : io.pc with
  | start =>
    simp only [hpc] at hinv
    have hzero := hinv.1.inFlight
    omega
  | test =>
    simp only [hpc] at hinv
    have hzero := hinv.1.inFlight
    omega
  | forward =>
    simp only [hpc] at hinv
    have hzero := hinv.1.inFlight
    omega
  | update =>
    simp only [hpc] at hinv
    obtain ⟨hbusy, hkind, hlocking, hrem⟩ := hinv
    refine ⟨hbusy, fun _ => ⟨.inl ⟨hpc, hlocking⟩, hbusy, hkind, ?_⟩, fun hne => absurd hkind hne⟩
    rw [hpc]
    simp only [Pc.owed]
    omega
  | complete =>
    simp only [hpc] at hinv
    obtain ⟨hbusy, hkind, hrem⟩ := hinv
    refine ⟨hbusy, fun _ => ⟨.inr (.inl hpc), hbusy, hkind, ?_⟩, fun hne => absurd hkind hne⟩
    rw [hpc]
    simp only [Pc.owed]
    omega
  | returned =>
    simp only [hpc] at hinv
    unfold Io.Settled at hinv
    cases htail : io.tail with
    | pending =>
      simp only [htail] at hinv
      obtain ⟨hbusy, -, hrest⟩ := hinv
      refine ⟨hbusy, fun hkind => ⟨.inr (.inr hpc), hbusy, hkind, ?_⟩, fun hne => ⟨rfl, ?_⟩⟩
      · rw [if_pos hkind] at hrest
        rw [hpc]
        simp only [Pc.owed]
        omega
      · rw [if_neg hne] at hrest
        exact hrest
    | ending e =>
      simp only [htail] at hinv
      have hzero := hinv.2.2.2
      omega
    | dropping =>
      simp only [htail] at hinv
      have hzero := hinv.2.2.2
      omega
    | finished =>
      simp only [htail] at hinv
      have hzero := hinv.2.2
      omega

/-- The end of a forwarded operation takes its I/O forward. -/
theorem forwardEnd_step (error : Int) (hinv : (s.ios k).Inv) (hforward : (s.ios k).forward = true) :
    IoStep s (forwardEnd s k error) k := by
  have hfl : (s.ios k).inFlight = (if (s.ios k).locking then 1 else 0) + 1 := by
    rw [Io.inFlight, hforward, add_comm]
    rfl
  have hpos : 0 < (s.ios k).inFlight := by
    rw [hfl]
    split <;> omega
  obtain ⟨hbusy, hcount, hgeneric⟩ := counting_of_inFlight hinv hpos
  have hfl' : Io.inFlight { s.ios k with forward := false } = (s.ios k).inFlight - 1 := by
    rw [hfl, Io.inFlight]
    simp
  have hend : ∀ kind : Kind, (s.ios k).kind = kind → kind ≠ .io →
      IoStep s (s.setIo k { s.ios k with kind, forward := false, tail := .ending error }) k := by
    intro kind hkind hne
    obtain ⟨hpc, hlocking⟩ := hgeneric (hkind ▸ hne)
    refine .of_setIo rfl rfl ?_ ?_ fun h => .inl h
    · unfold Io.Inv Io.Settled
      simp only [hpc]
      refine ⟨hbusy.2.1, hbusy.2.2.1, hbusy.2.2.2, ?_⟩
      simp [Io.inFlight, hlocking]
    · simp only [Io.todo, hforward, hbusy.1, if_true]
      simp
  unfold forwardEnd
  cases hkind : (s.ios k).kind with
  | io =>
    obtain ⟨hpc, hbusy, -, hrem⟩ := hcount hkind
    simp only [hkind]
    refine .of_complete error rfl rfl rfl ⟨hpc, hbusy, rfl, ?_⟩ ?_
    · have heq : Io.inFlight { s.ios k with kind := .io, forward := false } = (s.ios k).inFlight - 1 := hfl'
      rw [heq]
      change (s.ios k).reqRemaining = (s.ios k).inFlight - 1 + (s.ios k).pc.owed + 1
      omega
    · simp only [Io.todo, hforward, if_true]
      simp
  | flush =>
    simp only [hkind]
    exact hend .flush hkind nofun
  | discard =>
    simp only [hkind]
    exact hend .discard hkind nofun

/-- A resumed I/O goes forward. -/
theorem passiveIoResume_step (hinv : (s.ios k).Inv) (hlocking : (s.ios k).locking = true) :
    IoStep s (passiveIoResume s k) k := by
  have hfl : (s.ios k).inFlight = (if (s.ios k).forward then 1 else 0) + 1 := by
    rw [Io.inFlight, hlocking]
    rfl
  have hpos : 0 < (s.ios k).inFlight := by
    rw [hfl]
    split <;> omega
  obtain ⟨hbusy, hcount, hgeneric⟩ := counting_of_inFlight hinv hpos
  have hkind : (s.ios k).kind = .io := by
    by_contra hne
    have hfalse := (hgeneric hne).2
    rw [hlocking] at hfalse
    cases hfalse
  obtain ⟨hpc, -, -, hrem⟩ := hcount hkind
  have hfl' : Io.inFlight { s.ios k with locking := false } = (s.ios k).inFlight - 1 := by
    rw [hfl, Io.inFlight]
    simp
  refine .of_complete 0 rfl rfl rfl ⟨?_, hbusy, hkind, ?_⟩ ?_
  · obtain ⟨hpc, hfalse⟩ | hpc := hpc
    · rw [hlocking] at hfalse
      cases hfalse
    · exact .inr hpc
  · rw [hfl']
    change (s.ios k).reqRemaining = (s.ios k).inFlight - 1 + (s.ios k).pc.owed + 1
    omega
  · simp only [Io.todo, hlocking, if_true]
    simp

theorem pc_of_tail (hinv : io.Inv) (htail : io.tail ≠ .pending) : io.pc = .returned := by
  unfold Io.Inv at hinv
  cases hpc : io.pc with
  | start =>
    simp only [hpc] at hinv
    exact absurd hinv.1.2.2.1 htail
  | test =>
    simp only [hpc] at hinv
    exact absurd hinv.1.2.2.1 htail
  | forward =>
    simp only [hpc] at hinv
    exact absurd hinv.1.2.2.1 htail
  | update =>
    simp only [hpc] at hinv
    exact absurd hinv.1.1 htail
  | complete =>
    simp only [hpc] at hinv
    exact absurd hinv.1.1 htail
  | returned => rfl

/-- Completion takes one I/O forward. -/
theorem completionGo_step (hinv : (s.ios k).Inv) (h : completionGo s k = some s') : IoStep s s' k := by
  unfold completionGo at h
  cases htail : (s.ios k).tail with
  | pending =>
    simp only [htail] at h
    cases h
  | ending error =>
    have hpc := pc_of_tail hinv (by rw [htail]; nofun)
    simp only [htail] at h
    cases h
    unfold Io.Inv Io.Settled at hinv
    simp only [hpc, htail] at hinv
    obtain ⟨hends, hholds, hrefused, hfl⟩ := hinv
    refine .of_setIo rfl rfl ?_ ?_ fun h => .inl h
    · unfold Io.Inv Io.Settled
      simp only [hpc]
      refine ⟨?_, hholds, hrefused, hfl⟩
      rw [hends]
      rfl
    · simp only [Io.todo, htail]
      omega
  | dropping =>
    have hpc := pc_of_tail hinv (by rw [htail]; nofun)
    simp only [htail] at h
    obtain ⟨metadata, hdec, rfl⟩ := Option.map_eq_some_iff.mp h
    obtain ⟨hpos, hmetadata⟩ := Option.ite_none_left_eq_some.mp hdec
    cases hmetadata
    unfold Io.Inv Io.Settled at hinv
    simp only [hpc, htail] at hinv
    obtain ⟨hends, hholds, hrefused, hfl⟩ := hinv
    refine .of_count ?_ rfl ?_ ?_ rfl
    · change s.metadata.counter - 1 + (s.ios k).refs = s.metadata.counter + 0
      rw [Io.refs, hholds, if_pos rfl]
      omega
    · unfold Io.Inv Io.Settled
      simp only [hpc]
      exact ⟨hends, hrefused.symm, hfl⟩
    · simp only [Io.todo, htail]
      omega
  | finished =>
    simp only [htail] at h
    cases h

end Steps

section Accounts

variable {c : Cache} {q0 : Nat → Int} {s s' : State} {i k : Nat}

/-- The counters are what the requests and the I/Os hold together. -/
structure State.Account (q0 : Nat → Int) (s : State) : Prop where
  /-- `refcnt.metadata`. -/
  metadata : s.metadata.counter = ∑ i ∈ s.live, (s.req i).metadataRefs + ∑ k ∈ Finset.range s.submitted, (s.ios k).refs
  /-- `refcnt.d2c`. -/
  d2c : s.d2c.counter = ∑ i ∈ s.live, (s.req i).d2cRefs + s.lostD2c
  /-- The queues. -/
  queues : ∀ q, (s.queues q).refCount = q0 q + ∑ i ∈ s.live, if (s.req i).ioQueue = q then 1 else 0
  /-- The I/Os. -/
  ios : ∀ k < s.submitted, (s.ios k).Inv

theorem le_sum {f : Nat → Nat} (hi : i ∈ s.live) : f i ≤ ∑ j ∈ s.live, f j :=
  Finset.single_le_sum (fun _ _ => Nat.zero_le _) hi

theorem IoStep.account (h : IoStep s s' k) (hk : k < s.submitted) (ha : s.Account q0) : s'.Account q0 where
  metadata := by
    have hreq : ∑ i ∈ s'.live, (s'.req i).metadataRefs = ∑ i ∈ s.live, (s.req i).metadataRefs := by
      rw [h.live]
      exact Finset.sum_congr rfl fun i _ => (h.req i).1
    have hmem : k ∈ Finset.range s.submitted := Finset.mem_range.mpr hk
    have hold := Finset.add_sum_erase (Finset.range s.submitted) (fun k => (s.ios k).refs) hmem
    have hnew := Finset.add_sum_erase (Finset.range s.submitted) (fun k => (s'.ios k).refs) hmem
    have hrest : ∑ j ∈ (Finset.range s.submitted).erase k, (s'.ios j).refs =
        ∑ j ∈ (Finset.range s.submitted).erase k, (s.ios j).refs :=
      Finset.sum_congr rfl fun j hj => by
        rw [h.ios, update_of_ne (Finset.ne_of_mem_erase hj)]
    have hm := h.metadata
    have ham := ha.metadata
    rw [h.submitted, hreq]
    omega
  d2c := by
    rw [h.d2c, h.lost, h.live, ha.d2c]
    exact congrArg (· + s.lostD2c) (Finset.sum_congr rfl fun i _ => (h.req i).2.1.symm)
  queues q := by
    rw [h.queues, h.live, ha.queues q]
    exact congrArg (q0 q + ·) (Finset.sum_congr rfl fun i _ => by rw [(h.req i).2.2.1])
  ios j hj := by
    by_cases hjk : j = k
    · subst hjk
      exact h.inv
    · rw [h.ios, update_of_ne hjk]
      exact ha.ios j (h.submitted ▸ hj)

theorem State.Failed.account (h : s.Failed s') (ha : s.Account q0) : s'.Account q0 where
  metadata := by
    rw [h.metadata, h.live, h.rest.submitted, h.rest.ios, ha.metadata]
    exact congrArg (· + _) (Finset.sum_congr rfl fun i hi => by rw [(h.rest.live i hi).2])
  d2c := by
    have hd := h.d2c
    have had := ha.d2c
    have hsum : ∑ i ∈ s'.live, (s'.req i).d2cRefs = ∑ i ∈ s.live, (s.req i).d2cRefs := by
      rw [h.live]
      exact Finset.sum_congr rfl fun i hi => by rw [(h.rest.live i hi).2]
    omega
  queues q := by
    rw [h.queues q, h.live, ha.queues q]
    exact congrArg (q0 q + ·) (Finset.sum_congr rfl fun i hi => by rw [(h.rest.live i hi).2])
  ios k hk := by
    rw [h.rest.ios]
    exact ha.ios k (h.rest.submitted ▸ hk)

theorem State.Made.account {queue : Nat} (h : s.Made s' i queue) (hi : i ∉ s.live) (ha : s.Account q0) :
    s'.Account q0 where
  metadata := by
    have hsum : ∑ j ∈ s.live, (s'.req j).metadataRefs = ∑ j ∈ s.live, (s.req j).metadataRefs :=
      Finset.sum_congr rfl fun j hj => by rw [(h.rest.live j hj).2]
    have hm := h.metadata
    have ham := ha.metadata
    rw [h.live, h.rest.submitted, h.rest.ios, Finset.sum_insert hi, hsum]
    omega
  d2c := by
    have hsum : ∑ j ∈ s.live, (s'.req j).d2cRefs = ∑ j ∈ s.live, (s.req j).d2cRefs :=
      Finset.sum_congr rfl fun j hj => by rw [(h.rest.live j hj).2]
    have hd := h.d2c
    have had := ha.d2c
    rw [h.live, h.lost, Finset.sum_insert hi, hsum]
    omega
  queues q := by
    have hsum : ∑ j ∈ s.live, (if (s'.req j).ioQueue = q then (1 : Int) else 0) =
        ∑ j ∈ s.live, if (s.req j).ioQueue = q then 1 else 0 :=
      Finset.sum_congr rfl fun j hj => by rw [(h.rest.live j hj).2]
    have hq := h.queues q
    have haq := ha.queues q
    have heq : (if (s'.req i).ioQueue = q then (1 : Int) else 0) = if q = queue then 1 else 0 := by
      rw [h.ioQueue]
      exact if_congr eq_comm rfl rfl
    rw [h.live, Finset.sum_insert hi, hsum, heq]
    omega
  ios k hk := by
    rw [h.rest.ios]
    exact ha.ios k (h.rest.submitted ▸ hk)

theorem account_setReq (ha : s.Account q0) {r : Req} (hm : r.metadataRefs = (s.req i).metadataRefs)
    (hd : r.d2cRefs = (s.req i).d2cRefs) (hq : r.ioQueue = (s.req i).ioQueue) : (s.setReq i r).Account q0 := by
  have hreq : ∀ {β : Type} (f : Req → β), f r = f (s.req i) → ∀ j, f ((s.setReq i r).req j) = f (s.req j) := by
    intro β f hf j
    by_cases hj : j = i
    · rw [hj, setReq_self, hf]
    · rw [setReq_of_ne s r hj]
  refine ⟨?_, ?_, fun q => ?_, ha.ios⟩
  · exact ha.metadata.trans (congrArg (· + _) (Finset.sum_congr rfl fun j _ => (hreq Req.metadataRefs hm j).symm))
  · exact ha.d2c.trans (congrArg (· + _) (Finset.sum_congr rfl fun j _ => (hreq Req.d2cRefs hd j).symm))
  · exact (ha.queues q).trans (congrArg (_ + ·) (Finset.sum_congr rfl fun j _ => by rw [hreq Req.ioQueue hq j]))

/-- `ocf_req_put` keeps the account. -/
theorem ocfReqPut_account (ha : s.Account q0) (hi : i ∈ s.live) :
    ∃ t, ocfReqPut s i = some t ∧ t.Account q0 ∧ t.submitted = s.submitted ∧ t.ios = s.ios ∧
      t.lostD2c = s.lostD2c ∧ t.standby = s.standby := by
  by_cases hone : (s.req i).refCount = 1
  · have hmle := le_sum (s := s) (f := fun i => (s.req i).metadataRefs) hi
    have hdle := le_sum (s := s) (f := fun i => (s.req i).d2cRefs) hi
    have ham := ha.metadata
    have had := ha.d2c
    have hm : (s.req i).metadataRefs ≤ s.metadata.counter := by omega
    have hd : (s.req i).d2cRefs ≤ s.d2c.counter := by omega
    have hreq : ∀ {β : Type} (f : Req → β), ∀ j ∈ s.live.erase i,
        f ((s.setReq i (s.req i).put).req j) = f (s.req j) := fun f j hj => by
      rw [setReq_of_ne s _ (Finset.ne_of_mem_erase hj)]
    refine ⟨_, ocfReqPut_last hone hm hd, ⟨?_, ?_, fun q => ?_, ha.ios⟩, rfl, rfl, rfl, rfl⟩
    · have hsum := Finset.add_sum_erase s.live (fun i => (s.req i).metadataRefs) hi
      change s.metadata.counter - (s.req i).metadataRefs =
        ∑ j ∈ s.live.erase i, ((s.setReq i (s.req i).put).req j).metadataRefs + _
      rw [Finset.sum_congr rfl (hreq Req.metadataRefs)]
      change _ = _ + ∑ k ∈ Finset.range s.submitted, (s.ios k).refs
      omega
    · have hsum := Finset.add_sum_erase s.live (fun i => (s.req i).d2cRefs) hi
      change s.d2c.counter - (s.req i).d2cRefs =
        ∑ j ∈ s.live.erase i, ((s.setReq i (s.req i).put).req j).d2cRefs + s.lostD2c
      rw [Finset.sum_congr rfl (hreq Req.d2cRefs)]
      omega
    · have hsum := Finset.add_sum_erase s.live (fun i => if (s.req i).ioQueue = q then (1 : Int) else 0) hi
      have haq := ha.queues q
      have heq : (if q = (s.req i).ioQueue then (1 : Int) else 0) = if (s.req i).ioQueue = q then 1 else 0 :=
        if_congr eq_comm rfl rfl
      rw [queuePut_refCount, heq]
      change (s.queues q).refCount - _ = q0 q +
        ∑ j ∈ s.live.erase i, if ((s.setReq i (s.req i).put).req j).ioQueue = q then 1 else 0
      rw [Finset.sum_congr rfl (hreq fun r => if r.ioQueue = q then (1 : Int) else 0)]
      omega
  · exact ⟨_, ocfReqPut_keep hone, account_setReq ha rfl rfl rfl, rfl, rfl, rfl, rfl⟩

theorem ocfReqNewMngt_account (a : Allocs) (queue : Nat) (hi : i ∉ s.live) (ha : s.Account q0) :
    (ocfReqNewMngt s a i queue).1.Account q0 ∧ s.SameRest (ocfReqNewMngt s a i queue).1 ∧
      (ocfReqNewMngt s a i queue).1.lostD2c = s.lostD2c := by
  unfold ocfReqNewMngt
  cases a.zalloc with
  | true =>
    have hmade : s.Made ((s.queueGet queue).store i { ocfReqInit .zero queue none 0 0 .read with isMngt := true })
        i queue :=
      State.Made.of_store hi ⟨rfl, rfl, rfl, rfl, rfl, fun _ hj => ⟨hj, rfl⟩⟩ rfl rfl rfl rfl rfl
        (fun q => queueGet_refCount s queue q) rfl
    exact ⟨hmade.account hi ha, hmade.rest, rfl⟩
  | false => exact ⟨ha, .refl s, rfl⟩

theorem call_account {a : Allocs} {call : Call} {result : Option Nat} (hi : i ∉ s.live) (ha : s.Account q0)
    (h : call.run c s a i = some (s', result)) :
    s'.Account q0 ∧ s.SameRest s' ∧ (call.Clean c s a → s'.lostD2c = s.lostD2c) := by
  by_cases hclean : call.Clean c s a
  · obtain ⟨t, r, hrun, hnew, hlost⟩ := Call.kept hi hclean
    rw [hrun] at h
    cases h
    cases result with
    | none =>
      have hfailed : s.Failed s' := hnew
      exact ⟨hfailed.account ha, hfailed.rest, fun _ => hlost⟩
    | some j =>
      obtain ⟨-, hmade, -⟩ := hnew
      exact ⟨hmade.account hi ha, hmade.rest, fun _ => hlost⟩
  · obtain hnone | ⟨t, hrun, hfailed, -⟩ := Call.broken (i := i) hclean
    · rw [hnone] at h
      cases h
    · rw [hrun] at h
      cases h
      exact ⟨hfailed.account ha, hfailed.rest, fun h => absurd h hclean⟩

/-- What a step that is not about an I/O does. -/
structure OtherStep (q0 : Nat → Int) (s s' : State) (clean : Prop) : Prop where
  /-- It keeps the account. -/
  account : s'.Account q0
  /-- The I/Os stay. -/
  ios : ∀ k < s.submitted, s'.ios k = s.ios k
  /-- I/Os are only added. -/
  submitted : s.submitted ≤ s'.submitted
  /-- A new I/O was not refused. -/
  refused : ∀ k, s.submitted ≤ k → k < s'.submitted → (s'.ios k).refused = false
  /-- A clean call leaves nothing behind. -/
  lost : clean → s'.lostD2c = s.lostD2c

theorem OtherStep.of_same {clean : Prop} (ha : s'.Account q0) (hios : s'.ios = s.ios)
    (hsub : s'.submitted = s.submitted) (hlost : clean → s'.lostD2c = s.lostD2c) : OtherStep q0 s s' clean where
  account := ha
  ios k _ := by rw [hios]
  submitted := hsub.ge
  refused k hle hlt := by
    omega
  lost := hlost

theorem submit_other (ha : s.Account q0) (kind : Kind) (i : Nat) (clean : Prop) :
    OtherStep q0 s { s.setIo s.submitted (newIo kind i) with submitted := s.submitted + 1 } clean := by
  have hkeep : ∀ k < s.submitted, (s.setIo s.submitted (newIo kind i)).ios k = s.ios k := fun k hk =>
    update_of_ne (Nat.ne_of_lt hk) ..
  have hself : (s.setIo s.submitted (newIo kind i)).ios s.submitted = newIo kind i := update_self ..
  have hlast : ∀ k < s.submitted + 1, k < s.submitted ∨ k = s.submitted := fun k hk => by omega
  refine ⟨⟨?_, ha.d2c, ha.queues, fun k hk => ?_⟩, hkeep, Nat.le_succ _, fun k hle hlt => ?_, fun _ => rfl⟩
  · have hsum : ∑ k ∈ Finset.range s.submitted, ((s.setIo s.submitted (newIo kind i)).ios k).refs =
        ∑ k ∈ Finset.range s.submitted, (s.ios k).refs :=
      Finset.sum_congr rfl fun k hk => by rw [hkeep k (Finset.mem_range.mp hk)]
    change s.metadata.counter = _ +
      ∑ k ∈ Finset.range (s.submitted + 1), ((s.setIo s.submitted (newIo kind i)).ios k).refs
    rw [Finset.sum_range_succ, hsum, hself]
    exact ha.metadata
  · change ((s.setIo s.submitted (newIo kind i)).ios k).Inv
    obtain hlt | rfl := hlast k hk
    · rw [hkeep k hlt]
      exact ha.ios k hlt
    · rw [hself]
      exact ⟨⟨rfl, rfl, rfl, rfl, rfl⟩, rfl⟩
  · change ((s.setIo s.submitted (newIo kind i)).ios k).refused = false
    obtain hlt' | rfl := hlast k hlt
    · omega
    · rw [hself]
      rfl

variable {act : Act}

theorem step_cases (ha : s.Account q0) (hg : guard s act) (h : step c s act = some s') :
    (∃ k < s.submitted, act.io? = some k ∧ IoStep s s' k) ∨ act.io? = none ∧ OtherStep q0 s s' (Clean c s act) := by
  cases act with
  | new call a i =>
    obtain ⟨⟨t, r⟩, hrun, rfl⟩ := Option.map_eq_some_iff.mp h
    obtain ⟨hacc, hrest, hlost⟩ := call_account hg ha hrun
    exact .inr ⟨rfl, .of_same hacc hrest.ios hrest.submitted hlost⟩
  | newMngt a i queue =>
    cases h
    obtain ⟨hacc, hrest, hlost⟩ := ocfReqNewMngt_account a queue hg ha
    exact .inr ⟨rfl, .of_same hacc hrest.ios hrest.submitted fun _ => hlost⟩
  | get i =>
    cases h
    have hacc := account_setReq (i := i) ha (r := { s.req i with refCount := (s.req i).refCount + 1 }) rfl rfl rfl
    exact .inr ⟨rfl, .of_same hacc rfl rfl fun _ => rfl⟩
  | put i =>
    obtain ⟨t, ht, hacc, hsub, hios, hlost, -⟩ := ocfReqPut_account ha hg.1
    rw [step, ht] at h
    cases h
    exact .inr ⟨rfl, .of_same hacc hios hsub fun _ => hlost⟩
  | freezeMetadata | unfreezeMetadata | freezeD2c | unfreezeD2c | setStandby =>
    cases h
    exact .inr ⟨rfl, .of_same ⟨ha.metadata, ha.d2c, ha.queues, ha.ios⟩ rfl rfl fun _ => rfl⟩
  | submit kind i =>
    cases h
    exact .inr ⟨rfl, submit_other ha kind i _⟩
  | go k u => exact .inl ⟨k, hg, rfl, submitGo_step (ha.ios k hg) h⟩
  | forwardEnd k error =>
    cases h
    exact .inl ⟨k, hg.1, rfl, forwardEnd_step error (ha.ios k hg.1) hg.2⟩
  | pageLock k =>
    cases h
    exact .inl ⟨k, hg.1, rfl, passiveIoResume_step (ha.ios k hg.1) hg.2⟩
  | finish k => exact .inl ⟨k, hg, rfl, completionGo_step (ha.ios k hg) h⟩

theorem step_account (ha : s.Account q0) (hg : guard s act) (h : step c s act = some s') :
    s'.Account q0 := by
  obtain ⟨k, hk, -, hstep⟩ | ⟨-, hother⟩ := step_cases ha hg h
  · exact hstep.account hk ha
  · exact hother.account

/-- An open I/O can go on. -/
theorem exists_step (ha : s.Account q0) (hk : k < s.submitted) (hopen : ¬(s.ios k).Finished) :
    ∃ act s', act.io? = some k ∧ guard s act ∧ step c s act = some s' := by
  have hinv := ha.ios k hk
  by_cases hpc : (s.ios k).pc = .returned
  · unfold Io.Inv Io.Settled at hinv
    simp only [hpc] at hinv
    cases htail : (s.ios k).tail with
    | pending =>
      simp only [htail] at hinv
      obtain ⟨-, hpos, -⟩ := hinv
      by_cases hforward : (s.ios k).forward = true
      · exact ⟨.forwardEnd k 0, _, rfl, ⟨hk, hforward⟩, rfl⟩
      · by_cases hlocking : (s.ios k).locking = true
        · exact ⟨.pageLock k, _, rfl, ⟨hk, hlocking⟩, rfl⟩
        · rw [Io.inFlight, if_neg hforward, if_neg hlocking] at hpos
          omega
    | ending error =>
      refine ⟨.finish k, s.setIo k { s.ios k with tail := .dropping, ends := (s.ios k).ends ++ [error] }, rfl, hk, ?_⟩
      simp only [step, completionGo, htail]
    | dropping =>
      simp only [htail] at hinv
      have hone : (s.ios k).refs = 1 := by
        rw [Io.refs, hinv.2.1]
        rfl
      have hle : (s.ios k).refs ≤ ∑ j ∈ Finset.range s.submitted, (s.ios j).refs :=
        Finset.single_le_sum (f := fun j => (s.ios j).refs) (fun _ _ => Nat.zero_le _) (Finset.mem_range.mpr hk)
      have ham := ha.metadata
      have hpos : 0 < s.metadata.counter := by omega
      have hdo : ∃ s', completionGo s k = some s' := by
        unfold completionGo
        simp only [htail]
        rw [envRefcntDec_of_pos hpos]
        exact ⟨_, rfl⟩
      obtain ⟨s', hs'⟩ := hdo
      exact ⟨.finish k, s', rfl, hk, hs'⟩
    | finished => exact absurd ⟨hpc, htail⟩ hopen
  · have hgo : ∃ s', submitGo c s k .acquired = some s' := by
      unfold submitGo
      cases hpc' : (s.ios k).pc with
      | start =>
        simp only [hpc']
        cases envRefcntInc s.metadata <;> exact ⟨_, rfl⟩
      | test =>
        simp only [hpc']
        cases s.standby <;> exact ⟨_, rfl⟩
      | forward =>
        simp only [hpc']
        cases (s.ios k).kind <;> exact ⟨_, rfl⟩
      | update =>
        simp only [hpc']
        cases ocfMetadataPassiveUpdate c (s.req (s.ios k).req) .acquired <;> exact ⟨_, rfl⟩
      | complete =>
        simp only [hpc']
        exact ⟨_, rfl⟩
      | returned => exact absurd hpc' hpc
    obtain ⟨s', hs'⟩ := hgo
    exact ⟨.go k .acquired, s', rfl, hk, hs'⟩

/-- An I/O ends once, and its reference is back unless the cache was found not
to be in standby. -/
def Io.EndsOnce (io : Io) : Prop :=
  io.ends.length ≤ 1 ∧ (io.Finished → io.ends.length = 1 ∧ (io.holds = false ↔ io.refused = false))

/-- An I/O has a next step until it is finished, and its steps come to an end. -/
def Advances (c : Cache) (s : State) (k : Nat) : Prop :=
  ((s.ios k).Finished ∨ ∃ act s', act.io? = some k ∧ guard s act ∧ step c s act = some s') ∧
  ∀ act s', guard s act → step c s act = some s' →
    (s'.ios k).todo ≤ (s.ios k).todo ∧ (act.io? = some k → (s'.ios k).todo < (s.ios k).todo)

/-- The counters are balanced: each is what the live requests and the I/Os in
progress hold, and back to its first value when there are none. -/
structure State.InBalance (q0 : Nat → Int) (s : State) : Prop where
  /-- `refcnt.metadata`. -/
  metadata : s.metadata.counter = ∑ i ∈ s.live, (s.req i).metadataRefs + ∑ k ∈ Finset.range s.submitted, (s.ios k).refs
  /-- `refcnt.d2c`. -/
  d2c : s.d2c.counter = ∑ i ∈ s.live, (s.req i).d2cRefs
  /-- The queues. -/
  queues : ∀ q, (s.queues q).refCount = q0 q + ∑ i ∈ s.live, if (s.req i).ioQueue = q then 1 else 0
  /-- A finished I/O holds nothing. -/
  finished : ∀ k < s.submitted, (s.ios k).Finished → (s.ios k).holds = false
  /-- Nothing is counted when all requests are gone and all I/Os are finished. -/
  gone : s.live = ∅ → (∀ k < s.submitted, (s.ios k).Finished) →
    s.metadata.counter = 0 ∧ s.d2c.counter = 0 ∧ ∀ q, (s.queues q).refCount = q0 q

theorem endsOnce_of_inv {io : Io} (h : io.Inv) : io.EndsOnce := by
  unfold Io.Inv at h
  have hempty : io.ends = [] → io.pc ≠ .returned → io.EndsOnce := fun hends hpc =>
    ⟨by rw [hends]; exact Nat.zero_le _, fun hfin => absurd hfin.1 hpc⟩
  cases hpc : io.pc with
  | start | test | forward =>
    simp only [hpc] at h
    exact hempty h.1.2.2.2.1 (by rw [hpc]; nofun)
  | update | complete =>
    simp only [hpc] at h
    exact hempty h.1.2.1 (by rw [hpc]; nofun)
  | returned =>
    simp only [hpc] at h
    unfold Io.Settled at h
    have hopen : ∀ n ≤ 1, io.ends.length = n → io.tail ≠ .finished → io.EndsOnce := fun n hn hlen htail =>
      ⟨by omega, fun hfin => absurd hfin.2 htail⟩
    cases htail : io.tail with
    | pending =>
      simp only [htail] at h
      exact hopen 0 (by decide) (by rw [h.1.2.1]; rfl) (by rw [htail]; nofun)
    | ending error =>
      simp only [htail] at h
      exact hopen 0 (by decide) (by rw [h.1]; rfl) (by rw [htail]; nofun)
    | dropping =>
      simp only [htail] at h
      exact hopen 1 (by decide) h.1 (by rw [htail]; nofun)
    | finished =>
      simp only [htail] at h
      refine ⟨h.1.le, fun _ => ⟨h.1, ?_⟩⟩
      rw [h.2.1]

theorem advances_of_account (ha : s.Account q0) (hk : k < s.submitted) : Advances c s k := by
  refine ⟨?_, fun act s' hg hs => ?_⟩
  · by_cases hfin : (s.ios k).Finished
    · exact .inl hfin
    · exact .inr (exists_step ha hk hfin)
  · obtain ⟨j, hj, hio, hstep⟩ | ⟨hio, hother⟩ := step_cases ha hg hs
    · by_cases hkj : k = j
      · subst hkj
        exact ⟨hstep.todo.le, fun _ => hstep.todo⟩
      · have hsame : s'.ios k = s.ios k := by rw [hstep.ios, update_of_ne hkj]
        rw [hsame, hio]
        exact ⟨le_rfl, fun heq => absurd (Option.some.inj heq).symm hkj⟩
    · rw [hother.ios k hk, hio]
      exact ⟨le_rfl, nofun⟩

/-- Nothing was left behind so far. -/
def State.Untouched (s : State) : Prop := s.lostD2c = 0 ∧ ∀ k < s.submitted, (s.ios k).refused = false

theorem step_untouched (ha : s.Account q0) (hu : s.Untouched) (hg : guard s act) (hc : Clean c s act)
    (h : step c s act = some s') : s'.Untouched := by
  obtain ⟨k, hk, hio, hstep⟩ | ⟨-, hother⟩ := step_cases ha hg h
  · refine ⟨hstep.lost.trans hu.1, fun j hj => ?_⟩
    rw [hstep.submitted] at hj
    by_cases hjk : j = k
    · subst hjk
      by_contra hne
      obtain hold | ⟨hpc, hst⟩ := hstep.refused ((Bool.not_eq_false _).mp hne)
      · rw [hu.2 j hj] at hold
        cases hold
      · have hinv := ha.ios j hj
        unfold Io.Inv at hinv
        simp only [hpc] at hinv
        cases act with
        | go i u =>
          have hij : i = j := Option.some.inj hio
          have hpc' : (s.ios i).pc = .test := by
            rw [hij]
            exact hpc
          have htrue := hc hpc'
          rw [hst] at htrue
          cases htrue
        | forwardEnd i error =>
          have hij : i = j := Option.some.inj hio
          have hforward : (s.ios j).forward = true := hij ▸ hg.2
          rw [hinv.1.1] at hforward
          cases hforward
        | pageLock i =>
          have hij : i = j := Option.some.inj hio
          have hlocking : (s.ios j).locking = true := hij ▸ hg.2
          rw [hinv.1.2.1] at hlocking
          cases hlocking
        | finish i =>
          have hij : i = j := Option.some.inj hio
          have htail : (s.ios i).tail = .pending := by
            rw [hij]
            exact hinv.1.2.2.1
          simp only [step, completionGo, htail] at h
          cases h
        | _ => cases hio
    · rw [hstep.ios, update_of_ne hjk]
      exact hu.2 j hj
  · refine ⟨(hother.lost hc).trans hu.1, fun j hj => ?_⟩
    by_cases hlt : j < s.submitted
    · rw [hother.ios j hlt]
      exact hu.2 j hlt
    · exact hother.refused j (Nat.le_of_not_lt hlt) hj

theorem inBalance (ha : s.Account q0) (hu : s.Untouched) : s.InBalance q0 where
  metadata := ha.metadata
  d2c := by
    have hd := ha.d2c
    rw [hu.1] at hd
    exact hd
  queues := ha.queues
  finished k hk hfin := ((endsOnce_of_inv (ha.ios k hk)).2 hfin).2.mpr (hu.2 k hk)
  gone hlive hfin := by
    have hm := ha.metadata
    have hd := ha.d2c
    have hzero : ∑ k ∈ Finset.range s.submitted, (s.ios k).refs = 0 :=
      Finset.sum_eq_zero fun k hk => by
        have hk := Finset.mem_range.mp hk
        have hholds := ((endsOnce_of_inv (ha.ios k hk)).2 (hfin k hk)).2.mpr (hu.2 k hk)
        rw [Io.refs, hholds]
        rfl
    rw [hlive, Finset.sum_empty, hzero] at hm
    rw [hlive, Finset.sum_empty, hu.1] at hd
    refine ⟨hm, hd, fun q => ?_⟩
    have hq := ha.queues q
    rw [hlive, Finset.sum_empty, add_zero] at hq
    exact hq

variable {metadataFreeze d2cFreeze : Nat} {queues : Nat → Queue} {standby : Bool}

theorem start_account :
    (start metadataFreeze d2cFreeze queues standby).Account fun q => (queues q).refCount where
  metadata := rfl
  d2c := rfl
  queues _ := (add_zero _).symm
  ios k hk := absurd hk (Nat.not_lt_zero k)

theorem account_of_reachable {allowed : State → Act → Prop}
    (h : Reachable (system c allowed) (start metadataFreeze d2cFreeze queues standby) s) :
    s.Account fun q => (queues q).refCount :=
  h.invariant (fun _ => start_account) fun _ _ _ ha _ hg hs _ => step_account ha hg.1 hs

/-- A constructor keeps the counters balanced exactly where its call is clean.
In every run an I/O of the front volume ends once, and its reference is back
unless the cache was found not to be in standby. In the runs of clean steps
every counter is what live requests and I/Os in progress hold. -/
theorem counters_balanced (c : Cache) :
    (∀ (s : State) (a : Allocs) (i : Nat) (call : Call), i ∉ s.live →
      (call.Balanced c s a i ↔ call.Clean c s a)) ∧
    ∀ (metadataFreeze d2cFreeze : Nat) (queues : Nat → Queue) (standby : Bool) (s : State),
      (Reachable (system c fun _ _ => True) (start metadataFreeze d2cFreeze queues standby) s →
        ∀ k < s.submitted, (s.ios k).EndsOnce ∧ Advances c s k) ∧
      (Reachable (system c (Clean c)) (start metadataFreeze d2cFreeze queues standby) s →
        s.InBalance fun q => (queues q).refCount) := by
  refine ⟨fun s a i call hi => Call.balanced_iff hi call, fun _ _ queues _ s => ⟨fun h k hk => ?_, fun h => ?_⟩⟩
  · have ha := account_of_reachable h
    exact ⟨endsOnce_of_inv (ha.ios k hk), advances_of_account ha hk⟩
  · have hboth := @RunIn.invariant _ _ _ _ (fun s => s.Account (fun q => (queues q).refCount) ∧ s.Untouched) _ _ h
      (fun _ => ⟨start_account, rfl, fun k hk => absurd hk (Nat.not_lt_zero k)⟩)
      fun _ _ _ hs _ hg hstep _ => ⟨step_account hs.1 hg.1 hstep, step_untouched hs.1 hs.2 hg.1 hg.2 hstep⟩
    exact inBalance hboth.1 hboth.2

end Accounts

section Examples

/-- A cache with the management queue 0 and without metadata pages. -/
def smallCache : Cache := ⟨0, 0, 0⟩

/-- Allocations that all succeed. -/
def enough : Allocs := ⟨true, true, true, true⟩

/-- Allocations that all fail. -/
def noMemory : Allocs := ⟨false, false, false, false⟩

/-- A cache without requests whose queues have their owners' reference. -/
def idle (metadataFreeze : Nat) (standby : Bool) : State := start metadataFreeze 0 (fun _ => ⟨1, 0⟩) standby

/-- A constructor keeps a reference on `refcnt.d2c` where the cache is detached
and there is no memory, and a flush that finds the cache running keeps one on
`refcnt.metadata` behind its end. -/
theorem references_left_behind :
    ¬(Call.reqNew 1 0 0 4096 .read).Balanced smallCache (idle 1 true) noMemory 0 ∧
    ∃ s, Reachable (system smallCache fun _ _ => True) (idle 0 false) s ∧ s.live = ∅ ∧
      (∀ k < s.submitted, (s.ios k).Finished ∧ (s.ios k).ends = [errCacheNotStandby]) ∧ s.metadata.counter = 1 := by
  have hlive : (0 : Nat) ∉ (idle 1 true).live := Finset.notMem_empty 0
  refine ⟨fun h => ?_, ?_⟩
  · have hclean := (Call.balanced_iff hlive _).mp h
    have hmemory : noMemory.mpoolOne = true := (hclean.2 (by decide)).2
    cases hmemory
  · have h0 : Reachable (system smallCache fun _ _ => True) (idle 0 false) (idle 0 false) := .refl trivial
    have h1 := h0.next (.new (.reqNewCache 1 0 4096 .write) enough 0) ⟨Finset.notMem_empty 0, trivial⟩ rfl
    have h2 := h1.next (.submit .flush 0) ⟨⟨by decide, fun k hk => absurd hk (Nat.not_lt_zero k)⟩, trivial⟩ rfl
    have h3 := h2.next (.go 0 .acquired) ⟨Nat.zero_lt_one, trivial⟩ rfl
    have h4 := h3.next (.go 0 .acquired) ⟨Nat.zero_lt_one, trivial⟩ rfl
    have h5 := h4.next (.put 0) ⟨⟨by decide, fun _ k hk _ => by
      obtain rfl := Nat.lt_one_iff.mp hk
      decide⟩, trivial⟩ rfl
    refine ⟨_, h5, by decide, fun k hk => ?_, by decide⟩
    obtain rfl := Nat.lt_one_iff.mp hk
    exact ⟨⟨rfl, rfl⟩, rfl⟩

theorem unrestricted {c : Cache} {allowed : State → Act → Prop} {s0 s : State}
    (h : Reachable (system c allowed) s0 s) : Reachable (system c fun _ _ => True) s0 s := by
  induction h with
  | refl h => exact .refl h
  | snoc _ hg hs _ ih => exact .snoc ih ⟨hg.1, trivial⟩ hs trivial

theorem counters_balanced_flush :
    (Call.reqNew 1 0 0 4096 .read).Balanced smallCache (idle 1 true) enough 0 ∧
    ∃ s : State, (s.ios 0).Finished ∧ (s.ios 0).EndsOnce ∧ s.InBalance fun _ => 1 := by
  have hall := counters_balanced smallCache
  have hlive : (0 : Nat) ∉ (idle 1 true).live := Finset.notMem_empty 0
  have hclean : Call.Clean smallCache (idle 1 true) enough (.reqNew 1 0 0 4096 .read) :=
    ⟨by decide, fun _ => ⟨rfl, rfl⟩⟩
  have h0 : Reachable (system smallCache (Clean smallCache)) (idle 0 true) (idle 0 true) := .refl trivial
  have h1 := h0.next (.new (.reqNewCache 1 0 4096 .write) enough 0)
    ⟨Finset.notMem_empty 0, (by decide : (1 : Nat) ≠ 0)⟩ rfl
  have h2 := h1.next (.submit .flush 0) ⟨⟨by decide, fun k hk => absurd hk (Nat.not_lt_zero k)⟩, trivial⟩ rfl
  have h3 := h2.next (.go 0 .acquired) ⟨Nat.zero_lt_one, nofun⟩ rfl
  have h4 := h3.next (.go 0 .acquired) ⟨Nat.zero_lt_one, fun _ => rfl⟩ rfl
  have h5 := h4.next (.go 0 .acquired) ⟨Nat.zero_lt_one, nofun⟩ rfl
  have h6 := h5.next (.forwardEnd 0 0) ⟨⟨Nat.zero_lt_one, rfl⟩, trivial⟩ rfl
  have h7 := h6.next (.finish 0) ⟨Nat.zero_lt_one, trivial⟩ rfl
  have h8 := h7.next (.finish 0) ⟨Nat.zero_lt_one, trivial⟩ rfl
  have hruns := hall.2 0 0 (fun _ => ⟨1, 0⟩) true
  have hends := ((hruns _).1 (unrestricted h8) 0 Nat.zero_lt_one).1
  exact ⟨(hall.1 _ _ _ _ hlive).mpr hclean, _, ⟨rfl, rfl⟩, hends, (hruns _).2 h8⟩

end Examples

end OcfCache.RequestNew
