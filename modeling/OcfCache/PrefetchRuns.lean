import OcfCache.Prefetch

/-!
# Runs of a prefetch request

What has the request holds one reference of it, so a request that nothing has
is freed once its submission has put its own. Every line that was mapped to
it stays locked until it holds data, is free, or goes to a request that waits.
-/

namespace OcfCache.Prefetch

open Runs

section Lines

/-- The request has nothing to do with the line yet. -/
def Line.Clear (l : Line) : Prop := l.mapped = false ∧ l.locked = false

/-- A line that was mapped is locked. -/
def Line.Held (l : Line) : Prop := l.status ≠ .miss ∧ (l.mapped = true → l.locked = true)

/-- A line that was mapped has no valid blocks yet. -/
def Line.Pending (l : Line) : Prop :=
  l.Held ∧ (l.mapped = true → l.status = .remapped ∧ l.valid = false)

/-- The line holds the core's data. -/
def Line.Written (l : Line) : Prop := l.Held ∧ l.data = true

/-- The line is free, or left for a request that waits. -/
def Line.Purged (l : Line) : Prop := l.Held ∧ l.valid = false ∧ (l.free = true ∨ l.kept = true)

/-- What the request leaves of a line. -/
def Line.Settled (l : Line) : Prop :=
  l.locked = false ∧
    (l.mapped = true → l.valid = true ∧ l.data = true ∨ l.free = true ∨ l.handed = true ∧ l.valid = false)

variable {o : Outcome} {l : Line}

theorem unlock_settled (h : l.mapped = false) : (l.unlock o).Settled := by
  unfold Line.unlock
  split
  · exact ⟨rfl, fun hm => absurd (h.symm.trans hm) nofun⟩
  · rename_i hl
    exact ⟨Bool.eq_false_iff.mpr hl, fun hm => absurd (h.symm.trans hm) nofun⟩

theorem unlock_settled_of_waits (h : l.mapped = true → l.locked = true ∧ l.valid = false)
    (hw : l.mapped = true → l.free = true ∨ o.waits l.coreLine = true) : (l.unlock o).Settled := by
  unfold Line.unlock
  split
  · refine ⟨rfl, fun hm => ?_⟩
    obtain hfree | hwaits := hw hm
    · exact .inr (.inl hfree)
    · exact .inr (.inr ⟨hwaits, (h hm).2⟩)
  · rename_i hl
    exact ⟨Bool.eq_false_iff.mpr hl, fun hm => absurd (h hm).1 hl⟩

theorem unlock_settled_of_written (h : l.Written) : ((l.setValid).unlock o).Settled := by
  unfold Line.unlock
  split
  · exact ⟨rfl, fun _ => .inl ⟨rfl, h.2⟩⟩
  · rename_i hl
    exact ⟨Bool.eq_false_iff.mpr hl, fun _ => .inl ⟨rfl, h.2⟩⟩

theorem purge_purged (h : l.Held) : (l.purge o).Purged := by
  unfold Line.purge Line.invalidate
  rw [if_neg h.1]
  split
  · exact ⟨h, rfl, .inr rfl⟩
  · exact ⟨h, rfl, .inl rfl⟩

theorem purge_unlock_settled (h : l.Held) : ((l.purge o).unlock o).Settled := by
  have hpurged := purge_purged h (o := o)
  have hkept : (l.purge o).free = true ∨ o.waits (l.purge o).coreLine = true := by
    unfold Line.purge Line.invalidate
    rw [if_neg h.1]
    by_cases hw : o.waits l.coreLine = true
    · rw [if_pos hw]
      exact .inr hw
    · rw [if_neg hw]
      exact .inl rfl
  exact unlock_settled_of_waits (fun hm => ⟨hpurged.1.2 hm, hpurged.2.1⟩) fun _ => hkept

theorem mapHndlError_settled (h : l.Clear) : (l.mapHndlError o).Settled := by
  unfold Line.mapHndlError
  split
  · rename_i hmiss
    have hlocked : l.remap.locked = true := by
      unfold Line.remap
      rw [if_pos hmiss.1]
    have hpurged : (l.remap.invalidate o).locked = true ∧ (l.remap.invalidate o).valid = false ∧
        ((l.remap.invalidate o).free = true ∨ o.waits (l.remap.invalidate o).coreLine = true) := by
      unfold Line.invalidate
      split
      · rename_i hw
        exact ⟨hlocked, rfl, .inr hw⟩
      · exact ⟨hlocked, rfl, .inl rfl⟩
    have hsettled : ((l.remap.invalidate o).unlock o).Settled :=
      unlock_settled_of_waits (fun _ => ⟨hpurged.1, hpurged.2.1⟩) fun _ => hpurged.2.2
    exact hsettled
  · exact ⟨h.2, fun hm => absurd (h.1.symm.trans hm) nofun⟩

theorem remap_pending (h : l.Clear) :
    ((l.lookup o).remap).Pending ∧ (((l.lookup o).remap).mapped = true → o.lookup l.coreLine = .miss) ∧
      (((l.lookup o).remap).mapped = false → ((l.lookup o).remap).locked = false) := by
  unfold Line.remap
  split
  · rename_i hmiss
    exact ⟨⟨⟨nofun, fun _ => rfl⟩, fun _ => ⟨rfl, rfl⟩⟩, fun _ => hmiss, nofun⟩
  · rename_i hmiss
    have hclear : ∀ {p : Prop}, (l.lookup o).mapped = true → p := fun hm => absurd (h.1.symm.trans hm) nofun
    exact ⟨⟨⟨hmiss, hclear⟩, hclear⟩, hclear, fun _ => h.2⟩

theorem lock_pending (h : l.Pending) : l.lock.Pending ∧ l.lock.mapped = l.mapped ∧ l.lock.coreLine = l.coreLine := by
  unfold Line.lock
  rw [if_neg h.1.1]
  exact ⟨⟨⟨h.1.1, fun _ => rfl⟩, h.2⟩, rfl, rfl⟩

theorem check_pending (h : l.Pending) : (l.check o).Pending ∧ (l.check o).mapped = l.mapped ∧
    (l.check o).coreLine = l.coreLine := by
  unfold Line.check
  split
  · rename_i hhit
    refine ⟨⟨⟨nofun, h.1.2⟩, fun hm => ?_⟩, rfl, rfl⟩
    have hstatus := (h.2 hm).1
    rw [hhit.1] at hstatus
    cases hstatus
  · exact ⟨h, rfl, rfl⟩

end Lines

section Account

variable {r : Req} {k : Int} {completes allocs frees : Nat} {p q : Line → Prop}

/-- The references, what was done once, and what holds of the lines; `k` references are held by what has the
request. -/
structure At (r : Req) (k : Int) (completes allocs frees : Nat) (p : Line → Prop) : Prop where
  refs : r.refCount = k + r.tailPut.toInt
  freed : r.freed = if r.refCount = 0 then 1 else 0
  misused : r.misused = false
  completes : r.completes = completes
  allocs : r.allocs = allocs
  frees : r.frees = frees
  lines : ∀ l ∈ r.lines, p l

theorem toInt_nonneg (b : Bool) : 0 ≤ b.toInt := by
  cases b <;> decide

theorem At.alive (h : At r k completes allocs frees p) (hk : 0 < k) : r.freed = 0 := by
  have hnn := toInt_nonneg r.tailPut
  have hrefs := h.refs
  rw [h.freed, if_neg (by omega)]

theorem touch_of_alive (h : r.freed = 0) : r.touch = r := by
  cases r
  simp_all [Req.touch]

theorem At.get (h : At r k completes allocs frees p) (hk : 0 < k) : At r.get (k + 1) completes allocs frees p := by
  have halive := h.alive hk
  have hnn := toInt_nonneg r.tailPut
  have hrefs := h.refs
  unfold Req.get
  rw [touch_of_alive halive]
  refine ⟨?_, ?_, h.misused, h.completes, h.allocs, h.frees, h.lines⟩
  · change r.refCount + 1 = k + 1 + r.tailPut.toInt
    omega
  · change r.freed = if r.refCount + 1 = 0 then 1 else 0
    rw [halive, if_neg (by omega)]

theorem At.put (h : At r (k + 1) completes allocs frees p) (hk : 0 ≤ k) : At r.put k completes allocs frees p := by
  have halive := h.alive (by omega)
  have hnn := toInt_nonneg r.tailPut
  have hrefs := h.refs
  unfold Req.put
  rw [touch_of_alive halive]
  refine ⟨?_, ?_, h.misused, h.completes, h.allocs, h.frees, h.lines⟩
  · change r.refCount - 1 = k + r.tailPut.toInt
    omega
  · change (if r.refCount = 1 then r.freed + 1 else r.freed) = if r.refCount - 1 = 0 then 1 else 0
    rw [halive]
    split <;> split <;> omega

theorem At.complete (h : At r (k + 1) completes allocs frees p) (hk : 0 ≤ k) :
    At r.complete k (completes + 1) allocs frees p := by
  have hnext : At { r with completes := r.completes + 1 } (k + 1) (completes + 1) allocs frees p :=
    ⟨h.refs, h.freed, h.misused, congrArg (· + 1) h.completes, h.allocs, h.frees, h.lines⟩
  exact hnext.put hk

theorem At.mapLines (h : At r k completes allocs frees p) (hk : 0 < k) {f : Line → Line}
    (hf : ∀ l ∈ r.lines, p l → q (f l)) : At (r.mapLines f) k completes allocs frees q := by
  unfold Req.mapLines
  rw [touch_of_alive (h.alive hk)]
  refine ⟨h.refs, h.freed, h.misused, h.completes, h.allocs, h.frees, fun l hl => ?_⟩
  obtain ⟨l', hl', rfl⟩ := List.mem_map.mp hl
  exact hf l' hl' (h.lines l' hl')

theorem At.freeData (h : At r k completes allocs frees p) (hk : 0 < k) :
    At r.freeData k completes allocs (frees + 1) p := by
  unfold Req.freeData
  rw [touch_of_alive (h.alive hk)]
  exact ⟨h.refs, h.freed, h.misused, h.completes, h.allocs, congrArg (· + 1) h.frees, h.lines⟩

theorem At.mono (h : At r k completes allocs frees p) (hpq : ∀ l, p l → q l) : At r k completes allocs frees q :=
  ⟨h.refs, h.freed, h.misused, h.completes, h.allocs, h.frees, fun l hl => hpq l (h.lines l hl)⟩

theorem At.tail (h : At r (k + 1) completes allocs frees p) (htail : r.tailPut = false) :
    At { r with tailPut := true } k completes allocs frees p := by
  have hrefs := h.refs
  rw [htail] at hrefs
  refine ⟨?_, h.freed, h.misused, h.completes, h.allocs, h.frees, h.lines⟩
  change r.refCount = k + 1
  rw [hrefs]
  exact Int.add_zero _

theorem At.putTail (h : At r k completes allocs frees p) (hk : 0 ≤ k) (htail : r.tailPut = true) :
    At { r.put with tailPut := false } k completes allocs frees p := by
  have hrefs := h.refs
  rw [htail] at hrefs
  change r.refCount = k + 1 at hrefs
  have halive : r.freed = 0 := by
    rw [h.freed, if_neg (by omega)]
  unfold Req.put
  rw [touch_of_alive halive]
  refine ⟨?_, ?_, h.misused, h.completes, h.allocs, h.frees, h.lines⟩
  · change r.refCount - 1 = k + 0
    omega
  · change (if r.refCount = 1 then r.freed + 1 else r.freed) = if r.refCount - 1 = 0 then 1 else 0
    rw [halive]
    split <;> split <;> omega

/-- What the books are about. -/
def Req.kept (r : Req) : Int × Nat × Bool × Bool × Nat × Nat × Nat × List Line :=
  (r.refCount, r.freed, r.misused, r.tailPut, r.completes, r.allocs, r.frees, r.lines)

theorem At.congr {r' : Req} (h : At r k completes allocs frees p) (heq : r'.kept = r.kept) :
    At r' k completes allocs frees p := by
  simp only [Req.kept, Prod.mk.injEq] at heq
  obtain ⟨hrefs, hfreed, hmisused, htail, hcompletes, hallocs, hfrees, hlines⟩ := heq
  constructor
  · rw [hrefs, htail, h.refs]
  · rw [hfreed, hrefs, h.freed]
  · rw [hmisused, h.misused]
  · rw [hcompletes, h.completes]
  · rw [hallocs, h.allocs]
  · rw [hfrees, h.frees]
  · rw [hlines]
    exact h.lines

theorem At.pushCb (h : At r k completes allocs frees p) (hk : 0 < k) (hd : Handler) :
    At (r.pushCb hd) k completes allocs frees p := by
  unfold Req.pushCb
  rw [touch_of_alive (h.alive hk)]
  exact h.congr rfl

end Account

section Invariant

/-- What holds of a request in a queue. -/
def Req.QueuedInv (r : Req) : Handler → Prop
  | .prefetchReadDo => At r 1 0 0 0 Line.Pending ∧ r.dirtyAny = false ∧ r.tailPut = false
  | .engineRefresh => At r 1 0 0 0 Line.Pending ∧ r.priv = some .prefetchReadDo ∧ r.tailPut = false ∧
      r.tailUnlock = false
  | .backfillDo => At r 1 1 1 0 Line.Held ∧ r.cpData = true ∧ r.full = true ∧ r.tailUnlock = false
  | .backfillUpdateMetadata => At r 1 1 1 1 Line.Written ∧ r.tailUnlock = false
  | .invalidateDo => At r 1 1 1 1 Line.Held ∧ r.tailUnlock = false

/-- What holds of a request that a device has. -/
def Req.IoInv (r : Req) : Callback → Prop
  | .prefetchReadComplete => At r 1 0 1 0 Line.Held ∧ r.data = true ∧ r.tailUnlock = false
  | .backfillComplete => At r 1 1 1 0 Line.Held ∧ r.data = true ∧ r.full = true ∧ r.tailUnlock = false
  | .invalidateReq => At r 1 1 1 1 Line.Purged ∧ r.tailUnlock = false

/-- What holds of a request that nothing has. -/
def Req.IdleInv (r : Req) : Prop := ∃ n ≤ 1, At r 0 1 n n Line.Settled ∧ r.tailUnlock = false

/-- What holds of the request in every state. -/
def Inv (r : Req) : Prop :=
  match r.stage with
  | .start => At r 1 0 0 0 Line.Clear ∧ r.tailPut = false ∧ r.tailUnlock = false
  | .locking => At r 1 0 0 0 Line.Pending ∧ r.handler = .prefetchReadDo ∧ r.tailPut = false ∧ r.tailUnlock = false
  | .cleaning => At r 1 0 0 0 Line.Pending ∧ r.handler = .prefetchReadDo ∧ r.tailPut = false
  | .queued => r.QueuedInv r.handler
  | .io cb => r.IoInv cb
  | .idle => r.IdleInv
  | .lost => False

/-- Work left in a queue. -/
def Handler.todo : Handler → Nat
  | .prefetchReadDo => 20
  | .engineRefresh => 29
  | .backfillDo => 14
  | .backfillUpdateMetadata => 10
  | .invalidateDo => 10

/-- Work left with a device. -/
def Callback.todo : Callback → Nat
  | .prefetchReadComplete => 17
  | .backfillComplete => 12
  | .invalidateReq => 8

/-- Work left where the request is. -/
def Req.work (r : Req) : Nat :=
  match r.stage with
  | .start => 40
  | .locking => 30
  | .cleaning => 24
  | .queued => r.handler.todo
  | .io cb => cb.todo
  | .idle => 0
  | .lost => 0

/-- Ends of functions that are still to come. -/
def Req.tails (r : Req) : Nat := r.tailPut.toNat + r.tailUnlock.toNat

/-- Steps that the request still takes, at most. -/
def Req.todo (r : Req) : Nat := r.work + r.tails

/-- A function leaves the request in order, with less work to do than `n`. -/
structure Out (n : Nat) (r : Req) : Prop where
  inv : Inv r
  todo : r.todo < n

end Invariant

section Engine

variable {r : Req} {o : Outcome} {n : Nat}

/-- The buffer is there, or all lines that were mapped go to requests that wait. -/
def DataClean (r : Req) (o : Outcome) : Prop :=
  o.dataAlloc = false → r.tailUnlock = false ∧ ∀ l ∈ r.lines, l.mapped = true → o.waits l.coreLine = true

theorem unlock_complete (h : At r 1 0 0 0 Line.Pending) (htail : r.tailPut = false) (hunlock : r.tailUnlock = false)
    (hsettled : ∀ l ∈ r.lines, l.Pending → (l.unlock o).Settled) (hn : 0 < n) :
    Out n ((ocfReqUnlock r o).complete.goto .idle) := by
  have hlines : At (ocfReqUnlock r o) 1 0 0 0 Line.Settled := h.mapLines (by decide) hsettled
  have hdone : At (ocfReqUnlock r o).complete 0 1 0 0 Line.Settled := At.complete hlines (by decide)
  refine ⟨⟨0, by decide, hdone.congr rfl, hunlock⟩, ?_⟩
  change 0 + (r.tailPut.toNat + r.tailUnlock.toNat) < n
  rw [htail, hunlock]
  exact hn

theorem readDo_out (h : At r 1 0 0 0 Line.Pending) (htail : r.tailPut = false) (hhandler : r.handler = .prefetchReadDo)
    (hguard : o.dataAlloc = true → r.tailUnlock = false) (hclean : DataClean r o)
    (hn : 18 < n) (hdirty : r.dirtyAny = true → 25 < n) : Out n (ocfPrefetchReadDo r o) := by
  have hunlock : r.tailUnlock = false := by
    cases hd : o.dataAlloc with
    | true => exact hguard hd
    | false => exact (hclean hd).1
  unfold ocfPrefetchReadDo
  by_cases hhit : r.isHit = true
  · rw [if_pos hhit]
    refine unlock_complete h htail hunlock (fun l hl hp => unlock_settled ?_) (by omega)
    have hstatus : l.status = .hit := of_decide_eq_true (List.all_eq_true.mp hhit l hl)
    by_contra hm
    have hremapped := (hp.2 (Bool.not_eq_false _ ▸ hm)).1
    rw [hstatus] at hremapped
    cases hremapped
  · rw [if_neg hhit]
    by_cases hd : r.dirtyAny = true
    · rw [if_pos hd, touch_of_alive (h.alive (by decide))]
      refine ⟨⟨h.congr rfl, hhandler, htail⟩, ?_⟩
      change 24 + (r.tailPut.toNat + 1) < n
      rw [htail]
      exact hdirty hd
    · rw [if_neg hd]
      by_cases ha : o.dataAlloc = true
      · rw [ha]
        have hopen : At { r with data := true, full := false, allocs := r.allocs + 1 } 1 0 1 0 Line.Pending :=
          ⟨h.refs, h.freed, h.misused, h.completes, congrArg (· + 1) h.allocs, h.frees, h.lines⟩
        have hheld : At (Req.mapLines { r with data := true, full := false, allocs := r.allocs + 1 } Line.setValid)
            1 0 1 0 Line.Held := hopen.mapLines (by decide) fun l _ hp => hp.1
        have hget := hheld.get (by decide)
        refine ⟨⟨(hget.tail ?_).congr rfl, ?_, hunlock⟩, ?_⟩
        · exact htail
        · rfl
        · change 17 + (1 + r.tailUnlock.toNat) < n
          rw [hunlock]
          exact hn
      · rw [Bool.eq_false_iff.mpr ha]
        have hwaits := (hclean (Bool.eq_false_iff.mpr ha)).2
        refine unlock_complete h htail hunlock (fun l hl hp => ?_) (by omega)
        exact unlock_settled_of_waits (fun hm => ⟨hp.1.2 hm, (hp.2 hm).2⟩) fun hm => .inr (hwaits l hl hm)

theorem unlock_put {p : Line → Prop} {m : Nat} (h : At r 1 1 m m p) (hm : m ≤ 1) (hunlock : r.tailUnlock = false)
    (hsettled : ∀ l ∈ r.lines, p l → (l.unlock o).Settled) (hn : 0 < n) :
    Out (n + r.tails) ((ocfReqUnlock r o).put.goto .idle) := by
  have hlines : At (ocfReqUnlock r o) 1 1 m m Line.Settled := h.mapLines (by decide) hsettled
  have hdone : At (ocfReqUnlock r o).put 0 1 m m Line.Settled := At.put hlines (by decide)
  refine ⟨⟨m, hm, hdone.congr rfl, hunlock⟩, ?_⟩
  change 0 + r.tails < n + r.tails
  omega

theorem invalidateReq_out (h : At r 1 1 1 1 Line.Purged) (hunlock : r.tailUnlock = false)
    (hkept : ∀ l ∈ r.lines, l.kept = true → o.waits l.coreLine = true) (hn : 0 < n) :
    Out (n + r.tails) (ocfInvalidateReq r o) := by
  refine unlock_put h (Nat.le_refl 1) hunlock (fun l hl hp => ?_) hn
  refine unlock_settled_of_waits (fun hm => ⟨hp.1.2 hm, hp.2.1⟩) fun _ => ?_
  obtain hfree | hk := hp.2.2
  · exact .inl hfree
  · exact .inr (hkept l hl hk)

theorem invalidateDo_out (h : At r 1 1 1 1 Line.Held) (hunlock : r.tailUnlock = false) (hflush : o.flush ≠ .lost)
    (hn : 8 < n) : Out (n + r.tails) (ocfInvalidateDo r o) := by
  have hdone : Out (n + r.tails) (ocfInvalidateReq (r.mapLines (Line.purge o)) o) := by
    have hpurged : At (r.mapLines (Line.purge o)) 1 1 1 1 fun l => (l.unlock o).Settled :=
      h.mapLines (by decide) fun l _ hp => purge_unlock_settled hp
    exact unlock_put hpurged (Nat.le_refl 1) hunlock (fun _ _ hp => hp) (by omega)
  unfold ocfInvalidateDo
  simp only
  split
  · cases hf : o.flush with
    | submitted =>
      have hpurged : At (r.mapLines (Line.purge o)) 1 1 1 1 Line.Purged :=
        h.mapLines (by decide) fun l _ hp => purge_purged hp
      refine ⟨⟨hpurged.congr rfl, hunlock⟩, ?_⟩
      change 8 + r.tails < n + r.tails
      omega
    | noMem => exact hdone
    | lost => exact absurd hf hflush
  · exact hdone

theorem updateMetadata_out (h : At r 1 1 1 1 Line.Written) (hunlock : r.tailUnlock = false) (hn : 0 < n) :
    Out (n + r.tails) (ocfBackfillUpdateMetadata r o) := by
  have hvalid : At (r.mapLines Line.setValid) 1 1 1 1 fun l => (l.unlock o).Settled :=
    h.mapLines (by decide) fun l _ hp => unlock_settled_of_written hp
  exact unlock_put hvalid (Nat.le_refl 1) hunlock (fun _ _ hp => hp) hn

theorem backfillComplete_out {p : Line → Prop} (h : At r 1 1 1 0 p) (hdata : r.data = true)
    (hunlock : r.tailUnlock = false) (error : Int) (hheld : ∀ l, p l → l.Held)
    (hwritten : error = 0 → ∀ l ∈ r.lines, p l → l.Written) (hn : 10 < n) :
    Out (n + r.tails) (ocfBackfillComplete r error) := by
  have hfreed : At { r.freeData with data := false } 1 1 1 1 p := (h.freeData (by decide)).congr rfl
  unfold ocfBackfillComplete
  simp only [hdata, if_true]
  split
  · refine ⟨⟨(hfreed.mono hheld).pushCb (by decide) _, hunlock⟩, ?_⟩
    change 10 + r.tails < n + r.tails
    omega
  · rename_i hzero
    have hdone : At { r.freeData with data := false } 1 1 1 1 Line.Written :=
      ⟨hfreed.refs, hfreed.freed, hfreed.misused, hfreed.completes, hfreed.allocs, hfreed.frees,
        fun l hl => hwritten (Decidable.not_not.mp hzero) l hl (h.lines l hl)⟩
    refine ⟨⟨hdone.pushCb (by decide) _, hunlock⟩, ?_⟩
    change 10 + r.tails < n + r.tails
    omega

theorem backfillDo_out (h : At r 1 1 1 0 Line.Held) (hcpData : r.cpData = true) (hfull : r.full = true)
    (hunlock : r.tailUnlock = false) (hn : 12 < n) : Out (n + r.tails) (ocfBackfillDo r) := by
  unfold ocfBackfillDo
  rw [touch_of_alive (h.alive (by decide))]
  simp only [hcpData, if_true]
  refine ⟨⟨h.congr ?_, rfl, hfull, hunlock⟩, ?_⟩
  · rfl
  · change 12 + r.tails < n + r.tails
    omega

theorem readComplete_out (h : At r 1 0 1 0 Line.Held) (hdata : r.data = true) (hunlock : r.tailUnlock = false)
    (error : Int) (hn : 14 < n) : Out (n + r.tails) (ocfPrefetchReadComplete r error) := by
  have hget := h.get (by decide)
  unfold ocfPrefetchReadComplete
  simp only
  split
  · have hdone : At r.get.complete.freeData 1 1 1 1 Line.Held := (hget.complete (by decide)).freeData (by decide)
    refine ⟨⟨hdone.pushCb (by decide) _, hunlock⟩, ?_⟩
    change 10 + r.tails < n + r.tails
    omega
  · have hcopy : At { r.get with cpData := r.get.data, data := false, full := true } (1 + 1) 0 1 0 Line.Held :=
      hget.congr rfl
    have hdone := hcopy.complete (by decide)
    refine ⟨⟨hdone.pushCb (by decide) _, hdata, rfl, hunlock⟩, ?_⟩
    change 14 + r.tails < n + r.tails
    omega

theorem refresh_out (h : At r 1 0 0 0 Line.Pending) (hpriv : r.priv = some .prefetchReadDo) (htail : r.tailPut = false)
    (hunlock : r.tailUnlock = false) (hcheck : o.checkOk = true) (hclean : DataClean r o) :
    Out 29 (ocfEngineRefresh r o) := by
  have hchecked : At (r.mapLines (Line.check o)) 1 0 0 0 Line.Pending :=
    h.mapLines (by decide) fun l _ hp => (check_pending hp).1
  unfold ocfEngineRefresh
  simp only [hcheck, if_true]
  have hpriv' : (r.mapLines (Line.check o)).priv = some .prefetchReadDo := hpriv
  rw [hpriv']
  refine readDo_out (hchecked.congr rfl) htail rfl (fun _ => hunlock) (fun hd => ⟨hunlock, ?_⟩) (by decide)
    fun _ => by decide
  intro l hl hm
  obtain ⟨l', hl', rfl⟩ := List.mem_map.mp hl
  obtain ⟨-, hmapped, hcore⟩ := check_pending (h.lines l' hl') (o := o)
  rw [hcore]
  exact (hclean hd).2 l' hl' (hmapped ▸ hm)

theorem onResume_out (h : At r 1 0 0 0 Line.Pending) (hhandler : r.handler = .prefetchReadDo)
    (htail : r.tailPut = false) (hunlock : r.tailUnlock = false) : Out 30 (ocfEngineOnResume r) := by
  have hlocked : At (r.mapLines Line.lock) 1 0 0 0 Line.Pending :=
    h.mapLines (by decide) fun l _ hp => (lock_pending hp).1
  have hnext : At { r.mapLines Line.lock with priv := some (r.mapLines Line.lock).handler } 1 0 0 0 Line.Pending :=
    hlocked.congr rfl
  refine ⟨⟨hnext.pushCb (by decide) _, congrArg some hhandler, htail, hunlock⟩, ?_⟩
  change 29 + (r.tailPut.toNat + r.tailUnlock.toNat) < 30
  rw [htail, hunlock]
  decide

theorem complete_out {p : Line → Prop} (h : At r 1 0 0 0 p) (htail : r.tailPut = false)
    (hunlock : r.tailUnlock = false) (hsettled : ∀ l ∈ r.lines, p l → l.Settled) (hn : 0 < n) :
    Out n (r.complete.goto .idle) := by
  have hlines : At r 1 0 0 0 Line.Settled :=
    ⟨h.refs, h.freed, h.misused, h.completes, h.allocs, h.frees, fun l hl => hsettled l hl (h.lines l hl)⟩
  have hdone : At r.complete 0 1 0 0 Line.Settled := At.complete hlines (by decide)
  refine ⟨⟨0, by decide, hdone.congr rfl, hunlock⟩, ?_⟩
  change 0 + (r.tailPut.toNat + r.tailUnlock.toNat) < n
  rw [htail, hunlock]
  exact hn

/-- What goes well when `ocf_prefetch_read` is called: where the buffer cannot be allocated all
missing lines go to requests that wait, and a lock that fails finds no line to map. -/
def StartClean (r : Req) (o : Outcome) : Prop :=
  (o.dataAlloc = false → ∀ l ∈ r.lines, o.lookup l.coreLine = .miss → o.waits l.coreLine = true) ∧
    ∀ left, o.lock = .error left → ∀ l ∈ r.lines, o.lookup l.coreLine ≠ .miss ∧ left l.coreLine = false

/-- A line of the request that was missing at the lookup if it is mapped now. -/
def Line.Mapped (r : Req) (o : Outcome) (l : Line) : Prop :=
  l.Pending ∧ (l.mapped = true → o.lookup l.coreLine = .miss) ∧ (l.mapped = false → l.locked = false) ∧
    ∃ l' ∈ r.lines, l'.coreLine = l.coreLine

theorem clear_settled {l : Line} (h : l.Clear) : l.Settled :=
  ⟨h.2, fun hm => absurd (h.1.symm.trans hm) nofun⟩

theorem remap_coreLine (l : Line) : ((l.lookup o).remap).coreLine = l.coreLine := by
  unfold Line.remap
  split <;> rfl

/-- A prefetch ends its references on every exit. -/
theorem prefetchRead_out (h : At r 1 0 0 0 Line.Clear) (htail : r.tailPut = false) (hunlock : r.tailUnlock = false)
    (hclean : StartClean r o) : Out 40 (ocfPrefetchRead r o) := by
  have hclear : ∀ l ∈ r.lines, l.Clear → l.Settled := fun _ _ => clear_settled
  unfold ocfPrefetchRead
  by_cases hblocked : o.blocked = true
  · rw [if_pos hblocked]
    exact complete_out h htail hunlock hclear (by decide)
  · rw [if_neg hblocked, touch_of_alive (h.alive (by decide))]
    have hbegun : At { r with handler := .prefetchReadDo } 1 0 0 0 Line.Clear := h.congr rfl
    by_cases hpart : o.partEnabled = true
    · simp only [hpart, Bool.not_true, Bool.false_eq_true, if_false]
      have hlookup : At (Req.mapLines { r with handler := .prefetchReadDo } (Line.lookup o)) 1 0 0 0
          fun l => ∃ l' ∈ r.lines, l'.Clear ∧ l = l'.lookup o :=
        hbegun.mapLines (by decide) fun l hl hc => ⟨l, hl, hc, rfl⟩
      generalize hr' : ({ Req.mapLines { r with handler := .prefetchReadDo } (Line.lookup o) with
        dirtyAny := o.dirtyAny } : Req) = r'
      have hlooked : At r' 1 0 0 0 fun l => ∃ l' ∈ r.lines, l'.Clear ∧ l = l'.lookup o := by
        rw [← hr']
        exact hlookup.congr rfl
      have htail' : r'.tailPut = false := by rw [← hr']; exact htail
      have hunlock' : r'.tailUnlock = false := by rw [← hr']; exact hunlock
      have hhandler' : r'.handler = .prefetchReadDo := by rw [← hr']; rfl
      split
      · refine complete_out hlooked htail' hunlock' (fun l _ hl => ?_) (by decide)
        obtain ⟨l', -, hc, rfl⟩ := hl
        exact ⟨hc.2, fun hm => absurd (hc.1.symm.trans hm) nofun⟩
      · split
        · have hfailed : At (r'.mapLines (Line.mapHndlError o)) 1 0 0 0 Line.Settled := by
            refine hlooked.mapLines (by decide) fun l _ hl => ?_
            obtain ⟨l', -, hc, rfl⟩ := hl
            exact mapHndlError_settled hc
          exact complete_out hfailed htail' hunlock' (fun _ _ hs => hs) (by decide)
        · have hmapped : At (r'.mapLines Line.remap) 1 0 0 0 (Line.Mapped r o) := by
            refine hlooked.mapLines (by decide) fun l _ hl => ?_
            obtain ⟨l', hl', hc, rfl⟩ := hl
            obtain ⟨hpending, hmiss, hunlocked⟩ := remap_pending hc (o := o)
            rw [Line.Mapped, remap_coreLine]
            exact ⟨hpending, hmiss, hunlocked, l', hl', rfl⟩
          cases hlock : o.lock with
          | acquired =>
            have hlocked : At ((r'.mapLines Line.remap).mapLines Line.lock) 1 0 0 0
                fun l => l.Pending ∧ (l.mapped = true → o.lookup l.coreLine = .miss) ∧
                  ∃ l' ∈ r.lines, l'.coreLine = l.coreLine := by
              refine hmapped.mapLines (by decide) fun l _ hl => ?_
              obtain ⟨hpending, hm, hcore⟩ := lock_pending hl.1
              rw [hm, hcore]
              exact ⟨hpending, hl.2.1, hl.2.2.2⟩
            refine readDo_out (hlocked.mono fun _ hl => hl.1) htail' hhandler' (fun _ => hunlock')
              (fun hd => ⟨hunlock', fun l hl hm => ?_⟩) (by decide) fun _ => by decide
            obtain ⟨-, hmiss, l', hl', hcore⟩ := hlocked.lines l hl
            rw [← hcore]
            exact hclean.1 hd l' hl' (hcore ▸ hmiss hm)
          | notAcquired =>
            refine ⟨⟨(hmapped.mono fun _ hl => hl.1).congr rfl, hhandler', htail', hunlock'⟩, ?_⟩
            change 30 + (r'.tailPut.toNat + r'.tailUnlock.toNat) < 40
            rw [htail', hunlock']
            decide
          | error left =>
            have hleft : At ((r'.mapLines Line.remap).mapLines (·.lockError left)) 1 0 0 0 Line.Settled := by
              refine hmapped.mapLines (by decide) fun l _ hl => ?_
              obtain ⟨-, hmiss, hunlocked, l', hl', hcore⟩ := hl
              obtain ⟨hfound, hnone⟩ := hclean.2 left hlock l' hl'
              rw [hcore] at hfound hnone
              have hm : l.mapped = false := Bool.eq_false_iff.mpr fun hm => hfound (hmiss hm)
              have hsame : l.lockError left = l := if_neg (by rw [hnone]; nofun)
              rw [hsame]
              exact ⟨hunlocked hm, fun hm' => absurd (hm.symm.trans hm') nofun⟩
            exact complete_out hleft htail' hunlock' (fun _ _ hs => hs) (by decide)
    · simp only [Bool.eq_false_iff.mpr hpart, Bool.not_false, if_true]
      exact complete_out hbegun htail hunlock hclear (by decide)

end Engine

section Runs

variable {r0 r : Req}

/-- The steps in which nothing goes wrong that the shared code does not undo. -/
def Clean (r : Req) : Act → Prop
  | .run o =>
    match r.stage, r.handler with
    | .start, _ => StartClean r o
    | _, .prefetchReadDo => DataClean r o
    | _, .engineRefresh => o.checkOk = true ∧ DataClean r o
    | _, .invalidateDo => o.flush ≠ .lost
    | _, _ => True
  | .cleaned error _ => error = 0
  | .ioEnd _ o => r.stage = .io .invalidateReq → ∀ l ∈ r.lines, l.kept = true → o.waits l.coreLine = true
  | _ => True

theorem tailPut_out (h : Inv r) (htail : r.tailPut = true) : Out r.todo (step r .tailPut) := by
  have hno : ∀ {p : Prop}, r.tailPut = false → p := fun hf => absurd (hf.symm.trans htail) nofun
  refine ⟨?_, ?_⟩
  · unfold Inv at h ⊢
    change match r.stage with
      | .start => _
      | .locking => _
      | .cleaning => _
      | .queued => Req.QueuedInv { r.put with tailPut := false } r.handler
      | .io cb => _
      | .idle => _
      | .lost => _
    cases hs : r.stage with
    | start =>
      simp only [hs] at h
      exact hno h.2.1
    | locking =>
      simp only [hs] at h
      exact hno h.2.2.1
    | cleaning =>
      simp only [hs] at h
      exact hno h.2.2
    | queued =>
      simp only [hs] at h ⊢
      cases hh : r.handler with
      | prefetchReadDo =>
        simp only [hh, Req.QueuedInv] at h
        exact hno h.2.2
      | engineRefresh =>
        simp only [hh, Req.QueuedInv] at h
        exact hno h.2.2.1
      | backfillDo | backfillUpdateMetadata | invalidateDo =>
        simp only [hh, Req.QueuedInv] at h
        exact ⟨h.1.putTail (by decide) htail, h.2⟩
    | io cb =>
      simp only [hs] at h ⊢
      cases cb with
      | prefetchReadComplete => exact ⟨h.1.putTail (by decide) htail, h.2⟩
      | backfillComplete => exact ⟨h.1.putTail (by decide) htail, h.2⟩
      | invalidateReq => exact ⟨h.1.putTail (by decide) htail, h.2⟩
    | idle =>
      simp only [hs] at h ⊢
      obtain ⟨m, hm, hat, hunlock⟩ := h
      exact ⟨m, hm, hat.putTail (by decide) htail, hunlock⟩
    | lost =>
      simp only [hs] at h
  · change r.work + (0 + r.tailUnlock.toNat) < r.work + (r.tailPut.toNat + r.tailUnlock.toNat)
    rw [htail]
    exact Nat.add_lt_add_left (Nat.add_lt_add_right (by decide : 0 < 1) _) _

theorem tailUnlock_out (h : Inv r) (htail : r.tailUnlock = true) : Out r.todo (step r .tailUnlock) := by
  have hno : ∀ {p : Prop}, r.tailUnlock = false → p := fun hf => absurd (hf.symm.trans htail) nofun
  have hgo : ∀ {p : Line → Prop}, At r 1 0 0 0 p → At { r.touch with tailUnlock := false } 1 0 0 0 p := fun hat => by
    rw [touch_of_alive (hat.alive (by decide))]
    exact hat.congr rfl
  refine ⟨?_, ?_⟩
  · unfold Inv at h ⊢
    change match r.stage with
      | .start => _
      | .locking => _
      | .cleaning => _
      | .queued => Req.QueuedInv { r.touch with tailUnlock := false } r.handler
      | .io cb => _
      | .idle => _
      | .lost => _
    cases hs : r.stage with
    | start =>
      simp only [hs] at h
      exact hno h.2.2
    | locking =>
      simp only [hs] at h
      exact hno h.2.2.2
    | cleaning =>
      simp only [hs] at h ⊢
      exact ⟨hgo h.1, h.2.1, h.2.2⟩
    | queued =>
      simp only [hs] at h ⊢
      cases hh : r.handler with
      | prefetchReadDo =>
        simp only [hh, Req.QueuedInv] at h
        exact ⟨hgo h.1, h.2.1, h.2.2⟩
      | engineRefresh | backfillDo =>
        simp only [hh, Req.QueuedInv] at h
        exact hno h.2.2.2
      | backfillUpdateMetadata | invalidateDo =>
        simp only [hh, Req.QueuedInv] at h
        exact hno h.2
    | io cb =>
      simp only [hs] at h ⊢
      cases cb with
      | prefetchReadComplete => exact hno h.2.2
      | backfillComplete => exact hno h.2.2.2
      | invalidateReq => exact hno h.2
    | idle =>
      simp only [hs] at h ⊢
      obtain ⟨m, -, -, hunlock⟩ := h
      exact hno hunlock
    | lost =>
      simp only [hs] at h
  · change r.work + (r.tailPut.toNat + 0) < r.work + (r.tailPut.toNat + r.tailUnlock.toNat)
    rw [htail]
    exact Nat.add_lt_add_left (Nat.add_lt_add_left (by decide : 0 < 1) _) _

/-- Every step keeps the account and leaves less to do. -/
theorem step_out {a : Act} (h : Inv r) (hg : guard r a) (hc : Clean r a) : Out r.todo (step r a) := by
  cases a with
  | run o =>
    obtain hs | ⟨hs, hblock⟩ := hg
    · unfold Inv at h
      unfold Clean at hc
      simp only [hs] at h hc
      obtain ⟨hat, htail, hunlock⟩ := h
      have htodo : r.todo = 40 := by
        unfold Req.todo Req.work Req.tails
        rw [hs, htail, hunlock]
        rfl
      have hstep : step r (.run o) = ocfPrefetchRead r o := by
        unfold step
        rw [hs]
      rw [hstep, htodo]
      exact prefetchRead_out hat htail hunlock hc
    · unfold Inv at h
      unfold Clean at hc
      simp only [hs] at h hc
      have hstep : step r (.run o) = r.handler.run r o := by
        unfold step
        rw [hs]
      have htodo : r.todo = r.handler.todo + r.tails := by
        unfold Req.todo Req.work
        rw [hs]
      rw [hstep, htodo]
      cases hh : r.handler with
      | prefetchReadDo =>
        simp only [hh, Req.QueuedInv] at h hc
        obtain ⟨hat, hclean, htail⟩ := h
        refine readDo_out hat htail hh (hblock hh) hc ?_ fun hd => absurd (hclean.symm.trans hd) nofun
        exact Nat.lt_of_lt_of_le (by decide : 18 < 20) (Nat.le_add_right _ _)
      | engineRefresh =>
        simp only [hh, Req.QueuedInv] at h hc
        obtain ⟨hat, hpriv, htail, hunlock⟩ := h
        have htails : r.tails = 0 := by
          unfold Req.tails
          rw [htail, hunlock]
          rfl
        rw [htails]
        exact refresh_out hat hpriv htail hunlock hc.1 hc.2
      | backfillDo =>
        simp only [hh, Req.QueuedInv] at h
        exact backfillDo_out h.1 h.2.1 h.2.2.1 h.2.2.2 (by decide)
      | backfillUpdateMetadata =>
        simp only [hh, Req.QueuedInv] at h
        exact updateMetadata_out h.1 h.2 (by decide)
      | invalidateDo =>
        simp only [hh, Req.QueuedInv] at h hc
        exact invalidateDo_out h.1 h.2 hc (by decide)
  | granted =>
    have hs : r.stage = .locking := hg
    unfold Inv at h
    simp only [hs] at h
    obtain ⟨hat, hhandler, htail, hunlock⟩ := h
    have htodo : r.todo = 30 := by
      unfold Req.todo Req.work Req.tails
      rw [hs, htail, hunlock]
      rfl
    rw [htodo]
    exact onResume_out hat hhandler htail hunlock
  | cleaned error o =>
    have hs : r.stage = .cleaning := hg
    have hzero : error = 0 := hc
    unfold Inv at h
    simp only [hs] at h
    obtain ⟨hat, hhandler, htail⟩ := h
    have htodo : r.todo = 24 + r.tails := by
      unfold Req.todo Req.work
      rw [hs]
    have hstep : step r (.cleaned error o) = { r with dirtyAny := false }.goto .queued := by
      change ocfEngineCleanEnd r o error = _
      unfold ocfEngineCleanEnd
      rw [if_neg (not_not.mpr hzero), touch_of_alive (hat.alive (by decide))]
    rw [hstep, htodo]
    refine ⟨?_, ?_⟩
    · change Req.QueuedInv _ r.handler
      rw [hhandler]
      exact ⟨hat.congr rfl, rfl, htail⟩
    · change r.handler.todo + r.tails < 24 + r.tails
      rw [hhandler]
      exact Nat.add_lt_add_right (by decide : 20 < 24) _
  | ioEnd error o =>
    obtain ⟨cb, hs⟩ := hg
    unfold Inv at h
    simp only [hs] at h
    have hstep : step r (.ioEnd error o) = cb.run r o error := by
      unfold step
      rw [hs]
    have htodo : r.todo = cb.todo + r.tails := by
      unfold Req.todo Req.work
      rw [hs]
    rw [hstep, htodo]
    cases cb with
    | prefetchReadComplete => exact readComplete_out h.1 h.2.1 h.2.2 error (by decide)
    | backfillComplete =>
      obtain ⟨hat, hdata, hfull, hunlock⟩ := h
      change Out _ (ocfBackfillComplete (if error ≠ 0 then r else r.mapLines (·.backfill r.full)) error)
      by_cases herror : error ≠ 0
      · rw [if_pos herror]
        exact backfillComplete_out hat hdata hunlock error (fun _ hh => hh) (fun hz => absurd hz herror) (by decide)
      · rw [if_neg herror]
        have hwritten : At (r.mapLines (·.backfill r.full)) 1 1 1 0 Line.Written :=
          hat.mapLines (by decide) fun l _ hh => ⟨hh, hfull⟩
        exact backfillComplete_out hwritten hdata hunlock error (fun _ hw => hw.1) (fun _ _ _ hw => hw) (by decide)
    | invalidateReq => exact invalidateReq_out h.1 h.2 (hc hs) (by decide)
  | tailPut => exact tailPut_out h hg
  | tailUnlock => exact tailUnlock_out h hg

/-- A request that `ocf_prefetch_range` has just made. -/
structure Fresh (r : Req) : Prop where
  stage : r.stage = .start
  refs : r.refCount = 1
  freed : r.freed = 0
  misused : r.misused = false
  completes : r.completes = 0
  allocs : r.allocs = 0
  frees : r.frees = 0
  tailPut : r.tailPut = false
  tailUnlock : r.tailUnlock = false
  lines : ∀ l ∈ r.lines, l.Clear

theorem Fresh.inv (h : Fresh r) : Inv r := by
  have hat : At r 1 0 0 0 Line.Clear := by
    refine ⟨?_, ?_, h.misused, h.completes, h.allocs, h.frees, h.lines⟩
    · rw [h.refs, h.tailPut]
      rfl
    · rw [h.freed, h.refs]
      rfl
  unfold Inv
  simp only [h.stage]
  exact ⟨hat, h.tailPut, h.tailUnlock⟩

/-- Nothing happens more than once, and nothing touches the request once it is freed. -/
structure Req.Sound (r : Req) : Prop where
  completes : r.completes ≤ 1
  freed : r.freed ≤ 1
  misused : r.misused = false
  allocs : r.allocs ≤ 1
  frees : r.frees ≤ r.allocs

/-- The request has ended and leaves nothing behind. -/
structure Req.EndedOnce (r : Req) : Prop where
  /-- `complete` was called. -/
  completes : r.completes = 1
  /-- The request was freed. -/
  freed : r.freed = 1
  /-- It was not touched behind that. -/
  misused : r.misused = false
  /-- Its buffer was freed. -/
  frees : r.frees = r.allocs
  /-- Its lines are not locked, and hold data, are free, or went to requests that waited. -/
  lines : ∀ l ∈ r.lines, l.Settled

/-- All asynchronous work has ended: nothing can happen to the request any more. -/
def Req.Over (r : Req) : Prop := ∀ a, ¬guard r a

theorem At.sound {k : Int} {completes allocs frees : Nat} {p : Line → Prop} (h : At r k completes allocs frees p)
    (hcompletes : completes ≤ 1) (hallocs : allocs ≤ 1) (hfrees : frees ≤ allocs) : r.Sound := by
  refine ⟨h.completes ▸ hcompletes, ?_, h.misused, h.allocs ▸ hallocs, ?_⟩
  · rw [h.freed]
    split <;> decide
  · rw [h.frees, h.allocs]
    exact hfrees

theorem Inv.sound (h : Inv r) : r.Sound := by
  unfold Inv at h
  cases hs : r.stage with
  | start | locking | cleaning =>
    simp only [hs] at h
    exact h.1.sound (by decide) (by decide) (by decide)
  | queued =>
    simp only [hs] at h
    cases hh : r.handler <;> simp only [hh, Req.QueuedInv] at h <;>
      exact h.1.sound (by decide) (by decide) (by decide)
  | io cb =>
    simp only [hs] at h
    cases cb <;> exact h.1.sound (by decide) (by decide) (by decide)
  | idle =>
    simp only [hs] at h
    obtain ⟨m, hm, hat, -⟩ := h
    exact hat.sound (by decide) hm (Nat.le_refl m)
  | lost =>
    simp only [hs] at h

/-- Nothing fails, and the lines are missing. -/
def plain : Outcome where
  blocked := false
  partEnabled := true
  lookup := fun _ => .miss
  dirtyAny := false
  remap := true
  remapped := fun _ => false
  lock := .acquired
  checkOk := true
  invalid := fun _ => false
  dataAlloc := true
  waits := fun _ => false
  flushNeeded := false
  flush := .submitted

/-- There is no memory for the buffer. -/
def noBuffer : Outcome := { plain with dataAlloc := false }

theorem idle_of_over (h : Inv r) (hover : r.Over) : r.stage = .idle ∧ r.tailPut = false := by
  have htail : r.tailPut = false := Bool.eq_false_iff.mpr (hover .tailPut)
  refine ⟨?_, htail⟩
  cases hs : r.stage with
  | start => exact absurd (.inl hs) (hover (.run plain))
  | locking => exact absurd hs (hover .granted)
  | cleaning => exact absurd hs (hover (.cleaned 0 plain))
  | queued => exact absurd (.inr ⟨hs, fun _ => nofun⟩) (hover (.run noBuffer))
  | io cb => exact absurd ⟨cb, hs⟩ (hover (.ioEnd 0 plain))
  | idle => rfl
  | lost =>
    unfold Inv at h
    simp only [hs] at h

theorem endedOnce_of_over (h : Inv r) (hover : r.Over) : r.EndedOnce := by
  obtain ⟨hs, htail⟩ := idle_of_over h hover
  unfold Inv at h
  simp only [hs] at h
  obtain ⟨m, -, hat, -⟩ := h
  have hzero : r.refCount = 0 := by
    rw [hat.refs, htail]
    rfl
  refine ⟨hat.completes, ?_, hat.misused, ?_, hat.lines⟩
  · rw [hat.freed, if_pos hzero]
  · rw [hat.frees, hat.allocs]

/-- The invariant holds in the run of a fresh request. -/
theorem run_inv (hfresh : Fresh r0) (hrun : Reachable (system Clean) r0 r) : Inv r := by
  refine hrun.invariant (fun _ => hfresh.inv) ?_
  intro s a s' hs _ hg hstep _
  cases hstep
  exact (step_out hs hg.1 hg.2).inv

/-- In every run of a prefetch request nothing is done twice and nothing touches
the request once it is freed. Each step brings it closer to its end, and where
nothing can happen any more it was completed and freed, its buffer was freed,
and no line is left locked or mapped without data. -/
theorem prefetch_ends_once (r0 r : Req) (hfresh : Fresh r0) (hrun : Reachable (system Clean) r0 r) :
    r.Sound ∧ (∀ a, guard r a → Clean r a → (step r a).todo < r.todo) ∧ (r.Over → r.EndedOnce) := by
  have hinv := run_inv hfresh hrun
  exact ⟨hinv.sound, fun a hg hc => (step_out hinv hg hc).todo, endedOnce_of_over hinv⟩

/-- A request for one line. -/
def oneLine : Req where
  refCount := 1
  freed := 0
  misused := false
  completes := 0
  data := false
  cpData := false
  full := false
  allocs := 0
  frees := 0
  lines := [⟨0, .miss, false, false, false, false, false, false, false⟩]
  dirtyAny := false
  handler := .invalidateDo
  priv := none
  stage := .start
  tailPut := false
  tailUnlock := false

theorem oneLine_fresh : Fresh oneLine where
  stage := rfl
  refs := rfl
  freed := rfl
  misused := rfl
  completes := rfl
  allocs := rfl
  frees := rfl
  tailPut := rfl
  tailUnlock := rfl
  lines := by
    intro l hl
    obtain rfl := List.mem_singleton.mp hl
    exact ⟨rfl, rfl⟩

theorem prefetch_ends_once_miss :
    Req.EndedOnce ([Act.run plain, .ioEnd 0 plain, .run plain, .tailPut, .ioEnd 0 plain, .run plain].foldl step
      oneLine) := by
  have h0 : Reachable (system Clean) oneLine oneLine := .refl trivial
  have h1 := h0.next (.run plain) ⟨.inl rfl, nofun, nofun⟩ rfl
  have h2 := h1.next (.ioEnd 0 plain) ⟨⟨_, rfl⟩, nofun⟩ rfl
  have h3 := h2.next (.run plain) ⟨.inr ⟨rfl, nofun⟩, trivial⟩ rfl
  have h4 := h3.next .tailPut ⟨rfl, trivial⟩ rfl
  have h5 := h4.next (.ioEnd 0 plain) ⟨⟨_, rfl⟩, nofun⟩ rfl
  have h6 := h5.next (.run plain) ⟨.inr ⟨rfl, nofun⟩, trivial⟩ rfl
  have hall := prefetch_ends_once oneLine _ oneLine_fresh h6
  refine hall.2.2 fun a hg => ?_
  cases a with
  | run o =>
    obtain hs | ⟨hs, -⟩ := hg <;> cases hs
  | granted => cases hg
  | cleaned error o => cases hg
  | ioEnd error o =>
    obtain ⟨cb, hs⟩ := hg
    cases hs
  | tailPut => cases hg
  | tailUnlock => cases hg

/-- A request whose lines cannot be cleaned is put once more after it was freed. -/
theorem prefetch_put_twice :
    ¬∀ r0 r, Fresh r0 → Reachable (system fun _ _ => True) r0 r → r.Sound ∧ (r.Over → r.EndedOnce) := by
  intro hall
  have h0 : Reachable (system fun _ _ => True) oneLine oneLine := .refl trivial
  -- the lookup finds a dirty line without some of the blocks
  have h1 := h0.next (.run { plain with lookup := fun _ => .hitInvalid, dirtyAny := true }) ⟨.inl rfl, trivial⟩ rfl
  have h2 := h1.next (.cleaned (-1) plain) ⟨rfl, trivial⟩ rfl
  have hsound := (hall oneLine _ oneLine_fresh h2).1
  exact absurd hsound.misused (by decide)

end Runs

end OcfCache.Prefetch
