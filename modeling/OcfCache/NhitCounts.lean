import OcfCache.NhitPolicy

/-!
# What the N-hit promotion policy counts

One access to a core line is one access to its counter, also in the middle of a
request. So in every run the answer for a core line depends on how often it was
accessed since it was first seen or last purged, as a number of 32 bits, while
fewer core lines than there are slots have been inserted since it was first
seen. An access does not renew the slot of a core line.
-/

namespace OcfCache.Nhit

open AgingCounters Metadata Requests

variable {p : Policy} {cfg : Config} {t : Table} {A : Counters Line} {x : Line}

/-- The core line of an event has a core. -/
def ValidEvent (e : Event Line) : Prop := e.key.1 ≠ ocfCoreIdInvalid

/-- The answer for a core line by its counter. -/
def promotes (p : Policy) (e : Option Entry) : Bool :=
  e.elim false fun e => decide (p.insertionThreshold ≤ (e.count + 1) % 2 ^ 32)

theorem readSlot_eq {slot : Nat} (op : ReadOp) (hslot : slot < cfg.rbEntries) : ∃ f : Elem → Int,
    readSlot cfg t op slot = (setSlot t slot fun e => { e with counter := f e }) ∧
      (op = .query → ∀ e, f e = envAtomicIncReturn e.counter) ∧ ∀ n, op = .setOccurences n → ∀ e, f e = n := by
  cases op with
  | query => exact ⟨_, if_neg (Nat.ne_of_lt hslot), fun _ _ => rfl, fun _ h => absurd h nofun⟩
  | setOccurences n =>
    exact ⟨_, if_neg (Nat.ne_of_lt hslot), fun h => absurd h nofun, fun m h _ => ReadOp.setOccurences.inj h⟩

/-- One access in table and counters. -/
theorem Tracks.access (h : Tracks p.table t A) (hx : x.1 ≠ ocfCoreIdInvalid) :
    ∃ t', coreLineShouldPromote p t x = some (promotes p (A x), t') ∧
      Tracks p.table t' (touch p.table.rbEntries A x) ∧ inserts p t (.access x) = makes A (.access x) := by
  obtain ⟨hA, hlookup⟩ | ⟨e, slot, hA, hlookup, hslot, hholds, hage, hcounter⟩ := h.lookup hx
  · have hread : readSlot p.table t .query p.table.rbEntries = t := if_pos rfl
    have hquery : nhitHashQuery p.table t x = some (none, t) := by
      unfold nhitHashQuery
      simp only [hlookup, Option.map_some, hread, if_true]
    refine ⟨nhitHashInsert p.table t x, ?_, h.insert hx hA, ?_⟩
    · rw [coreLineShouldPromote, hquery, hA]
      rfl
    · simp only [inserts, makes, hlookup, hA, if_true]
  · obtain ⟨f, hread, hf, -⟩ := readSlot_eq (t := t) .query hslot
    have hne : slot ≠ p.table.rbEntries := Nat.ne_of_lt hslot
    have hval : f (t.ring slot) = ((e.count + 1 : Nat) : Int).bmod (2 ^ 32) := by
      rw [hf rfl, hcounter, envAtomicIncReturn, Int.bmod_add_bmod, Int.natCast_add, Int.natCast_one]
    have hring : ((readSlot p.table t .query slot).ring slot).counter = f (t.ring slot) := by
      rw [hread, setSlot_ring, if_pos rfl]
    have hquery : nhitHashQuery p.table t x =
        some (some (((e.count + 1 : Nat) : Int).bmod (2 ^ 32)), readSlot p.table t .query slot) := by
      unfold nhitHashQuery
      simp only [hlookup, Option.map_some, if_neg hne, hring, hval]
    refine ⟨readSlot p.table t .query slot, ?_, ?_, ?_⟩
    · have hanswer : decide ((p.insertionThreshold : Int) ≤ ((e.count + 1 : Nat) : Int).bmod (2 ^ 32) % 2 ^ 32) =
          decide (p.insertionThreshold ≤ (e.count + 1) % 2 ^ 32) := by
        have hmod : ((e.count + 1 : Nat) : Int).bmod (2 ^ 32) % ((2 ^ 32 : Nat) : Int) =
            ((e.count + 1 : Nat) : Int) % ((2 ^ 32 : Nat) : Int) := Int.bmod_emod
        rw [decide_eq_decide]
        omega
      rw [coreLineShouldPromote, hquery, hA]
      exact congrArg (fun b => some (b, readSlot p.table t .query slot)) hanswer
    · have hself : touch p.table.rbEntries A x x = some ⟨e.count + 1, e.age⟩ := by
        simp [touch, hA]
      rw [hread]
      refine h.write hslot hholds hage hval hself fun y hy => ?_
      simp [touch, hA, hy]
    · simp [inserts, makes, hlookup, hne, hA]

theorem Tracks.purge (h : Tracks p.table t A) (hx : x.1 ≠ ocfCoreIdInvalid) :
    ∃ t', coreLinePurge p.table t x = some t' ∧ Tracks p.table t' (clear A x) := by
  unfold coreLinePurge nhitHashSetOccurences
  obtain ⟨hA, hlookup⟩ | ⟨e, slot, hA, hlookup, hslot, hholds, hage, -⟩ := h.lookup hx
  · have hclear : clear A x = A := by
      funext y
      by_cases hy : y = x
      · simp [clear, hy, hA]
      · simp [clear, hy]
    refine ⟨t, ?_, hclear.symm ▸ h⟩
    rw [hlookup, Option.map_some]
    exact congrArg some (if_pos rfl)
  · obtain ⟨f, hread, -, hf⟩ := readSlot_eq (t := t) (.setOccurences 0) hslot
    have hself : clear A x x = some ⟨0, e.age⟩ := by
      simp [clear, hA]
    refine ⟨_, congrArg (Option.map _) hlookup, ?_⟩
    simp only [hread]
    refine h.write hslot hholds hage ?_ hself fun y hy => ?_
    · rw [hf 0 rfl]
      decide
    · simp [clear, hy]

theorem Tracks.event (h : Tracks p.table t A) {e : Event Line} (he : ValidEvent e) :
    ∃ t', applyEvent p t e = some t' ∧ Tracks p.table t' (apply p.table.rbEntries A e) ∧
      inserts p t e = makes A e := by
  cases e with
  | access x =>
    obtain ⟨t', hrun, htracks, hmakes⟩ := h.access (x := x) he
    exact ⟨t', by rw [applyEvent, hrun]; rfl, htracks, hmakes⟩
  | purge x =>
    obtain ⟨t', hrun, htracks⟩ := h.purge (x := x) he
    exact ⟨t', hrun, htracks, rfl⟩

/-- The table after a run. -/
def runEvents (p : Policy) (t : Table) (es : List (Event Line)) : Option Table := es.foldlM (applyEvent p) t

theorem runEvents_append (p : Policy) (t : Table) (es fs : List (Event Line)) :
    runEvents p t (es ++ fs) = (runEvents p t es).bind fun t' => runEvents p t' fs := List.foldlM_append

variable {es : List (Event Line)}

/-- The table follows the counters along any events. -/
theorem Tracks.run (h : Tracks p.table t A) (hes : ∀ e ∈ es, ValidEvent e) :
    ∃ t', runEvents p t es = some t' ∧ Tracks p.table t' (AgingCounters.run p.table.rbEntries A es) ∧
      insertions p t es = misses p.table.rbEntries A es := by
  induction es generalizing t A with
  | nil => exact ⟨t, rfl, h, rfl⟩
  | cons e es ih =>
    obtain ⟨t1, hstep, htracks, hmakes⟩ := h.event (hes e List.mem_cons_self)
    obtain ⟨t2, hrun, htracks2, hmisses⟩ := ih htracks fun e' he' => hes e' (List.mem_cons_of_mem e he')
    refine ⟨t2, ?_, htracks2, ?_⟩
    · unfold runEvents at hrun ⊢
      rw [List.foldlM_cons, hstep]
      exact hrun
    · rw [insertions, misses, hmakes, hstep, Option.elim_some, hmisses]

/-- The answer for a core line after a run from the empty table. -/
def answer (p : Policy) (es : List (Event Line)) (x : Line) : Option Bool :=
  (runEvents p (nhitHashInit p.table) es).bind fun t => (coreLineShouldPromote p t x).map Prod.fst

/-- Number of insertions of a run from the empty table. -/
def insertionCount (p : Policy) (es : List (Event Line)) : Nat := insertions p (nhitHashInit p.table) es

/-- Fewer core lines than there are slots were inserted since a core line was first
seen. A line whose slot was used again counts from its last insertion. -/
def Kept (p : Policy) (es : List (Event Line)) (x : Line) : Prop :=
  ∀ i < es.length, es[i]? = some (.access x) → .access x ∉ es.take i →
    insertionCount p es - insertionCount p (es.take (i + 1)) < p.table.rbEntries

theorem insertionCount_eq (hes : ∀ e ∈ es, ValidEvent e) :
    insertionCount p es = misses p.table.rbEntries empty es := by
  obtain ⟨-, -, -, hmisses⟩ := (tracks_init p.table).run hes
  exact hmisses

theorem Kept.young (h : Kept p es x) (hes : ∀ e ∈ es, ValidEvent e) :
    Young p.table.rbEntries x es := by
  intro i hi hget hfirst
  have hage := h i hi hget hfirst
  rwa [insertionCount_eq hes, insertionCount_eq fun e he => hes e (List.mem_of_mem_take he)] at hage

/-- The answer counts the accesses since the last insertion of a line. -/
theorem answer_eq (hes : ∀ e ∈ es, ValidEvent e) (hx : x.1 ≠ ocfCoreIdInvalid) :
    answer p es x = some (promotes p (AgingCounters.run p.table.rbEntries empty es x)) := by
  obtain ⟨t, hrun, htracks, -⟩ := (tracks_init p.table).run hes
  obtain ⟨t', hstep, -⟩ := htracks.access hx
  unfold answer
  rw [hrun, Option.bind_some, hstep]
  rfl

theorem answer_of_kept (hes : ∀ e ∈ es, ValidEvent e) (hx : x.1 ≠ ocfCoreIdInvalid)
    (hkept : Kept p es x) : answer p es x = some (decide (p.insertionThreshold ≤ (hits x es + 1) % 2 ^ 32)) := by
  rw [answer_eq hes hx]
  obtain ⟨hnone, hzero⟩ | ⟨age, hsome⟩ := run_young (hkept.young hes)
  · have hge := p.insertionThreshold_ge
    have hnot : ¬p.insertionThreshold ≤ (0 + 1) % 2 ^ 32 := by omega
    rw [hnone, hzero, decide_eq_false hnot]
    rfl
  · rw [hsome]
    rfl

/-- The map of a request has cores. -/
def ValidMap (p : Policy) (req : Request) : Prop := ∀ x ∈ mapLines p req, x.1 ≠ ocfCoreIdInvalid

instance (p : Policy) (req : Request) : Decidable (ValidMap p req) :=
  inferInstanceAs (Decidable (∀ x ∈ mapLines p req, x.1 ≠ ocfCoreIdInvalid))

/-- A call with a valid map, and an occupancy that is not below the trigger. -/
def ProperOp (p : Policy) : Op → Prop
  | .shouldPromote numFree req => Triggered p numFree ∧ ValidMap p req
  | .purge req => ValidMap p req

/-- Accesses of a request. -/
def accesses (xs : List Line) : List (Event Line) := xs.map .access

/-- Events of a call. -/
def opEvents (p : Policy) : Op → List (Event Line)
  | .shouldPromote _ req => accesses (mapLines p req)
  | .purge req => (mapLines p req).map .purge

/-- The table after calls. -/
def runOps (p : Policy) (t : Table) (ops : List Op) : Option Table := ops.foldlM (applyOp p) t

theorem validEvent_opEvents {op : Op} (h : ProperOp p op) : ∀ e ∈ opEvents p op, ValidEvent e := by
  intro e he
  cases op with
  | shouldPromote numFree req =>
    obtain ⟨x, hx, rfl⟩ := List.mem_map.mp he
    exact h.2 x hx
  | purge req =>
    obtain ⟨x, hx, rfl⟩ := List.mem_map.mp he
    exact h x hx

theorem Tracks.promoteLoop (h : Tracks p.table t A) {xs : List Line} (hxs : ∀ x ∈ xs, x.1 ≠ ocfCoreIdInvalid)
    (result : Bool) : ∃ b t', promoteLoop p result t xs = some (b, t') ∧ runEvents p t (accesses xs) = some t' ∧
      (b = true ↔ result = true ∧ ∀ i (hi : i < xs.length),
        promotes p (AgingCounters.run p.table.rbEntries A (accesses (xs.take i)) xs[i]) = true) := by
  induction xs generalizing t A result with
  | nil => exact ⟨result, t, rfl, rfl, ⟨fun hb => ⟨hb, fun i hi => absurd hi (Nat.not_lt_zero i)⟩, And.left⟩⟩
  | cons x xs ih =>
    obtain ⟨t1, hstep, htracks, -⟩ := h.access (hxs x List.mem_cons_self)
    obtain ⟨b, t', hloop, hrun, hb⟩ := ih htracks (fun y hy => hxs y (List.mem_cons_of_mem x hy))
      (if promotes p (A x) = true then result else false)
    refine ⟨b, t', ?_, ?_, ?_⟩
    · rw [Nhit.promoteLoop, hstep, Option.bind_some]
      exact hloop
    · have hevent : applyEvent p t (.access x) = some t1 := by
        rw [applyEvent, hstep]
        rfl
      unfold runEvents at hrun ⊢
      rw [accesses, List.map_cons, List.foldlM_cons, hevent]
      exact hrun
    · have hsplit : (∀ i (hi : i < (x :: xs).length),
          promotes p (AgingCounters.run p.table.rbEntries A (accesses ((x :: xs).take i)) (x :: xs)[i]) = true) ↔
          promotes p (A x) = true ∧ ∀ i (hi : i < xs.length), promotes p
            (AgingCounters.run p.table.rbEntries (touch p.table.rbEntries A x) (accesses (xs.take i)) xs[i]) = true := by
        constructor
        · intro hall
          exact ⟨hall 0 (Nat.zero_lt_succ _), fun i hi => hall (i + 1) (Nat.succ_lt_succ hi)⟩
        · intro hboth i hi
          cases i with
          | zero => exact hboth.1
          | succ i => exact hboth.2 i (Nat.lt_of_succ_lt_succ hi)
      rw [hb, hsplit]
      cases promotes p (A x) with
      | true => simp
      | false => simp

theorem runOps_eq {ops : List Op} (hops : ∀ op ∈ ops, ProperOp p op) (h : Tracks p.table t A) :
    runOps p t ops = runEvents p t (ops.flatMap (opEvents p)) := by
  induction ops generalizing t A with
  | nil => rfl
  | cons op ops ih =>
    have hop := hops op List.mem_cons_self
    obtain ⟨t1, hrun, htracks, -⟩ := h.run (validEvent_opEvents hop)
    have hstep : applyOp p t op = some t1 := by
      cases op with
      | shouldPromote numFree req =>
        obtain ⟨b, t', hloop, hloopRun, -⟩ := h.promoteLoop hop.2 true
        obtain rfl : t1 = t' := Option.some.inj (hrun.symm.trans hloopRun)
        rw [applyOp, nhitReqShouldPromote, if_pos hop.1, hloop]
        rfl
      | purge req =>
        unfold runEvents opEvents at hrun
        rw [List.foldlM_map] at hrun
        exact hrun
    have hrest := ih (fun op' hop' => hops op' (List.mem_cons_of_mem op hop')) htracks
    have hcons : runOps p t (op :: ops) = runOps p t1 ops := by
      unfold runOps
      rw [List.foldlM_cons, hstep]
      rfl
    rw [List.flatMap_cons, runEvents_append, hrun, Option.bind_some, hcons, hrest]

/-- After any calls, a request counts all its core lines. A core line is answered
by the number of its accesses since it was first seen or last purged, while it is
kept, and an unmapped request is promoted when all its core lines are. -/
theorem nhitReqShouldPromote_counts {ops : List Op} (hops : ∀ op ∈ ops, ProperOp p op) {numFree : Nat} {req : Request}
    (htrigger : Triggered p numFree) (hmap : ValidMap p req) :
    ∃ t b t', runOps p (nhitHashInit p.table) ops = some t ∧ nhitReqShouldPromote p numFree t req = some (b, t') ∧
      runEvents p (nhitHashInit p.table) (ops.flatMap (opEvents p)) = some t ∧
      runEvents p (nhitHashInit p.table) (ops.flatMap (opEvents p) ++ accesses (mapLines p req)) = some t' ∧
      (∀ i (hi : i < (mapLines p req).length),
        Kept p (ops.flatMap (opEvents p) ++ accesses ((mapLines p req).take i)) (mapLines p req)[i] →
          answer p (ops.flatMap (opEvents p) ++ accesses ((mapLines p req).take i)) (mapLines p req)[i] =
            some (decide (p.insertionThreshold ≤ (hits (mapLines p req)[i]
              (ops.flatMap (opEvents p) ++ accesses ((mapLines p req).take i)) + 1) % 2 ^ 32))) ∧
      (ocfEngineMappedCount req = 0 → (b = true ↔ ∀ i (hi : i < (mapLines p req).length),
        answer p (ops.flatMap (opEvents p) ++ accesses ((mapLines p req).take i)) (mapLines p req)[i] = some true)) := by
  obtain ⟨es, hes⟩ : ∃ es, ops.flatMap (opEvents p) = es := ⟨_, rfl⟩
  obtain ⟨xs, hxs⟩ : ∃ xs, mapLines p req = xs := ⟨_, rfl⟩
  have hlines : ∀ x ∈ xs, x.1 ≠ ocfCoreIdInvalid := hxs ▸ hmap
  have hvalid : ∀ e ∈ es, ValidEvent e := by
    intro e he
    rw [← hes] at he
    obtain ⟨op, hop, hin⟩ := List.mem_flatMap.mp he
    exact validEvent_opEvents (hops op hop) e hin
  have hvalidTake : ∀ i, ∀ e ∈ es ++ accesses (xs.take i), ValidEvent e := by
    intro i e he
    cases List.mem_append.mp he with
    | inl he => exact hvalid e he
    | inr he =>
      obtain ⟨x, hx, rfl⟩ := List.mem_map.mp he
      exact hlines x (List.mem_of_mem_take hx)
  obtain ⟨t, hrun, htracks, -⟩ := (tracks_init p.table).run hvalid
  obtain ⟨b, t', hloop, hloopRun, hb⟩ := htracks.promoteLoop hlines true
  have hops' := runOps_eq hops (tracks_init p.table)
  rw [hes] at hops' ⊢
  rw [hxs]
  refine ⟨t, b || decide (ocfEngineMappedCount req ≠ 0), t', hops'.trans hrun, ?_, hrun, ?_, fun i hi hkept => ?_,
    fun hzero => ?_⟩
  · rw [nhitReqShouldPromote, if_pos htrigger, hxs, hloop]
    rfl
  · rw [runEvents_append, hrun, Option.bind_some]
    exact hloopRun
  · exact answer_of_kept (hvalidTake i) (hlines _ (List.getElem_mem hi)) hkept
  · have hanswer : ∀ i (hi : i < xs.length), answer p (es ++ accesses (xs.take i)) xs[i] = some true ↔
        promotes p (AgingCounters.run p.table.rbEntries (AgingCounters.run p.table.rbEntries empty es)
          (accesses (xs.take i)) xs[i]) = true := by
      intro i hi
      rw [answer_eq (hvalidTake i) (hlines _ (List.getElem_mem hi)), run_append, Option.some.injEq]
    have hnot : (b || decide (ocfEngineMappedCount req ≠ 0)) = b := by simp [hzero]
    rw [hnot, hb]
    constructor
    · intro hall i hi
      exact (hanswer i hi).mpr (hall.2 i hi)
    · intro hall
      exact ⟨rfl, fun i hi => (hanswer i hi).mp (hall i hi)⟩

theorem fourSlots_threshold : 2 ≤ 3 ∧ 3 ≤ 1000 := by decide

theorem fourSlots_rbEntries : 0 < 4 ∧ 4 < 2 ^ 32 := by decide

/-- Two cache lines, four slots, and three accesses to be promoted. -/
def fourSlots : Policy where
  g := ⟨8, eightBlocks_pos, 4, 2, 0⟩
  insertionThreshold := 3
  insertionThreshold_ge := fourSlots_threshold.1
  insertionThreshold_le := fourSlots_threshold.2
  triggerThreshold := 0
  triggerThreshold_le := Nat.zero_le 100
  table := ⟨4, fourSlots_rbEntries.1, fourSlots_rbEntries.2⟩
  rbEntries_eq := rfl

/-- A request for the first two core lines of a core, with no line mapped. -/
def twoLines : Request where
  coreId := 1
  addr := 0
  blocks := 16
  rw := .read
  partId := 0
  map i := ⟨0, 2, i, 1, .miss, false, false, false⟩
  info := .zero

/-- The second request for two core lines after a purge. -/
theorem nhitReqShouldPromote_counts_twoLines : ∃ t b t',
    runOps fourSlots (nhitHashInit fourSlots.table) [.shouldPromote 0 twoLines, .purge twoLines] = some t ∧
      nhitReqShouldPromote fourSlots 0 t twoLines = some (b, t') := by
  have hops : ∀ op ∈ [Op.shouldPromote 0 twoLines, .purge twoLines], ProperOp fourSlots op := by
    intro op hop
    simp only [List.mem_cons, List.not_mem_nil, or_false] at hop
    obtain rfl | rfl := hop
    · exact ⟨by decide, by decide⟩
    · exact (by decide : ValidMap fourSlots twoLines)
  have htrigger : Triggered fourSlots 0 := by decide
  have hmap : ValidMap fourSlots twoLines := by decide
  have hcounts := nhitReqShouldPromote_counts hops htrigger hmap
  obtain ⟨t, b, t', hrun, hstep, -⟩ := hcounts
  exact ⟨t, b, t', hrun, hstep⟩

/-- Two accesses to a core line with none between them. -/
def Successive (x : Line) (es : List (Event Line)) (i j : Nat) : Prop :=
  i < j ∧ es[i]? = some (.access x) ∧ es[j]? = some (.access x) ∧ ∀ k < j, i < k → es[k]? ≠ some (.access x)

instance (x : Line) (es : List (Event Line)) (i j : Nat) : Decidable (Successive x es i j) :=
  inferInstanceAs (Decidable (_ ∧ _ ∧ _ ∧ ∀ k < j, i < k → _))

/-- Fewer core lines than there are slots are inserted between two successive accesses
to a core line, the coming one included. -/
def Spaced (p : Policy) (es : List (Event Line)) (x : Line) : Prop :=
  ∀ i j, Successive x (es ++ [.access x]) i j →
    insertionCount p (es.take j) - insertionCount p (es.take (i + 1)) < p.table.rbEntries

theorem hits_replicate (x : Line) (n : Nat) : hits x (List.replicate n (.access x)) = n := by
  have hfrom : ∀ c, countFrom x c (List.replicate n (.access x)) = c + n := by
    induction n with
    | zero => exact fun c => rfl
    | succ n ih =>
      intro c
      have hstep : countStep x c (.access x) = c + 1 := if_pos rfl
      have hrest := ih (c + 1)
      unfold countFrom at hrest ⊢
      rw [List.replicate_succ, List.foldl_cons, hstep, hrest]
      omega
  exact (hfrom 0).trans (Nat.zero_add n)

theorem misses_replicate (cap : Nat) (A : Counters Line) (x : Line) (n : Nat) :
    misses cap A (List.replicate n (.access x)) ≤ if A x = none then 1 else 0 := by
  induction n generalizing A with
  | zero => exact Nat.zero_le _
  | succ n ih =>
    have hsome : apply cap A (.access x) x ≠ none := by
      by_cases hA : A x = none
      · simp [apply, touch, hA]
      · simp [apply, touch, hA]
    have hrest := ih (apply cap A (.access x))
    rw [if_neg hsome] at hrest
    exact Nat.add_le_add_left hrest _ |>.trans (Nat.le_of_eq (Nat.add_zero _))

/-- Between the accesses to a core line fewer others than there are slots are
inserted, but its slot has been given away; and after `2 ^ 32` accesses the counter
is zero again. -/
theorem accesses_not_counted :
    (¬∀ p es x, (∀ e ∈ es, ValidEvent e) → x.1 ≠ ocfCoreIdInvalid → Spaced p es x →
      answer p es x = some (decide (p.insertionThreshold ≤ hits x es + 1))) ∧
    ¬∀ p es x, (∀ e ∈ es, ValidEvent e) → x.1 ≠ ocfCoreIdInvalid → Kept p es x →
      answer p es x = some (decide (p.insertionThreshold ≤ hits x es + 1)) := by
  constructor
  · intro hall
    obtain ⟨es, hes⟩ : ∃ es : List (Event Line), es = [.access (1, 0), .access (1, 1), .access (1, 2), .access (1, 3),
      .access (1, 0), .access (1, 4)] := ⟨_, rfl⟩
    have hvalid : ∀ e ∈ es, ValidEvent e := by
      rw [hes]
      simp [ValidEvent, Event.key, ocfCoreIdInvalid]
    have hspaced : Spaced fourSlots es (1, 0) := by
      have habstract : ∀ j < (es ++ [Event.access (1, 0)]).length, ∀ i < j, Successive (1, 0) (es ++ [.access (1, 0)]) i j →
          misses 4 empty (es.take j) - misses 4 empty (es.take (i + 1)) < 4 := by
        rw [hes]
        decide
      intro i j hij
      obtain ⟨hj, -⟩ := List.getElem?_eq_some_iff.mp hij.2.2.1
      rw [insertionCount_eq fun e he => hvalid e (List.mem_of_mem_take he),
        insertionCount_eq fun e he => hvalid e (List.mem_of_mem_take he)]
      exact habstract j hj i hij.1 hij
    have hanswer : answer fourSlots es (1, 0) = some false := by
      rw [answer_eq hvalid (by decide), hes]
      decide
    have hclaim := hall fourSlots es (1, 0) hvalid (by decide) hspaced
    rw [hanswer, hes] at hclaim
    exact absurd hclaim (by decide)
  · intro hall
    obtain ⟨n, hn⟩ : ∃ n, n + 1 = 2 ^ 32 := ⟨2 ^ 32 - 1, rfl⟩
    obtain ⟨es, hes⟩ : ∃ es : List (Event Line), es = List.replicate n (.access (1, 0)) := ⟨_, rfl⟩
    have hvalid : ∀ e ∈ es, ValidEvent e := by
      intro e he
      rw [hes] at he
      rw [List.eq_of_mem_replicate he]
      exact (by decide : ((1, 0) : Line).1 ≠ ocfCoreIdInvalid)
    have hkept : Kept fourSlots es (1, 0) := by
      intro i _ _ _
      have hle : misses 4 empty es ≤ 1 := hes ▸ misses_replicate 4 empty (1, 0) n
      rw [insertionCount_eq hvalid]
      exact Nat.lt_of_le_of_lt (Nat.sub_le ..) (Nat.lt_of_le_of_lt hle (by decide))
    have hcount : hits (1, 0) es = n := hes ▸ hits_replicate (1, 0) n
    have hanswer := answer_of_kept hvalid (by decide) hkept
    have hclaim := hall fourSlots es (1, 0) hvalid (by decide) hkept
    rw [hanswer, hcount, hn] at hclaim
    exact absurd hclaim (by decide)

end OcfCache.Nhit
