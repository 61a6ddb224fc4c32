import OcfCache.SpaceFrame

/-!
# Occupancy along an assignment of lines

Every line handed to a request moves one unit of occupancy from the partition
it is taken from to the partition of the request, and nothing else in the
space management changes an occupancy. The module states this for both
eviction policies, follows the occupancies along the lines handed over by one
call, and says which of them were not taken from the partition in turn.
-/

namespace OcfCache.SpaceTrace

open Metadata Requests CacheLine Partitions Lru Lfu Space SpaceFrame
open Option (bind_eq_some_iff map_eq_some_iff)

/-- Partition of a source id; lines with the id of the free lists come from
the attached one. -/
def srcPart (id : Nat) : Part := if id = partitionFreelist then .free else .user id

/-- Occupancies after one line moved. -/
def sizesMoved (s : Part → Int) (src dst : Part) : Part → Int :=
  fun p => s p - (if p = src then 1 else 0) + if p = dst then 1 else 0

@[simp] theorem sizesMoved_self (s : Part → Int) (p : Part) : sizesMoved s p p = s := by
  funext q
  by_cases h : q = p <;> simp [sizesMoved, h]

/-- The step moved one line and left the configuration. -/
def Moved (x : Nat) (c c' : Cache) (src dst : Part) : Prop :=
  c'.currSize = sizesMoved c.currSize src dst ∧ c'.config = c.config ∧
    ∀ y ≠ x, c'.md.partitionId y = c.md.partitionId y

/-- The step left occupancies, configuration and partitions. -/
def Untouched (c c' : Cache) : Prop :=
  c'.currSize = c.currSize ∧ c'.config = c.config ∧ c'.md.partitionId = c.md.partitionId

theorem Untouched.refl (c : Cache) : Untouched c c := ⟨rfl, rfl, rfl⟩

variable {a b c : Cache}

theorem Untouched.trans (h : Untouched a b) (h' : Untouched b c) :
    Untouched a c := ⟨h'.1.trans h.1, h'.2.1.trans h.2.1, h'.2.2.trans h.2.2⟩

variable {c c' : Cache} {x : Nat}

theorem Untouched.moved (h : Untouched c c') (x : Nat) (p : Part) : Moved x c c' p p :=
  ⟨by rw [sizesMoved_self]; exact h.1, h.2.1, fun y _ => congrFun h.2.2 y⟩

variable {src dst : Part} {req : Request} {it it' : Iter} {found : Option Nat} {r : Result}

theorem Moved.after (h : Untouched a b) (h' : Moved x b c src dst) : Moved x a c src dst :=
  ⟨by rw [h'.1, h.1], h'.2.1.trans h.2.1, fun y hy => (h'.2.2 y hy).trans (congrFun h.2.2 y)⟩

theorem Moved.before (h : Moved x a b src dst) (h' : Untouched b c) : Moved x a c src dst :=
  ⟨h'.1.trans h.1, h'.2.1.trans h.2.1, fun y hy => (congrFun h'.2.2 y).trans (h.2.2 y hy)⟩

theorem moved_moveSize (c : Cache) (line : Nat) (src dst : Part) :
    Moved line c (c.moveSize line src dst) src dst := by
  refine ⟨?_, rfl, fun y hy => Function.update_of_ne hy _ _⟩
  funext p
  simp only [Cache.moveSize, Cache.addSize, ocfMetadataSetPartitionId, sizesMoved]
  by_cases hd : p = dst
  · subst hd
    by_cases hs : p = src
    · subst hs
      have hback : ∀ k : Int, k - 1 + 1 = k := fun k => by omega
      simp [hback]
    · simp [hs]
  · by_cases hs : p = src
    · subst hs
      simp [hd]
      omega
    · simp [hd, hs]

theorem untouched_lockLine (c : Cache) (x : Nat) : Untouched c (lockLine c x) := Untouched.refl c

section Lru

variable {g : Geometry} {c c' : Cache} {x : Nat}

theorem untouched_withList {key : ListKey}
    {op : LruList.Nodes → LruList.LruHead → Option (LruList.Nodes × LruList.LruHead)}
    (h : withList c key op = some c') : Untouched c c' := by
  simp only [withList, map_eq_some_iff] at h
  obtain ⟨r, -, rfl⟩ := h
  exact ⟨rfl, rfl, rfl⟩

theorem untouched_ocfLruMove {src dst : ListKey} (h : ocfLruMove c x src dst = some c') :
    Untouched c c' := by
  simp only [ocfLruMove, bind_eq_some_iff] at h
  obtain ⟨c1, h1, h2⟩ := h
  exact (untouched_withList h1).trans (untouched_withList h2)

theorem moved_ocfLruRepartLocked
    (h : ocfLruRepartLocked g c x src dst = some c') : Moved x c c' src dst := by
  simp only [ocfLruRepartLocked, map_eq_some_iff] at h
  obtain ⟨c1, h1, rfl⟩ := h
  exact Moved.after (untouched_ocfLruMove h1) (moved_moveSize c1 x src dst)

theorem moved_lruReqNextCline {d : Nat} (h : lruReqNextCline g c x (.user d) = some c') :
    Moved x c c' (.user (c.md.partitionId x)) (.user d) := by
  simp only [lruReqNextCline, map_eq_some_iff] at h
  obtain ⟨c1, h1, rfl⟩ := h
  refine Moved.before ?_ (untouched_lockLine c1 x)
  split at h1
  · exact moved_ocfLruRepartLocked h1
  · rename_i hd
    obtain ⟨key, -, h1⟩ := bind_eq_some_iff.mp h1
    have hd' : d = c.md.partitionId x := by simpa [Part.id] using hd
    rw [hd']
    exact (untouched_withList h1).moved _ _

theorem moved_lruIterEvictionNext {part : Part}
    (h : lruIterEvictionNext g c req part dst it = some (c', it', found)) :
    (found = none ∧ c' = c) ∨ ∃ x, found = some x ∧ Moved x c c' part dst := by
  rcases taken_cases h with ⟨-, rfl, rfl⟩ | ⟨y, c1, -, h1, rfl, rfl⟩
  · exact .inl ⟨rfl, rfl⟩
  · refine .inr ⟨y, rfl, Moved.before ?_ (untouched_lockLine c1 y)⟩
    split at h1
    · exact moved_ocfLruRepartLocked h1
    · rename_i hd
      have hd' : dst = part := not_not.mp hd
      rw [hd']
      exact (untouched_withList h1).moved _ _

theorem moved_lruIterFreeNext (h : lruIterFreeNext g c dst it = some (c', it', found)) :
    (found = none ∧ c' = c) ∨ ∃ x, found = some x ∧ Moved x c c' .free dst := by
  rcases taken_cases h with ⟨-, rfl, rfl⟩ | ⟨y, c1, -, h1, rfl, rfl⟩
  · exact .inl ⟨rfl, rfl⟩
  · exact .inr ⟨y, rfl, Moved.before (moved_ocfLruRepartLocked h1) (untouched_lockLine c1 y)⟩

end Lru

section Lfu

variable {g : Geometry} {c c' : Cache} {x : Nat}

theorem untouched_setLfuNode? (c : Cache) (x : Option Nat) (f : LfuMeta → LfuMeta) :
    Untouched c (setLfuNode? c x f) := by
  cases x <;> exact ⟨rfl, rfl, rfl⟩

theorem untouched_addToList (c : Cache) (key : LfuKey) (x : Nat) :
    Untouched c (addToList c key x) :=
  (show Untouched c (setLfuNode c x _) from ⟨rfl, rfl, rfl⟩).trans
    ((untouched_setLfuNode? _ (c.lfuLists key).head _).trans ⟨rfl, rfl, rfl⟩)

theorem untouched_removeFromList {key : LfuKey} (h : removeFromList c key x = some c') :
    Untouched c c' := by
  simp only [removeFromList, Option.ite_none_left_eq_some, Option.some.injEq] at h
  obtain ⟨-, rfl⟩ := h
  exact (untouched_setLfuNode? c _ _).trans ((untouched_setLfuNode? _ _ _).trans ⟨rfl, rfl, rfl⟩)

theorem untouched_ocfLfuAdd (g : Geometry) (c : Cache) (x : Nat) : Untouched c (ocfLfuAdd g c x) :=
  (show Untouched c (setLfuNode c x _) from ⟨rfl, rfl, rfl⟩).trans (untouched_addToList _ _ _)

theorem moved_ocfLfuRepartLocked (h : ocfLfuRepartLocked c x src dst = some c') :
    Moved x c c' src dst := by
  simp only [ocfLfuRepartLocked] at h
  split at h
  · cases h
  · obtain ⟨c1, h1, rfl⟩ := map_eq_some_iff.mp h
    exact Moved.after ((untouched_removeFromList h1).trans (untouched_addToList _ _ _))
      (moved_moveSize _ x src dst)

theorem moved_lfuRepartReset (h : lfuRepartReset g c x src dst = some c') :
    Moved x c c' src dst := by
  simp only [lfuRepartReset, bind_eq_some_iff, map_eq_some_iff] at h
  obtain ⟨c1, h1, c2, h2, rfl⟩ := h
  exact (moved_ocfLfuRepartLocked h1).before
    ((untouched_removeFromList h2).trans (untouched_ocfLfuAdd g c2 x))

theorem moved_lfuReqNextCline {d : Nat} (h : lfuReqNextCline g c x (.user d) = some c') :
    Moved x c c' (.user (c.md.partitionId x)) (.user d) := by
  simp only [lfuReqNextCline, map_eq_some_iff] at h
  obtain ⟨c1, h1, rfl⟩ := h
  refine Moved.before ?_ (untouched_lockLine c1 x)
  split at h1
  · exact moved_lfuRepartReset h1
  · rename_i hd
    obtain ⟨c2, h2, rfl⟩ := map_eq_some_iff.mp h1
    have hd' : d = c.md.partitionId x := by simpa [Part.id] using hd
    rw [hd']
    refine Untouched.moved ((untouched_removeFromList h2).trans ?_) _ _
    exact (show Untouched c2 (setLfuNode c2 x _) from ⟨rfl, rfl, rfl⟩).trans (untouched_addToList _ _ _)

theorem moved_lfuIterEvictionNext {part : Part}
    (h : lfuIterEvictionNext g c req part dst it = some (c', it', found)) :
    (found = none ∧ c' = c) ∨ ∃ x, found = some x ∧ Moved x c c' part dst := by
  rcases taken_cases h with ⟨-, rfl, rfl⟩ | ⟨y, c1, -, h1, rfl, rfl⟩
  · exact .inl ⟨rfl, rfl⟩
  · refine .inr ⟨y, rfl, Moved.before ?_ (untouched_lockLine c1 y)⟩
    split at h1
    · exact moved_lfuRepartReset h1
    · rename_i hd
      cases h1
      have hd' : dst = part := not_not.mp hd
      rw [hd']
      exact (Untouched.refl c).moved _ _

theorem moved_lfuIterFreeNext (h : lfuIterFreeNext g c dst it = some (c', it', found)) :
    (found = none ∧ c' = c) ∨ ∃ x, found = some x ∧ Moved x c c' .free dst := by
  rcases taken_cases h with ⟨-, rfl, rfl⟩ | ⟨y, c1, -, h1, rfl, rfl⟩
  · exact .inl ⟨rfl, rfl⟩
  · exact .inr ⟨y, rfl, Moved.before (moved_lfuRepartReset h1) (untouched_lockLine c1 y)⟩

end Lfu

/-- The line was taken from the partition in turn, or as the successor of the
line before it from a user partition. -/
def FromTurn (src : Part) (h : Handed) : Prop :=
  (h.successor = false ∧ h.src = src.id) ∨
    (h.successor = true ∧ src.id ≠ partitionFreelist ∧ h.src ≠ partitionFreelist)

variable {g : Geometry}

variable {c : Cache}

theorem moved_reqNextCline {x d : Nat} (h : reqNextCline g c it x (.user d) = some (c', it')) :
    Moved x c c' (.user (c.md.partitionId x)) (.user d) := by
  simp only [reqNextCline] at h
  split at h
  · obtain ⟨c1, h1, h2⟩ := map_eq_some_iff.mp h
    cases h2
    exact moved_lruReqNextCline h1
  · obtain ⟨c1, h1, h2⟩ := map_eq_some_iff.mp h
    cases h2
    exact moved_lfuReqNextCline h1

theorem moved_iterEvictionNext {part : Part}
    (h : iterEvictionNext g c req part dst it = some (c', it', some x)) :
    Moved x c c' part dst := by
  have hmoved : ∃ y, some x = some y ∧ Moved y c c' part dst := by
    simp only [iterEvictionNext] at h
    split at h
    · exact (moved_lruIterEvictionNext h).resolve_left (by simp)
    · exact (moved_lfuIterEvictionNext h).resolve_left (by simp)
  obtain ⟨y, hy, hmoved⟩ := hmoved
  cases hy
  exact hmoved

theorem moved_iterFreeNext (h : iterFreeNext g c dst it = some (c', it', some x)) :
    Moved x c c' .free dst := by
  have hmoved : ∃ y, some x = some y ∧ Moved y c c' .free dst := by
    simp only [iterFreeNext] at h
    split at h
    · exact (moved_lruIterFreeNext h).resolve_left (by simp)
    · exact (moved_lfuIterFreeNext h).resolve_left (by simp)
  obtain ⟨y, hy, hmoved⟩ := hmoved
  cases hy
  exact hmoved

/-- A user partition in turn is named by its id. -/
theorem srcPart_id (h : src.id ≠ partitionFreelist) : srcPart src.id = src := by
  cases src with
  | user id =>
    rw [srcPart, if_neg h]
    rfl
  | free => exact absurd rfl h
  | freeDetached => exact absurd rfl h

/-- The head of the loop moves the line that it finds. -/
theorem nextLine_spec {d : Nat} {cline : Option Nat} {t : Handed}
    (h : nextLine g c req src (.user d) it cline = some (c', it', some t)) :
    FromTurn src t ∧ Moved t.line c c' (srcPart t.src) (.user d) := by
  simp only [nextLine] at h
  split at h
  · rename_i hsrc
    split at h
    · rename_i x hx
      obtain ⟨r, h1, h2⟩ := map_eq_some_iff.mp h
      cases h2
      have hp := (takesSuccessor_spec (successor_spec hx).2.2).1
      refine ⟨.inr ⟨rfl, hsrc, hp⟩, ?_⟩
      simp only [srcPart, if_neg hp]
      exact moved_reqNextCline h1
    · obtain ⟨⟨c1, it1, f⟩, h1, h2⟩ := map_eq_some_iff.mp h
      simp only [Prod.mk.injEq] at h2
      obtain ⟨rfl, -, hf⟩ := h2
      obtain ⟨x, rfl, rfl⟩ := map_eq_some_iff.mp hf
      refine ⟨.inl ⟨rfl, rfl⟩, ?_⟩
      simp only [srcPart_id hsrc]
      exact moved_iterEvictionNext h1
  · rename_i hsrc
    obtain ⟨⟨c1, it1, f⟩, h1, h2⟩ := map_eq_some_iff.mp h
    simp only [Prod.mk.injEq] at h2
    obtain ⟨rfl, -, hf⟩ := h2
    obtain ⟨x, rfl, rfl⟩ := map_eq_some_iff.mp hf
    refine ⟨.inl ⟨rfl, rfl⟩, ?_⟩
    simp only [srcPart, if_pos (not_not.mp hsrc)]
    exact moved_iterFreeNext h1

/-- Occupancies along the lines handed to partition `dst`. -/
def Trace (dst : Part) : (Part → Int) → List Handed → (Part → Int) → Prop
  | s, [], s' => s' = s
  | s, h :: log, s' =>
    h.before.currSize = s ∧ Trace dst (sizesMoved s (srcPart h.src) dst) log s'

variable {log log' : List Handed}

theorem Trace.append {s s' s'' : Part → Int}
    (h : Trace dst s log s') (h' : Trace dst s' log' s'') : Trace dst s (log ++ log') s'' := by
  induction log generalizing s with
  | nil =>
    rw [h] at h'
    exact h'
  | cons t log ih => exact ⟨h.1, ih h.2⟩

variable {s s' : Part → Int}

/-- A line handed over in the middle of a trace. -/
theorem Trace.split {t : Handed} (h : Trace dst s (log ++ t :: log') s') :
    Trace dst s log t.before.currSize ∧
      Trace dst (sizesMoved t.before.currSize (srcPart t.src) dst) log' s' := by
  induction log generalizing s with
  | nil => exact ⟨h.1, h.1 ▸ h.2⟩
  | cons u log ih =>
    obtain ⟨h1, h2⟩ := ih h.2
    exact ⟨⟨h.1, h1⟩, h2⟩

/-- The occupancy of another partition never grows, and falls by at most one
with each line. -/
theorem Trace.bounds {p : Part} {log : List Handed}
    (h : Trace dst s log s') (hp : p ≠ dst) : s' p ≤ s p ∧ s p - log.length ≤ s' p := by
  induction log generalizing s with
  | nil =>
    rw [show s' = s from h]
    simp
  | cons t log ih =>
    obtain ⟨h1, h2⟩ := ih h.2
    simp only [sizesMoved, if_neg hp, List.length_cons] at h1 h2 ⊢
    split at h1 <;> split at h2 <;> omega

theorem Trace.dst_le {log : List Handed}
    (h : Trace dst s log s') : s' dst ≤ s dst + log.length := by
  induction log generalizing s with
  | nil =>
    rw [show s' = s from h]
    simp
  | cons t log ih =>
    have h1 := ih h.2
    simp only [sizesMoved, if_pos, List.length_cons] at h1 ⊢
    split at h1 <;> omega

/-- The configuration stayed, and lines that nobody holds are as they were. -/
structure Frame (c c' : Cache) : Prop where
  /-- Configuration of the partitions. -/
  config : c'.config = c.config
  /-- Hash bucket locks. -/
  hashLocked : c'.hashLocked = c.hashLocked
  /-- Waiters of the lines. -/
  waiters : c'.waiters = c.waiters
  /-- Dirty bits. -/
  dirty : c'.md.dirty = c.md.dirty
  /-- Lines. -/
  line : ∀ y, c'.lineLocked y = false → c.lineLocked y = false ∧
    c'.md.partitionId y = c.md.partitionId y ∧ c'.md.coreInfo y = c.md.coreInfo y

theorem Frame.refl (c : Cache) : Frame c c := ⟨rfl, rfl, rfl, rfl, fun _ h => ⟨h, rfl, rfl⟩⟩

theorem Frame.trans (h : Frame a b) (h' : Frame b c) : Frame a c where
  config := h'.config.trans h.config
  hashLocked := h'.hashLocked.trans h.hashLocked
  waiters := h'.waiters.trans h.waiters
  dirty := h'.dirty.trans h.dirty
  line y hy := by
    obtain ⟨hb, hpart', hcore'⟩ := h'.line y hy
    obtain ⟨ha, hpart, hcore⟩ := h.line y hb
    exact ⟨ha, hpart'.trans hpart, hcore'.trans hcore⟩

/-- Core, range and partition of the request stayed. -/
structure SameTarget (req req' : Request) : Prop where
  /-- Core. -/
  coreId : req'.coreId = req.coreId
  /-- First block. -/
  addr : req'.addr = req.addr
  /-- Number of blocks. -/
  blocks : req'.blocks = req.blocks
  /-- Partition. -/
  partId : req'.partId = req.partId

theorem SameTarget.trans {req req' req'' : Request} (h : SameTarget req req')
    (h' : SameTarget req' req'') : SameTarget req req'' :=
  ⟨h'.coreId.trans h.coreId, h'.addr.trans h.addr, h'.blocks.trans h.blocks,
    h'.partId.trans h.partId⟩

theorem takable_of_frame {req' : Request} (hf : Frame c c') (hs : SameTarget req req')
    (h : takable g c' req' x = true) : takable g c req x = true := by
  obtain ⟨hfree, -, hcore⟩ := hf.line x (takable_spec h).1
  simp only [takable, inRequestRange, Request.coreLineFirst, Request.coreLineLast,
    metadataTestDirty, hf.hashLocked, hf.dirty, hcore, hs.coreId, hs.addr, hs.blocks] at h ⊢
  simp only [Bool.and_eq_true, Bool.not_eq_true'] at h ⊢
  exact ⟨⟨⟨hfree, h.1.1.2⟩, h.1.2⟩, h.2⟩

/-- A line handed over, as the state before the search shows it. -/
structure Drawn (g : Geometry) (c : Cache) (req : Request) (t : Handed) : Prop where
  /-- Lines that nobody held until then were as before. -/
  frame : Frame c t.before
  /-- Nobody held this one. -/
  free : t.before.lineLocked t.line = false
  /-- It was clean. -/
  clean : metadataTestDirty g c.md t.line = false
  /-- In a user partition nothing protected it. -/
  takable : t.src ≠ partitionFreelist → takable g c req t.line = true
  /-- Taken in turn, it was not waited for either. -/
  waiters : t.successor = false → t.src ≠ partitionFreelist → c.waiters t.line = false
  /-- Taken as a successor, it was in a partition that allows eviction. -/
  behind : t.successor = true → t.line < g.collisionEntries ∧ t.src = c.md.partitionId t.line ∧
    t.src ≠ partitionFreelist ∧ (c.config t.src).eviction = true

/-- The lines handed over so far, after the line `first`, with what they leave
unchanged. -/
structure FollowsFrom (g : Geometry) (first : Option Nat) (c : Cache) (req : Request) (r : Result) :
    Prop where
  /-- Occupancies follow the handed lines. -/
  trace : Trace (.user req.partId) c.currSize r.2.2 r.1.currSize
  /-- The other lines stay. -/
  frame : Frame c r.1
  /-- The request keeps its target. -/
  target : SameTarget req r.2.1
  /-- The lines, in the state before. -/
  drawn : ∀ t ∈ r.2.2, Drawn g c req t
  /-- Successors come behind lines of user partitions. -/
  chained : ∀ t ∈ r.2.2, t.successor = true → ∃ x, x + 1 = t.line ∧
    (first = some x ∨ ∃ u ∈ r.2.2, u.line = x ∧ u.src ≠ partitionFreelist)

/-- The lines handed over by a whole search. -/
abbrev Follows (g : Geometry) (c : Cache) (req : Request) (r : Result) : Prop :=
  FollowsFrom g none c req r

variable {first : Option Nat}

theorem FollowsFrom.nil (g : Geometry) (first : Option Nat) (c : Cache) (req : Request) :
    FollowsFrom g first c req (c, req, []) :=
  ⟨rfl, Frame.refl c, ⟨rfl, rfl, rfl, rfl⟩, by simp, by simp⟩

theorem Drawn.of_frame {req' : Request} {t : Handed} (hf : Frame c c') (hs : SameTarget req req')
    (h : Drawn g c' req' t) : Drawn g c req t where
  frame := hf.trans h.frame
  free := h.free
  clean := by
    have hclean := h.clean
    simp only [metadataTestDirty, hf.dirty] at hclean ⊢
    exact hclean
  takable hsrc := takable_of_frame hf hs (h.takable hsrc)
  waiters hsucc hsrc := hf.waiters ▸ h.waiters hsucc hsrc
  behind hsucc := by
    obtain ⟨hlt, hpart, hsrc, hevict⟩ := h.behind hsucc
    have hsame := (hf.line t.line (h.frame.line t.line h.free).1).2.1
    exact ⟨hlt, hpart.trans hsame, hsrc, hf.config ▸ hevict⟩

theorem FollowsFrom.append {first' : Option Nat} {r' : Result} (h : FollowsFrom g first c req r)
    (h' : FollowsFrom g first' r.1 r.2.1 r')
    (hfirst : (∃ t ∈ r'.2.2, t.successor = true) → ∀ x, first' = some x →
      ∃ u ∈ r.2.2, u.line = x ∧ u.src ≠ partitionFreelist) :
    FollowsFrom g first c req (r'.1, r'.2.1, r.2.2 ++ r'.2.2) where
  trace := by
    have ht := h'.trace
    rw [h.target.partId] at ht
    exact h.trace.append ht
  frame := h.frame.trans h'.frame
  target := h.target.trans h'.target
  drawn t ht := by
    rcases List.mem_append.mp ht with ht | ht
    · exact h.drawn t ht
    · exact (h'.drawn t ht).of_frame h.frame h.target
  chained t ht hs := by
    rcases List.mem_append.mp ht with ht | ht
    · obtain ⟨x, hx, hprev | ⟨u, hu, hux⟩⟩ := h.chained t ht hs
      · exact ⟨x, hx, .inl hprev⟩
      · exact ⟨x, hx, .inr ⟨u, List.mem_append_left _ hu, hux⟩⟩
    · obtain ⟨x, hx, hprev | ⟨u, hu, hux⟩⟩ := h'.chained t ht hs
      · obtain ⟨u, hu, hux⟩ := hfirst ⟨t, ht, hs⟩ x hprev
        exact ⟨x, hx, .inr ⟨u, List.mem_append_left _ hu, hux⟩⟩
      · exact ⟨x, hx, .inr ⟨u, List.mem_append_right _ hu, hux⟩⟩

/-- After the line the shortcut may go on to the line behind it. -/
def leadsOn (g : Geometry) (c : Cache) (req : Request) (x : Nat) : Bool :=
  decide (x + 1 < g.collisionEntries) && takable g c req x && takable g c req (x + 1) &&
    c.md.partitionId (x + 1) != partitionFreelist && (c.config (c.md.partitionId (x + 1))).eviction

/-- A line taken as a successor lies behind another one that was taken. -/
theorem FollowsFrom.leadsOn {t : Handed} (h : Follows g c req r) (ht : t ∈ r.2.2)
    (hs : t.successor = true) : ∃ u ∈ r.2.2, u.line + 1 = t.line ∧ leadsOn g c req u.line = true ∧
      t.src = c.md.partitionId (u.line + 1) ∧ 1 < r.2.2.length := by
  obtain ⟨x, hx, hno | ⟨u, hu, rfl, hsrc⟩⟩ := h.chained t ht hs
  · cases hno
  · obtain ⟨hlt, hpart, huser, hevict⟩ := (h.drawn t ht).behind hs
    refine ⟨u, hu, hx, ?_, hx ▸ hpart, ?_⟩
    · rw [hpart] at huser hevict
      simp only [SpaceTrace.leadsOn, hx, Bool.and_eq_true, decide_eq_true_eq, bne_iff_ne]
      exact ⟨⟨⟨⟨hlt, (h.drawn u hu).takable hsrc⟩, (h.drawn t ht).takable (hpart ▸ huser)⟩, huser⟩, hevict⟩
    · have hpos := List.length_pos_of_mem ht
      by_contra hone
      obtain ⟨a, ha⟩ := List.length_eq_one_iff.mp (show r.2.2.length = 1 by omega)
      rw [ha, List.mem_singleton] at ht hu
      rw [ht, hu] at hx
      omega

/-- Counters and the index of the first list are no part of what is followed. -/
theorem FollowsFrom.of_counters {e : Nat → Int} {k : Nat}
    (h : FollowsFrom g first { c with evictCounter := e, lruIdx := k } req r) :
    FollowsFrom g first c req r := by
  have hf : Frame c { c with evictCounter := e, lruIdx := k } := ⟨rfl, rfl, rfl, rfl, fun _ h => ⟨h, rfl, rfl⟩⟩
  exact ⟨h.trace, hf.trans h.frame, h.target, fun t ht =>
    (h.drawn t ht).of_frame hf ⟨rfl, rfl, rfl, rfl⟩, h.chained⟩

theorem FollowsFrom.counters (h : FollowsFrom g first c req r) (e : Nat → Int) :
    FollowsFrom g first c req ({ r.1 with evictCounter := e }, r.2.1, r.2.2) :=
  ⟨h.trace, h.frame.trans ⟨rfl, rfl, rfl, rfl, fun _ hy => ⟨hy, rfl, rfl⟩⟩, h.target, h.drawn, h.chained⟩

theorem assignLine_spec {req' : Request} {src idx idx' : Nat}
    (h : assignLine g c req x src idx = some (c', req', idx')) :
    Untouched c c' ∧ Frame c c' ∧ SameTarget req req' ∧ metadataTestDirty g c.md x = false := by
  simp only [assignLine, Option.ite_none_left_eq_some, Option.some.injEq, Prod.mk.injEq] at h
  obtain ⟨hok, -, rfl, rfl, -⟩ := h
  rw [not_or, Bool.not_eq_false, Bool.not_eq_true] at hok
  refine ⟨?_, ⟨rfl, rfl, rfl, ?_, fun y hy => ?_⟩, ⟨rfl, rfl, rfl, rfl⟩, hok.2⟩
  · split <;> exact ⟨rfl, rfl, rfl⟩
  · split <;> rfl
  · have hne : y ≠ x := by
      rintro rfl
      rw [show c.lineLocked y = false from hy] at hok
      cases hok.1
    refine ⟨hy, ?_⟩
    split
    · refine ⟨rfl, (Function.update_of_ne hne _ _).trans (Function.update_of_ne hne _ _)⟩
    · exact ⟨rfl, Function.update_of_ne hne _ _⟩

/-- A round of the loop. -/
theorem FollowsFrom.one {t : Handed} {c1 : Cache} {req' : Request} {idx idx' : Nat}
    (htook : Took g req src first c c1 t) (hturn : FromTurn src t)
    (hmoved : Moved t.line c c1 (srcPart t.src) (.user req.partId))
    (hassign : assignLine g c1 req t.line t.src idx = some (c', req', idx')) :
    FollowsFrom g first c req (c', req', [t]) := by
  obtain ⟨huntouched, hframe, htarget, hclean⟩ := assignLine_spec hassign
  obtain ⟨c0, hlists, rfl⟩ := htook.lists
  have hmove : Frame c (lockLine c0 t.line) := by
    refine ⟨hmoved.2.1, by rw [hlists]; rfl, hlists.waiters, hlists.dirty, fun y hy => ?_⟩
    have hne : y ≠ t.line := by
      rintro rfl
      simp [lockLine] at hy
    have hfree : c0.lineLocked y = false := (Function.update_of_ne hne _ _).symm.trans hy
    rw [hlists.lineLocked] at hfree
    exact ⟨hfree, hmoved.2.2 y hne, congrFun hlists.coreInfo y⟩
  have hclean' : metadataTestDirty g c.md t.line = false := by
    simp only [metadataTestDirty, hmove.dirty] at hclean ⊢
    exact hclean
  refine ⟨⟨by rw [htook.before], (hmoved.before huntouched).1⟩, hmove.trans hframe, htarget, ?_, ?_⟩
  · intro u hu
    rw [List.mem_singleton.mp hu]
    rcases hturn with ⟨hs, hsrc⟩ | ⟨hs, -, hsrc⟩
    · refine ⟨?_, ?_, hclean', fun huser => ?_, fun _ huser => ?_, by simp [hs]⟩
      · rw [htook.before]
        exact Frame.refl c
      · rw [htook.before]
        exact htook.free
      · rw [hsrc] at huser
        have hlock := htook.turn hs huser
        simp only [evictionLock, Bool.and_eq_true] at hlock
        simp only [takable, Bool.and_eq_true, hclean']
        exact ⟨hlock.1, rfl⟩
      · rw [hsrc] at huser
        have hlock := htook.turn hs huser
        simp only [evictionLock, Bool.and_eq_true, Bool.not_eq_true'] at hlock
        exact hlock.2
    · obtain ⟨-, hpart, hsucc⟩ := htook.behind hs
      obtain ⟨-, hlt, htakes⟩ := successor_spec hsucc
      refine ⟨?_, ?_, hclean', fun _ => takable_of_takesSuccessor htakes, by simp [hs], fun _ => ?_⟩
      · rw [htook.before]
        exact Frame.refl c
      · rw [htook.before]
        exact htook.free
      · refine ⟨hlt, hpart, hsrc, ?_⟩
        rw [hpart]
        exact (takesSuccessor_spec htakes).2
  · intro u hu hs
    rw [List.mem_singleton.mp hu] at hs ⊢
    obtain ⟨y, hy, hyt⟩ := (successor_spec (htook.behind hs).2.2).1
    exact ⟨y, hyt, .inl hy⟩

/-- The loop of `ocf_lru_req_clines` and `ocf_lfu_req_clines`. -/
theorem reqClinesLoop_follows {cline : Option Nat} {dstMax n idx d : Nat} (hd : req.partId = d)
    (h : reqClinesLoop g src (.user d) dstMax n c req it cline idx = some r) :
    FollowsFrom g cline c req r ∧ (∀ t ∈ r.2.2, FromTurn src t) ∧ r.2.2.length ≤ n := by
  refine reqClinesLoop_rule (P := fun n c req _ cline r => req.partId = d →
    FollowsFrom g cline c req r ∧ (∀ t ∈ r.2.2, FromTurn src t) ∧ r.2.2.length ≤ n) ?_ ?_ h hd
  · intro n c req it cline _
    exact ⟨FollowsFrom.nil g cline c req, by simp, Nat.zero_le _⟩
  · intro n c req it cline c1 it1 t c2 req2 idx idx2 r hnext htook hassign ih hd
    obtain ⟨hturn, hmoved⟩ := nextLine_spec hnext
    rw [← hd] at hmoved
    have hone := FollowsFrom.one htook hturn hmoved hassign
    obtain ⟨hf, hturns, hlen⟩ := ih (hone.target.partId.trans hd)
    refine ⟨hone.append hf ?_, ?_, Nat.succ_le_succ hlen⟩
    · rintro ⟨u, hu, hs⟩ x hx
      refine ⟨t, List.mem_singleton_self t, Option.some.inj hx, ?_⟩
      rcases hturn with ⟨-, hsrc⟩ | ⟨-, -, hsrc⟩
      · rcases hturns u hu with ⟨hs', -⟩ | ⟨-, huser, -⟩
        · rw [hs] at hs'
          cases hs'
        · rw [hsrc]
          exact huser
      · exact hsrc
    · intro u hu
      rcases List.mem_cons.mp hu with hu | hu
      · rw [hu]
        exact hturn
      · exact hturns u hu

theorem ocfEvictionReqClines_follows {n : Nat} (h : ocfEvictionReqClines g c req src n = some r) :
    Follows g c req r ∧ (∀ t ∈ r.2.2, FromTurn src t) ∧ r.2.2.length ≤ n := by
  simp only [ocfEvictionReqClines] at h
  split at h
  · cases h
    exact ⟨FollowsFrom.nil g none c req, by simp, Nat.zero_le _⟩
  · split at h
    · cases h
    · obtain ⟨hf, ht, hlen⟩ := reqClinesLoop_follows rfl h
      exact ⟨hf.of_counters, ht, hlen⟩

/-- Within the quota of its turn a partition stays above a bound. -/
theorem above_of_quota {p n : Nat} {bound : Int}
    (h : Follows g c req r) (hlen : r.2.2.length ≤ n) (hp : p ≠ req.partId)
    (hn : n ≤ (c.currSize (.user p) - bound).toNat) :
    ∀ t ∈ r.2.2, bound < t.before.currSize (.user p) := by
  intro t ht
  obtain ⟨log, log', hsplit⟩ := List.append_of_mem ht
  have htrace := h.trace
  rw [hsplit] at htrace hlen
  have hne : Part.user p ≠ Part.user req.partId := fun heq => hp (Part.user.inj heq)
  have hb := (htrace.split.1.bounds hne).2
  rw [List.length_append, List.length_cons] at hlen
  omega

/-- What a pass over the partitions guarantees for a line taken in turn. -/
def InPass (g : Geometry) (overflownOnly : Bool) (maxPriority : Int) (own : Nat) (t : Handed) :
    Prop :=
  t.successor = false → t.src ≠ partitionFreelist →
    maxPriority ≤ (t.before.config t.src).priority ∧
    (overflownOnly = false → (t.before.config t.src).eviction = true) ∧
    (t.src ≠ own → (ocfUserPartGetMinSize g t.before t.src : Int) < t.before.currSize (.user t.src) ∧
      (overflownOnly = true →
        (ocfUserPartGetMaxSize g t.before t.src : Int) < t.before.currSize (.user t.src)))

/-- The turn of one partition, apart from its eviction counter. -/
theorem evictPartition_follows {overflownOnly : Bool} {p n : Nat} {counter counter' : Int}
    (h : evictPartition g overflownOnly c req p n counter = some (r, counter')) :
    Follows g c req r ∧ (∀ t ∈ r.2.2, FromTurn (.user p) t) ∧ r.2.2.length ≤ n := by
  simp only [evictPartition] at h
  split at h
  · obtain ⟨r', h1, h2⟩ := map_eq_some_iff.mp h
    cases h2
    exact ocfEvictionReqClines_follows h1
  · split at h
    · cases h
      exact ⟨FollowsFrom.nil g none c req, by simp, Nat.zero_le _⟩
    · obtain ⟨r', h1, h2⟩ := map_eq_some_iff.mp h
      obtain ⟨hf, ht, hlen⟩ := ocfEvictionReqClines_follows h1
      have hf' : Follows g c req r' := hf.of_counters
      split at h2
      · cases h2
        exact ⟨hf'.counters _, ht, hlen⟩
      · cases h2
        exact ⟨hf', ht, hlen⟩

theorem ocfEvictCalculate_le (c : Cache) (p n : Nat) : ocfEvictCalculate g c p n ≤ n ∧
      ocfEvictCalculate g c p n ≤ (c.currSize (.user p) - ocfUserPartGetMinSize g c p).toNat :=
  ⟨Nat.min_le_left _ _, Nat.min_le_right _ _⟩

theorem sizes_congr (h : c'.config = c.config) (p : Nat) :
    ocfUserPartGetMinSize g c' p = ocfUserPartGetMinSize g c p ∧
      ocfUserPartGetMaxSize g c' p = ocfUserPartGetMaxSize g c p := by
  simp [ocfUserPartGetMinSize, ocfUserPartGetMaxSize, h]

/-- One pass over the partitions follows the order of eviction. -/
theorem ocfEvictUserPartitionsOnce_follows {overflownOnly noMore noMore' : Bool}
    {maxPriority counter : Int} {evictClineNo evicted : Nat} {parts : List Nat}
    (h : ocfEvictUserPartitionsOnce g overflownOnly maxPriority evictClineNo parts c req evicted
      counter noMore = some (r, noMore')) : Follows g c req r ∧
      (∀ t ∈ r.2.2, InPass g overflownOnly maxPriority req.partId t) ∧
      r.2.2.length ≤ evictClineNo - evicted := by
  induction parts generalizing c req evicted counter noMore noMore' r with
  | nil =>
    cases h
    exact ⟨FollowsFrom.nil g none c req, by simp, Nat.zero_le _⟩
  | cons p ps ih =>
    simp only [ocfEvictUserPartitionsOnce] at h
    split at h
    · cases h
      exact ⟨FollowsFrom.nil g none c req, by simp, Nat.zero_le _⟩
    rename_i hprio
    split at h
    · cases h
      exact ⟨FollowsFrom.nil g none c req, by simp, Nat.zero_le _⟩
    rename_i hpinned
    split at h
    · exact ih h
    split at h
    · exact ih h
    obtain ⟨⟨r1, counter1⟩, hturn, h⟩ := bind_eq_some_iff.mp h
    obtain ⟨hf, ht, hlen⟩ := evictPartition_follows hturn
    generalize hq : (if overflownOnly = true then
        min (ocfEvictCalculate g c p (evictClineNo - evicted)) (ocfUserPartOverflowSize g c p)
      else ocfEvictCalculate g c p (evictClineNo - evicted)) = quota at hlen
    obtain ⟨hcalc, hmin⟩ := ocfEvictCalculate_le (g := g) c p (evictClineNo - evicted)
    have hquota : quota ≤ ocfEvictCalculate g c p (evictClineNo - evicted) := by
      rw [← hq]
      split
      · exact Nat.min_le_left _ _
      · exact Nat.le_refl _
    have hover : overflownOnly = true →
        quota ≤ (c.currSize (.user p) - ocfUserPartGetMaxSize g c p).toNat := by
      intro ho
      rw [← hq, if_pos ho]
      exact Nat.min_le_right _ _
    have hpass : ∀ t ∈ r1.2.2, InPass g overflownOnly maxPriority req.partId t := by
      intro t htm hs _
      have hsrc : t.src = p := by
        rcases ht t htm with ⟨-, hsrc⟩ | ⟨hs', -⟩
        · exact hsrc
        · rw [hs] at hs'
          cases hs'
      have hconf := (hf.drawn t htm).frame.config
      obtain ⟨hmineq, hmaxeq⟩ := sizes_congr (g := g) hconf p
      rw [hsrc, hconf, hmineq, hmaxeq]
      refine ⟨by omega, fun ho => by simpa [ho] using hpinned, fun hown => ⟨?_, fun ho => ?_⟩⟩
      · exact above_of_quota hf hlen hown (Nat.le_trans hquota hmin) t htm
      · exact above_of_quota hf hlen hown (hover ho) t htm
    simp only at h
    split at h
    · cases h
      exact ⟨hf, hpass, by omega⟩
    · obtain ⟨⟨r2, noMore2⟩, h2, hr⟩ := map_eq_some_iff.mp h
      obtain ⟨hf2, hall2, hlen2⟩ := ih h2
      cases hr
      refine ⟨hf.append hf2 (by simp), ?_, ?_⟩
      · intro t htm
        rcases List.mem_append.mp htm with htm | htm
        · exact hpass t htm
        · rw [hf.target.partId] at hall2
          exact hall2 t htm
      · have hsum : (r1.2.2 ++ r2.2.2).length = r1.2.2.length + r2.2.2.length :=
          List.length_append
        have hleft : r1.2.2.length ≤ evictClineNo - evicted :=
          Nat.le_trans hlen (Nat.le_trans hquota hcalc)
        simp only at hlen2 ⊢
        omega

theorem ocfEvictCountersUpdate_eq (g : Geometry) (c : Cache) (priority : Int) :
    ∃ e, ocfEvictCountersUpdate g c priority = { c with evictCounter := e } := by
  have hfold : ∀ (parts : List Nat) (f : Cache → Nat → Cache),
      (∀ e p, ∃ e', f { c with evictCounter := e } p = { c with evictCounter := e' }) →
      ∀ e, ∃ e', parts.foldl f { c with evictCounter := e } = { c with evictCounter := e' } := by
    intro parts f hf
    induction parts with
    | nil => exact fun e => ⟨e, rfl⟩
    | cons p ps ih =>
      intro e
      obtain ⟨e1, h1⟩ := hf e p
      rw [List.foldl_cons, h1]
      exact ih e1
  simp only [ocfEvictCountersUpdate]
  refine hfold _ _ (fun e p => ?_) c.evictCounter
  split
  · exact ⟨e, rfl⟩
  · exact ⟨_, rfl⟩

theorem ocfEvictUserPartitions_follows {overflownOnly : Bool} {maxPriority : Int} {tries : Nat} {evictClineNo : Nat}
    (h : ocfEvictUserPartitions g overflownOnly maxPriority tries c req evictClineNo = some r) :
    Follows g c req r ∧ (∀ t ∈ r.2.2, InPass g overflownOnly maxPriority req.partId t) ∧
      r.2.2.length ≤ evictClineNo := by
  induction tries generalizing c req evictClineNo r with
  | zero =>
    cases h
    exact ⟨FollowsFrom.nil g none c req, by simp, Nat.zero_le _⟩
  | succ tries ih =>
    obtain ⟨⟨r1, noMore⟩, honce, h⟩ := bind_eq_some_iff.mp h
    obtain ⟨hf, hall, hlen⟩ := ocfEvictUserPartitionsOnce_follows honce
    split at h
    · cases h
      exact ⟨hf, hall, hlen⟩
    · obtain ⟨r2, h2, hr⟩ := map_eq_some_iff.mp h
      obtain ⟨hf2, hall2, hlen2⟩ := ih h2
      cases hr
      have hcount : ∃ e, (if noMore then ocfEvictCountersUpdate g r1.1 maxPriority else r1.1) =
          { r1.1 with evictCounter := e } := by
        split
        · exact ocfEvictCountersUpdate_eq g r1.1 maxPriority
        · exact ⟨r1.1.evictCounter, rfl⟩
      obtain ⟨e, he⟩ := hcount
      rw [he] at hf2
      refine ⟨hf.append hf2.of_counters (by simp), ?_, ?_⟩
      · intro t htm
        rcases List.mem_append.mp htm with htm | htm
        · exact hall t htm
        · rw [hf.target.partId] at hall2
          exact hall2 t htm
      · rw [List.length_append]
        omega

/-- What a remapping from anywhere guarantees for a line not taken as a
successor. -/
def InRemap (g : Geometry) (own : Nat) (priority : Int) (t : Handed) : Prop :=
  t.successor = false → t.src ≠ partitionFreelist → t.src ≠ own →
    (ocfUserPartGetMinSize g t.before t.src : Int) < t.before.currSize (.user t.src) ∧
    ((ocfUserPartGetMaxSize g t.before t.src : Int) < t.before.currSize (.user t.src) ∨
      ((t.before.config t.src).eviction = true ∧ priority ≤ (t.before.config t.src).priority))

/-- All lines that `ocf_space_managment_remap_do` hands over. -/
theorem ocfRemapDo_follows (h : ocfRemapDo g c req = some r) :
    Follows g c req r ∧ (∀ t ∈ r.2.2, InRemap g req.partId (c.config req.partId).priority t) ∧
      r.2.2.length ≤ ocfEngineUnmappedCount g req := by
  obtain ⟨f, hfree, h⟩ := bind_eq_some_iff.mp h
  have hff : Follows g c req f ∧ (∀ t ∈ f.2.2, FromTurn .free t) ∧
      f.2.2.length ≤ ocfEngineUnmappedCount g req := by
    split at hfree
    · exact ocfEvictionReqClines_follows hfree
    · cases hfree
      exact ⟨FollowsFrom.nil g none c req, by simp, Nat.zero_le _⟩
  obtain ⟨hf, hturn, hlen⟩ := hff
  have hallf : ∀ t ∈ f.2.2, InRemap g req.partId (c.config req.partId).priority t := by
    intro t ht hs hp
    rcases hturn t ht with ⟨-, hsrc⟩ | ⟨-, hne, -⟩
    · exact absurd hsrc hp
    · exact absurd rfl hne
  simp only at h
  split at h
  · cases h
    exact ⟨hf, hallf, hlen⟩
  · obtain ⟨o, hover, h⟩ := bind_eq_some_iff.mp h
    obtain ⟨ho, hpasso, hleno⟩ := ocfEvictUserPartitions_follows hover
    have hfo := hf.append ho (by simp)
    have hallo : ∀ t ∈ f.2.2 ++ o.2.2, InRemap g req.partId (c.config req.partId).priority t := by
      intro t ht
      rcases List.mem_append.mp ht with ht | ht
      · exact hallf t ht
      · rw [hf.target.partId] at hpasso
        intro hs hp hown
        obtain ⟨-, -, hsize⟩ := hpasso t ht hs hp
        obtain ⟨hmin, hmax⟩ := hsize hown
        exact ⟨hmin, .inl (hmax rfl)⟩
    split at h
    · cases h
      exact ⟨hfo, hallo, by rw [List.length_append]; omega⟩
    · obtain ⟨e, hevict, hr⟩ := map_eq_some_iff.mp h
      obtain ⟨he, hpasse, hlene⟩ := ocfEvictUserPartitions_follows hevict
      cases hr
      refine ⟨hfo.append he (by simp), ?_, ?_⟩
      · intro t ht
        rcases List.mem_append.mp ht with ht | ht
        · exact hallo t ht
        · rw [hfo.target.partId] at hpasse
          intro hs hp hown
          obtain ⟨hprio, hev, hsize⟩ := hpasse t ht hs hp
          rw [hfo.frame.config] at hprio
          exact ⟨(hsize hown).1, .inr ⟨hev rfl, hprio⟩⟩
      · simp only [List.length_append] at hlene ⊢
        omega

/-- Eviction from the partition of the request only. -/
theorem ocfEvictPartDo_follows (h : ocfEvictPartDo g c req req.partId = some r) :
    Follows g c req r ∧ (∀ t ∈ r.2.2, FromTurn (.user req.partId) t) ∧
      r.2.2.length ≤ ocfEngineUnmappedCount g req := by
  simp only [ocfEvictPartDo] at h
  split at h
  · cases h
    exact ⟨FollowsFrom.nil g none c req, by simp, Nat.zero_le _⟩
  · obtain ⟨hf, ht, hlen⟩ := ocfEvictionReqClines_follows h
    exact ⟨hf, ht, Nat.le_trans hlen (ocfEvictCalculate_le (g := g) c req.partId _).1⟩

theorem ocfSpaceManagmentRemapDo_follows {partEvict : Bool}
    (h : ocfSpaceManagmentRemapDo g c req partEvict = some r) :
    Follows g c req r ∧ (∀ t ∈ r.2.2, InRemap g req.partId (c.config req.partId).priority t) ∧
      r.2.2.length ≤ ocfEngineUnmappedCount g req := by
  simp only [ocfSpaceManagmentRemapDo] at h
  split at h
  · obtain ⟨hf, ht, hlen⟩ := ocfEvictPartDo_follows h
    refine ⟨hf, fun t htm hs _ hown => ?_, hlen⟩
    rcases ht t htm with ⟨-, hsrc⟩ | ⟨hs', -⟩
    · exact absurd hsrc hown
    · rw [hs] at hs'
      cases hs'
  · exact ocfRemapDo_follows h

end OcfCache.SpaceTrace
