import OcfCache.Space

/-!
# What the search for lines leaves alone

Moving a line between lists changes the lists, the occupancies and the
partitions of lines, and nothing else. The search for a line on behalf of a
request moves the line that it finds and takes its lock, after it saw that the
lock is free and, in a user partition, that nothing else protects the line. A
rule for the loop over such searches follows what it does round by round.
-/

namespace OcfCache.SpaceFrame

open Metadata Requests CacheLine Partitions Lru Lfu Space
open Option (map_eq_some_iff)

/-- Only the lists, the occupancies and the partitions of lines changed. -/
def ListsOnly (c c' : Cache) : Prop :=
  c' = { c with
    md := { c.md with partitionId := c'.md.partitionId }
    currSize := c'.currSize
    lruNodes := c'.lruNodes
    lruLists := c'.lruLists
    lfuNodes := c'.lfuNodes
    lfuLists := c'.lfuLists }

theorem ListsOnly.refl (c : Cache) : ListsOnly c c := rfl

theorem ListsOnly.trans {a b c : Cache} (h : ListsOnly a b) (h' : ListsOnly b c) :
    ListsOnly a c := by
  rw [ListsOnly] at h h' ⊢
  rw [h', h]

theorem ListsOnly.coreInfo {c c' : Cache} (h : ListsOnly c c') :
    c'.md.coreInfo = c.md.coreInfo := by
  rw [h]

theorem ListsOnly.valid {c c' : Cache} (h : ListsOnly c c') : c'.md.valid = c.md.valid := by
  rw [h]

theorem ListsOnly.dirty {c c' : Cache} (h : ListsOnly c c') : c'.md.dirty = c.md.dirty := by
  rw [h]

theorem ListsOnly.lineLocked {c c' : Cache} (h : ListsOnly c c') :
    c'.lineLocked = c.lineLocked := by
  rw [h]

theorem ListsOnly.waiters {c c' : Cache} (h : ListsOnly c c') : c'.waiters = c.waiters := by
  rw [h]

variable {src dst : Part} {req : Request}

section Lru

variable {g : Geometry} {c c' : Cache} {x : Nat}

theorem listsOnly_withList {key : ListKey}
    {op : LruList.Nodes → LruList.LruHead → Option (LruList.Nodes × LruList.LruHead)}
    (h : withList c key op = some c') : ListsOnly c c' := by
  simp only [withList, map_eq_some_iff] at h
  obtain ⟨r, -, rfl⟩ := h
  rfl

theorem listsOnly_ocfLruMove {src dst : ListKey} (h : ocfLruMove c x src dst = some c') :
    ListsOnly c c' := by
  simp only [ocfLruMove, Option.bind_eq_some_iff] at h
  obtain ⟨c1, h1, h2⟩ := h
  exact (listsOnly_withList h1).trans (listsOnly_withList h2)

theorem listsOnly_moveSize (c : Cache) (x : Nat) (src dst : Part) :
    ListsOnly c (c.moveSize x src dst) := rfl

theorem listsOnly_ocfLruRepartLocked
    (h : ocfLruRepartLocked g c x src dst = some c') : ListsOnly c c' := by
  simp only [ocfLruRepartLocked, map_eq_some_iff] at h
  obtain ⟨c1, h1, rfl⟩ := h
  exact (listsOnly_ocfLruMove h1).trans (listsOnly_moveSize c1 x src dst)

theorem listsOnly_ocfLruHotCline (h : ocfLruHotCline g c x = some c') : ListsOnly c c' := by
  simp only [ocfLruHotCline] at h
  split at h
  · cases h
    exact ListsOnly.refl c
  · split at h
    · cases h
    · split at h
      · cases h
      · exact listsOnly_withList h

theorem listsOnly_lruReqNextCline (h : lruReqNextCline g c x dst = some c') :
    ∃ c1, ListsOnly c c1 ∧ c' = lockLine c1 x := by
  simp only [lruReqNextCline, map_eq_some_iff] at h
  obtain ⟨c1, h1, rfl⟩ := h
  refine ⟨c1, ?_, rfl⟩
  split at h1
  · exact listsOnly_ocfLruRepartLocked h1
  · obtain ⟨key, -, h1⟩ := Option.bind_eq_some_iff.mp h1
    exact listsOnly_withList h1

theorem lruIterNext_lock {part : Part} {lock : Nat → Bool} {fuel : Nat} {it it' : Iter}
    (h : lruIterNext c part lock fuel it = (some x, it')) : lock x = true := by
  induction fuel generalizing it with
  | zero => cases h
  | succ fuel ih =>
    simp only [lruIterNext] at h
    split at h
    · rename_i y hscan
      cases h
      exact (scanTail_spec (fun _ => True) (fun _ _ => trivial) (fun _ _ _ _ => trivial) hscan).2
    · split at h
      · cases h
      · exact ih h

end Lru

section Lfu

variable {g : Geometry} {c c' : Cache} {x : Nat}

theorem listsOnly_setLfuNode? (c : Cache) (x : Option Nat) (f : LfuMeta → LfuMeta) :
    ListsOnly c (setLfuNode? c x f) := by
  cases x <;> rfl

theorem listsOnly_addToList (c : Cache) (key : LfuKey) (x : Nat) :
    ListsOnly c (addToList c key x) := by
  have hnode : ListsOnly c (setLfuNode c x fun m =>
      { m with prev := none, next := (c.lfuLists key).head }) := rfl
  exact (hnode.trans (listsOnly_setLfuNode? _ _ _)).trans rfl

theorem listsOnly_removeFromList {key : LfuKey} (h : removeFromList c key x = some c') :
    ListsOnly c c' := by
  simp only [removeFromList, Option.ite_none_left_eq_some, Option.some.injEq] at h
  obtain ⟨-, rfl⟩ := h
  exact (listsOnly_setLfuNode? c _ _).trans ((listsOnly_setLfuNode? _ _ _).trans rfl)

theorem listsOnly_ocfLfuRepartLocked
    (h : ocfLfuRepartLocked c x src dst = some c') : ListsOnly c c' := by
  simp only [ocfLfuRepartLocked] at h
  split at h
  · cases h
  · obtain ⟨c1, h1, rfl⟩ := map_eq_some_iff.mp h
    exact ((listsOnly_removeFromList h1).trans (listsOnly_addToList _ _ _)).trans
      (listsOnly_moveSize _ x src dst)

theorem listsOnly_ocfLfuRepart (h : ocfLfuRepart c x src dst = some c') : ListsOnly c c' := by
  simp only [ocfLfuRepart] at h
  split at h
  · cases h
  · exact listsOnly_ocfLfuRepartLocked h

theorem listsOnly_ocfLfuAdd (g : Geometry) (c : Cache) (x : Nat) :
    ListsOnly c (ocfLfuAdd g c x) := by
  have hnode : ListsOnly c (setLfuNode c x fun m =>
      { m with hits := 1, freq := 0, clean := !metadataTestDirty g c.md x }) := rfl
  exact hnode.trans (listsOnly_addToList _ _ _)

theorem listsOnly_lfuRepartReset (h : lfuRepartReset g c x src dst = some c') : ListsOnly c c' := by
  simp only [lfuRepartReset, Option.bind_eq_some_iff, map_eq_some_iff] at h
  obtain ⟨c1, h1, c2, h2, rfl⟩ := h
  exact ((listsOnly_ocfLfuRepartLocked h1).trans (listsOnly_removeFromList h2)).trans
    (listsOnly_ocfLfuAdd g c2 x)

theorem listsOnly_ocfLfuIncrement (h : ocfLfuIncrement c x = some c') : ListsOnly c c' := by
  simp only [ocfLfuIncrement] at h
  split at h
  · cases h
    rfl
  · obtain ⟨c1, h1, rfl⟩ := map_eq_some_iff.mp h
    have hnode : ∀ f, ListsOnly c1 (setLfuNode c1 x f) := fun f => rfl
    exact ((listsOnly_removeFromList h1).trans (hnode _)).trans (listsOnly_addToList _ _ _)

theorem listsOnly_lfuMoveCline {clean : Bool} (h : lfuMoveCline c x clean = some c') :
    ListsOnly c c' := by
  obtain ⟨c1, h1, rfl⟩ := map_eq_some_iff.mp h
  have hnode : ∀ f, ListsOnly c1 (setLfuNode c1 x f) := fun f => rfl
  exact ((listsOnly_removeFromList h1).trans (hnode _)).trans (listsOnly_addToList _ _ _)

theorem listsOnly_lfuReqNextCline (h : lfuReqNextCline g c x dst = some c') :
    ∃ c1, ListsOnly c c1 ∧ c' = lockLine c1 x := by
  simp only [lfuReqNextCline, map_eq_some_iff] at h
  obtain ⟨c1, h1, rfl⟩ := h
  refine ⟨c1, ?_, rfl⟩
  split at h1
  · exact listsOnly_lfuRepartReset h1
  · obtain ⟨c2, h2, rfl⟩ := map_eq_some_iff.mp h1
    have hnode : ∀ f, ListsOnly c2 (setLfuNode c2 x f) := fun f => rfl
    exact ((listsOnly_removeFromList h2).trans (hnode _)).trans (listsOnly_addToList _ _ _)

theorem lfuIterNext_lock {part : Part} {lock : Nat → Bool} {fuel : Nat} {it it' : Iter}
    {found : Option Nat} (h : lfuIterNext c part lock fuel it = (found, it')) :
    (∀ x, found = some x → lock x = true) ∧ it'.lruIdx = it.lruIdx := by
  induction fuel generalizing it with
  | zero =>
    cases h
    exact ⟨nofun, rfl⟩
  | succ fuel ih =>
    simp only [lfuIterNext] at h
    split at h
    · rename_i y hfind
      cases h
      refine ⟨fun x hx => ?_, rfl⟩
      cases hx
      obtain ⟨f, -, hscan⟩ := List.exists_of_findSome?_eq_some hfind
      exact (scanTail_spec (fun _ => True) (fun _ _ => trivial) (fun _ _ _ _ => trivial) hscan).2
    · have hrest := ih h
      exact hrest

end Lfu

/-- What the search for a line after `cline` did, if it found one: it moved and
locked the line. -/
structure Took (g : Geometry) (req : Request) (src : Part) (cline : Option Nat) (c c' : Cache)
    (t : Handed) : Prop where
  /-- State in which the line was chosen. -/
  before : t.before = c
  /-- Besides the lock only lists changed. -/
  lists : ∃ c1, ListsOnly c c1 ∧ c' = lockLine c1 t.line
  /-- Nobody held the line. -/
  free : c.lineLocked t.line = false
  /-- The regular path through a user partition locked the line. -/
  turn : t.successor = false → src.id ≠ partitionFreelist → evictionLock g c req t.line = true
  /-- The successor passed the checks of the shortcut. -/
  behind : t.successor = true → src.id ≠ partitionFreelist ∧ t.src = c.md.partitionId t.line ∧
    successor g c req cline = some t.line

variable {g : Geometry} {c c' : Cache} {it it' : Iter} {cline : Option Nat}

theorem successor_spec {x : Nat} (h : successor g c req cline = some x) :
    (∃ y, cline = some y ∧ y + 1 = x) ∧ x < g.collisionEntries ∧ takesSuccessor g c req x = true := by
  cases cline with
  | none => cases h
  | some y =>
    simp only [successor, Option.ite_none_right_eq_some, Option.some.injEq] at h
    obtain ⟨⟨hlt, ht⟩, rfl⟩ := h
    exact ⟨⟨y, rfl, rfl⟩, by omega, ht⟩

theorem takesSuccessor_spec {x : Nat} (h : takesSuccessor g c req x = true) :
    c.md.partitionId x ≠ partitionFreelist ∧ (c.config (c.md.partitionId x)).eviction = true := by
  simp only [takesSuccessor] at h
  split at h
  · simp only [lruTakesSuccessor, Bool.and_eq_true, bne_iff_ne] at h
    exact ⟨h.1.1.1.1.1.1, h.1.1.1.1.1.2⟩
  · simp only [lfuTakesSuccessor, Bool.and_eq_true, bne_iff_ne] at h
    exact ⟨h.1.1.1.1.1.1.1, h.1.1.1.1.1.1.2⟩

/-- Nothing protects the line from the request. -/
def takable (g : Geometry) (c : Cache) (req : Request) (x : Nat) : Bool :=
  !c.lineLocked x && !inRequestRange g c req x &&
    !c.hashLocked (c.md.coreInfo x).1 (c.md.coreInfo x).2 && !metadataTestDirty g c.md x

theorem takable_of_takesSuccessor {x : Nat} (h : takesSuccessor g c req x = true) :
    takable g c req x = true := by
  simp only [takesSuccessor] at h
  split at h
  · simp only [lruTakesSuccessor, Bool.and_eq_true] at h
    simp only [takable, Bool.and_eq_true]
    exact ⟨⟨⟨h.1.1.1.1.2, h.1.1.1.2⟩, h.2⟩, h.1.2⟩
  · simp only [lfuTakesSuccessor, Bool.and_eq_true] at h
    simp only [takable, Bool.and_eq_true]
    exact ⟨⟨⟨h.1.1.1.1.1.2, h.1.1.1.1.2⟩, h.2⟩, h.1.1.1.2⟩

theorem takable_spec {x : Nat} (h : takable g c req x = true) :
    c.lineLocked x = false ∧ metadataTestDirty g c.md x = false := by
  simp only [takable, Bool.and_eq_true, Bool.not_eq_true'] at h
  exact ⟨h.1.1.1, h.2⟩

theorem evictionLock_unlocked {x : Nat} (h : evictionLock g c req x = true) :
    c.lineLocked x = false := by
  simp only [evictionLock, Bool.and_eq_true, Bool.not_eq_true'] at h
  exact h.1.1.1

/-- `lru_iter_eviction_next` and `lfu_iter_eviction_next`. -/
theorem iterEvictionNext_frame {part : Part} {found : Option Nat}
    (h : iterEvictionNext g c req part dst it = some (c', it', found)) :
    (found = none ∧ c' = c) ∨ ∃ x c1, found = some x ∧ ListsOnly c c1 ∧ c' = lockLine c1 x ∧
      evictionLock g c req x = true := by
  simp only [iterEvictionNext] at h
  split at h
  · rcases taken_cases h with ⟨-, rfl, rfl⟩ | ⟨y, c1, hnext, h1, rfl, rfl⟩
    · exact .inl ⟨rfl, rfl⟩
    · refine .inr ⟨y, c1, rfl, ?_, rfl, lruIterNext_lock hnext⟩
      split at h1
      · exact listsOnly_ocfLruRepartLocked h1
      · exact listsOnly_withList h1
  · rcases taken_cases h with ⟨-, rfl, rfl⟩ | ⟨y, c1, hnext, h1, rfl, rfl⟩
    · exact .inl ⟨rfl, rfl⟩
    · refine .inr ⟨y, c1, rfl, ?_, rfl, (lfuIterNext_lock hnext).1 y rfl⟩
      split at h1
      · exact listsOnly_lfuRepartReset h1
      · cases h1
        exact ListsOnly.refl c

/-- `lru_iter_free_next` and `lfu_iter_free_next`. -/
theorem iterFreeNext_frame {found : Option Nat}
    (h : iterFreeNext g c dst it = some (c', it', found)) :
    (found = none ∧ c' = c) ∨ ∃ x c1, found = some x ∧ ListsOnly c c1 ∧ c' = lockLine c1 x ∧
      c.lineLocked x = false := by
  simp only [iterFreeNext] at h
  split at h
  · rcases taken_cases h with ⟨-, rfl, rfl⟩ | ⟨y, c1, hnext, h1, rfl, rfl⟩
    · exact .inl ⟨rfl, rfl⟩
    · have hlock := lruIterNext_lock hnext
      rw [Bool.not_eq_true'] at hlock
      exact .inr ⟨y, c1, rfl, listsOnly_ocfLruRepartLocked h1, rfl, hlock⟩
  · rcases taken_cases h with ⟨-, rfl, rfl⟩ | ⟨y, c1, hnext, h1, rfl, rfl⟩
    · exact .inl ⟨rfl, rfl⟩
    · have hlock := (lfuIterNext_lock hnext).1 y rfl
      rw [Bool.not_eq_true'] at hlock
      exact .inr ⟨y, c1, rfl, listsOnly_lfuRepartReset h1, rfl, hlock⟩

/-- `lru_req_next_cline` and `lfu_req_next_cline`. -/
theorem reqNextCline_frame {x : Nat} (h : reqNextCline g c it x dst = some (c', it')) :
    ∃ c1, ListsOnly c c1 ∧ c' = lockLine c1 x := by
  simp only [reqNextCline] at h
  split at h
  · obtain ⟨c1, h1, h2⟩ := map_eq_some_iff.mp h
    cases h2
    exact listsOnly_lruReqNextCline h1
  · obtain ⟨c1, h1, h2⟩ := map_eq_some_iff.mp h
    cases h2
    exact listsOnly_lfuReqNextCline h1

theorem nextLine_took {found : Option Handed}
    (h : nextLine g c req src dst it cline = some (c', it', found)) :
    (found = none ∧ c' = c) ∨ ∃ t, found = some t ∧ Took g req src cline c c' t := by
  simp only [nextLine] at h
  split at h
  · rename_i hsrc
    split at h
    · rename_i x hsucc
      obtain ⟨⟨c1, it1⟩, h1, h2⟩ := map_eq_some_iff.mp h
      cases h2
      have htakes := takable_of_takesSuccessor (successor_spec hsucc).2.2
      exact .inr ⟨_, rfl, rfl, reqNextCline_frame h1, (takable_spec htakes).1, (by simp),
        fun _ => ⟨hsrc, rfl, hsucc⟩⟩
    · obtain ⟨⟨c1, it1, f⟩, h1, h2⟩ := map_eq_some_iff.mp h
      cases h2
      rcases iterEvictionNext_frame h1 with ⟨rfl, rfl⟩ | ⟨x, c2, rfl, hlists, rfl, hlock⟩
      · exact .inl ⟨rfl, rfl⟩
      · exact .inr ⟨_, rfl, rfl, ⟨c2, hlists, rfl⟩, evictionLock_unlocked hlock,
          fun _ _ => hlock, (by simp)⟩
  · rename_i hsrc
    obtain ⟨⟨c1, it1, f⟩, h1, h2⟩ := map_eq_some_iff.mp h
    cases h2
    rcases iterFreeNext_frame h1 with ⟨rfl, rfl⟩ | ⟨x, c2, rfl, hlists, rfl, hlock⟩
    · exact .inl ⟨rfl, rfl⟩
    · exact .inr ⟨_, rfl, rfl, ⟨c2, hlists, rfl⟩, hlock, fun _ hne => absurd hne hsrc, (by simp)⟩

/-- Rule for the loop of `ocf_lru_req_clines` and `ocf_lfu_req_clines`: what
holds where it stops, and is kept by a round before it, holds of all it did. -/
theorem reqClinesLoop_rule {dstMax : Nat}
    {P : Nat → Cache → Request → Iter → Option Nat → Result → Prop}
    (hstop : ∀ n c req it cline, P n c req it cline (c, req, []))
    (hround : ∀ n c req it cline c1 it1 t c2 req2 idx idx2 r,
      nextLine g c req src dst it cline = some (c1, it1, some t) →
      Took g req src cline c c1 t → assignLine g c1 req t.line t.src idx = some (c2, req2, idx2) →
      P n c2 req2 it1 (some t.line) r → P (n + 1) c req it cline (r.1, r.2.1, t :: r.2.2))
    {n idx : Nat} {r : Result} (h : reqClinesLoop g src dst dstMax n c req it cline idx = some r) :
    P n c req it cline r := by
  induction n generalizing c req it cline idx r with
  | zero =>
    cases h
    exact hstop _ _ _ _ _
  | succ n ih =>
    simp only [reqClinesLoop, Option.bind_eq_some_iff] at h
    obtain ⟨⟨c1, it1, found⟩, hnext, h⟩ := h
    rcases nextLine_took hnext with ⟨rfl, rfl⟩ | ⟨t, rfl, htook⟩
    · cases h
      exact hstop _ _ _ _ _
    · simp only [Option.bind_eq_some_iff] at h
      obtain ⟨⟨c2, req2, idx2⟩, hassign, h⟩ := h
      simp only at h
      split at h
      · cases h
        exact hround n _ _ _ _ _ _ t _ _ _ _ (c2, req2, []) hnext htook hassign (hstop _ _ _ _ _)
      · split at h
        · cases h
        · obtain ⟨r', hrest, hr⟩ := map_eq_some_iff.mp h
          cases hr
          exact hround n _ _ _ _ _ _ t _ _ _ _ r' hnext htook hassign (ih hrest)

end OcfCache.SpaceFrame
