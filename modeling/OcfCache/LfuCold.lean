import OcfCache.DetachRange

/-!
# Hits of newly inserted lines

A line that a request gets from the free list or from another partition starts
again with one hit in the lowest bucket. One that the request's own partition
gives up keeps its hits, or gets one more if it was taken as the successor of
the line before it. The module follows the hits of all lines along a call of
`ocf_lfu_req_clines` and says which lines start cold.
-/

namespace OcfCache.LfuCold

open Function Metadata Requests CacheLine Partitions Lfu Space LfuPlacement LfuRuns Runs
open Option (map_eq_some_iff)
open LruPlacement (handOver)
open LruRuns (State)
open SpaceFrame (takable)
open SpaceTrace (leadsOn ocfEvictionReqClines_follows)

variable {g : Geometry}

/-- Hits of the lines. -/
def hits (c : Cache) : Nat → Nat := fun x => (c.lfuNodes x).hits

/-- Hits of a line that was handed to a request of partition `d`. -/
def hitsAfter (d : Nat) (t : Handed) : Nat :=
  if t.src ≠ d then 1
  else if t.successor = true then ocfLfuIncrementHits (hits t.before t.line)
  else hits t.before t.line

variable {t : Handed} {src : Part} {req : Request} {owner : Nat → Part}

section Operations

variable {c c' : Cache} {x : Nat}

theorem OnlyLinks.hits (h : OnlyLinks c c') : hits c' = hits c := by
  funext y
  exact (h.2 y).2.2

end Operations

section Next

variable {c c' : Cache} {it it' : Iter} {d : Nat}

end Next

/-- What a call did to the hits. -/
structure Insertions (d : Nat) (c : Cache) (r : Result) : Prop where
  /-- The lines were not locked. -/
  unlocked : ∀ t ∈ r.2.2, c.lineLocked t.line = false
  /-- Until they were taken their hits stayed. -/
  before : ∀ t ∈ r.2.2, hits t.before t.line = hits c t.line
  /-- Hits of the lines. -/
  hits : ∀ t ∈ r.2.2, hits r.1 t.line = hitsAfter d t
  /-- Hits of the other lines. -/
  others : ∀ y, (∀ t ∈ r.2.2, t.line ≠ y) → LfuCold.hits r.1 y = LfuCold.hits c y

theorem assignLine_frame {c c' : Cache} {req' : Request} {x src idx idx' : Nat}
    (h : assignLine g c req x src idx = some (c', req', idx')) :
    c'.lfuNodes = c.lfuNodes ∧ c'.lineLocked = c.lineLocked := by
  simp only [assignLine, Option.ite_none_left_eq_some, Option.some.injEq, Prod.mk.injEq] at h
  obtain ⟨-, -, rfl, -, -⟩ := h
  exact ⟨rfl, rfl⟩

/-- A round before the others. -/
theorem Insertions.cons {c c1 c2 : Cache} {req' : Request} {cline : Option Nat} {r : Result}
    {d idx idx' : Nat} (htook : SpaceFrame.Took g req src cline c c1 t)
    (hhits : LfuCold.hits c1 = update (LfuCold.hits c) t.line (hitsAfter d t))
    (hassign : assignLine g c1 req t.line t.src idx = some (c2, req', idx'))
    (hrest : Insertions d c2 r) : Insertions d c (r.1, r.2.1, t :: r.2.2) := by
  obtain ⟨hnodes, hlock⟩ := assignLine_frame hassign
  obtain ⟨c0, hlists, hc1⟩ := htook.lists
  have hlocked : c2.lineLocked = update c.lineLocked t.line true := by
    rw [hlock, hc1]
    change update c0.lineLocked t.line true = _
    rw [hlists.lineLocked]
  have hnew : LfuCold.hits c2 = update (LfuCold.hits c) t.line (hitsAfter d t) := by
    rw [← hhits]
    unfold LfuCold.hits
    rw [hnodes]
  -- the line is locked now, so no later round takes it again
  have hlater : ∀ u ∈ r.2.2, u.line ≠ t.line ∧ c.lineLocked u.line = false := by
    intro u hu
    have hfree := hrest.unlocked u hu
    have hne : u.line ≠ t.line := by
      intro heq
      rw [hlocked, heq, update_self] at hfree
      cases hfree
    rw [hlocked, update_of_ne hne] at hfree
    exact ⟨hne, hfree⟩
  have hkeep : ∀ y ≠ t.line, LfuCold.hits c2 y = LfuCold.hits c y := by
    intro y hy
    rw [hnew, update_of_ne hy]
  refine ⟨?_, ?_, ?_, ?_⟩
  · intro u hu
    rcases List.mem_cons.mp hu with rfl | hu
    · exact htook.free
    · exact (hlater u hu).2
  · intro u hu
    rcases List.mem_cons.mp hu with rfl | hu
    · rw [htook.before]
    · exact (hrest.before u hu).trans (hkeep u.line (hlater u hu).1)
  · intro u hu
    rcases List.mem_cons.mp hu with rfl | hu
    · refine (hrest.others _ fun v hv => (hlater v hv).1).trans ?_
      rw [hnew, update_self]
    · exact hrest.hits u hu
  · intro y hy
    refine (hrest.others y fun u hu => hy u (List.mem_cons_of_mem t hu)).trans (hkeep y ?_)
    exact (hy t List.mem_cons_self).symm

/-- Release of all line locks. -/
def released (s : State) : State := ⟨{ s.cache with lineLocked := fun _ => false }, s.owner⟩

end OcfCache.LfuCold
