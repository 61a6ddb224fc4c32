import Mathlib.Data.List.Basic

/-!
# Pages behind a volatile write cache

A page of a device that may lose the writes since the last completed flush.
After a crash it holds the guaranteed content or one of those written since;
which one is decided page by page. Nothing here mentions a concrete system.
-/

namespace OcfCache.WriteCache

variable {α : Type*}

/-- A page of a device. -/
structure Page (α : Type*) where
  /-- Content that no crash takes away. -/
  durable : α
  /-- Contents written since, oldest first. -/
  pending : List α
  /-- The last write was acknowledged. -/
  acked : Bool

namespace Page

/-- A write is issued. -/
def write (pg : Page α) (v : α) : Page α := { pg with pending := pg.pending ++ [v], acked := false }

/-- The last write is acknowledged. -/
def ack (pg : Page α) : Page α := { pg with acked := true }

/-- A flush completes: an acknowledged write is guaranteed from here on, a
write that failed is as uncertain as before. -/
def flush (pg : Page α) : Page α :=
  match pg.acked, pg.pending.getLast? with
  | true, some v => ⟨v, [], true⟩
  | _, _ => pg

/-- Content that a crash may leave. -/
def MayHold (pg : Page α) (v : α) : Prop := v = pg.durable ∨ v ∈ pg.pending

/-- A crash leaves one content only. -/
def Settled (pg : Page α) (v : α) : Prop := ∀ w, pg.MayHold w → w = v

/-- The next completed flush settles the page. -/
def Wrote (pg : Page α) (v : α) : Prop := pg.acked = true ∧ pg.pending.getLast? = some v

theorem mayHold_durable (pg : Page α) : pg.MayHold pg.durable := .inl rfl

theorem mayHold_write {pg : Page α} {v w : α} : (pg.write v).MayHold w ↔ pg.MayHold w ∨ w = v := by
  simp [MayHold, write, or_assoc]

theorem flush_of_wrote {pg : Page α} {v : α} (h : pg.Wrote v) : pg.flush = ⟨v, [], true⟩ := by
  simp [flush, h.1, h.2]

theorem MayHold.of_flush {pg : Page α} {w : α} (h : pg.flush.MayHold w) : pg.MayHold w := by
  unfold flush at h
  split at h
  · next v _ hv =>
    have hw : w = v := h.resolve_right List.not_mem_nil
    rw [hw]
    exact .inr (List.mem_of_getLast? hv)
  · exact h

theorem settled_flush_of_wrote {pg : Page α} {v : α} (h : pg.Wrote v) : pg.flush.Settled v := by
  intro w hw
  rw [flush_of_wrote h] at hw
  exact hw.resolve_right List.not_mem_nil

theorem flush_of_pending_nil {pg : Page α} (h : pg.pending = []) : pg.flush = pg := by
  unfold flush
  split
  · next v _ hv =>
    rw [h] at hv
    cases hv
  · rfl

end Page

end OcfCache.WriteCache
