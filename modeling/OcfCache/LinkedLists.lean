import Mathlib.Data.List.Nodup

/-!
# Doubly linked lists in a store of nodes

A segment of a doubly linked list is described by the list of its nodes, the
node before it and the node behind it. Segments compose along `++`, and a
segment depends only on the links of its own nodes. Insertion at the head and
unlinking of a node are stated on segments, for links given as functions on an
arbitrary type of nodes.
-/

namespace OcfCache.LinkedLists

open Option (or_none)

variable {α : Type*}

/-- The nodes `xs` are linked to each other, behind `p` and before `q`. -/
def Segment (prev next : α → Option α) : Option α → List α → Option α → Prop
  | _, [], _ => True
  | p, x :: xs, q => prev x = p ∧ next x = xs.head?.or q ∧ Segment prev next (some x) xs q

variable {prev next prev' next' : α → Option α} {p q : Option α} {xs : List α}

theorem Segment.congr (h : Segment prev next p xs q) (hp : ∀ x ∈ xs, prev' x = prev x)
    (hn : ∀ x ∈ xs, next' x = next x) : Segment prev' next' p xs q := by
  induction xs generalizing p with
  | nil => trivial
  | cons x xs ih =>
    obtain ⟨h1, h2, h3⟩ := h
    refine ⟨(hp x List.mem_cons_self).trans h1, (hn x List.mem_cons_self).trans h2, ?_⟩
    exact ih h3 (fun y hy => hp y (List.mem_cons_of_mem x hy))
      fun y hy => hn y (List.mem_cons_of_mem x hy)

variable {prev next : α → Option α} {xs ys : List α}

theorem segment_append : Segment prev next p (xs ++ ys) q ↔
      Segment prev next p xs (ys.head?.or q) ∧ Segment prev next (xs.getLast?.or p) ys q := by
  induction xs generalizing p with
  | nil => simp [Segment]
  | cons x xs ih =>
    have hlast : (x :: xs).getLast?.or p = xs.getLast?.or (some x) := by
      cases xs with
      | nil => rfl
      | cons y ys =>
        simp [List.getLast?_eq_some_getLast]
    simp only [List.cons_append, Segment, List.head?_append, ih, hlast, Option.or_assoc]
    exact ⟨fun ⟨h1, h2, h3, h4⟩ => ⟨⟨h1, h2, h3⟩, h4⟩, fun ⟨⟨h1, h2, h3⟩, h4⟩ => ⟨h1, h2, h3, h4⟩⟩

variable {x : α}

theorem Segment.relinkHead {prev next prev' : α → Option α} {p p' q : Option α} (h : Segment prev next p (x :: xs) q) (hx : prev' x = p')
    (hp : ∀ y ∈ xs, prev' y = prev y) : Segment prev' next p' (x :: xs) q :=
  ⟨hx, h.2.1, h.2.2.congr hp fun _ _ => rfl⟩

theorem Segment.relinkLast {prev next next' : α → Option α} {p q q' : Option α} (h : Segment prev next p (xs ++ [x]) q) (hx : next' x = q')
    (hn : ∀ y ∈ xs, next' y = next y) : Segment prev next' p (xs ++ [x]) q' := by
  rw [segment_append] at h ⊢
  refine ⟨h.1.congr (fun _ _ => rfl) hn, h.2.1, ?_, trivial⟩
  simpa using hx

theorem Segment.links (h : Segment prev next p (xs ++ x :: ys) q) :
    prev x = xs.getLast?.or p ∧ next x = ys.head?.or q := by
  rw [segment_append] at h
  exact ⟨h.2.1, h.2.2.1⟩

theorem Segment.unlink (h : Segment prev next p (xs ++ x :: ys) q)
    (hprev : ∀ y ∈ xs, prev' y = prev y) (hnext : ∀ y ∈ ys, next' y = next y)
    (hlast : ∀ zs z, xs = zs ++ [z] → next' z = next x ∧ ∀ y ∈ zs, next' y = next y)
    (hhead : ∀ z zs, ys = z :: zs → prev' z = prev x ∧ ∀ y ∈ zs, prev' y = prev y) :
    Segment prev' next' p (xs ++ ys) q := by
  obtain ⟨hpx, hnx⟩ := h.links
  rw [segment_append] at h
  rw [segment_append]
  constructor
  · rcases List.eq_nil_or_concat xs with hxs | ⟨zs, z, hxs⟩
    · rw [hxs]
      trivial
    · rw [List.concat_eq_append] at hxs
      obtain ⟨hz, hzs⟩ := hlast zs z hxs
      have hseg := h.1
      rw [hxs] at hseg
      rw [hxs]
      have hnew : Segment prev next' p (zs ++ [z]) (ys.head?.or q) :=
        hseg.relinkLast (hz.trans hnx) hzs
      refine hnew.congr ?_ fun _ _ => rfl
      intro y hy
      exact hprev y (hxs ▸ hy)
  · cases ys with
    | nil => trivial
    | cons z zs =>
      obtain ⟨hz, hzs⟩ := hhead z zs rfl
      have hnew : Segment prev' next (xs.getLast?.or p) (z :: zs) q :=
        h.2.2.2.relinkHead (hz.trans hpx) hzs
      exact hnew.congr (fun _ _ => rfl) hnext

theorem Segment.insertHead
    (h : Segment prev next none xs none) (hpx : prev' x = none) (hnx : next' x = xs.head?)
    (hn : ∀ y ∈ xs, next' y = next y)
    (hhead : ∀ y ys, xs = y :: ys → prev' y = some x ∧ ∀ z ∈ ys, prev' z = prev z) :
    Segment prev' next' none (x :: xs) none := by
  refine ⟨hpx, by rw [hnx, or_none], ?_⟩
  cases xs with
  | nil => trivial
  | cons y ys =>
    obtain ⟨hy, hys⟩ := hhead y ys rfl
    have hnew : Segment prev' next (some x) (y :: ys) none := h.relinkHead hy hys
    exact hnew.congr (fun _ _ => rfl) hn

/-- Removal of a node from a list whose other links are redirected past it. -/
theorem Segment.remove {prev next prev' next' : α → Option α} {xs ys : List α} {x : α}
    (h : Segment prev next none (xs ++ x :: ys) none) (hd : (xs ++ x :: ys).Nodup)
    (hprev : ∀ y ∈ xs ++ ys, (next x = some y → prev' y = prev x) ∧
      (next x ≠ some y → prev' y = prev y))
    (hnext : ∀ y ∈ xs ++ ys, (prev x = some y → next' y = next x) ∧
      (prev x ≠ some y → next' y = next y)) : Segment prev' next' none (xs ++ ys) none := by
  obtain ⟨hp, hn⟩ := h.links
  simp only [or_none] at hp hn
  have hdis := List.nodup_append.mp hd
  refine h.unlink ?_ ?_ ?_ ?_
  · intro y hy
    refine (hprev y (List.mem_append_left ys hy)).2 fun hxy => ?_
    rw [hn] at hxy
    exact hdis.2.2 y hy y (List.mem_cons_of_mem x (List.mem_of_mem_head? hxy)) rfl
  · intro y hy
    refine (hnext y (List.mem_append_right xs hy)).2 fun hxy => ?_
    rw [hp] at hxy
    exact hdis.2.2 y (List.mem_of_mem_getLast? hxy) y (List.mem_cons_of_mem x hy) rfl
  · intro zs z hz
    have hlast : prev x = some z := by rw [hp, hz, List.getLast?_concat]
    have hmem : ∀ y ∈ zs ++ [z], y ∈ xs ++ ys := fun y hy => List.mem_append_left ys (hz ▸ hy)
    refine ⟨(hnext z (hmem z (by simp))).1 hlast, fun y hy => ?_⟩
    refine (hnext y (hmem y (List.mem_append_left [z] hy))).2 fun hxy => ?_
    have hdz := hdis.1
    rw [hz] at hdz
    have hzy : z = y := Option.some.inj (hlast.symm.trans hxy)
    exact (List.nodup_append.mp hdz).2.2 y hy z (List.mem_singleton_self z) hzy.symm
  · intro z zs hz
    have hhead : next x = some z := by rw [hn, hz, List.head?_cons]
    have hmem : ∀ y ∈ z :: zs, y ∈ xs ++ ys := fun y hy => List.mem_append_right xs (hz ▸ hy)
    refine ⟨(hprev z (hmem z List.mem_cons_self)).1 hhead, fun y hy => ?_⟩
    refine (hprev y (hmem y (List.mem_cons_of_mem z hy))).2 fun hxy => ?_
    have hdz := (List.nodup_cons.mp hdis.2.1).2
    rw [hz] at hdz
    have hzy : z = y := Option.some.inj (hhead.symm.trans hxy)
    exact (List.nodup_cons.mp hdz).1 (hzy ▸ hy)

section

variable (h : Segment prev next none xs none)
include h

theorem Segment.of_prev {x y : α} (hx : x ∈ xs) (hy : prev x = some y) :
    y ∈ xs ∧ next y = some x := by
  obtain ⟨as, bs, hxs⟩ := List.append_of_mem hx
  rw [hxs] at h
  have hlast : as.getLast? = some y := by
    rw [← hy, h.links.1, or_none]
  obtain ⟨zs, hzs⟩ := List.getLast?_eq_some_iff.mp hlast
  rw [hzs, List.append_assoc] at h
  refine ⟨by simp [hxs, hzs], ?_⟩
  rw [h.links.2]
  rfl

theorem Segment.of_next {x y : α} (hx : x ∈ xs) (hy : next x = some y) :
    y ∈ xs ∧ prev y = some x := by
  obtain ⟨as, bs, hxs⟩ := List.append_of_mem hx
  rw [hxs] at h
  have hhead : bs.head? = some y := by
    rw [← hy, h.links.2, or_none]
  obtain ⟨zs, hzs⟩ := List.head?_eq_some_iff.mp hhead
  rw [hzs, List.append_cons] at h
  refine ⟨by simp [hxs, hzs], ?_⟩
  rw [h.links.1, List.getLast?_concat]
  rfl

theorem Segment.head_of_prev (hx : x ∈ xs) (hp : prev x = none) : xs.head? = some x := by
  obtain ⟨as, bs, hxs⟩ := List.append_of_mem hx
  rw [hxs] at h ⊢
  rw [h.links.1, or_none, List.getLast?_eq_none_iff] at hp
  rw [hp]
  rfl

theorem Segment.getLast_of_next (hx : x ∈ xs) (hn : next x = none) : xs.getLast? = some x := by
  obtain ⟨as, bs, hxs⟩ := List.append_of_mem hx
  rw [hxs] at h ⊢
  rw [h.links.2, or_none, List.head?_eq_none_iff] at hn
  rw [hn, List.getLast?_concat]

end

/-- Following the successors from the head visits the nodes in order. -/
def walk (next : α → Option α) : Nat → Option α → List α
  | 0, _ => []
  | _ + 1, none => []
  | fuel + 1, some x => x :: walk next fuel (next x)

theorem Segment.walk_eq {p : Option α}
    (h : Segment prev next p xs none) : walk next xs.length xs.head? = xs := by
  induction xs generalizing p with
  | nil => rfl
  | cons x xs ih =>
    obtain ⟨-, h2, h3⟩ := h
    simp only [or_none] at h2
    simp only [List.length_cons, List.head?_cons, walk, h2, ih h3]

end OcfCache.LinkedLists
