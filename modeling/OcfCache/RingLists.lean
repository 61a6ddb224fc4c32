import Mathlib.Data.List.Chain
import Mathlib.Data.List.Nodup

/-!
# Doubly linked rings

A ring has a sentinel, whose links are the first and the last node. The links
are functions on an arbitrary type of nodes. A node is linked into a ring
between two neighbours, and a path follows the links in one direction up to the
sentinel.
-/

namespace OcfCache.RingLists

open Function
open List (append_assoc cons_append mem_append mem_cons mem_cons_of_mem mem_cons_self nodup_cons)

variable {α : Type*} {next prev next' prev' : α → α} {s x : α} {xs : List α}

/-- The nodes of `xs` form a ring with the sentinel `s`. -/
structure Ring (next prev : α → α) (s : α) (xs : List α) : Prop where
  /-- Neighbours are linked to each other. -/
  linked : (s :: (xs ++ [s])).IsChain fun a b => next a = b ∧ prev b = a
  /-- No node is there twice. -/
  nodup : (s :: xs).Nodup

theorem Ring.empty (hn : next s = s) (hp : prev s = s) : Ring next prev s [] :=
  ⟨List.isChain_pair.mpr ⟨hn, hp⟩, List.nodup_singleton s⟩

theorem Ring.congr (h : Ring next prev s xs) (hn : ∀ y ∈ s :: xs, next' y = next y)
    (hp : ∀ y ∈ s :: xs, prev' y = prev y) : Ring next' prev' s xs := by
  refine ⟨h.linked.imp_of_mem_imp fun a b ha hb hab => ?_, h.nodup⟩
  have hmem : ∀ y ∈ s :: (xs ++ [s]), y ∈ s :: xs := by
    intro y hy
    simp only [mem_cons, mem_append, List.not_mem_nil, or_false] at hy ⊢
    tauto
  exact ⟨(hn a (hmem a ha)).trans hab.1, (hp b (hmem b hb)).trans hab.2⟩

theorem Ring.neighbours {as bs us vs : List α} {a b : α} (h : Ring next prev s (as ++ bs))
    (ha : s :: as = us ++ [a]) (hb : bs ++ [s] = b :: vs) : next a = b ∧ prev b = a := by
  have hlist : s :: (as ++ bs ++ [s]) = us ++ a :: b :: vs := by
    rw [append_assoc, hb, ← cons_append, ha, append_assoc]
    rfl
  have hlinked := h.linked
  rw [hlist] at hlinked
  exact (List.isChain_append_cons_cons.mp hlinked).2.1

theorem linked_congr {l : List α} (h : l.IsChain fun a b => next a = b ∧ prev b = a)
    (hn : ∀ u ∈ l.dropLast, next' u = next u) (hp : ∀ v ∈ l.tail, prev' v = prev v) :
    l.IsChain fun a b => next' a = b ∧ prev' b = a := by
  induction l with
  | nil => exact List.isChain_nil
  | cons a l ih =>
    cases l with
    | nil => exact List.isChain_singleton a
    | cons b l =>
      rw [List.isChain_cons_cons] at h ⊢
      have hna : next' a = next a := hn a mem_cons_self
      have hpb : prev' b = prev b := hp b mem_cons_self
      refine ⟨⟨hna.trans h.1.1, hpb.trans h.1.2⟩, ih h.2 (fun u hu => ?_) fun v hv => ?_⟩
      · exact hn u (mem_cons_of_mem a hu)
      · exact hp v (mem_cons_of_mem b hv)

/-- At a cut of a ring, the last node `a` of the front and the first node `b` of
the back are no others. -/
theorem cut_ne {as bs us vs : List α} {a b : α} (hnodup : (s :: (as ++ bs)).Nodup)
    (ha : s :: as = us ++ [a]) (hb : bs ++ [s] = b :: vs) :
    ((∀ u ∈ us, u ≠ a) ∧ ∀ v ∈ as, v ≠ b) ∧ (∀ u ∈ bs, u ≠ a) ∧ ∀ v ∈ vs, v ≠ b := by
  rw [← cons_append] at hnodup
  obtain ⟨hfront, hback, hdisjoint⟩ := List.nodup_append.mp hnodup
  have hmemA : a ∈ s :: as := by
    rw [ha]
    exact List.mem_append_right _ (List.mem_singleton_self a)
  have hnodupBs : (bs ++ [s]).Nodup := by
    refine List.nodup_append.mpr ⟨hback, List.nodup_singleton s, fun y hy z hz => ?_⟩
    rw [List.mem_singleton.mp hz]
    rintro rfl
    exact hdisjoint y mem_cons_self y hy rfl
  have hmemB : b = s ∨ b ∈ bs := by
    have hin : b ∈ bs ++ [s] := by
      rw [hb]
      exact mem_cons_self
    rcases mem_append.mp hin with hin | hin
    · exact Or.inr hin
    · exact Or.inl (List.mem_singleton.mp hin)
  refine ⟨⟨?_, ?_⟩, ?_, ?_⟩
  · rintro u hu rfl
    rw [ha] at hfront
    exact (List.nodup_append.mp hfront).2.2 u hu u (List.mem_singleton_self u) rfl
  · rintro v hv rfl
    rcases hmemB with rfl | hin
    · exact (nodup_cons.mp hfront).1 hv
    · exact hdisjoint v (mem_cons_of_mem s hv) v hin rfl
  · rintro u hu rfl
    exact hdisjoint u hmemA u hu rfl
  · rintro v hv rfl
    rw [hb] at hnodupBs
    exact (nodup_cons.mp hnodupBs).1 hv

theorem Ring.sides {as bs us vs : List α} {a b : α} (hnodup : (s :: (as ++ bs)).Nodup)
    (ha : s :: as = us ++ [a]) (hb : bs ++ [s] = b :: vs)
    (hfront : (us ++ [a]).IsChain fun a b => next a = b ∧ prev b = a)
    (hback : (b :: vs).IsChain fun a b => next a = b ∧ prev b = a)
    (hn : ∀ u ∈ s :: (as ++ bs), u ≠ a → next' u = next u)
    (hp : ∀ v ∈ s :: (as ++ bs), v ≠ b → prev' v = prev v) :
    ((us ++ [a]).IsChain fun a b => next' a = b ∧ prev' b = a) ∧
      (b :: vs).IsChain fun a b => next' a = b ∧ prev' b = a := by
  obtain ⟨⟨husa, hasb⟩, hbsa, hvsb⟩ := cut_ne hnodup ha hb
  have hus : ∀ u ∈ us, u ∈ s :: (as ++ bs) := by
    intro u hu
    have hin : u ∈ s :: as := by
      rw [ha]
      exact List.mem_append_left _ hu
    simp only [mem_cons, mem_append] at hin ⊢
    tauto
  have hvs : ∀ v ∈ vs, v ∈ s :: (as ++ bs) := by
    intro v hv
    have hin : v ∈ bs ++ [s] := by
      rw [hb]
      exact mem_cons_of_mem b hv
    simp only [mem_cons, mem_append, List.not_mem_nil, or_false] at hin ⊢
    tauto
  constructor
  · refine linked_congr hfront (fun u hu => ?_) fun v hv => ?_
    · rw [List.dropLast_concat] at hu
      exact hn u (hus u hu) (husa u hu)
    · rw [← ha] at hv
      have hv' : v ∈ as := hv
      exact hp v (mem_cons_of_mem s (List.mem_append_left bs hv')) (hasb v hv')
  · refine linked_congr hback (fun u hu => ?_) fun v hv => ?_
    · rw [← hb, List.dropLast_concat] at hu
      exact hn u (mem_cons_of_mem s (List.mem_append_right as hu)) (hbsa u hu)
    · exact hp v (hvs v hv) (hvsb v hv)

theorem Ring.insert [DecidableEq α] {as bs us vs : List α} {a b : α} (h : Ring next prev s (as ++ bs))
    (ha : s :: as = us ++ [a]) (hb : bs ++ [s] = b :: vs) (hx : x ∉ s :: (as ++ bs)) :
    Ring (update (update next x b) a x) (update (update prev x a) b x) s (as ++ x :: bs) := by
  have hmem : a ∈ s :: (as ++ bs) ∧ b ∈ s :: (as ++ bs) := by
    have hina : a ∈ s :: as := by
      rw [ha]
      exact List.mem_append_right _ (List.mem_singleton_self a)
    have hinb : b ∈ bs ++ [s] := by
      rw [hb]
      exact mem_cons_self
    simp only [mem_cons, mem_append, List.not_mem_nil, or_false] at hina hinb ⊢
    tauto
  have hne : ∀ u ∈ s :: (as ++ bs), u ≠ x := fun u hu heq => hx (heq ▸ hu)
  have hxa : x ≠ a := (hne a hmem.1).symm
  have hxb : x ≠ b := (hne b hmem.2).symm
  have hlist : s :: (as ++ bs ++ [s]) = us ++ a :: b :: vs := by
    rw [append_assoc, hb, ← cons_append, ha, append_assoc]
    rfl
  have hnew : s :: (as ++ x :: bs ++ [s]) = us ++ a :: x :: b :: vs := by
    rw [append_assoc, cons_append, hb, ← cons_append, ha, append_assoc]
    rfl
  have hlinked := h.linked
  rw [hlist] at hlinked
  obtain ⟨hfront, -, hback⟩ := List.isChain_append_cons_cons.mp hlinked
  obtain ⟨hfront', hback'⟩ := @Ring.sides α next prev (update (update next x b) a x)
    (update (update prev x a) b x) s as bs us vs a b h.nodup ha hb hfront hback
    (fun u hu hua => by rw [update_of_ne hua, update_of_ne (hne u hu)])
    (fun v hv hvb => by rw [update_of_ne hvb, update_of_ne (hne v hv)])
  refine ⟨?_, ?_⟩
  · rw [hnew, List.isChain_append_cons_cons, List.isChain_cons_cons]
    refine ⟨hfront', ⟨update_self .., ?_⟩, ⟨?_, update_self ..⟩, hback'⟩
    · rw [update_of_ne hxb, update_self]
    · rw [update_of_ne hxa, update_self]
  · have hperm : (s :: (as ++ x :: bs)).Perm (x :: s :: (as ++ bs)) := by
      have hmiddle : (as ++ x :: bs).Perm (x :: (as ++ bs)) := List.perm_middle
      exact (hmiddle.cons s).trans (List.Perm.swap x s _)
    exact hperm.nodup_iff.mpr (nodup_cons.mpr ⟨hx, h.nodup⟩)

theorem Ring.remove [DecidableEq α] {as bs : List α} (h : Ring next prev s (as ++ x :: bs)) :
    Ring (update next (prev x) (next x)) (update prev (next x) (prev x)) s (as ++ bs) := by
  obtain ⟨us, a, ha⟩ := List.eq_nil_or_concat' (s :: as) |>.resolve_left (List.cons_ne_nil s as)
  obtain ⟨b, vs, hb⟩ := List.exists_cons_of_ne_nil (List.concat_ne_nil s bs)
  have hlist : s :: (as ++ x :: bs ++ [s]) = us ++ a :: x :: b :: vs := by
    rw [append_assoc, cons_append, hb, ← cons_append, ha, append_assoc]
    rfl
  have hnew : s :: (as ++ bs ++ [s]) = us ++ a :: b :: vs := by
    rw [append_assoc, hb, ← cons_append, ha, append_assoc]
    rfl
  have hlinked := h.linked
  rw [hlist, List.isChain_append_cons_cons, List.isChain_cons_cons] at hlinked
  obtain ⟨hfront, ⟨hax, hxa⟩, ⟨hxb, hbx⟩, hback⟩ := hlinked
  have hnodup : (s :: (as ++ bs)).Nodup := by
    have hmiddle : (as ++ x :: bs).Perm (x :: (as ++ bs)) := List.perm_middle
    have hperm := (hmiddle.cons s).trans (List.Perm.swap x s _)
    exact (nodup_cons.mp (hperm.nodup_iff.mp h.nodup)).2
  rw [hxa, hxb]
  obtain ⟨hfront', hback'⟩ := @Ring.sides α next prev (update next a b)
    (update prev b a) s as bs us vs a b hnodup ha hb hfront hback
    (fun u _ hua => update_of_ne hua ..) (fun v _ hvb => update_of_ne hvb ..)
  refine ⟨?_, hnodup⟩
  rw [hnew, List.isChain_append_cons_cons]
  exact ⟨hfront', ⟨update_self .., update_self ..⟩, hback'⟩

theorem Ring.rotate (h : Ring next prev s (x :: xs)) : Ring next prev x (xs ++ [s]) := by
  have hlinked := h.linked
  rw [cons_append, List.isChain_cons_cons] at hlinked
  refine ⟨?_, ?_⟩
  · have hsplit : x :: (xs ++ [s] ++ [x]) = (x :: xs) ++ s :: x :: [] := by simp
    rw [hsplit, List.isChain_append_cons_cons]
    exact ⟨hlinked.2, hlinked.1, List.isChain_singleton x⟩
  · have hperm : (x :: (xs ++ [s])).Perm (s :: x :: xs) := List.perm_append_singleton s (x :: xs)
    exact hperm.nodup_iff.mpr h.nodup

theorem Ring.insertBefore [DecidableEq α] {as bs vs : List α} {b : α} (h : Ring next prev s (as ++ bs))
    (hb : bs ++ [s] = b :: vs) (hx : x ∉ s :: (as ++ bs)) :
    Ring (update (update next x b) (prev b) x)
      (update (update prev x (prev b)) b x) s (as ++ x :: bs) := by
  obtain ⟨us, a, ha⟩ := List.eq_nil_or_concat' (s :: as) |>.resolve_left (List.cons_ne_nil s as)
  rw [(h.neighbours ha hb).2]
  exact h.insert ha hb hx

theorem Ring.insertHead [DecidableEq α] (h : Ring next prev s xs) (hx : x ∉ s :: xs) :
    Ring (update (update next x (next s)) s x)
      (update (update prev (next s) x) x s) s (x :: xs) := by
  obtain ⟨b, vs, hb⟩ := List.exists_cons_of_ne_nil (List.concat_ne_nil s xs)
  have hring : Ring next prev s ([] ++ xs) := h
  have hfirst : s :: [] = [] ++ [s] := rfl
  have hnext : next s = b := (hring.neighbours hfirst hb).1
  have hxb : x ≠ b := by
    rintro rfl
    have hmem : x ∈ xs ++ [s] := by
      rw [hb]
      exact mem_cons_self
    refine hx ?_
    simp only [mem_append, mem_cons, List.not_mem_nil, or_false] at hmem ⊢
    tauto
  rw [hnext, update_comm hxb.symm]
  exact hring.insert hfirst hb hx

/-- The links from `x` on visit `xs` and then the sentinel. -/
def Path (next : α → α) (s : α) : α → List α → Prop
  | x, [] => x = s
  | x, y :: ys => x = y ∧ y ≠ s ∧ Path next s (next y) ys

theorem Path.congr (h : Path next s x xs) (hn : ∀ y ∈ xs, next' y = next y) : Path next' s x xs := by
  induction xs generalizing x with
  | nil => exact h
  | cons y ys ih =>
    refine ⟨h.1, h.2.1, ?_⟩
    rw [hn y mem_cons_self]
    exact ih h.2.2 fun z hz => hn z (mem_cons_of_mem y hz)

theorem Ring.path (h : Ring next prev s xs) : Path next s (next s) xs := by
  have hlinked := h.linked
  have hout : s ∉ xs := (nodup_cons.mp h.nodup).1
  have hgoes : ∀ (ys : List α) (a : α), s ∉ ys →
      (a :: (ys ++ [s])).IsChain (fun a b => next a = b ∧ prev b = a) → Path next s (next a) ys := by
    intro ys
    induction ys with
    | nil =>
      intro a _ hchain
      exact (List.isChain_pair.mp hchain).1
    | cons y ys ih =>
      intro a hs hchain
      rw [cons_append, List.isChain_cons_cons] at hchain
      refine ⟨hchain.1.1, fun heq => hs (heq ▸ mem_cons_self), ?_⟩
      exact ih y (fun hin => hs (mem_cons_of_mem y hin)) hchain.2
  exact hgoes xs s hout hlinked

/-- The nodes that the links visit in front of the sentinel. -/
def walk [DecidableEq α] (next : α → α) (s : α) : Nat → α → List α
  | 0, _ => []
  | fuel + 1, x => if x = s then [] else x :: walk next s fuel (next x)

theorem Path.walk_eq [DecidableEq α] {fuel : Nat} (h : Path next s x xs) (hfuel : xs.length < fuel) :
    walk next s fuel x = xs := by
  induction xs generalizing x fuel with
  | nil =>
    cases fuel with
    | zero => exact absurd hfuel (Nat.not_lt_zero _)
    | succ fuel => exact if_pos h
  | cons y ys ih =>
    cases fuel with
    | zero => exact absurd hfuel (Nat.not_lt_zero _)
    | succ fuel =>
      obtain ⟨rfl, hne, hrest⟩ := h
      rw [walk, if_neg hne, ih hrest (by simpa using hfuel)]

theorem Path.unique {ys : List α} (h : Path next s x xs) (h' : Path next s x ys) : xs = ys := by
  induction xs generalizing x ys with
  | nil =>
    cases ys with
    | nil => rfl
    | cons y ys => exact absurd (h'.1.symm.trans h) h'.2.1
  | cons y xs ih =>
    cases ys with
    | nil => exact absurd (h.1.symm.trans h') h.2.1
    | cons z ys =>
      obtain ⟨rfl, -, hrest⟩ := h
      obtain ⟨rfl, -, hrest'⟩ := h'
      rw [ih hrest hrest']

end OcfCache.RingLists
