import OcfCache.FuelLoops
import OcfCache.RbPointers

/-!
# Searches in the red-black tree

The loops that go down from a node end, and where they end is the place that
the search finds in the shape: the search of a key, the search of the place of
a new node, and the way to the first or the last node of a subtree.
-/

namespace OcfCache.RbTree

open RbShapes RbShapes.Shape FuelLoops

variable {ι : Type*}

variable {t : Tree ι} {p : Option ι} {s : Shape ι}

theorem findFrom_returns (cmp : ι → Int) (fs : List (Frame ι))
    (h : Rep t p s) : Returns (fun n => findFrom t cmp n s.root) (zoom cmp s fs).1.root := by
  induction s generalizing p fs with
  | leaf => exact Returns.last fun n => rfl
  | node c l x r ihl ihr =>
    obtain ⟨hx, hl, hr⟩ := h
    have hleft : (t.node x).left = l.root := hx.near
    have hright : (t.node x).right = r.root := hx.far
    by_cases hzero : cmp x = 0
    · refine Returns.last fun n => ?_
      simp only [root, findFrom, zoom, hzero, if_true]
    · by_cases hneg : cmp x < 0
      · have hzoom : zoom cmp (node c l x r) fs = zoom cmp l (⟨.left, c, x, r⟩ :: fs) := by
          simp only [zoom, hzero, hneg, if_true, if_false]
        rw [hzoom]
        refine (ihl (⟨.left, c, x, r⟩ :: fs) hl).succ fun n hn => ?_
        simp only [root, findFrom, hzero, hneg, if_true, if_false, hleft]
        exact hn
      · have hzoom : zoom cmp (node c l x r) fs = zoom cmp r (⟨.right, c, x, l⟩ :: fs) := by
          simp only [zoom, hzero, hneg, if_false]
        rw [hzoom]
        refine (ihr (⟨.right, c, x, l⟩ :: fs) hr).succ fun n hn => ?_
        simp only [root, findFrom, hzero, hneg, if_false, hright]
        exact hn

/-- The node that a search compared last, with the result. -/
def Ends (cmp : ι → Int) : Shape ι × List (Frame ι) → ι × Int → Prop
  | (node _ _ y _, _), r => r = (y, 0)
  | (leaf, f :: _), r => r = (f.x, cmp f.x)
  | (leaf, []), _ => False

variable {z : Shape ι × List (Frame ι)}

theorem Ends.of_root {cmp : ι → Int} {r : ι × Int} {y : ι}
    (h : Ends cmp z r) (hy : z.1.root = some y) : r = (y, 0) := by
  obtain ⟨s, fs⟩ := z
  cases s with
  | leaf => simp at hy
  | node c a x b =>
    have hxy : x = y := Option.some.inj hy
    rw [← hxy]
    exact h

variable {fs : List (Frame ι)}

theorem Ends.of_leaf {cmp : ι → Int} {r : ι × Int} {f : Frame ι} (h : Ends cmp z r) (hs : z.1 = leaf) (hfs : z.2 = f :: fs) :
    r = (f.x, cmp f.x) := by
  obtain ⟨s, gs⟩ := z
  have hs' : s = leaf := hs
  have hgs : gs = f :: fs := hfs
  rw [hs', hgs] at h
  exact h

theorem descend_returns {x : ι} (cmp : ι → Int)
    (fs : List (Frame ι)) (h : Rep t p s) (hx : s.root = some x) :
    ∃ r, Ends cmp (zoom cmp s fs) r ∧ Returns (fun n => descend t cmp n x) r := by
  induction s generalizing p x fs with
  | leaf => simp at hx
  | node c l y r ihl ihr =>
    have hyx : y = x := Option.some.inj hx
    subst hyx
    obtain ⟨hy, hl, hr⟩ := h
    have hleft : (t.node y).left = l.root := hy.near
    have hright : (t.node y).right = r.root := hy.far
    by_cases hzero : cmp y = 0
    · refine ⟨(y, 0), ?_, Returns.last fun n => ?_⟩
      · simp only [zoom, hzero, if_true, Ends]
      · simp only [descend, hzero, if_true]
    · by_cases hneg : cmp y < 0
      · cases hnext : l.root with
        | none =>
          have hleaf : l = leaf := eq_leaf_of_root hnext
          refine ⟨(y, cmp y), ?_, Returns.last fun n => ?_⟩
          · simp only [zoom, hzero, hneg, if_true, if_false, hleaf, Ends]
          · simp only [descend, hzero, hneg, if_true, if_false, hleft, hnext]
        | some next =>
          obtain ⟨q, hends, hrun⟩ := ihl (⟨.left, c, y, r⟩ :: fs) hl hnext
          refine ⟨q, ?_, hrun.succ fun n hn => ?_⟩
          · simp only [zoom, hzero, hneg, if_true, if_false]
            exact hends
          · simp only [descend, hzero, hneg, if_true, if_false, hleft, hnext]
            exact hn
      · cases hnext : r.root with
        | none =>
          have hleaf : r = leaf := eq_leaf_of_root hnext
          refine ⟨(y, cmp y), ?_, Returns.last fun n => ?_⟩
          · simp only [zoom, hzero, hneg, if_false, hleaf, Ends]
          · simp only [descend, hzero, hneg, if_false, hright, hnext]
        | some next =>
          obtain ⟨q, hends, hrun⟩ := ihr (⟨.right, c, y, l⟩ :: fs) hr hnext
          refine ⟨q, ?_, hrun.succ fun n hn => ?_⟩
          · simp only [zoom, hzero, hneg, if_false]
            exact hends
          · simp only [descend, hzero, hneg, if_false, hright, hnext]
            exact hn

/-- The outermost node on a side below a node: the loops of `ocf_rb_tree_successor`
and `ocf_rb_tree_predecessor`. -/
def outermost (d : Side) (t : Tree ι) (n : Nat) (x : ι) : Option ι :=
  match d with
  | .left => leftmost t n x
  | .right => rightmost t n x

theorem outermost_succ (d : Side) (t : Tree ι) (n : Nat) (x : ι) :
    outermost d t (n + 1) x = match (t.node x).child d with
      | none => some x
      | some y => outermost d t n y := by
  cases d <;> rfl

theorem outermost_returns {x : ι} (d : Side) (h : Rep t p s) (hx : s.root = some x) :
    ∃ fs c y b, s = plug (branch d c leaf y b) fs ∧ (∀ f ∈ fs, f.side = d) ∧
      Returns (fun n => outermost d t n x) y := by
  have hgoal : ∀ k s p x, s.inorder.length ≤ k → Rep t p s → s.root = some x →
      ∃ fs c y b, s = plug (branch d c leaf y b) fs ∧ (∀ f ∈ fs, f.side = d) ∧
        Returns (fun n => outermost d t n x) y := by
    intro k
    induction k with
    | zero =>
      intro s p x hlen hrep hroot
      have hmem := root_mem hroot
      rw [List.eq_nil_of_length_eq_zero (by omega : s.inorder.length = 0)] at hmem
      simp at hmem
    | succ k ih =>
      intro s p x hlen hrep hroot
      obtain ⟨a, b, hs⟩ := exists_root_branch d hroot
      rw [hs] at hrep hlen
      obtain ⟨hnode, ha, -⟩ := rep_branch.mp hrep
      cases hnext : a.root with
      | none =>
        have hleaf : a = leaf := eq_leaf_of_root hnext
        subst hleaf
        refine ⟨[], s.isRed, x, b, hs, fun f hf => absurd hf List.not_mem_nil,
          Returns.last fun n => ?_⟩
        rw [outermost_succ, hnode.near, hnext]
      | some y =>
        have hshort : a.inorder.length ≤ k := by
          have hperm := (inorder_branch_perm d s.isRed a x b).length_eq
          simp only [List.length_cons, List.length_append] at hperm
          omega
        obtain ⟨fs, c, z, b', ha', hfs, hrun⟩ := ih a (some x) y hshort ha hnext
        refine ⟨fs ++ [⟨d, s.isRed, x, b⟩], c, z, b', ?_, ?_, hrun.succ fun n hn => ?_⟩
        · rw [plug_append, ← ha']
          exact hs
        · intro f hf
          rcases List.mem_append.mp hf with hf | hf
          · exact hfs f hf
          · rw [List.mem_singleton.mp hf]
        · rw [outermost_succ, hnode.near, hnext]
          exact hn
  exact hgoal s.inorder.length s p x (Nat.le_refl _) h hx

theorem before_eq_nil (h : ∀ f ∈ fs, f.side = .left) : before fs = [] := by
  induction fs with
  | nil => rfl
  | cons f fs ih =>
    have hf := h f List.mem_cons_self
    simp only [before, hf]
    exact ih fun g hg => h g (List.mem_cons_of_mem f hg)

theorem after_eq_nil (h : ∀ f ∈ fs, f.side = .right) : after fs = [] := by
  induction fs with
  | nil => rfl
  | cons f fs ih =>
    have hf := h f List.mem_cons_self
    simp only [after, hf]
    exact ih fun g hg => h g (List.mem_cons_of_mem f hg)

end OcfCache.RbTree
