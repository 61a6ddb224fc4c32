import OcfCache.FuelLoops
import OcfCache.RbPointers

/-!
# A missing black node

The paths through one place of the tree have a black node less than the others.
`ocf_rb_tree_fix_double_black` looks at the sibling of the place: with a red
sibling the tree is rotated so that the sibling is black, with a black sibling
that has a red child one or two rotations repair the paths, and otherwise the
sibling becomes red and the place moves up.
-/

namespace OcfCache.RbTree

open RbShapes RbShapes.Shape FuelLoops

variable {ι : Type*} [DecidableEq ι]

variable {t : Tree ι} {d : Side} {fs : List (Frame ι)}

theorem Represents.sibling {s : Shape ι} {c : Bool} {p x : ι} {b : Shape ι} (h : Represents t (plug s (⟨d, c, p, b⟩ :: fs))) (hx : s.root = some x) :
    (t.node x).parent = some p ∧ ocfRbTreeSibling t x = b.root := by
  have hf := h.frame
  have hne : b.root ≠ some x := h.sib_ne (root_mem hx)
  have hparent : (t.node x).parent = some p := by
    obtain ⟨a, w, hs⟩ := exists_root_branch d hx
    rw [hs] at h
    exact h.nodeIs.parent
  refine ⟨hparent, ?_⟩
  cases d with
  | left =>
    have hleft : (t.node p).left = some x := hf.near.trans hx
    have hright : (t.node p).right = b.root := hf.far
    simp only [ocfRbTreeSibling, hparent, hleft, hright, if_true]
  | right =>
    have hleft : (t.node p).left = b.root := hf.far
    simp only [ocfRbTreeSibling, hparent, hleft, hne, if_false]

omit [DecidableEq ι] in
/-- The children of the sibling, named from the side of the place. -/
theorem Represents.nephews {s u v : Shape ι} {c e : Bool} {p y : ι} (h : Represents t (plug s (⟨d, c, p, branch d e u y v⟩ :: fs))) :
    NodeIs (t.node y) e d u.root v.root (some p) ∧ t.isRed u.root = u.isRed ∧
      t.isRed v.root = v.isRed := by
  have hother : Represents t (plug (branch d e u y v) (⟨d.other, c, p, s⟩ :: fs)) := by
    rw [plug_cons, branch_other]
    exact h
  have hrep := rep_branch.mp (represents_plug.mp hother).1.2.1
  exact ⟨hrep.1, hrep.2.1.isRed, hrep.2.2.isRed⟩

variable {x p y : ι}

section

variable (hparent : (t.node x).parent = some p)
include hparent

theorem fixDoubleBlack_red {o : Option ι} (hsib : ocfRbTreeSibling t x = some y)
    (hp : (t.node p).child d.other = some y) (hne : (t.node p).child d = o) (ho : o ≠ some y)
    (hy : (t.node y).red = true) (n : Nat) : ocfRbTreeFixDoubleBlack (n + 1) t x =
      (rotate d ((t.setRed p true).setRed y false) p).bind fun t => ocfRbTreeFixDoubleBlack n t x := by
  have hleft : ∀ z, (((t.setRed p true).setRed y false).node z).left = (t.node z).left := by
    intro z
    by_cases hzy : z = y
    · rw [hzy, setRed_node_self]
      by_cases hyp : y = p
      · rw [hyp, setRed_node_self]
      · rw [setRed_node_of_ne hyp]
    · rw [setRed_node_of_ne hzy]
      by_cases hzp : z = p
      · rw [hzp, setRed_node_self]
      · rw [setRed_node_of_ne hzp]
  cases d with
  | left =>
    have hpl : ¬ (t.node p).left = some y := fun heq => ho (hne.symm.trans heq)
    simp only [ocfRbTreeFixDoubleBlack, hparent, hsib, hy, if_true, hleft, hpl, if_false]
    rfl
  | right =>
    have hpl : (t.node p).left = some y := hp
    simp only [ocfRbTreeFixDoubleBlack, hparent, hsib, hy, if_true, hleft, hpl]
    rfl

/-- The sibling is black, and its child on the side of the place is red. -/
theorem fixDoubleBlack_inner {o u v : Option ι} (hsib : ocfRbTreeSibling t x = some y)
    (hp : (t.node p).child d.other = some y) (hne : (t.node p).child d = o) (ho : o ≠ some y)
    (hy : NodeIs (t.node y) false d u v (some p)) (hu : t.isRed u = true)
    (hv : d = .right → t.isRed v = false) (n : Nat) : ocfRbTreeFixDoubleBlack (n + 1) t x =
      ((rotate d.other (t.paint u (t.node p).red) y).bind fun t => rotate d t p).map
        fun t => t.setRed p false := by
  cases d with
  | left =>
    have hpl : ¬ (t.node p).left = some y := fun heq => ho (hne.symm.trans heq)
    have hyl : (t.node y).left = u := hy.near
    have hyred : (t.node y).red = false := hy.red
    simp only [ocfRbTreeFixDoubleBlack, hparent, hsib, hyred, hyl, hu, hpl, if_true, if_false,
      Bool.false_eq_true]
    rfl
  | right =>
    have hpl : (t.node p).left = some y := hp
    have hyr : (t.node y).right = u := hy.near
    have hyl : (t.node y).left = v := hy.far
    have hyred : (t.node y).red = false := hy.red
    have hvred : t.isRed v = false := hv rfl
    simp only [ocfRbTreeFixDoubleBlack, hparent, hsib, hyred, hyl, hyr, hvred, hu, hpl, if_true,
      if_false, Bool.false_eq_true]
    rfl

/-- The sibling is black, and its child on the other side is red. -/
theorem fixDoubleBlack_outer {o u v : Option ι} (hsib : ocfRbTreeSibling t x = some y)
    (hp : (t.node p).child d.other = some y) (hne : (t.node p).child d = o) (ho : o ≠ some y)
    (hy : NodeIs (t.node y) false d u v (some p)) (hv : t.isRed v = true)
    (hu : d = .left → t.isRed u = false) (hpv : v ≠ some p) (n : Nat) :
    ocfRbTreeFixDoubleBlack (n + 1) t x =
      (rotate d ((t.paint v false).setRed y (t.node p).red) p).map fun t => t.setRed p false := by
  have hpaint : ((t.paint v false).node p).red = (t.node p).red := by
    cases v with
    | none => rfl
    | some w =>
      have hpw : p ≠ w := fun heq => hpv (heq ▸ rfl)
      simp only [Tree.paint, setRed_node_of_ne hpw]
  have hyred : (t.node y).red = false := hy.red
  cases d with
  | left =>
    have hpl : ¬ (t.node p).left = some y := fun heq => ho (hne.symm.trans heq)
    have hyl : (t.node y).left = u := hy.near
    have hyr : (t.node y).right = v := hy.far
    have hured : t.isRed u = false := hu rfl
    simp only [ocfRbTreeFixDoubleBlack, hparent, hsib, hyred, hyl, hyr, hured, hv, hpl, if_true,
      if_false, Bool.false_eq_true, hpaint]
    rfl
  | right =>
    have hpl : (t.node p).left = some y := hp
    have hyl : (t.node y).left = v := hy.far
    simp only [ocfRbTreeFixDoubleBlack, hparent, hsib, hyred, hyl, hv, hpl, if_true, if_false,
      Bool.false_eq_true, hpaint]
    rfl

/-- The sibling and its children are black. -/
theorem fixDoubleBlack_both {u v : Option ι} (hsib : ocfRbTreeSibling t x = some y)
    (hy : NodeIs (t.node y) false d u v (some p)) (hu : t.isRed u = false) (hv : t.isRed v = false)
    (hyp : p ≠ y) (n : Nat) : ocfRbTreeFixDoubleBlack (n + 1) t x =
      if (t.node p).red = false then ocfRbTreeFixDoubleBlack n (t.setRed y true) p
      else some ((t.setRed y true).setRed p false) := by
  have hyred : (t.node y).red = false := hy.red
  have hkeep : ((t.setRed y true).node p).red = (t.node p).red := by
    rw [setRed_node_of_ne hyp]
  cases d with
  | left =>
    have hyl : (t.node y).left = u := hy.near
    have hyr : (t.node y).right = v := hy.far
    simp only [ocfRbTreeFixDoubleBlack, hparent, hsib, hyred, hyl, hyr, hu, hv, if_false,
      Bool.false_eq_true, hkeep]
  | right =>
    have hyr : (t.node y).right = u := hy.near
    have hyl : (t.node y).left = v := hy.far
    simp only [ocfRbTreeFixDoubleBlack, hparent, hsib, hyred, hyl, hyr, hu, hv, if_false,
      Bool.false_eq_true, hkeep]

end

/-- Below these frames a missing black node is made up for: with a subtree in
the place that has `n` black nodes on its paths where `n + 1` fit, what is above
the place becomes a tree that such a subtree completes. -/
def Repairs (fs : List (Frame ι)) : Prop :=
  ∀ (t : Tree ι) (s : Shape ι) (x : ι) (n : Nat), Represents t (plug s fs) → s.root = some x →
    Fits fs (n + 1) → ∃ t' fs', Returns (fun k => ocfRbTreeFixDoubleBlack k t x) t' ∧
      Represents t' (plug s fs') ∧
      (∀ s' : Shape ι, s'.Bal n → s'.isRed = false → (plug s' fs').IsRb) ∧
      (∀ s' : Shape ι, (plug s' fs').inorder = (plug s' fs).inorder) ∧
      Keeps (plug s fs).inorder t t'

theorem repairs_nil : Repairs ([] : List (Frame ι)) := by
  intro t s x n h hx _
  refine ⟨t, [], Returns.last fun k => ?_, h, fun s' hs hblack => ⟨hblack, n, hs⟩, fun _ => rfl,
    Keeps.refl ..⟩
  obtain ⟨a, b, hs⟩ := exists_root_branch .left hx
  rw [hs] at h
  have hparent : (t.node x).parent = none := h.nodeIs.parent
  simp only [ocfRbTreeFixDoubleBlack, hparent]

/-- The missing node is made up for below these frames. -/
def MadeUp (t : Tree ι) (s : Shape ι) (x : ι) (n : Nat) (fs : List (Frame ι)) : Prop :=
  ∃ t' fs', Returns (fun k => ocfRbTreeFixDoubleBlack k t x) t' ∧ Represents t' (plug s fs') ∧
    (∀ s' : Shape ι, s'.Bal n → s'.isRed = false → (plug s' fs').IsRb) ∧
    (∀ s' : Shape ι, (plug s' fs').inorder = (plug s' fs).inorder) ∧ Keeps (plug s fs).inorder t t'

section BlackSibling

variable {t : Tree ι} {s u v : Shape ι} {d : Side} {c : Bool} {x p y : ι} {n : Nat}
  {fs : List (Frame ι)}

omit [DecidableEq ι] in
/-- The sibling is on the other side of the parent only. -/
theorem Represents.sibling_far {e : Bool} (h : Represents t (plug s (⟨d, c, p, branch d e u y v⟩ :: fs))) :
    (t.node p).child d.other = some y ∧ s.root ≠ some y := by
  refine ⟨h.frame.far.trans (root_branch ..), fun heq => ?_⟩
  have hyne := h.sib_ne (root_mem heq)
  exact hyne (root_branch ..)

omit [DecidableEq ι] in
/-- A nephew above the parent in its place, both black below. -/
theorem isRb_raised {a w : Shape ι} {z : ι} (ha : a.Bal n) (hu : u.Bal n)
    (hfar : (branch d false v z w).Bal (n + 1)) (hred : c = true → RedOk fs)
    (hfs : Fits fs (if c then n + 1 else n + 2)) :
    (plug (branch d c (branch d false a p u) y (branch d false v z w)) fs).IsRb := by
  refine isRb_plug.mpr ⟨if c then n + 1 else n + 2, ?_, hfs, fun hc => hred ?_⟩
  · exact bal_branch (bal_branch_black.mpr ⟨ha, hu⟩) hfar fun _ => ⟨isRed_branch .., isRed_branch ..⟩
  · exact (isRed_branch ..).symm.trans hc

section

variable (h : Represents t (plug s (⟨d, c, p, branch d false u y v⟩ :: fs)))
include h

/-- A red outer nephew becomes black, and the sibling takes the place of the parent. -/
theorem repairs_outer
    (hx : s.root = some x) (hu : u.Bal n) (hv : v.Bal n) (hred : c = true → RedOk fs)
    (hfs : Fits fs (if c then n + 1 else n + 2)) (hvred : v.isRed = true)
    (hured : d = .left → u.isRed = false) :
    MadeUp t s x n (⟨d, c, p, branch d false u y v⟩ :: fs) := by
  obtain ⟨hparent, hsib⟩ := h.sibling hx
  rw [root_branch] at hsib
  obtain ⟨hy, hut, hvt⟩ := h.nephews
  have hp := h.frame
  have hvleaf : v ≠ leaf := by
    rintro rfl
    simp at hvred
  obtain ⟨cv, v₁, z, v₂, rfl⟩ := exists_branch d hvleaf
  rw [isRed_branch] at hvred
  subst hvred
  obtain ⟨-, hv₁, hv₂⟩ := bal_branch_red.mp hv
  obtain ⟨t₁, ht₁⟩ : ∃ t₁, t₁ = t.setRed z false := ⟨_, rfl⟩
  obtain ⟨t₂, ht₂⟩ : ∃ t₂, t₂ = t₁.setRed y c := ⟨_, rfl⟩
  -- the nephew, seen from its own place
  have hnephew : ∀ e e' : Bool, plug (branch d e v₁ z v₂) (⟨d.other, e', y, u⟩ :: ⟨d.other, c, p, s⟩ :: fs) =
      plug s (⟨d, c, p, branch d e' u y (branch d e v₁ z v₂)⟩ :: fs) := by
    intro e e'
    rw [plug_cons, branch_other, plug_cons, branch_other]
    rfl
  have hsibling : ∀ e e' : Bool, plug (branch d e' u y (branch d e v₁ z v₂)) (⟨d.other, c, p, s⟩ :: fs) =
      plug s (⟨d, c, p, branch d e' u y (branch d e v₁ z v₂)⟩ :: fs) := by
    intro e e'
    rw [plug_cons, branch_other]
    rfl
  have hrep₁ : Represents t₁ (plug s (⟨d, c, p, branch d false u y (branch d false v₁ z v₂)⟩ :: fs)) := by
    rw [← hnephew true] at h
    rw [← hnephew false, ht₁]
    exact h.setRed
  have hrep₂ : Represents t₂ (plug s (⟨d, c, p, branch d c u y (branch d false v₁ z v₂)⟩ :: fs)) := by
    rw [← hsibling] at hrep₁
    rw [← hsibling, ht₂]
    exact hrep₁.setRed
  obtain ⟨t₃, hrun, hrep₃, hkeeps₃⟩ := Represents.rotate (a := s) (x := p) hrep₂
  have hrep₄ : Represents (t₃.setRed p false)
      (plug (branch d false s p u) (⟨d, c, y, branch d false v₁ z v₂⟩ :: fs)) :=
    Represents.setRed (c := c) hrep₃
  have hpz : (branch d true v₁ z v₂).root ≠ some p := by
    intro heq
    have hmem : p ∈ (branch d false u y (branch d true v₁ z v₂)).inorder :=
      mem_inorder_branch.mpr (Or.inr (Or.inr (root_mem heq)))
    have hnodup : (branch d c s p (branch d false u y (branch d true v₁ z v₂))).inorder.Nodup :=
      (represents_plug.mp (show Represents t (plug (branch d c s p _) fs) from h)).2.1
    exact (nodup_branch.mp hnodup).1.2 hmem
  refine ⟨t₃.setRed p false, ⟨d, false, p, u⟩ :: ⟨d, c, y, branch d false v₁ z v₂⟩ :: fs,
    Returns.last fun k => ?_, hrep₄, fun s' hs hblack => ?_, fun s' => ?_, ?_⟩
  · obtain ⟨hfar, hne⟩ := h.sibling_far
    rw [fixDoubleBlack_outer hparent hsib hfar hp.near hne hy (hvt.trans (isRed_branch ..))
      (fun hd => hut.trans (hured hd)) hpz, hp.red, root_branch]
    simp only [Tree.paint]
    rw [← ht₁, ← ht₂, hrun, Option.map_some]
  · exact isRb_raised hs hu (bal_branch_black.mpr ⟨hv₁, hv₂⟩) hred hfs
  · refine inorder_plug_congr fs ((inorder_rotate d false c c false s' u _ p y).trans ?_)
    refine inorder_branch_congr d c c p rfl (inorder_branch_congr d _ _ y rfl ?_)
    exact inorder_branch_congr d _ _ z rfl rfl
  · have hmem : ∀ w, w = p ∨ w = y ∨ w = z →
        w ∈ (plug s (⟨d, c, p, branch d false u y (branch d true v₁ z v₂)⟩ :: fs)).inorder := by
      simp only [mem_inorder_plug, names, List.mem_append, List.mem_cons, mem_inorder_branch]
      tauto
    have hlist : (plug (branch d c s p (branch d c u y (branch d false v₁ z v₂))) fs).inorder =
        (plug s (⟨d, c, p, branch d false u y (branch d true v₁ z v₂)⟩ :: fs)).inorder := by
      refine inorder_plug_congr fs (inorder_branch_congr d c c p rfl ?_)
      exact inorder_branch_congr d _ _ y rfl (inorder_branch_congr d _ _ z rfl rfl)
    rw [hlist] at hkeeps₃
    have hkeeps₁ := keeps_setRed t false (hmem z (by simp))
    have hkeeps₂ := keeps_setRed t₁ c (hmem y (by simp))
    rw [← ht₁] at hkeeps₁
    rw [← ht₂] at hkeeps₂
    exact ((hkeeps₁.trans hkeeps₂).trans hkeeps₃).trans (keeps_setRed t₃ false (hmem p (by simp)))

/-- A red inner nephew takes the place of the parent. -/
theorem repairs_inner
    (hx : s.root = some x) (hu : u.Bal n) (hv : v.Bal n) (hred : c = true → RedOk fs)
    (hfs : Fits fs (if c then n + 1 else n + 2)) (hured : u.isRed = true)
    (hvred : d = .right → v.isRed = false) :
    MadeUp t s x n (⟨d, c, p, branch d false u y v⟩ :: fs) := by
  obtain ⟨hparent, hsib⟩ := h.sibling hx
  rw [root_branch] at hsib
  obtain ⟨hy, hut, hvt⟩ := h.nephews
  have hp := h.frame
  have huleaf : u ≠ leaf := by
    rintro rfl
    simp at hured
  obtain ⟨cu, u₁, z, u₂, rfl⟩ := exists_branch d huleaf
  rw [isRed_branch] at hured
  subst hured
  obtain ⟨-, hu₁, hu₂⟩ := bal_branch_red.mp hu
  obtain ⟨t₁, ht₁⟩ : ∃ t₁, t₁ = t.setRed z c := ⟨_, rfl⟩
  -- the nephew and the sibling, seen from their own places
  have hnephew : ∀ e : Bool, plug (branch d e u₁ z u₂) (⟨d, false, y, v⟩ :: ⟨d.other, c, p, s⟩ :: fs) =
      plug s (⟨d, c, p, branch d false (branch d e u₁ z u₂) y v⟩ :: fs) := by
    intro e
    rw [plug_cons, plug_cons, branch_other]
    rfl
  have hsibling : plug (branch d.other false v y (branch d.other c u₂ z u₁)) (⟨d.other, c, p, s⟩ :: fs) =
      plug s (⟨d, c, p, branch d false (branch d c u₁ z u₂) y v⟩ :: fs) := by
    rw [plug_cons, branch_other, branch_other, branch_other]
    rfl
  have hrep₁ : Represents t₁
      (plug (branch d.other false v y (branch d.other c u₂ z u₁)) (⟨d.other, c, p, s⟩ :: fs)) := by
    rw [← hnephew] at h
    rw [hsibling, ← hnephew, ht₁]
    exact h.setRed
  obtain ⟨t₂, hrun₂, hrep₂, hkeeps₂⟩ := hrep₁.rotate
  have hrep₂' : Represents t₂
      (plug (branch d c s p (branch d c u₁ z (branch d false u₂ y v))) fs) := by
    rw [plug_cons, branch_other, branch_other, branch_other] at hrep₂
    exact hrep₂
  obtain ⟨t₃, hrun₃, hrep₃, hkeeps₃⟩ := hrep₂'.rotate
  have hrep₄ : Represents (t₃.setRed p false)
      (plug (branch d false s p u₁) (⟨d, c, z, branch d false u₂ y v⟩ :: fs)) :=
    Represents.setRed (c := c) hrep₃
  refine ⟨t₃.setRed p false, ⟨d, false, p, u₁⟩ :: ⟨d, c, z, branch d false u₂ y v⟩ :: fs,
    Returns.last fun k => ?_, hrep₄, fun s' hs hblack => ?_, fun s' => ?_, ?_⟩
  · obtain ⟨hfar, hne⟩ := h.sibling_far
    rw [fixDoubleBlack_inner hparent hsib hfar hp.near hne hy (hut.trans (isRed_branch ..))
      (fun hd => hvt.trans (hvred hd)), hp.red, root_branch]
    simp only [Tree.paint]
    rw [← ht₁, hrun₂, Option.bind_some, hrun₃, Option.map_some]
  · exact isRb_raised hs hu₁ (bal_branch_black.mpr ⟨hu₂, hv⟩) hred hfs
  · refine inorder_plug_congr fs ((inorder_rotate d false c c c s' u₁ _ p z).trans ?_)
    exact inorder_branch_congr d c c p rfl (inorder_rotate d true c false false u₁ u₂ v z y).symm
  · have hmem : ∀ w, w = p ∨ w = z →
        w ∈ (plug s (⟨d, c, p, branch d false (branch d true u₁ z u₂) y v⟩ :: fs)).inorder := by
      simp only [mem_inorder_plug, names, List.mem_append, List.mem_cons, mem_inorder_branch]
      tauto
    have hlist₂ : (plug (branch d.other false v y (branch d.other c u₂ z u₁))
        (⟨d.other, c, p, s⟩ :: fs)).inorder =
        (plug s (⟨d, c, p, branch d false (branch d true u₁ z u₂) y v⟩ :: fs)).inorder := by
      rw [hsibling]
      refine inorder_plug_congr fs (inorder_branch_congr d c c p rfl ?_)
      exact inorder_branch_congr d _ _ y (inorder_branch_congr d _ _ z rfl rfl) rfl
    have hlist₃ : (plug (branch d c s p (branch d c u₁ z (branch d false u₂ y v))) fs).inorder =
        (plug s (⟨d, c, p, branch d false (branch d true u₁ z u₂) y v⟩ :: fs)).inorder := by
      refine inorder_plug_congr fs (inorder_branch_congr d c c p rfl ?_)
      exact (inorder_rotate d true c false false u₁ u₂ v z y).symm
    rw [hlist₂] at hkeeps₂
    rw [hlist₃] at hkeeps₃
    have hkeeps₁ := keeps_setRed t c (hmem z (by simp))
    rw [← ht₁] at hkeeps₁
    exact ((hkeeps₁.trans hkeeps₂).trans hkeeps₃).trans (keeps_setRed t₃ false (hmem p (by simp)))

/-- Without a red nephew the sibling becomes red: a red parent becomes black,
below a black one the black node is missing one level higher. -/
theorem repairs_both (hx : s.root = some x) (hu : u.Bal n) (hv : v.Bal n)
    (hfs : Fits fs (if c then n + 1 else n + 2)) (hured : u.isRed = false) (hvred : v.isRed = false)
    (hup : c = false → Repairs fs) : MadeUp t s x n (⟨d, c, p, branch d false u y v⟩ :: fs) := by
  obtain ⟨hparent, hsib⟩ := h.sibling hx
  rw [root_branch] at hsib
  obtain ⟨hy, hut, hvt⟩ := h.nephews
  have hp := h.frame
  have hsibling : ∀ e : Bool, plug (branch d e u y v) (⟨d.other, c, p, s⟩ :: fs) =
      plug s (⟨d, c, p, branch d e u y v⟩ :: fs) := by
    intro e
    rw [plug_cons, branch_other]
    rfl
  have hrep₁ : Represents (t.setRed y true) (plug s (⟨d, c, p, branch d true u y v⟩ :: fs)) := by
    rw [← hsibling] at h
    rw [← hsibling]
    exact h.setRed
  have hyp : p ≠ y := by
    rintro rfl
    have hnodup : (branch d c s p (branch d false u p v)).inorder.Nodup :=
      (represents_plug.mp (show Represents t (plug (branch d c s p _) fs) from h)).2.1
    exact (nodup_branch.mp hnodup).1.2 (mem_inorder_branch.mpr (Or.inl rfl))
  have hmem : ∀ w, w = p ∨ w = y →
      w ∈ (plug s (⟨d, c, p, branch d false u y v⟩ :: fs)).inorder := by
    simp only [mem_inorder_plug, names, List.mem_append, List.mem_cons, mem_inorder_branch]
    tauto
  have hkeeps₁ := keeps_setRed t true (hmem y (by simp))
  have hstep := fun k => fixDoubleBlack_both hparent hsib hy (hut.trans hured) (hvt.trans hvred) hyp k
  have hpred : (t.node p).red = c := hp.red
  have hlist : ∀ (s' : Shape ι) (c' : Bool), (branch d c' s' p (branch d true u y v)).inorder =
      (branch d c s' p (branch d false u y v)).inorder := fun s' c' =>
    inorder_branch_congr d c' c p rfl (inorder_branch_congr d _ _ y rfl rfl)
  cases c with
  | true =>
    refine ⟨(t.setRed y true).setRed p false, ⟨d, false, p, branch d true u y v⟩ :: fs,
      Returns.last fun k => ?_, Represents.setRed (c := true) hrep₁, fun s' hs hblack => ?_,
      fun s' => inorder_plug_congr fs (hlist s' false),
      hkeeps₁.trans (keeps_setRed _ false (hmem p (by simp)))⟩
    · rw [hstep, hpred]
      rfl
    · have hnew : (branch d false s' p (branch d true u y v)).Bal (n + 1) :=
        bal_branch_black.mpr ⟨hs, bal_branch_red.mpr ⟨⟨hured, hvred⟩, hu, hv⟩⟩
      change (plug (branch d false s' p (branch d true u y v)) fs).IsRb
      exact isRb_plug.mpr ⟨n + 1, hnew, hfs, fun hcontra => by simp at hcontra⟩
  | false =>
    obtain ⟨t', fs', hrun, hrep', hrb, hinorder, hkeeps⟩ := hup rfl (t.setRed y true)
      (branch d false s p (branch d true u y v)) p (n + 1) hrep₁ (root_branch ..) hfs
    have hinorder₁ : (plug (branch d false s p (branch d true u y v)) fs).inorder =
        (plug s (⟨d, false, p, branch d false u y v⟩ :: fs)).inorder :=
      inorder_plug_congr fs (hlist s false)
    rw [hinorder₁] at hkeeps
    refine ⟨t', ⟨d, false, p, branch d true u y v⟩ :: fs', hrun.succ fun k hk => ?_, hrep',
      fun s' hs hblack => ?_, fun s' => ?_, hkeeps₁.trans hkeeps⟩
    · rw [hstep, hpred, if_pos rfl]
      exact hk
    · refine hrb _ ?_ (isRed_branch ..)
      exact bal_branch_black.mpr ⟨hs, bal_branch_red.mpr ⟨⟨hured, hvred⟩, hu, hv⟩⟩
    · exact (hinorder _).trans (inorder_plug_congr fs (hlist s' false))

theorem repairs_black
    (hx : s.root = some x) (hu : u.Bal n) (hv : v.Bal n) (hred : c = true → RedOk fs)
    (hfs : Fits fs (if c then n + 1 else n + 2)) (hup : c = false → Repairs fs) :
    MadeUp t s x n (⟨d, c, p, branch d false u y v⟩ :: fs) := by
  cases hured : u.isRed with
  | false =>
    cases hvred : v.isRed with
    | false => exact repairs_both h hx hu hv hfs hured hvred hup
    | true => exact repairs_outer h hx hu hv hred hfs hvred fun _ => hured
  | true =>
    cases hvred : v.isRed with
    | false => exact repairs_inner h hx hu hv hred hfs hured fun _ => hvred
    | true =>
      -- the left child of the sibling is looked at first
      cases hd : d with
      | left =>
        subst hd
        exact repairs_inner h hx hu hv hred hfs hured fun hside => by simp at hside
      | right =>
        subst hd
        exact repairs_outer h hx hu hv hred hfs hvred fun hside => by simp at hside

end

end BlackSibling

/-- One round of the repair: it ends or moves up. -/
theorem repairs_cons (f : Frame ι) (ih : Repairs fs) : Repairs (f :: fs) := by
  intro t s x n h hx hfits
  obtain ⟨d, c, p, b⟩ := f
  obtain ⟨hbBal, hbred, hfs⟩ := hfits
  have hb : b.Bal (n + 1) := hbBal
  obtain ⟨e, u, y, v, rfl⟩ := exists_branch d hb.ne_leaf
  have hok : c = true → e = false ∧ RedOk fs := fun hc =>
    ⟨(isRed_branch ..).symm.trans (hbred hc).1, (hbred hc).2⟩
  cases e with
  | false =>
    obtain ⟨hu, hv⟩ := bal_branch_black.mp hb
    exact repairs_black h hx hu hv (fun hc => (hok hc).2) hfs fun _ => ih
  | true =>
    have hc : c = false := by
      cases c with
      | false => rfl
      | true => exact absurd (hok rfl).1 (by decide)
    subst hc
    obtain ⟨⟨hublack, hvblack⟩, hu, hv⟩ := bal_branch_red.mp hb
    have hfitsUp : Fits fs (n + 2) := hfs
    obtain ⟨hparent, hsib⟩ := h.sibling hx
    rw [root_branch] at hsib
    obtain ⟨hy, hut, hvt⟩ := h.nephews
    have hp := h.frame
    obtain ⟨t₁, ht₁⟩ : ∃ t₁, t₁ = t.setRed p true := ⟨_, rfl⟩
    obtain ⟨t₂, ht₂⟩ : ∃ t₂, t₂ = t₁.setRed y false := ⟨_, rfl⟩
    have hsibling : ∀ e : Bool, plug (branch d e u y v) (⟨d.other, true, p, s⟩ :: fs) =
        plug (branch d true s p (branch d e u y v)) fs := by
      intro e
      rw [plug_cons, branch_other]
    have hrep₁ : Represents t₁ (plug (branch d true s p (branch d true u y v)) fs) := by
      rw [ht₁]
      exact Represents.setRed (c := false) h
    have hrep₂ : Represents t₂ (plug (branch d true s p (branch d false u y v)) fs) := by
      rw [← hsibling] at hrep₁
      rw [← hsibling, ht₂]
      exact hrep₁.setRed
    obtain ⟨t₃, hrun₃, hrep₃, hkeeps₃⟩ := hrep₂.rotate
    have hublackBal := hu
    obtain ⟨cu, u₁, z, u₂, rfl⟩ := exists_branch d hu.ne_leaf
    rw [isRed_branch] at hublack
    subst hublack
    obtain ⟨hu₁, hu₂⟩ := bal_branch_black.mp hu
    have hplace : Represents t₃
        (plug s (⟨d, true, p, branch d false u₁ z u₂⟩ :: ⟨d, false, y, v⟩ :: fs)) := hrep₃
    have hfitsNew : Fits (⟨d, false, y, v⟩ :: fs) (n + 1) :=
      ⟨hv, fun hcontra => by simp at hcontra, hfitsUp⟩
    obtain ⟨t', fs', hrun, hrep', hrb, hinorder, hkeeps⟩ := repairs_black hplace hx hu₁ hu₂
      (fun _ => rfl) hfitsNew fun hcontra => by simp at hcontra
    have hlist : ∀ s' : Shape ι,
        (plug s' (⟨d, true, p, branch d false u₁ z u₂⟩ :: ⟨d, false, y, v⟩ :: fs)).inorder =
        (plug s' (⟨d, false, p, branch d true (branch d false u₁ z u₂) y v⟩ :: fs)).inorder :=
      fun s' => inorder_plug_congr fs (inorder_rotate d true false false true s' _ v p y)
    have hmem : ∀ w, w = p ∨ w = y →
        w ∈ (plug s (⟨d, false, p, branch d true (branch d false u₁ z u₂) y v⟩ :: fs)).inorder := by
      simp only [mem_inorder_plug, names, List.mem_append, List.mem_cons, mem_inorder_branch]
      tauto
    have hlist₂ : (plug (branch d true s p (branch d false (branch d false u₁ z u₂) y v)) fs).inorder =
        (plug s (⟨d, false, p, branch d true (branch d false u₁ z u₂) y v⟩ :: fs)).inorder :=
      inorder_plug_congr fs
        (inorder_branch_congr d _ _ p rfl (inorder_branch_congr d _ _ y rfl rfl))
    rw [hlist₂] at hkeeps₃
    rw [hlist] at hkeeps
    have hkeeps₁ := keeps_setRed t true (hmem p (by simp))
    have hkeeps₂ := keeps_setRed t₁ false (hmem y (by simp))
    rw [← ht₁] at hkeeps₁
    rw [← ht₂] at hkeeps₂
    refine ⟨t', fs', hrun.succ fun k hk => ?_, hrep', hrb, fun s' => (hinorder s').trans (hlist s'),
      ((hkeeps₁.trans hkeeps₂).trans hkeeps₃).trans hkeeps⟩
    obtain ⟨hfar, hne⟩ := h.sibling_far
    rw [fixDoubleBlack_red hparent hsib hfar hp.near hne hy.red, ← ht₁, ← ht₂, hrun₃,
      Option.bind_some]
    exact hk

/-- `ocf_rb_tree_fix_double_black` makes up for a missing black node at every place. -/
theorem repairs (fs : List (Frame ι)) : Repairs fs := by
  induction fs with
  | nil => exact repairs_nil
  | cons f fs ih => exact repairs_cons f ih

end OcfCache.RbTree
