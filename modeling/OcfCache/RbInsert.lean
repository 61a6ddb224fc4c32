import OcfCache.RbSearch
import Mathlib.Data.List.Induction

/-!
# Insertion into the red-black tree

The loop that repairs two red nodes in a row ends at every place, and what it
leaves is balanced below a root of either colour. A node that is inserted
becomes a red leaf where the search ends, or an entry of the list of a node
that compares equal.
-/

namespace OcfCache.RbTree

open RbShapes RbShapes.Shape FuelLoops

variable {ι : Type*} [DecidableEq ι]

variable {t : Tree ι} {x : ι} {fs : List (Frame ι)} {s : Shape ι} {cmp : ι → ι → Int}

theorem fixViolationLoop_black (h : (t.node x).red = false) :
    Returns (fun n => fixViolationLoop n t x) t := by
  refine Returns.last fun n => ?_
  cases hp : (t.node x).parent with
  | none => simp only [fixViolationLoop, hp]
  | some p => simp only [fixViolationLoop, hp, h, true_or, if_true]

/-- The loop ends at the root and below a black parent. -/
theorem fixViolationLoop_parent (h : ∀ p, (t.node x).parent = some p → (t.node p).red = false) :
    Returns (fun n => fixViolationLoop n t x) t := by
  refine Returns.last fun n => ?_
  cases hp : (t.node x).parent with
  | none => simp only [fixViolationLoop, hp]
  | some p => simp only [fixViolationLoop, hp, h p hp, or_true, if_true]

/-- A round of the loop, up to the side of the parent. -/
theorem fixViolationLoop_step {p g : ι} {d : Side} {o : Option ι}
    (hx : (t.node x).red = true) (hparent : (t.node x).parent = some p)
    (hp : (t.node p).red = true) (hg : NodeIs (t.node g) false d (some p) o (t.node g).parent)
    (hpg : (t.node p).parent = some g) (ho : o ≠ some p) (n : Nat) : fixViolationLoop (n + 1) t x =
      if t.isRed o then
        fixViolationLoop n (((t.setRed g true).setRed p false).paint o false) g
      else if (t.node p).child d.other = some x then
        (rotate d t p).bind fun t => fixViolationLoop n t p else
        (rotate d.other t g).bind fun t => fixViolationLoop n (t.swapRed p g) p := by
  have hnot : ¬ ((t.node x).red = false ∨ (t.node p).red = false) := by simp [hx, hp]
  cases d with
  | left =>
    have hleft : (t.node g).left = some p := hg.near
    have hright : (t.node g).right = o := hg.far
    simp only [fixViolationLoop, hparent, hnot, hpg, hleft, hright, if_true, if_false]
    rfl
  | right =>
    have hright : (t.node g).right = some p := hg.near
    have hleft : (t.node g).left = o := hg.far
    simp only [fixViolationLoop, hparent, hnot, hpg, hleft, ho, if_false]
    rfl

/-- Two nodes exchange their colours: the first one was the parent. -/
theorem Represents.swapRed {d : Side} {c e : Bool} {a b w : Shape ι} {y : ι}
    (h : Represents t (plug (branch d e (branch d c a x b) y w) fs)) :
    Represents (t.swapRed y x) (plug (branch d c (branch d e a x b) y w) fs) := by
  have hy := h.nodeIs
  have hbelow : Represents t (plug (branch d c a x b) (⟨d, e, y, w⟩ :: fs)) := h
  have hx := hbelow.nodeIs
  have hnew : Represents (t.setRed y c) (plug (branch d c (branch d c a x b) y w) fs) := h.setRed
  have hnewBelow : Represents (t.setRed y c) (plug (branch d c a x b) (⟨d, c, y, w⟩ :: fs)) := hnew
  have hlast : Represents ((t.setRed y c).setRed x e)
      (plug (branch d e a x b) (⟨d, c, y, w⟩ :: fs)) := hnewBelow.setRed
  have hrun : t.swapRed y x = (t.setRed y c).setRed x e := by
    simp only [Tree.swapRed, hy.red, hx.red]
  rw [hrun]
  exact hlast

/-- The last rotation: the red parent of a red node on the same side gets
above the black grandparent and takes its colour. -/
theorem fixViolationLoop_outer {d : Side} {b u : Shape ι} {p g : ι}
    (h : Represents t (plug s (⟨d, true, p, b⟩ :: ⟨d, false, g, u⟩ :: fs)))
    (hx : s.root = some x) (hred : s.isRed = true) (hu : u.isRed = false) :
    ∃ t', Returns (fun n => fixViolationLoop n t x) t' ∧
      Represents t' (plug (branch d false s p (branch d true b g u)) fs) ∧
      Keeps (plug s (⟨d, true, p, b⟩ :: ⟨d, false, g, u⟩ :: fs)).inorder t t' := by
  have hrep := (represents_plug.mp h).1.2
  have hp := h.frame
  have hparent : Represents t (plug (branch d true s p b) (⟨d, false, g, u⟩ :: fs)) := h
  have hg := hparent.frame
  have hgrand : Represents t
      (plug (branch d.other false u g (branch d.other true b p s)) fs) := by
    rw [branch_other, branch_other]
    exact h
  obtain ⟨t₁, hrun, ht₁, hkeeps⟩ := hgrand.rotate
  have ht₂ : Represents (t₁.swapRed p g)
      (plug (branch d.other false (branch d.other true u g b) p s) fs) := ht₁.swapRed
  rw [branch_other, branch_other] at ht₂
  refine ⟨t₁.swapRed p g, ?_, ht₂, ?_⟩
  · have hxs : (t.node x).parent = some p ∧ (t.node x).red = true := by
      obtain ⟨a, w, hs⟩ := exists_root_branch d hx
      rw [hs] at h
      have hnode := h.nodeIs
      exact ⟨hnode.parent, hnode.red.trans hred⟩
    have hup : u.root ≠ some p := hparent.sib_ne (by simp)
    have huncle : t.isRed u.root = false := by
      have hrepU := (represents_plug.mp hparent).1.2.2.2.1
      exact hrepU.isRed.trans hu
    have hother : ¬ (t.node p).child d.other = some x := by
      rw [hp.far]
      exact h.sib_ne (root_mem hx)
    have hgNode : NodeIs (t.node g) false d (some p) u.root (t.node g).parent := by
      have hroot : (branch d true s p b).root = some p := root_branch ..
      exact ⟨hg.red, hg.near.trans hroot, hg.far, rfl⟩
    have hblack : ((t₁.swapRed p g).node p).red = false := ht₂.nodeIs.red
    refine (fixViolationLoop_black hblack).succ fun n hn => ?_
    rw [fixViolationLoop_step hxs.2 hxs.1 hp.red hgNode hp.parent hup]
    simp only [huncle, hother, Bool.false_eq_true, if_false, hrun, Option.bind_some]
    exact hn
  · have hmem : ∀ z, z = p ∨ z = g →
        z ∈ (plug s (⟨d, true, p, b⟩ :: ⟨d, false, g, u⟩ :: fs)).inorder := by
      simp only [mem_inorder_plug, names, List.mem_append, List.mem_cons]
      tauto
    have hlist : (plug (branch d.other false u g (branch d.other true b p s)) fs).inorder =
        (plug s (⟨d, true, p, b⟩ :: ⟨d, false, g, u⟩ :: fs)).inorder := by
      rw [branch_other, branch_other]
      rfl
    rw [hlist] at hkeeps
    exact (hkeeps.trans (keeps_setRed t₁ _ (hmem p (Or.inl rfl)))).trans
      (keeps_setRed _ _ (hmem g (Or.inr rfl)))

/-- What the loop leaves is balanced, and the order is the old one. -/
theorem fixViolationLoop_spec (fs : List (Frame ι)) {n : Nat}
    (h : Represents t (plug s fs)) (hx : s.root = some x) (hred : s.isRed = true) (hs : s.Bal n)
    (hfs : Fits fs n) : ∃ t' s', Returns (fun k => fixViolationLoop k t x) t' ∧ Represents t' s' ∧
      s'.inorder = (plug s fs).inorder ∧ (∃ m, s'.Bal m) ∧ Keeps (plug s fs).inorder t t' := by
  induction fs using List.twoStepInduction generalizing t s x n with
  | nil =>
    refine ⟨t, s, fixViolationLoop_parent ?_, h, rfl, ⟨n, hs⟩, Keeps.refl ..⟩
    intro p hp
    obtain ⟨a, b, hbranch⟩ := exists_root_branch .left hx
    rw [hbranch] at h
    simp [h.nodeIs.parent, top] at hp
  | singleton f =>
    have hblack : f.red = false := by
      cases hf : f.red with
      | false => rfl
      | true => exact absurd (hfs.2.1 hf).2 id
    have hrb : (plug s [f]).IsRb := isRb_plug.mpr ⟨n, hs, hfs, fun _ => hblack⟩
    refine ⟨t, plug s [f], fixViolationLoop_parent ?_, h, rfl, hrb.2, Keeps.refl ..⟩
    intro p hp
    obtain ⟨a, b, hbranch⟩ := exists_root_branch .left hx
    have hnode : (t.node x).parent = some f.x := by
      rw [hbranch] at h
      exact h.nodeIs.parent
    have hpf : f.x = p := Option.some.inj (hnode.symm.trans hp)
    rw [← hpf, h.frame.red, hblack]
  | cons_cons f₁ f₂ fs ih _ =>
    obtain ⟨d₁, c₁, p, b⟩ := f₁
    obtain ⟨d, c, g, u⟩ := f₂
    have hnode : (t.node x).parent = some p ∧ (t.node x).red = true := by
      obtain ⟨a, w, hbranch⟩ := exists_root_branch d hx
      rw [hbranch] at h
      exact ⟨h.nodeIs.parent, h.nodeIs.red.trans hred⟩
    have hp := h.frame
    cases c₁ with
    | false =>
      have hrb : (plug s (⟨d₁, false, p, b⟩ :: ⟨d, c, g, u⟩ :: fs)).IsRb :=
        isRb_plug.mpr ⟨n, hs, hfs, fun _ => rfl⟩
      refine ⟨t, _, fixViolationLoop_parent ?_, h, rfl, hrb.2, Keeps.refl ..⟩
      intro q hq
      have hpq : p = q := Option.some.inj (hnode.1.symm.trans hq)
      rw [← hpq]
      exact hp.red
    | true =>
      obtain ⟨hb, hbred, hfits⟩ := hfs
      obtain ⟨hbblack, hok⟩ := hbred rfl
      have hc : c = false := hok
      subst hc
      obtain ⟨hu, -, hfits⟩ := hfits
      have hfitsUp : Fits fs (n + 1) := hfits
      have huBal : u.Bal n := hu
      have hparent : Represents t (plug (branch d₁ true s p b) (⟨d, false, g, u⟩ :: fs)) := h
      have hg := hparent.frame
      have hup : u.root ≠ some p := hparent.sib_ne (by simp)
      have hgNode : NodeIs (t.node g) false d (some p) u.root (t.node g).parent := by
        have hroot : (branch d₁ true s p b).root = some p := root_branch ..
        exact ⟨hg.red, hg.near.trans hroot, hg.far, rfl⟩
      have huncle : t.isRed u.root = u.isRed := ((represents_plug.mp hparent).1.2.2.2.1).isRed
      cases hured : u.isRed with
      | true =>
        -- the uncle is red: two levels up
        have huleaf : u ≠ leaf := by
          rintro rfl
          simp at hured
        obtain ⟨cu, v, y, w, rfl⟩ := exists_branch d huleaf
        rw [isRed_branch] at hured
        subst hured
        obtain ⟨-, hv, hw⟩ := bal_branch_red.mp huBal
        obtain ⟨t₁, ht₁⟩ : ∃ t₁, t₁ = t.setRed g true := ⟨_, rfl⟩
        obtain ⟨t₂, ht₂⟩ : ∃ t₂, t₂ = t₁.setRed p false := ⟨_, rfl⟩
        obtain ⟨t₃, ht₃⟩ : ∃ t₃, t₃ = t₂.setRed y false := ⟨_, rfl⟩
        have hrep₁ : Represents t₁
            (plug (branch d true (branch d₁ true s p b) g (branch d true v y w)) fs) := by
          rw [ht₁]
          exact Represents.setRed (c := false) h
        have hrep₂ : Represents t₂
            (plug (branch d₁ false s p b) (⟨d, true, g, branch d true v y w⟩ :: fs)) := by
          rw [ht₂]
          exact Represents.setRed (c := true) hrep₁
        have hrep₃ : Represents t₃
            (plug (branch d true (branch d₁ false s p b) g (branch d false v y w)) fs) := by
          have hother : Represents t₂
              (plug (branch d true v y w) (⟨d.other, true, g, branch d₁ false s p b⟩ :: fs)) := by
            rw [plug_cons, branch_other]
            exact hrep₂
          have hset : Represents (t₂.setRed y false)
              (plug (branch d false v y w) (⟨d.other, true, g, branch d₁ false s p b⟩ :: fs)) :=
            hother.setRed
          rw [plug_cons, branch_other, ← ht₃] at hset
          exact hset
        have hbal : (branch d true (branch d₁ false s p b) g (branch d false v y w)).Bal (n + 1) := by
          refine bal_branch_red.mpr ⟨⟨isRed_branch .., isRed_branch ..⟩, ?_, ?_⟩
          · exact bal_branch_black.mpr ⟨hs, hb⟩
          · exact bal_branch_black.mpr ⟨hv, hw⟩
        have hlist : (plug (branch d true (branch d₁ false s p b) g (branch d false v y w)) fs).inorder =
            (plug s (⟨d₁, true, p, b⟩ :: ⟨d, false, g, branch d true v y w⟩ :: fs)).inorder := by
          refine inorder_plug_congr fs (inorder_branch_congr d _ _ g ?_ ?_)
          · exact inorder_branch_congr d₁ _ _ p rfl rfl
          · exact inorder_branch_congr d _ _ y rfl rfl
        obtain ⟨t', s', hrun, hrep', hinorder, hbal', hkeeps⟩ :=
          ih hrep₃ (root_branch ..) (isRed_branch ..) hbal hfitsUp
        have hmem : ∀ z, z = p ∨ z = g ∨ z = y →
            z ∈ (plug s (⟨d₁, true, p, b⟩ :: ⟨d, false, g, branch d true v y w⟩ :: fs)).inorder := by
          simp only [mem_inorder_plug, names, List.mem_append, List.mem_cons, mem_inorder_branch]
          tauto
        have hkeeps₁ := keeps_setRed t true (hmem g (by simp))
        have hkeeps₂ := keeps_setRed t₁ false (hmem p (by simp))
        have hkeeps₃ := keeps_setRed t₂ false (hmem y (by simp))
        rw [← ht₁] at hkeeps₁
        rw [← ht₂] at hkeeps₂
        rw [← ht₃] at hkeeps₃
        rw [hlist] at hkeeps
        refine ⟨t', s', hrun.succ fun k hk => ?_, hrep', hinorder.trans hlist, hbal',
          ((hkeeps₁.trans hkeeps₂).trans hkeeps₃).trans hkeeps⟩
        rw [fixViolationLoop_step hnode.2 hnode.1 hp.red hgNode hp.parent hup, if_pos (by
          rw [huncle, isRed_branch]), root_branch]
        simp only [Tree.paint]
        rw [← ht₁, ← ht₂, ← ht₃]
        exact hk
      | false =>
        by_cases hside : d₁ = d
        · -- the outer grandchild
          subst hside
          obtain ⟨t', hrun, hrep', hkeeps⟩ := fixViolationLoop_outer h hx hred hured
          refine ⟨t', _, hrun, hrep', ?_, ?_, hkeeps⟩
          · exact inorder_plug_congr fs (inorder_rotate d₁ true false false true s b u p g).symm
          · have hrb : (plug (branch d₁ false s p (branch d₁ true b g u)) fs).IsRb := by
              refine isRb_plug.mpr ⟨n + 1, bal_branch_black.mpr ⟨hs, ?_⟩, hfitsUp, ?_⟩
              · exact bal_branch_red.mpr ⟨⟨hbblack, hured⟩, hb, huBal⟩
              · simp
            exact hrb.2
        · -- the inner grandchild becomes the parent, then the outer case
          have hd : d₁ = d.other := by
            cases d <;> cases d₁ <;> simp_all [Side.other]
          subst hd
          obtain ⟨a, w, hbranch⟩ := exists_root_branch d hx
          rw [hred] at hbranch
          subst hbranch
          obtain ⟨⟨hablack, hwblack⟩, ha, hw⟩ := bal_branch_red.mp hs
          have hrot : Represents t
              (plug (branch d true b p (branch d true a x w)) (⟨d, false, g, u⟩ :: fs)) := by
            rw [← branch_other d true b p]
            exact h
          obtain ⟨t₁, hrot₁, hrep₁, hkeeps₁⟩ := hrot.rotate
          have hplace : Represents t₁
              (plug (branch d true b p a) (⟨d, true, x, w⟩ :: ⟨d, false, g, u⟩ :: fs)) := hrep₁
          obtain ⟨t', hrun, hrep', hkeeps⟩ :=
            fixViolationLoop_outer hplace (root_branch ..) (isRed_branch ..) hured
          have hlist : (plug (branch d true b p a) (⟨d, true, x, w⟩ :: ⟨d, false, g, u⟩ :: fs)).inorder =
              (plug (branch d true a x w) (⟨d.other, true, p, b⟩ :: ⟨d, false, g, u⟩ :: fs)).inorder := by
            rw [plug_cons, plug_cons _ d.other, branch_other d true b p]
            exact inorder_plug_congr _ (inorder_rotate d true true true true b a w p x)
          have hlist₁ :
              (plug (branch d true b p (branch d true a x w)) (⟨d, false, g, u⟩ :: fs)).inorder =
              (plug (branch d true a x w) (⟨d.other, true, p, b⟩ :: ⟨d, false, g, u⟩ :: fs)).inorder := by
            rw [plug_cons _ d.other, branch_other d true b p]
          rw [hlist₁] at hkeeps₁
          rw [hlist] at hkeeps
          refine ⟨t', _, hrun.succ fun k hk => ?_, hrep', ?_, ?_, hkeeps₁.trans hkeeps⟩
          · have hfar : (t.node p).child d.other = some x := by
              have hnear := hp.near
              rw [root_branch] at hnear
              exact hnear
            rw [fixViolationLoop_step hnode.2 hnode.1 hp.red hgNode hp.parent hup, huncle, hured]
            simp only [Bool.false_eq_true, if_false, hfar, if_true, hrot₁, Option.bind_some]
            exact hk
          · rw [← hlist]
            exact inorder_plug_congr fs
              (inorder_rotate d true false false true (branch d true b p a) w u x g).symm
          · have hrb : (plug (branch d false (branch d true b p a) x (branch d true w g u)) fs).IsRb := by
              refine isRb_plug.mpr ⟨n + 1, bal_branch_black.mpr ⟨?_, ?_⟩, hfitsUp, ?_⟩
              · exact bal_branch_red.mpr ⟨⟨hbblack, hablack⟩, hb, ha⟩
              · exact bal_branch_red.mpr ⟨⟨hwblack, hured⟩, hw, huBal⟩
              · simp
            exact hrb.2

/-- `ocf_rb_tree_fix_violation` leaves a red-black tree with the old order. -/
theorem ocfRbTreeFixViolation_spec {n : Nat}
    (h : Represents t (plug s fs)) (hx : s.root = some x) (hred : s.isRed = true) (hs : s.Bal n)
    (hfs : Fits fs n) :
    ∃ t' s', Returns (fun k => ocfRbTreeFixViolation k t x) t' ∧ Represents t' s' ∧ s'.IsRb ∧
      s'.inorder = (plug s fs).inorder ∧ Keeps (plug s fs).inorder t t' := by
  obtain ⟨t₁, s₁, hrun, hrep, hlist, hbal, hkeeps⟩ := fixViolationLoop_spec fs h hx hred hs hfs
  have hmem : x ∈ s₁.inorder := by
    rw [hlist, mem_inorder_plug]
    exact Or.inl (root_mem hx)
  cases s₁ with
  | leaf => simp at hmem
  | node c l r w =>
    have hroot : t₁.root = some r := hrep.root
    have hpaint : Represents (t₁.setRed r false) (plug (branch .left false l r w) []) :=
      Represents.setRed (c := c) hrep
    obtain ⟨m, hm⟩ := hbal
    refine ⟨t₁.setRed r false, node false l r w, ?_, hpaint, hm.isRb_blacken, hlist,
      hkeeps.trans (keeps_setRed t₁ false ?_)⟩
    · refine (Returns.bind hrun (g := fun t _ => t.root.map fun root => t.setRed root false)
        (b := t₁.setRed r false) ⟨0, fun k _ => ?_⟩)
      rw [hroot]
      rfl
    · rw [← hlist]
      simp [inorder]

/-- What `ocf_rb_tree_insert` writes to a node before it looks at the tree. -/
def Tree.fresh (t : Tree ι) (x : ι) : Tree ι :=
  (((t.initList x).setLeft x none).setRight x none).setParent x none

theorem fresh_node_self (t : Tree ι) (x : ι) :
    (t.fresh x).node x = ⟨(t.node x).red, none, none, none, x, x⟩ := by
  simp [Tree.fresh, Tree.initList, Tree.setLeft, Tree.setRight, Tree.setParent, Tree.modify]

theorem fresh_node_of_ne {z : ι} (h : z ≠ x) : (t.fresh x).node z = t.node z := by
  simp [Tree.fresh, Tree.initList, Tree.setLeft, Tree.setRight, Tree.setParent, Tree.modify,
    Function.update_of_ne h]

/-- The tree does not see a node that is not in it. -/
theorem Represents.fresh (h : Represents t s) (hx : x ∉ s.inorder) : Represents (t.fresh x) s :=
  h.congr rfl fun _ hz => SameLinks.of_eq (fresh_node_of_ne fun heq => hx (heq ▸ hz))

theorem Represents.hang {c : Bool} (h : Represents t (plug leaf fs)) (hx : x ∉ names fs)
    (hnode : NodeIs (t.node x) c .left none none (top fs)) :
    Represents (t.setTop (some x) fs) (plug (node c leaf x leaf) fs) := by
  have hrep : Rep t (top fs) (node c leaf x leaf) := ⟨hnode, trivial, trivial⟩
  refine @Represents.setTop ι _ t leaf (node c leaf x leaf) fs h hrep (List.nodup_singleton x) ?_
  intro _ hz
  rw [List.mem_singleton.mp hz]
  exact hx

theorem ocfRbTreeInsert_none (h : t.root = none) (n : Nat) : ocfRbTreeInsert n cmp t x =
      some { ((t.fresh x).setRed x false).setParent x none with root := some x } := by
  have hroot : (t.fresh x).root = none := h
  unfold ocfRbTreeInsert
  unfold Tree.fresh at hroot ⊢
  simp only [hroot]

theorem ocfRbTreeInsert_some {root : ι} (h : t.root = some root) (n : Nat) :
    ocfRbTreeInsert n cmp t x = (descend (t.fresh x) (cmp x) n root).bind fun r =>
      if r.2 = 0 then some ((t.fresh x).listAddTail x r.1)
      else
        let t := ((t.fresh x).setRed x true).setParent x (some r.1)
        let t := if r.2 < 0 then t.setLeft r.1 (some x) else t.setRight r.1 (some x)
        ocfRbTreeFixViolation n t x := by
  have hroot : (t.fresh x).root = some root := h
  unfold ocfRbTreeInsert
  unfold Tree.fresh at hroot ⊢
  simp only [hroot]

/-- A node is inserted at the place where the search ended. -/
theorem ocfRbTreeInsert_place {f : Frame ι}
    (h : Represents t (plug leaf (f :: fs))) (hrb : (plug leaf (f :: fs)).IsRb)
    (hx : x ∉ names (f :: fs)) (hf : Zoomed (cmp x) (f :: fs)) {root : ι} (hroot : t.root = some root)
    (hdescend : Returns (fun n => descend (t.fresh x) (cmp x) n root) (f.x, cmp x f.x)) :
    ∃ t' s', Returns (fun n => ocfRbTreeInsert n cmp t x) t' ∧ Represents t' s' ∧ s'.IsRb ∧
      s'.inorder = before (f :: fs) ++ x :: after (f :: fs) ∧
      Keeps (x :: (plug leaf (f :: fs)).inorder) (t.fresh x) t' := by
  have hfresh : Represents (t.fresh x) (plug leaf (f :: fs)) := h.fresh fun hmem => by
    rw [mem_inorder_plug] at hmem
    exact hmem.elim List.not_mem_nil hx
  obtain ⟨t₁, ht₁⟩ : ∃ u, u = ((t.fresh x).setRed x true).setParent x (some f.x) := ⟨_, rfl⟩
  have hself : t₁.node x = ⟨true, none, none, some f.x, x, x⟩ := by
    rw [ht₁, setParent_node_self, setRed_node_self, fresh_node_self]
  have hother : ∀ z, z ≠ x → t₁.node z = (t.fresh x).node z := by
    intro z hz
    rw [ht₁, setParent_node_of_ne hz, setRed_node_of_ne hz]
  have hrep₁ : Represents t₁ (plug leaf (f :: fs)) := by
    refine hfresh.congr ?_ fun z hz => SameLinks.of_eq (hother z ?_)
    · rw [ht₁, setParent_root, setRed_root]
    · rintro rfl
      rw [mem_inorder_plug] at hz
      exact hz.elim List.not_mem_nil hx
  have hnode : NodeIs (t₁.node x) true .left none none (top (f :: fs)) := by
    rw [hself]
    exact ⟨rfl, rfl, rfl, rfl⟩
  have hplace := hrep₁.hang hx hnode
  obtain ⟨n, hn, hfits, -⟩ := isRb_plug.mp hrb
  have hzero : n = 0 := hn
  subst hzero
  have hbal : (node true leaf x leaf).Bal 0 := ⟨⟨rfl, rfl⟩, rfl, rfl⟩
  obtain ⟨t', s', hrun, hrep', hrb', hlist, hkeeps⟩ :=
    ocfRbTreeFixViolation_spec hplace rfl rfl hbal hfits
  have hlistNew : (plug (node true leaf x leaf) (f :: fs)).inorder =
      before (f :: fs) ++ x :: after (f :: fs) := inorder_plug ..
  have hlistOld : (plug leaf (f :: fs)).inorder = before (f :: fs) ++ after (f :: fs) :=
    inorder_plug ..
  refine ⟨t', s', ?_, hrep', hrb', hlist.trans hlistNew, ?_⟩
  · have hne : cmp x f.x ≠ 0 := by
      have hzoom := hf f List.mem_cons_self
      cases hside : f.side with
      | left =>
        have hneg := hzoom.1 hside
        omega
      | right =>
        have hpos := hzoom.2 hside
        omega
    have hlink : (if cmp x f.x < 0 then t₁.setLeft f.x (some x) else t₁.setRight f.x (some x)) =
        t₁.setTop (some x) (f :: fs) := by
      have hzoom := hf f List.mem_cons_self
      cases hside : f.side with
      | left =>
        rw [if_pos (hzoom.1 hside)]
        simp only [Tree.setTop, hside, Tree.setChild]
      | right =>
        have hpos := hzoom.2 hside
        rw [if_neg (by omega)]
        simp only [Tree.setTop, hside, Tree.setChild]
    have hwhole : Returns (fun n => (descend (t.fresh x) (cmp x) n root).bind fun r =>
        if r.2 = 0 then some ((t.fresh x).listAddTail x r.1)
        else
          let t := ((t.fresh x).setRed x true).setParent x (some r.1)
          let t := if r.2 < 0 then t.setLeft r.1 (some x) else t.setRight r.1 (some x)
          ocfRbTreeFixViolation n t x) t' := by
      obtain ⟨a, ha⟩ := hdescend
      obtain ⟨b, hb⟩ := hrun
      refine ⟨max a b, fun n hn => ?_⟩
      have han := ha n (by omega)
      have hbn := hb n (by omega)
      simp only [han, Option.bind_some, if_neg hne]
      rw [← ht₁, hlink]
      exact hbn
    exact hwhole.congr fun n hn => (ocfRbTreeInsert_some hroot n).trans hn
  · rw [hlistOld]
    rw [hlistNew] at hkeeps
    have hsub : ∀ z ∈ before (f :: fs) ++ x :: after (f :: fs),
        z ∈ x :: (before (f :: fs) ++ after (f :: fs)) := by
      intro z hz
      simp only [List.mem_append, List.mem_cons] at hz ⊢
      tauto
    have hmem : f.x ∈ x :: (before (f :: fs) ++ after (f :: fs)) := by
      refine hsub f.x ?_
      rw [← hlistNew, mem_inorder_plug]
      exact Or.inr (by simp [names])
    have hkeeps₁ : Keeps (x :: (before (f :: fs) ++ after (f :: fs))) (t.fresh x) t₁ := by
      rw [ht₁]
      exact (keeps_setRed _ true List.mem_cons_self).trans
        (keeps_setParent _ (some f.x) List.mem_cons_self)
    have hkeeps₂ : Keeps (x :: (before (f :: fs) ++ after (f :: fs))) t₁
        (t₁.setTop (some x) (f :: fs)) := keeps_setChild t₁ f.side (some x) hmem
    exact (hkeeps₁.trans hkeeps₂).trans (hkeeps.mono hsub)

/-- `ocf_rb_tree_insert` adds the node to the list of a node that compares
equal, or it puts it at its place in the order. -/
theorem ocfRbTreeInsert_spec
    {lt : ι → ι → Prop} (h : Represents t s) (hrb : s.IsRb) (hx : x ∉ s.inorder)
    (hsorted : s.inorder.Pairwise lt) (hcut : Cut lt (cmp x)) : (∃ y ∈ s.inorder, cmp x y = 0 ∧
      Returns (fun n => ocfRbTreeInsert n cmp t x) ((t.fresh x).listAddTail x y)) ∨
    ∃ t' s' as bs, Returns (fun n => ocfRbTreeInsert n cmp t x) t' ∧ Represents t' s' ∧ s'.IsRb ∧
      s.inorder = as ++ bs ∧ s'.inorder = as ++ x :: bs ∧ (∀ z ∈ as, 0 < cmp x z) ∧
      (∀ z ∈ bs, cmp x z < 0) ∧ Keeps (x :: s.inorder) (t.fresh x) t' := by
  have hfresh := h.fresh hx
  cases hs : s.root with
  | none =>
    -- the tree is empty
    have hleaf : s = leaf := eq_leaf_of_root hs
    subst hleaf
    have hroot : t.root = none := h.root
    obtain ⟨t', ht'⟩ : ∃ u : Tree ι, u =
      { ((t.fresh x).setRed x false).setParent x none with root := some x } := ⟨_, rfl⟩
    have hnode : NodeIs (t'.node x) false .left none none none := by
      have hself : t'.node x = (((t.fresh x).setRed x false).setParent x none).node x := by rw [ht']
      rw [hself, setParent_node_self, setRed_node_self, fresh_node_self]
      exact ⟨rfl, rfl, rfl, rfl⟩
    refine Or.inr ⟨t', node false leaf x leaf, [], [], ?_, ⟨?_, ⟨hnode, trivial, trivial⟩,
      List.nodup_singleton x⟩, ⟨rfl, 1, 0, rfl, rfl, rfl⟩, rfl, rfl, by simp, by simp, ?_⟩
    · refine (Returns.const t').congr fun n _ => ?_
      rw [ocfRbTreeInsert_none hroot, ht']
    · rw [ht']
      rfl
    · rw [ht']
      have hkeeps := (keeps_setRed (t.fresh x) false (List.mem_cons_self (a := x) (l := []))).trans
        (keeps_setParent ((t.fresh x).setRed x false) none List.mem_cons_self)
      exact ⟨hkeeps.outside, hkeeps.next, hkeeps.prev⟩
  | some r =>
    have hroot : t.root = some r := h.root.trans hs
    obtain ⟨q, hends, hrun⟩ := descend_returns (cmp x) [] hfresh.rep hs
    cases hplace : (zoom (cmp x) s []).1 with
    | node c a y b =>
      have hyroot : (zoom (cmp x) s []).1.root = some y := by rw [hplace]; rfl
      rw [hends.of_root hyroot] at hrun
      have hmem : y ∈ s.inorder := by
        have hplug := plug_zoom (cmp x) s []
        rw [plug_nil] at hplug
        rw [← hplug, mem_inorder_plug]
        exact Or.inl (root_mem hyroot)
      refine Or.inl ⟨y, hmem, cmp_zoom hyroot, ?_⟩
      obtain ⟨bound, hbound⟩ := hrun
      refine ⟨bound, fun n hn => ?_⟩
      have hn' : descend (t.fresh x) (cmp x) n r = some (y, 0) := hbound n hn
      simp only [ocfRbTreeInsert_some hroot, hn', Option.bind_some, if_true]
    | leaf =>
      obtain ⟨fs, hsplug, hzoomed, hfs, hbefore, hafter⟩ := zoom_leaf hcut hsorted hplace
      subst hsplug
      cases fs with
      | nil => simp at hs
      | cons f fs =>
        rw [hends.of_leaf hplace hfs.symm] at hrun
        have hxfs : x ∉ names (f :: fs) := fun hmem => hx (mem_inorder_plug.mpr (Or.inr hmem))
        obtain ⟨t', s', hrun', hrep', hrb', hlist, hkeeps⟩ :=
          ocfRbTreeInsert_place h hrb hxfs hzoomed hroot hrun
        exact Or.inr ⟨t', s', before (f :: fs), after (f :: fs), hrun', hrep', hrb', inorder_plug ..,
          hlist, hbefore, hafter, hkeeps⟩

end OcfCache.RbTree
