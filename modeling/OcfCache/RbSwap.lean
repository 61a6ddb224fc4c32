import Mathlib.Logic.Equiv.Basic
import OcfCache.RbPointers

/-!
# The exchange of two nodes

`ocf_rb_tree_swap` gives two nodes each other's place. What comes out is the
tree in which the two nodes have exchanged their names, as long as they are not
children of one node. One of the two may also be a node outside of the tree
without links, as the entries of the lists of equal nodes are.
-/

namespace OcfCache.RbTree

open Function RbShapes RbShapes.Shape
open Option (map_eq_some_iff map_some)
open List (mem_append mem_cons)

variable {ι : Type*}

/-- Parents and children of the nodes `S` point to each other. -/
structure Linked (t : Tree ι) (S : List ι) : Prop where
  /-- A child points to its parent. -/
  child : ∀ z ∈ S, ∀ d c, (t.node z).child d = some c → c ∈ S ∧ (t.node c).parent = some z
  /-- A parent points to its child. -/
  parent : ∀ z ∈ S, ∀ p, (t.node z).parent = some p → p ∈ S ∧ ∃ d, (t.node p).child d = some z
  /-- No node is both children of another one. -/
  distinct : ∀ z ∈ S, ∀ d c, (t.node z).child d = some c → (t.node z).child d.other ≠ some c
  /-- The node at the top has no parent. -/
  top : ∀ z ∈ S, t.root = some z → (t.node z).parent = none
  /-- No node is its own parent or grandparent. -/
  acyclic : ∀ z ∈ S, ∀ w, (t.node z).parent = some w → (t.node w).parent ≠ some z

variable {t : Tree ι} {S : List ι}

theorem Linked.parent_ne {z : ι} (h : Linked t S) (hz : z ∈ S) : (t.node z).parent ≠ some z :=
  fun hself => h.acyclic z hz z hself hself

theorem Linked.child_ne {z : ι} (h : Linked t S) (hz : z ∈ S) (d : Side) :
    (t.node z).child d ≠ some z :=
  fun hself => h.parent_ne hz (h.child z hz d z hself).2

/-- The nodes of a tree point to each other, and only the node at the top is
without a parent. -/
theorem Represents.linked {s : Shape ι} (h : Represents t s) :
    Linked t s.inorder ∧ ∀ z ∈ s.inorder, (t.node z).parent = none → t.root = some z := by
  have hplace : ∀ z ∈ s.inorder, ∃ c l r fs, s = plug (branch .left c l z r) fs ∧
      NodeIs (t.node z) c .left l.root r.root (top fs) := by
    intro z hz
    obtain ⟨c, l, r, fs, hs⟩ := exists_plug hz
    refine ⟨c, l, r, fs, hs, ?_⟩
    have hrep : Represents t (plug (branch .left c l z r) fs) := hs ▸ h
    exact hrep.nodeIs
  have hchild : ∀ z ∈ s.inorder, ∀ d c, (t.node z).child d = some c →
      c ∈ s.inorder ∧ (t.node c).parent = some z := by
    intro z hz d c hc
    obtain ⟨e, l, r, fs, hs, hnode⟩ := hplace z hz
    obtain ⟨a, b, hside, hroot⟩ : ∃ a b : Shape ι, branch .left e l z r = branch d e a z b ∧
        a.root = some c := by
      cases d with
      | left => exact ⟨l, r, rfl, hnode.near.symm.trans hc⟩
      | right => exact ⟨r, l, rfl, hnode.far.symm.trans hc⟩
    have hbelow : s = plug a (⟨d, e, z, b⟩ :: fs) := by
      rw [hs, hside]
      rfl
    obtain ⟨a₁, a₂, ha⟩ := exists_root_branch .left hroot
    have hrep : Represents t (plug (branch .left a.isRed a₁ c a₂) (⟨d, e, z, b⟩ :: fs)) := by
      rw [← ha, ← hbelow]
      exact h
    refine ⟨?_, hrep.nodeIs.parent⟩
    rw [hbelow, mem_inorder_plug]
    exact Or.inl (root_mem hroot)
  have hfresh : ∀ z c l r fs, s = plug (branch .left c l z r) fs → z ∉ names fs := by
    intro z c l r fs hs
    have hnodup := h.nodup
    rw [hs] at hnodup
    exact (nodup_plug.mp hnodup).2.2 z (mem_inorder_branch.mpr (Or.inl rfl))
  refine ⟨⟨hchild, ?_, ?_, ?_, ?_⟩, ?_⟩
  · intro z hz p hp
    obtain ⟨c, l, r, fs, hs, hnode⟩ := hplace z hz
    have htop : top fs = some p := hnode.parent.symm.trans hp
    cases fs with
    | nil => simp [top] at htop
    | cons f fs =>
      have hfp : f.x = p := Option.some.inj htop
      have hrep : Represents t (plug (branch .left c l z r) (f :: fs)) := hs ▸ h
      refine ⟨?_, f.side, ?_⟩
      · rw [hs, mem_inorder_plug]
        exact Or.inr (by simp [names, hfp])
      · rw [← hfp, hrep.frame.near]
        exact root_branch ..
  · intro z hz d c hc hother
    obtain ⟨e, l, r, fs, hs, hnode⟩ := hplace z hz
    have hnodup := h.nodup
    rw [hs] at hnodup
    have hdisjoint := (nodup_branch.mp (nodup_plug.mp hnodup).1).2.2.2
    have hboth : l.root = some c ∧ r.root = some c := by
      cases d with
      | left => exact ⟨hnode.near.symm.trans hc, hnode.far.symm.trans hother⟩
      | right => exact ⟨hnode.near.symm.trans hother, hnode.far.symm.trans hc⟩
    exact hdisjoint c (root_mem hboth.1) (root_mem hboth.2)
  · intro z hz hroot
    obtain ⟨c, l, r, fs, hs, hnode⟩ := hplace z hz
    cases fs with
    | nil => exact hnode.parent
    | cons f fs =>
      have hbase : t.root = base (some f.x) fs := by
        rw [h.root, hs, root_plug]
        rfl
      have hmem : ∀ (o : ι) (gs : List (Frame ι)), base (some o) gs = some z → z = o ∨ z ∈ names gs := by
        intro o gs
        induction gs generalizing o with
        | nil =>
          intro heq
          exact Or.inl (Option.some.inj heq).symm
        | cons g gs ih =>
          intro heq
          refine Or.inr ?_
          simp only [names, mem_append, mem_cons]
          rcases ih g.x heq with hzg | hzg
          · exact Or.inl (Or.inl hzg)
          · exact Or.inr hzg
      have hzfs := hfresh z c l r (f :: fs) hs
      simp only [names, mem_append, mem_cons, not_or] at hzfs
      rcases hmem f.x fs (hbase.symm.trans hroot) with heq | hin
      · exact absurd heq hzfs.1.1
      · exact absurd hin hzfs.2
  · intro z hz w hw hww
    obtain ⟨c, l, r, fs, hs, hnode⟩ := hplace z hz
    have htop : top fs = some w := hnode.parent.symm.trans hw
    cases fs with
    | nil => simp [top] at htop
    | cons f fs =>
      have hfw : f.x = w := Option.some.inj htop
      have hrep : Represents t (plug (branch .left c l z r) (f :: fs)) := hs ▸ h
      have hparent := hrep.frame.parent
      rw [hfw, hww] at hparent
      have hzfs := hfresh z c l r (f :: fs) hs
      have hzin := top_mem hparent.symm
      simp only [names, mem_append, mem_cons, not_or] at hzfs
      exact hzfs.2 hzin
  · intro z hz hnone
    obtain ⟨c, l, r, fs, hs, hnode⟩ := hplace z hz
    cases fs with
    | nil =>
      rw [h.root, hs]
      exact root_branch ..
    | cons f fs =>
      have hparent := hnode.parent
      rw [hnone] at hparent
      simp [top] at hparent

/-- A node outside of the tree without links. -/
theorem Linked.cons {y : ι} (h : Linked t S) (hy : y ∉ S)
    (hleft : (t.node y).left = none) (hright : (t.node y).right = none)
    (hparent : (t.node y).parent = none) : Linked t (y :: S) := by
  have hchild : ∀ d, (t.node y).child d = none := by
    intro d
    cases d with
    | left => exact hleft
    | right => exact hright
  refine ⟨?_, ?_, ?_, ?_, ?_⟩
  · intro z hz d c hc
    rcases mem_cons.mp hz with rfl | hz
    · rw [hchild d] at hc
      simp at hc
    · exact ⟨List.mem_cons_of_mem y (h.child z hz d c hc).1, (h.child z hz d c hc).2⟩
  · intro z hz p hp
    rcases mem_cons.mp hz with rfl | hz
    · rw [hparent] at hp
      simp at hp
    · exact ⟨List.mem_cons_of_mem y (h.parent z hz p hp).1, (h.parent z hz p hp).2⟩
  · intro z hz d c hc
    rcases mem_cons.mp hz with rfl | hz
    · rw [hchild d] at hc
      simp at hc
    · exact h.distinct z hz d c hc
  · intro z hz hroot
    rcases mem_cons.mp hz with rfl | hz
    · exact hparent
    · exact h.top z hz hroot
  · intro z hz w hw
    rcases mem_cons.mp hz with rfl | hz
    · rw [hparent] at hw
      simp at hw
    · exact h.acyclic z hz w hw

section Exchange

variable [DecidableEq ι]

/-- A node with other names for its links. -/
def Node.rename (f : ι → ι) (n : Node ι) : Node ι :=
  { n with left := n.left.map f, right := n.right.map f, parent := n.parent.map f }

omit [DecidableEq ι] in
@[simp] theorem rename_child (f : ι → ι) (n : Node ι) (d : Side) :
    (n.rename f).child d = (n.child d).map f := by
  cases d <;> rfl

theorem map_swap_of_ne {a b : ι} {o : Option ι} (ha : o ≠ some a) (hb : o ≠ some b) :
    o.map (Equiv.swap a b) = o := by
  cases o with
  | none => rfl
  | some c =>
    have hca : c ≠ a := fun heq => ha (heq ▸ rfl)
    have hcb : c ≠ b := fun heq => hb (heq ▸ rfl)
    rw [map_some, Equiv.swap_apply_of_ne_of_ne hca hcb]

theorem map_swap_eq_some {a b z : ι} {o : Option ι} :
    o.map (Equiv.swap a b) = some (Equiv.swap a b z) ↔ o = some z := by
  cases o with
  | none => simp
  | some c => simp

/-- The links between two exchanged nodes: at most one link leads to the other. -/
theorem fixSelf_node {t : Tree ι} {x other : ι} (hother : (t.node x).parent ≠ some other ∧
      (t.node x).left ≠ some other ∧ (t.node x).right ≠ some other)
    (hparent : (t.node x).parent = some x → (t.node x).left ≠ some x ∧ (t.node x).right ≠ some x)
    (hleft : (t.node x).left = some x → (t.node x).right ≠ some x) :
    (t.fixSelf x other).node x = (t.node x).rename (Equiv.swap x other) ∧
      (∀ z, z ≠ x → (t.fixSelf x other).node z = t.node z) ∧ (t.fixSelf x other).root = t.root := by
  have hkeep : ∀ o : Option ι, o ≠ some x → o ≠ some other → o.map (Equiv.swap x other) = o :=
    fun o hx ho => map_swap_of_ne hx ho
  have hmap : (some x).map (Equiv.swap x other) = some other := by simp
  obtain ⟨hop, hol, hor⟩ := hother
  by_cases hp : (t.node x).parent = some x
  · obtain ⟨hl, hr⟩ := hparent hp
    have hrun : t.fixSelf x other = t.setParent x (some other) := by simp only [Tree.fixSelf, hp, if_true]
    rw [hrun]
    refine ⟨?_, fun z hz => setParent_node_of_ne hz, rfl⟩
    rw [setParent_node_self, Node.rename, hkeep _ hl hol, hkeep _ hr hor, hp, hmap]
  · by_cases hl : (t.node x).left = some x
    · have hr := hleft hl
      have hrun : t.fixSelf x other = t.setChild x .left (some other) := by
        simp only [Tree.fixSelf, hp, hl, if_true, if_false, Tree.setChild]
      rw [hrun]
      refine ⟨?_, fun z hz => setChild_node_of_ne hz, rfl⟩
      have hself : (t.setChild x .left (some other)).node x = { t.node x with left := some other } :=
        update_self ..
      rw [hself, Node.rename, hkeep _ hp hop, hkeep _ hr hor, hl, hmap]
    · by_cases hr : (t.node x).right = some x
      · have hrun : t.fixSelf x other = t.setChild x .right (some other) := by
          simp only [Tree.fixSelf, hp, hl, hr, if_true, if_false, Tree.setChild]
        rw [hrun]
        refine ⟨?_, fun z hz => setChild_node_of_ne hz, rfl⟩
        have hself : (t.setChild x .right (some other)).node x =
            { t.node x with right := some other } := update_self ..
        rw [hself, Node.rename, hkeep _ hp hop, hkeep _ hl hol, hr, hmap]
      · have hrun : t.fixSelf x other = t := by simp only [Tree.fixSelf, hp, hl, hr, if_false]
        rw [hrun]
        refine ⟨?_, fun _ _ => rfl, rfl⟩
        rw [Node.rename, hkeep _ hp hop, hkeep _ hl hol, hkeep _ hr hor]

/-- `ocf_rb_tree_update_children` makes a node the parent of its children. -/
theorem updateChildren_node (t : Tree ι) (x z : ι) : (ocfRbTreeUpdateChildren t x).node z =
      if (t.node x).left = some z ∨ (t.node x).right = some z then
        { t.node z with parent := some x }
      else t.node z := by
  have hadopt : ∀ (u : Tree ι) (o : Option ι) (w : ι), (u.adopt o x).node w =
      if o = some w then { u.node w with parent := some x } else u.node w := by
    intro u o w
    by_cases ho : o = some w
    · rw [if_pos ho, ho, adopt_some, setParent_node_self]
    · rw [if_neg ho, adopt_node_of_ne ho]
  have hright : ((t.adopt (t.node x).left x).node x).right = (t.node x).right := by
    rw [hadopt]
    split <;> rfl
  simp only [ocfRbTreeUpdateChildren, hright]
  by_cases hl : (t.node x).left = some z
  · by_cases hr : (t.node x).right = some z
    · simp [hl, hr]
    · simp [hl, hr]
  · by_cases hr : (t.node x).right = some z
    · simp [hl, hr]
    · simp [hl, hr]

@[simp] theorem updateChildren_root (t : Tree ι) (x : ι) :
    (ocfRbTreeUpdateChildren t x).root = t.root := by
  simp only [ocfRbTreeUpdateChildren, adopt_root]

/-- Which links `ocf_rb_tree_update_parent` overwrites. -/
theorem updateParent_spec {t : Tree ι} {p o : Option ι} {old : ι}
    (hdistinct : ∀ z, p = some z → ∀ d, (t.node z).child d = some old →
      (t.node z).child d.other ≠ some old) :
    (∀ z, ((ocfRbTreeUpdateParent t p old o).node z).red = (t.node z).red ∧
        ((ocfRbTreeUpdateParent t p old o).node z).parent = (t.node z).parent ∧
        ((ocfRbTreeUpdateParent t p old o).node z).next = (t.node z).next ∧
        ((ocfRbTreeUpdateParent t p old o).node z).prev = (t.node z).prev) ∧
      (∀ z d, ((ocfRbTreeUpdateParent t p old o).node z).child d =
        if p = some z ∧ (t.node z).child d = some old then o else (t.node z).child d) ∧
      (ocfRbTreeUpdateParent t p old o).root =
        if p = none ∧ t.root = some old then o else t.root := by
  cases p with
  | none =>
    have hnode : ∀ z, (ocfRbTreeUpdateParent t none old o).node z = t.node z := by
      intro z
      simp only [ocfRbTreeUpdateParent]
      split <;> rfl
    refine ⟨fun z => ?_, fun z d => ?_, ?_⟩
    · rw [hnode]
      exact ⟨rfl, rfl, rfl, rfl⟩
    · rw [hnode]
      simp
    · simp only [ocfRbTreeUpdateParent, true_and]
      split <;> rfl
  | some q =>
    have hsome : ∃ e, ocfRbTreeUpdateParent t (some q) old o = t.setChild q e o ∧
        (t.node q).child e = some old ∧ (t.node q).child e.other ≠ some old ∨
        ocfRbTreeUpdateParent t (some q) old o = t ∧ ∀ d, (t.node q).child d ≠ some old := by
      by_cases hl : (t.node q).child .left = some old
      · have hr := hdistinct q rfl .left hl
        exact ⟨.left, Or.inl ⟨updateParent_eq_setChild hl hr, hl, hr⟩⟩
      · by_cases hr : (t.node q).child .right = some old
        · exact ⟨.right, Or.inl ⟨updateParent_eq_setChild hr hl, hr, hl⟩⟩
        · refine ⟨.left, Or.inr ⟨?_, fun d => ?_⟩⟩
          · have hleft : ¬ (t.node q).left = some old := hl
            have hright : ¬ (t.node q).right = some old := hr
            simp only [ocfRbTreeUpdateParent, hleft, hright, if_false]
          · cases d with
            | left => exact hl
            | right => exact hr
    obtain ⟨e, ⟨hrun, hnear, hfar⟩ | ⟨hrun, hnone⟩⟩ := hsome
    · rw [hrun]
      have hleft : (t.setChild q .left o).node q = { t.node q with left := o } :=
        update_self ..
      have hright : (t.setChild q .right o).node q = { t.node q with right := o } :=
        update_self ..
      refine ⟨fun z => ?_, fun z d => ?_, ?_⟩
      · by_cases hz : z = q
        · subst hz
          cases e with
          | left =>
            rw [hleft]
            exact ⟨rfl, rfl, rfl, rfl⟩
          | right =>
            rw [hright]
            exact ⟨rfl, rfl, rfl, rfl⟩
        · rw [setChild_node_of_ne hz]
          exact ⟨rfl, rfl, rfl, rfl⟩
      · by_cases hz : z = q
        · subst hz
          have hside : d = e ∨ d = e.other := by
            cases d <;> cases e <;> simp [Side.other]
          rcases hside with rfl | rfl
          · rw [if_pos ⟨rfl, hnear⟩]
            cases d with
            | left =>
              rw [hleft]
              rfl
            | right =>
              rw [hright]
              rfl
          · rw [if_neg fun hold => hfar hold.2]
            cases e with
            | left =>
              rw [hleft]
              rfl
            | right =>
              rw [hright]
              rfl
        · have hne : ¬ (some q = some z ∧ (t.node z).child d = some old) := by
            rintro ⟨heq, -⟩
            exact hz (Option.some.inj heq).symm
          rw [setChild_node_of_ne hz, if_neg hne]
      · simp
    · rw [hrun]
      refine ⟨fun _ => ⟨rfl, rfl, rfl, rfl⟩, fun z d => ?_, by simp⟩
      have hne : ¬ (some q = some z ∧ (t.node z).child d = some old) := by
        rintro ⟨heq, hc⟩
        rw [← Option.some.inj heq] at hc
        exact hnone d hc
      rw [if_neg hne]

variable {t u : Tree ι} {S : List ι} {a b : ι}

theorem swap_mem (ha : a ∈ S) (hb : b ∈ S) {z : ι} (hz : z ∈ S) : Equiv.swap a b z ∈ S := by
  rw [Equiv.swap_apply_def]
  split
  · exact hb
  · split
    · exact ha
    · exact hz

/-- The contents of two nodes are exchanged, and the links between these two
have their new names; the links of other nodes are the old ones. -/
structure Exchanged (t u : Tree ι) (S : List ι) (a b : ι) : Prop where
  /-- The tree points to the old node. -/
  root : u.root = t.root
  /-- Colours. -/
  red : ∀ z ∈ S, (u.node (Equiv.swap a b z)).red = (t.node z).red
  /-- Children. -/
  child : ∀ z ∈ S, ∀ d, (u.node (Equiv.swap a b z)).child d =
    if z = a ∨ z = b then ((t.node z).child d).map (Equiv.swap a b) else (t.node z).child d
  /-- Parents. -/
  parent : ∀ z ∈ S, (u.node (Equiv.swap a b z)).parent =
    if z = a ∨ z = b then (t.node z).parent.map (Equiv.swap a b) else (t.node z).parent
  /-- Lists and other nodes. -/
  keeps : Keeps S t u

/-- The contents of the two nodes are exchanged first. -/
theorem exists_exchanged (h : Linked t S) (ha : a ∈ S) (hb : b ∈ S) (hab : a ≠ b) :
    ∃ u, Exchanged t u S a b ∧ ocfRbTreeSwap t a b =
      (let u := ocfRbTreeUpdateChildren (ocfRbTreeUpdateChildren u a) b
      let u := ocfRbTreeUpdateParent u (u.node a).parent b (some a)
      ocfRbTreeUpdateParent u (u.node b).parent a (some b)) := by
  obtain ⟨t₁, ht₁⟩ : ∃ u, u = t.modify a fun n => n.copyFrom (t.node b) := ⟨_, rfl⟩
  obtain ⟨t₂, ht₂⟩ : ∃ u, u = t₁.modify b fun n => n.copyFrom (t.node a) := ⟨_, rfl⟩
  have hother₂ : ∀ z, z ≠ a → z ≠ b → t₂.node z = t.node z := by
    intro z hza hzb
    rw [ht₂, ht₁]
    simp [Tree.modify, update_of_ne hza, update_of_ne hzb]
  have ha₂ : t₂.node a = (t.node a).copyFrom (t.node b) := by
    rw [ht₂, ht₁]
    simp [Tree.modify, update_of_ne hab]
  have hb₂ : t₂.node b = (t.node b).copyFrom (t.node a) := by
    rw [ht₂, ht₁]
    simp [Tree.modify, update_of_ne (Ne.symm hab)]
  have hlinks : ∀ z ∈ S, ∀ w, ((t.node z).parent = some w → (t.node z).left ≠ some w ∧
      (t.node z).right ≠ some w) ∧ ((t.node z).left = some w → (t.node z).right ≠ some w) := by
    intro z hz w
    refine ⟨fun hp => ⟨fun hl => ?_, fun hr => ?_⟩, fun hl hr => ?_⟩
    · exact h.acyclic z hz w hp (h.child z hz .left w hl).2
    · exact h.acyclic z hz w hp (h.child z hz .right w hr).2
    · exact h.distinct z hz .left w hl hr
  have hself : ∀ z ∈ S, (t.node z).parent ≠ some z ∧ (t.node z).left ≠ some z ∧
      (t.node z).right ≠ some z := fun z hz =>
    ⟨h.parent_ne hz, h.child_ne hz .left, h.child_ne hz .right⟩
  obtain ⟨t₃, ht₃⟩ : ∃ u, u = t₂.fixSelf a b := ⟨_, rfl⟩
  obtain ⟨ha₃, hother₃, hroot₃⟩ : t₃.node a = (t₂.node a).rename (Equiv.swap a b) ∧
      (∀ z, z ≠ a → t₃.node z = t₂.node z) ∧ t₃.root = t₂.root := by
    rw [ht₃]
    refine fixSelf_node ?_ ?_ ?_
    · rw [ha₂]
      exact hself b hb
    · rw [ha₂]
      exact (hlinks b hb a).1
    · rw [ha₂]
      exact (hlinks b hb a).2
  have hb₃ : t₃.node b = (t.node b).copyFrom (t.node a) := by
    rw [hother₃ b (Ne.symm hab), hb₂]
  obtain ⟨t₄, ht₄⟩ : ∃ u, u = t₃.fixSelf b a := ⟨_, rfl⟩
  obtain ⟨hb₄, hother₄, hroot₄⟩ : t₄.node b = (t₃.node b).rename (Equiv.swap b a) ∧
      (∀ z, z ≠ b → t₄.node z = t₃.node z) ∧ t₄.root = t₃.root := by
    rw [ht₄]
    refine fixSelf_node ?_ ?_ ?_
    · rw [hb₃]
      exact hself a ha
    · rw [hb₃]
      exact (hlinks a ha b).1
    · rw [hb₃]
      exact (hlinks a ha b).2
  have ha₄ : t₄.node a = ((t.node a).copyFrom (t.node b)).rename (Equiv.swap a b) := by
    rw [hother₄ a hab, ha₃, ha₂]
  rw [hb₃, Equiv.swap_comm] at hb₄
  have hroot : t₄.root = t.root := by
    rw [hroot₄, hroot₃, ht₂, ht₁]
    rfl
  have hrest : ∀ z, z ≠ a → z ≠ b → t₄.node z = t.node z := by
    intro z hza hzb
    rw [hother₄ z hzb, hother₃ z hza, hother₂ z hza hzb]
  have hcases : ∀ z, z = a ∧ t₄.node (Equiv.swap a b z) =
        ((t.node b).copyFrom (t.node a)).rename (Equiv.swap a b) ∨
      z = b ∧ t₄.node (Equiv.swap a b z) =
        ((t.node a).copyFrom (t.node b)).rename (Equiv.swap a b) ∨
      ¬ (z = a ∨ z = b) ∧ t₄.node (Equiv.swap a b z) = t.node z := by
    intro z
    by_cases hza : z = a
    · exact Or.inl ⟨hza, by rw [hza, Equiv.swap_apply_left, hb₄]⟩
    · by_cases hzb : z = b
      · exact Or.inr (Or.inl ⟨hzb, by rw [hzb, Equiv.swap_apply_right, ha₄]⟩)
      · exact Or.inr (Or.inr ⟨by tauto, by rw [Equiv.swap_apply_of_ne_of_ne hza hzb, hrest z hza hzb]⟩)
  refine ⟨t₄, ⟨hroot, fun z _ => ?_, fun z _ d => ?_, fun z _ => ?_, ⟨fun z hz => ?_, fun z => ?_,
    fun z => ?_⟩⟩, ?_⟩
  · rcases hcases z with ⟨hz, hnode⟩ | ⟨hz, hnode⟩ | ⟨-, hnode⟩
    · rw [hnode, hz]
      rfl
    · rw [hnode, hz]
      rfl
    · rw [hnode]
  · rcases hcases z with ⟨hz, hnode⟩ | ⟨hz, hnode⟩ | ⟨hz, hnode⟩
    · rw [hnode, if_pos (Or.inl hz), rename_child, hz]
      cases d <;> rfl
    · rw [hnode, if_pos (Or.inr hz), rename_child, hz]
      cases d <;> rfl
    · rw [hnode, if_neg hz]
  · rcases hcases z with ⟨hz, hnode⟩ | ⟨hz, hnode⟩ | ⟨hz, hnode⟩
    · rw [hnode, if_pos (Or.inl hz), hz]
      rfl
    · rw [hnode, if_pos (Or.inr hz), hz]
      rfl
    · rw [hnode, if_neg hz]
  · exact hrest z (fun heq => hz (heq ▸ ha)) fun heq => hz (heq ▸ hb)
  · by_cases hza : z = a
    · rw [hza, ha₄]
      rfl
    · by_cases hzb : z = b
      · rw [hzb, hb₄]
        rfl
      · rw [hrest z hza hzb]
  · by_cases hza : z = a
    · rw [hza, ha₄]
      rfl
    · by_cases hzb : z = b
      · rw [hzb, hb₄]
        rfl
      · rw [hrest z hza hzb]
  · rw [ht₄, ht₃, ht₂, ht₁]
    rfl

/-- The children of both nodes learn the names of their parents. -/
theorem Exchanged.updateChildren (h : Linked t S) (ha : a ∈ S) (hb : b ∈ S)
    (hu : Exchanged t u S a b) :
    ∃ v, v = ocfRbTreeUpdateChildren (ocfRbTreeUpdateChildren u a) b ∧ v.root = u.root ∧
      (∀ z, (v.node z).red = (u.node z).red) ∧ (∀ z d, (v.node z).child d = (u.node z).child d) ∧
      (∀ z ∈ S, (v.node (Equiv.swap a b z)).parent = (t.node z).parent.map (Equiv.swap a b)) ∧
      Keeps S u v := by
  obtain ⟨u₁, hu₁⟩ : ∃ u₁, u₁ = ocfRbTreeUpdateChildren u a := ⟨_, rfl⟩
  obtain ⟨u₂, hu₂⟩ : ∃ u₂, u₂ = ocfRbTreeUpdateChildren u₁ b := ⟨_, rfl⟩
  have hfields : ∀ (w : Tree ι) (x z : ι), ((ocfRbTreeUpdateChildren w x).node z).red = (w.node z).red ∧
      (∀ d, ((ocfRbTreeUpdateChildren w x).node z).child d = (w.node z).child d) ∧
      ((ocfRbTreeUpdateChildren w x).node z).next = (w.node z).next ∧
      ((ocfRbTreeUpdateChildren w x).node z).prev = (w.node z).prev := by
    intro w x z
    rw [updateChildren_node]
    split
    · exact ⟨rfl, fun d => by cases d <;> rfl, rfl, rfl⟩
    · exact ⟨rfl, fun d => rfl, rfl, rfl⟩
  -- the new children of a node are the renamed children of the other one
  have hchildren : ∀ p q, p ∈ S → (p = a ∧ q = b ∨ p = b ∧ q = a) → ∀ z ∈ S,
      (((u.node q).left = some (Equiv.swap a b z) ∨ (u.node q).right = some (Equiv.swap a b z)) ↔
        (t.node z).parent = some p) := by
    intro p q hp hpq z hz
    have hq : q = Equiv.swap a b p := by
      rcases hpq with ⟨rfl, rfl⟩ | ⟨rfl, rfl⟩
      · rw [Equiv.swap_apply_left]
      · rw [Equiv.swap_apply_right]
    have hpab : p = a ∨ p = b := by tauto
    have hchild : ∀ d, (u.node q).child d = ((t.node p).child d).map (Equiv.swap a b) := by
      intro d
      rw [hq, hu.child p hp d, if_pos hpab]
    have hleft : (u.node q).left = (t.node p).left.map (Equiv.swap a b) := hchild .left
    have hright : (u.node q).right = (t.node p).right.map (Equiv.swap a b) := hchild .right
    rw [hleft, hright, map_swap_eq_some, map_swap_eq_some]
    constructor
    · rintro (hl | hr)
      · exact (h.child p hp .left z hl).2
      · exact (h.child p hp .right z hr).2
    · intro hparent
      obtain ⟨-, d, hd⟩ := h.parent z hz p hparent
      cases d with
      | left => exact Or.inl hd
      | right => exact Or.inr hd
  have hleft₁ : (u₁.node b).left = (u.node b).left := by
    rw [hu₁]
    exact (hfields u a b).2.1 .left
  have hright₁ : (u₁.node b).right = (u.node b).right := by
    rw [hu₁]
    exact (hfields u a b).2.1 .right
  refine ⟨u₂, by rw [hu₂, hu₁], ?_, fun z => ?_, fun z d => ?_, fun z hz => ?_, ⟨fun z hz => ?_,
    fun z => ?_, fun z => ?_⟩⟩
  · rw [hu₂, hu₁, updateChildren_root, updateChildren_root]
  · rw [hu₂, (hfields u₁ b z).1, hu₁, (hfields u a z).1]
  · rw [hu₂, (hfields u₁ b z).2.1, hu₁, (hfields u a z).2.1]
  · have hb' := hchildren a b ha (Or.inl ⟨rfl, rfl⟩) z hz
    have ha' := hchildren b a hb (Or.inr ⟨rfl, rfl⟩) z hz
    rw [hu₂, updateChildren_node, hleft₁, hright₁]
    by_cases hpa : (t.node z).parent = some a
    · rw [if_pos (hb'.mpr hpa), hpa, map_some, Equiv.swap_apply_left]
    · rw [if_neg fun hor => hpa (hb'.mp hor), hu₁, updateChildren_node]
      by_cases hpb : (t.node z).parent = some b
      · rw [if_pos (ha'.mpr hpb), hpb, map_some, Equiv.swap_apply_right]
      · rw [if_neg fun hor => hpb (ha'.mp hor), hu.parent z hz]
        split
        · rfl
        · rw [map_swap_of_ne hpa hpb]
  · have hout : ∀ p q, p ∈ S → (p = a ∧ q = b ∨ p = b ∧ q = a) →
        ¬ ((u.node q).left = some z ∨ (u.node q).right = some z) := by
      intro p q hp hpq hor
      have hq : q = Equiv.swap a b p := by
        rcases hpq with ⟨rfl, rfl⟩ | ⟨rfl, rfl⟩
        · rw [Equiv.swap_apply_left]
        · rw [Equiv.swap_apply_right]
      have hpab : p = a ∨ p = b := by tauto
      have hsome : ∃ d, ((t.node p).child d).map (Equiv.swap a b) = some z := by
        rcases hor with hl | hr
        · refine ⟨.left, ?_⟩
          have hchild := hu.child p hp .left
          rw [if_pos hpab, ← hq] at hchild
          exact hchild.symm.trans hl
        · refine ⟨.right, ?_⟩
          have hchild := hu.child p hp .right
          rw [if_pos hpab, ← hq] at hchild
          exact hchild.symm.trans hr
      obtain ⟨d, hd⟩ := hsome
      obtain ⟨c, hc, hcz⟩ := map_eq_some_iff.mp hd
      exact hz (hcz ▸ swap_mem ha hb (h.child p hp d c hc).1)
    rw [hu₂, updateChildren_node, hleft₁, hright₁, if_neg (hout a b ha (Or.inl ⟨rfl, rfl⟩)), hu₁,
      updateChildren_node, if_neg (hout b a hb (Or.inr ⟨rfl, rfl⟩))]
  · rw [hu₂, (hfields u₁ b z).2.2.1, hu₁, (hfields u a z).2.2.1]
  · rw [hu₂, (hfields u₁ b z).2.2.2, hu₁, (hfields u a z).2.2.2]

/-- A link of a parent is overwritten: other nodes and lists are left. -/
theorem keeps_updateParent {p o : Option ι} {old : ι} (hp : ∀ z, p = some z → z ∈ S) :
    Keeps S t (ocfRbTreeUpdateParent t p old o) := by
  cases p with
  | none =>
    simp only [ocfRbTreeUpdateParent]
    split
    · exact ⟨fun _ _ => rfl, fun _ => rfl, fun _ => rfl⟩
    · exact Keeps.refl S t
  | some q =>
    simp only [ocfRbTreeUpdateParent]
    split
    · exact keeps_setChild t .left o (hp q rfl)
    · split
      · exact keeps_setChild t .right o (hp q rfl)
      · exact Keeps.refl S t

/-- `ocf_rb_tree_swap` exchanges the names of two nodes in all links. -/
theorem ocfRbTreeSwap_node (h : Linked t S) (ha : a ∈ S) (hb : b ∈ S) (hab : a ≠ b)
    (htop : (t.node a).parent = none → t.root = some a)
    (hsib : ∀ p, (t.node a).parent = some p → (t.node b).parent ≠ some p) :
    (ocfRbTreeSwap t a b).root = t.root.map (Equiv.swap a b) ∧
      (∀ z ∈ S, SameLinks ((ocfRbTreeSwap t a b).node (Equiv.swap a b z))
        ((t.node z).rename (Equiv.swap a b))) ∧ Keeps S t (ocfRbTreeSwap t a b) := by
  obtain ⟨u, hu, hrun⟩ := exists_exchanged h ha hb hab
  obtain ⟨v, hv, hroot, hred, hchild, hparent, hkeeps⟩ := hu.updateChildren h ha hb
  have hvChild : ∀ z ∈ S, ∀ d, (v.node (Equiv.swap a b z)).child d =
      if z = a ∨ z = b then ((t.node z).child d).map (Equiv.swap a b) else (t.node z).child d :=
    fun z hz d => (hchild _ d).trans (hu.child z hz d)
  have hpa : (v.node b).parent = (t.node a).parent.map (Equiv.swap a b) := by
    have hparentA := hparent a ha
    rwa [Equiv.swap_apply_left] at hparentA
  have hpb : (v.node a).parent = (t.node b).parent.map (Equiv.swap a b) := by
    have hparentB := hparent b hb
    rwa [Equiv.swap_apply_right] at hparentB
  -- the parent of `b` gets a link to `a`
  have hmapDistinct : ∀ q ∈ S, ∀ d c, ((t.node q).child d).map (Equiv.swap a b) = some c →
      ((t.node q).child d.other).map (Equiv.swap a b) ≠ some c := by
    intro q hq d c hc hother
    obtain ⟨x, hx, hxc⟩ := map_eq_some_iff.mp hc
    obtain ⟨y, hy, hyc⟩ := map_eq_some_iff.mp hother
    have hxy : x = y := (Equiv.swap a b).injective (hxc.trans hyc.symm)
    exact h.distinct q hq d x hx (hxy ▸ hy)
  have hdistinct₁ : ∀ z, (v.node a).parent = some z → ∀ d, (v.node z).child d = some b →
      (v.node z).child d.other ≠ some b := by
    intro z hz d hd
    rw [hpb] at hz
    obtain ⟨q, hq, rfl⟩ := map_eq_some_iff.mp hz
    have hqS := (h.parent b hb q hq).1
    rw [hvChild q hqS] at hd ⊢
    split at hd
    · next hqab =>
      rw [if_pos hqab]
      exact hmapDistinct q hqS d b hd
    · next hqab =>
      rw [if_neg hqab]
      exact h.distinct q hqS d b hd
  obtain ⟨v₁, hv₁⟩ : ∃ v₁, v₁ = ocfRbTreeUpdateParent v (v.node a).parent b (some a) := ⟨_, rfl⟩
  obtain ⟨hfields₁, hchild₁, hroot₁⟩ := @updateParent_spec ι _ v _ (some a) b hdistinct₁
  rw [← hv₁] at hfields₁ hchild₁ hroot₁
  rw [hpb] at hchild₁ hroot₁
  have hv₁Child : ∀ z ∈ S, ∀ d, (v₁.node (Equiv.swap a b z)).child d =
      if z = a ∨ z = b then ((t.node z).child d).map (Equiv.swap a b)
      else if (t.node z).child d = some b then some a else (t.node z).child d := by
    intro z hz d
    rw [hchild₁]
    simp only [map_swap_eq_some]
    rw [hvChild z hz]
    by_cases hzab : z = a ∨ z = b
    · rw [if_pos hzab, if_pos hzab]
      refine if_neg ?_
      rintro ⟨hbz, hc⟩
      rcases hzab with rfl | rfl
      · have hself : (t.node z).child d = some z :=
          map_swap_eq_some.mp (hc.trans (congrArg some (Equiv.swap_apply_left z b).symm))
        exact h.child_ne hz d hself
      · exact h.parent_ne hz hbz
    · rw [if_neg hzab, if_neg hzab]
      by_cases hc : (t.node z).child d = some b
      · rw [if_pos ⟨(h.child z hz d b hc).2, hc⟩, if_pos hc]
      · rw [if_neg fun hboth => hc hboth.2, if_neg hc]
  -- the parent of `a` gets a link to `b`
  have hpa₁ : (v₁.node b).parent = (t.node a).parent.map (Equiv.swap a b) := by
    rw [(hfields₁ b).2.1, hpa]
  have hnotSib : ∀ z ∈ S, (t.node a).parent = some z → ∀ d, (t.node z).child d ≠ some b :=
    fun z hz haz d hc => hsib z haz (h.child z hz d b hc).2
  have hdistinct₂ : ∀ z, (v₁.node b).parent = some z → ∀ d, (v₁.node z).child d = some a →
      (v₁.node z).child d.other ≠ some a := by
    intro z hz d hd
    rw [hpa₁] at hz
    obtain ⟨q, hq, rfl⟩ := map_eq_some_iff.mp hz
    have hqS := (h.parent a ha q hq).1
    rw [hv₁Child q hqS] at hd ⊢
    split at hd
    · next hqab =>
      rw [if_pos hqab]
      exact hmapDistinct q hqS d a hd
    · next hqab =>
      rw [if_neg hqab, if_neg (hnotSib q hqS hq d.other)]
      rw [if_neg (hnotSib q hqS hq d)] at hd
      exact h.distinct q hqS d a hd
  obtain ⟨v₂, hv₂⟩ : ∃ v₂, v₂ = ocfRbTreeUpdateParent v₁ (v₁.node b).parent a (some b) := ⟨_, rfl⟩
  obtain ⟨hfields₂, hchild₂, hroot₂⟩ := @updateParent_spec ι _ v₁ _ (some b) a hdistinct₂
  rw [← hv₂] at hfields₂ hchild₂ hroot₂
  rw [hpa₁] at hchild₂ hroot₂
  have hv₂Child : ∀ z ∈ S, ∀ d, (v₂.node (Equiv.swap a b z)).child d =
      ((t.node z).child d).map (Equiv.swap a b) := by
    intro z hz d
    rw [hchild₂]
    simp only [map_swap_eq_some]
    rw [hv₁Child z hz]
    by_cases hzab : z = a ∨ z = b
    · rw [if_pos hzab]
      refine if_neg ?_
      rintro ⟨haz, hc⟩
      rcases hzab with rfl | rfl
      · exact h.parent_ne hz haz
      · have hself : (t.node z).child d = some z :=
          map_swap_eq_some.mp (hc.trans (congrArg some (Equiv.swap_apply_right a z).symm))
        exact h.child_ne hz d hself
    · rw [if_neg hzab]
      by_cases haz : (t.node a).parent = some z
      · have hnb := hnotSib z hz haz d
        rw [if_neg hnb]
        by_cases hc : (t.node z).child d = some a
        · rw [if_pos ⟨haz, hc⟩, hc, map_some, Equiv.swap_apply_left]
        · rw [if_neg fun hboth => hc hboth.2, map_swap_of_ne hc hnb]
      · have hna : (t.node z).child d ≠ some a := fun hc => haz (h.child z hz d a hc).2
        rw [if_neg fun hboth => haz hboth.1]
        by_cases hc : (t.node z).child d = some b
        · rw [if_pos hc, hc, map_some, Equiv.swap_apply_right]
        · rw [if_neg hc, map_swap_of_ne hna hc]
  have hwhole : ocfRbTreeSwap t a b = v₂ := by
    rw [hrun, ← hv]
    dsimp only
    rw [← hv₁, ← hv₂]
  rw [hwhole]
  refine ⟨?_, fun z hz => ⟨?_, ?_, ?_, ?_⟩, ?_⟩
  · rw [hroot₂, hroot₁, hroot, hu.root]
    simp only [Option.map_eq_none_iff]
    by_cases hra : t.root = some a
    · have hrb : ¬ ((t.node b).parent = none ∧ t.root = some b) := by
        rintro ⟨-, hb'⟩
        exact hab (Option.some.inj (hra.symm.trans hb'))
      rw [if_neg hrb, if_pos ⟨h.top a ha hra, hra⟩, hra, map_some, Equiv.swap_apply_left]
    · have hpaSome : (t.node a).parent ≠ none := fun hnone => hra (htop hnone)
      rw [if_neg fun hboth => hpaSome hboth.1]
      by_cases hrb : t.root = some b
      · rw [if_pos ⟨h.top b hb hrb, hrb⟩, hrb, map_some, Equiv.swap_apply_right]
      · rw [if_neg fun hboth => hrb hboth.2, map_swap_of_ne hra hrb]
  · rw [(hfields₂ _).1, (hfields₁ _).1, hred, hu.red z hz]
    rfl
  · exact hv₂Child z hz .left
  · exact hv₂Child z hz .right
  · rw [(hfields₂ _).2.1, (hfields₁ _).2.1, hparent z hz]
    rfl
  · have hkeeps₁ : Keeps S v v₁ := by
      rw [hv₁]
      refine keeps_updateParent fun z hz => ?_
      rw [hpb] at hz
      obtain ⟨q, hq, rfl⟩ := map_eq_some_iff.mp hz
      exact swap_mem ha hb (h.parent b hb q hq).1
    have hkeeps₂ : Keeps S v₁ v₂ := by
      rw [hv₂]
      refine keeps_updateParent fun z hz => ?_
      rw [hpa₁] at hz
      obtain ⟨q, hq, rfl⟩ := map_eq_some_iff.mp hz
      exact swap_mem ha hb (h.parent a ha q hq).1
    exact ((hu.keeps.trans hkeeps).trans hkeeps₁).trans hkeeps₂

variable {s : Shape ι}

omit [DecidableEq ι] in
/-- New names in the memory and in the shape. -/
theorem Rep.map {f : ι → ι} {t' : Tree ι} {p : Option ι} (h : Rep t p s)
    (hf : ∀ z ∈ s.inorder, SameLinks (t'.node (f z)) ((t.node z).rename f)) :
    Rep t' (p.map f) (s.map f) := by
  induction s generalizing p with
  | leaf => trivial
  | node c l x r ihl ihr =>
    simp only [inorder, mem_append, mem_cons] at hf
    obtain ⟨hx, hl, hr⟩ := h
    have hsame := hf x (Or.inr (Or.inl rfl))
    refine ⟨⟨hsame.red.trans hx.red, ?_, ?_, ?_⟩, ihl hl fun z hz => hf z (Or.inl hz),
      ihr hr fun z hz => hf z (Or.inr (Or.inr hz))⟩
    · rw [hsame.child, rename_child, hx.near, root_map]
    · rw [hsame.child, rename_child, hx.far, root_map]
    · have hparent : (t'.node (f x)).parent = (t.node x).parent.map f := hsame.parent
      rw [hparent, hx.parent]

theorem Represents.map_swap {t' : Tree ι} (h : Represents t s)
    (hroot : t'.root = t.root.map (Equiv.swap a b))
    (hf : ∀ z ∈ s.inorder, SameLinks (t'.node (Equiv.swap a b z))
      ((t.node z).rename (Equiv.swap a b))) : Represents t' (s.map (Equiv.swap a b)) := by
  refine ⟨?_, h.rep.map hf, ?_⟩
  · rw [hroot, h.root, root_map]
  · rw [inorder_map]
    exact h.nodup.map (Equiv.swap a b).injective

/-- Two nodes of the tree exchange their places. -/
theorem Represents.swap (h : Represents t s) (ha : a ∈ s.inorder) (hb : b ∈ s.inorder)
    (hab : a ≠ b) (hsib : ∀ p, (t.node a).parent = some p → (t.node b).parent ≠ some p) :
    Represents (ocfRbTreeSwap t a b) (s.map (Equiv.swap a b)) ∧
      Keeps s.inorder t (ocfRbTreeSwap t a b) := by
  obtain ⟨hlinked, htop⟩ := h.linked
  obtain ⟨hroot, hnodes, hkeeps⟩ := ocfRbTreeSwap_node hlinked ha hb hab (htop a ha) hsib
  exact ⟨h.map_swap hroot hnodes, hkeeps⟩

/-- A node outside of the tree takes the place of a node in it, which is
without links then. -/
theorem Represents.substitute (h : Represents t s) (ha : a ∈ s.inorder)
    (hb : b ∉ s.inorder) (hleft : (t.node b).left = none) (hright : (t.node b).right = none)
    (hparent : (t.node b).parent = none) :
    Represents (ocfRbTreeSwap t a b) (s.map (Equiv.swap a b)) ∧
      Keeps (b :: s.inorder) t (ocfRbTreeSwap t a b) := by
  have hab : a ≠ b := fun heq => hb (heq ▸ ha)
  obtain ⟨hlinked, htop⟩ := h.linked
  have hlinked' := hlinked.cons hb hleft hright hparent
  obtain ⟨hroot, hnodes, hkeeps⟩ := ocfRbTreeSwap_node hlinked' (List.mem_cons_of_mem b ha)
    List.mem_cons_self hab (htop a ha) fun p _ hp => by
      rw [hparent] at hp
      simp at hp
  exact ⟨h.map_swap hroot fun z hz => hnodes z (List.mem_cons_of_mem b hz), hkeeps⟩

end Exchange

end OcfCache.RbTree
