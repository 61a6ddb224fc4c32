import OcfCache.RbShapes
import OcfCache.RbTree

/-!
# The links of the red-black tree

A memory represents a shape if every node has the colour, the children and the
parent that it has in the shape. The links of the frames above a place are
stated apart from those of the subtree there, so that a rotation or a link that
is overwritten is followed at its place.
-/

namespace OcfCache.RbTree

open Function RbShapes RbShapes.Shape

variable {ι : Type*}

/-- The child on a side. -/
def Node.child (n : Node ι) : Side → Option ι
  | .left => n.left
  | .right => n.right

/-- Colour and links of a node, its children named from one side. -/
structure NodeIs (n : Node ι) (red : Bool) (d : Side) (near far parent : Option ι) : Prop where
  /-- Colour. -/
  red : n.red = red
  /-- Child on the side. -/
  near : n.child d = near
  /-- Child on the other side. -/
  far : n.child d.other = far
  /-- Parent. -/
  parent : n.parent = parent

theorem nodeIs_other {n : Node ι} {c : Bool} {d : Side} {o o' p : Option ι} :
    NodeIs n c d.other o o' p ↔ NodeIs n c d o' o p := by
  constructor
  · intro h
    have hfar := h.far
    rw [Side.other_other] at hfar
    exact ⟨h.red, hfar, h.near, h.parent⟩
  · intro h
    exact ⟨h.red, h.far, (Side.other_other d).symm ▸ h.near, h.parent⟩

/-- Two nodes with the same colour and links. -/
structure SameLinks (m n : Node ι) : Prop where
  /-- Colour. -/
  red : m.red = n.red
  /-- Left child. -/
  left : m.left = n.left
  /-- Right child. -/
  right : m.right = n.right
  /-- Parent. -/
  parent : m.parent = n.parent

variable {m n : Node ι}

theorem SameLinks.child (h : SameLinks m n) (d : Side) : m.child d = n.child d := by
  cases d with
  | left => exact h.left
  | right => exact h.right

theorem SameLinks.of_eq (h : m = n) : SameLinks m n := by
  subst h
  exact ⟨rfl, rfl, rfl, rfl⟩

theorem NodeIs.congr {c : Bool} {d : Side} {o o' p : Option ι} (h : NodeIs n c d o o' p)
    (hsame : SameLinks m n) : NodeIs m c d o o' p :=
  ⟨hsame.red.trans h.red, (hsame.child d).trans h.near, (hsame.child d.other).trans h.far,
    hsame.parent.trans h.parent⟩

/-- The nodes of a subtree have the links of its shape, below the parent `p`. -/
def Rep (t : Tree ι) : Option ι → Shape ι → Prop
  | _, leaf => True
  | p, node c l x r =>
    NodeIs (t.node x) c .left l.root r.root p ∧ Rep t (some x) l ∧ Rep t (some x) r

/-- The frames above a place with the node `o` have their links. -/
def Above (t : Tree ι) : Option ι → List (Frame ι) → Prop
  | _, [] => True
  | o, f :: fs =>
    NodeIs (t.node f.x) f.red f.side o f.sib.root (top fs) ∧ Rep t (some f.x) f.sib ∧
      Above t (some f.x) fs

/-- A memory represents a shape. -/
structure Represents (t : Tree ι) (s : Shape ι) : Prop where
  /-- The tree points to the node at the top. -/
  root : t.root = s.root
  /-- Children and parents point to each other. -/
  rep : Rep t none s
  /-- No node is there twice. -/
  nodup : s.inorder.Nodup

variable {t : Tree ι} {p : Option ι}

theorem rep_branch {d : Side} {c : Bool} {a b : Shape ι} {x : ι} : Rep t p (branch d c a x b) ↔
      NodeIs (t.node x) c d a.root b.root p ∧ Rep t (some x) a ∧ Rep t (some x) b := by
  cases d with
  | left => rfl
  | right =>
    have hside := @nodeIs_other _ (t.node x) c .left a.root b.root p
    simp only [branch, Rep]
    rw [← hside]
    tauto

variable {t t' : Tree ι} {s : Shape ι}

theorem Rep.congr (h : Rep t p s)
    (hsame : ∀ z ∈ s.inorder, SameLinks (t'.node z) (t.node z)) : Rep t' p s := by
  induction s generalizing p with
  | leaf => trivial
  | node c l x r ihl ihr =>
    simp only [inorder, List.mem_append, List.mem_cons] at hsame
    obtain ⟨hx, hl, hr⟩ := h
    exact ⟨hx.congr (hsame x (Or.inr (Or.inl rfl))), ihl hl fun z hz => hsame z (Or.inl hz),
      ihr hr fun z hz => hsame z (Or.inr (Or.inr hz))⟩

variable {fs : List (Frame ι)}

theorem Above.congr {o : Option ι} (h : Above t o fs)
    (hsame : ∀ z ∈ names fs, SameLinks (t'.node z) (t.node z)) : Above t' o fs := by
  induction fs generalizing o with
  | nil => trivial
  | cons f fs ih =>
    simp only [names, List.mem_append, List.mem_cons] at hsame
    obtain ⟨hf, hsib, hfs⟩ := h
    exact ⟨hf.congr (hsame f.x (Or.inl (Or.inl rfl))),
      hsib.congr fun z hz => hsame z (Or.inl (Or.inr hz)), ih hfs fun z hz => hsame z (Or.inr hz)⟩

theorem rep_plug : Rep t none (plug s fs) ↔ Rep t (top fs) s ∧ Above t s.root fs := by
  induction fs generalizing s with
  | nil => simp [top, Above]
  | cons f fs ih =>
    obtain ⟨d, c, x, b⟩ := f
    rw [plug_cons, ih, rep_branch, root_branch]
    simp only [Above, top]
    tauto

theorem represents_plug :
    Represents t (plug s fs) ↔ (t.root = base s.root fs ∧ Rep t (top fs) s ∧ Above t s.root fs) ∧
      s.inorder.Nodup ∧ (names fs).Nodup ∧ ∀ z ∈ s.inorder, z ∉ names fs := by
  rw [← nodup_plug, ← rep_plug, ← root_plug]
  constructor
  · intro h
    exact ⟨⟨h.root, h.rep⟩, h.nodup⟩
  · rintro ⟨⟨hroot, hrep⟩, hnodup⟩
    exact ⟨hroot, hrep, hnodup⟩

theorem top_mem {p : ι} (h : top fs = some p) : p ∈ names fs := by
  cases fs with
  | nil => simp [top] at h
  | cons f fs =>
    have hfp : f.x = p := Option.some.inj h
    simp [names, hfp]

theorem Represents.nodeIs {c : Bool} {d : Side} {a b : Shape ι} {x : ι} (h : Represents t (plug (branch d c a x b) fs)) :
    NodeIs (t.node x) c d a.root b.root (top fs) :=
  (rep_branch.mp (represents_plug.mp h).1.2.1).1

theorem Represents.frame {f : Frame ι} (h : Represents t (plug s (f :: fs))) :
    NodeIs (t.node f.x) f.red f.side s.root f.sib.root (top fs) :=
  (represents_plug.mp h).1.2.2.1

theorem Represents.sib_ne {f : Frame ι} {x : ι}
    (h : Represents t (plug s (f :: fs))) (hx : x ∈ s.inorder) : f.sib.root ≠ some x := by
  intro hsib
  have hfresh := (represents_plug.mp h).2.2.2 x hx
  simp only [names, List.mem_append, List.mem_cons, not_or] at hfresh
  exact hfresh.1.2 (root_mem hsib)

theorem Rep.isRed (h : Rep t p s) : t.isRed s.root = s.isRed := by
  cases s with
  | leaf => rfl
  | node c l x r => exact h.1.red

theorem Represents.congr (h : Represents t s) (hroot : t'.root = t.root)
    (hsame : ∀ z ∈ s.inorder, SameLinks (t'.node z) (t.node z)) : Represents t' s :=
  ⟨hroot.trans h.root, h.rep.congr hsame, h.nodup⟩

/-- The nodes outside of `S` are untouched, and so are all lists of equal nodes. -/
structure Keeps (S : List ι) (t t' : Tree ι) : Prop where
  /-- Nodes outside. -/
  outside : ∀ z, z ∉ S → t'.node z = t.node z
  /-- Next entry of a list. -/
  next : ∀ z, (t'.node z).next = (t.node z).next
  /-- Previous entry of a list. -/
  prev : ∀ z, (t'.node z).prev = (t.node z).prev

theorem Keeps.refl (S : List ι) (t : Tree ι) : Keeps S t t :=
  ⟨fun _ _ => rfl, fun _ => rfl, fun _ => rfl⟩

theorem Keeps.trans {S : List ι} {t t' t'' : Tree ι} (h : Keeps S t t') (h' : Keeps S t' t'') :
    Keeps S t t'' :=
  ⟨fun z hz => (h'.outside z hz).trans (h.outside z hz), fun z => (h'.next z).trans (h.next z),
    fun z => (h'.prev z).trans (h.prev z)⟩

theorem Keeps.mono {S S' : List ι} (h : Keeps S t t') (hS : ∀ z ∈ S, z ∈ S') : Keeps S' t t' :=
  ⟨fun z hz => h.outside z fun hzS => hz (hS z hzS), h.next, h.prev⟩

section Writes

variable [DecidableEq ι]

/-- Overwrite a child. -/
def Tree.setChild (t : Tree ι) (x : ι) : Side → Option ι → Tree ι
  | .left, o => t.setLeft x o
  | .right, o => t.setRight x o

@[simp] theorem setRed_root (t : Tree ι) (x : ι) (c : Bool) : (t.setRed x c).root = t.root := rfl

@[simp] theorem setParent_root (t : Tree ι) (x : ι) (p : Option ι) :
    (t.setParent x p).root = t.root := rfl

@[simp] theorem setChild_root (t : Tree ι) (x : ι) (d : Side) (o : Option ι) :
    (t.setChild x d o).root = t.root := by
  cases d <;> rfl

@[simp] theorem adopt_root (t : Tree ι) (o : Option ι) (x : ι) : (t.adopt o x).root = t.root := by
  cases o <;> rfl

@[simp] theorem setRed_node_self (t : Tree ι) (x : ι) (c : Bool) :
    (t.setRed x c).node x = { t.node x with red := c } := by
  simp [Tree.setRed, Tree.modify]

@[simp] theorem setParent_node_self (t : Tree ι) (x : ι) (p : Option ι) :
    (t.setParent x p).node x = { t.node x with parent := p } := by
  simp [Tree.setParent, Tree.modify]

variable {t : Tree ι} {x z : ι}

@[simp] theorem setRed_node_of_ne {c : Bool} (h : z ≠ x) :
    (t.setRed x c).node z = t.node z :=
  update_of_ne h ..

@[simp] theorem setParent_node_of_ne {p : Option ι} (h : z ≠ x) :
    (t.setParent x p).node z = t.node z :=
  update_of_ne h ..

variable {d : Side} {o : Option ι}

@[simp] theorem setChild_node_of_ne (h : z ≠ x) :
    (t.setChild x d o).node z = t.node z := by
  cases d <;> exact update_of_ne h ..

@[simp] theorem adopt_node_of_ne (h : o ≠ some z) :
    (t.adopt o x).node z = t.node z := by
  cases o with
  | none => rfl
  | some c =>
    have hc : z ≠ c := fun heq => h (heq ▸ rfl)
    exact setParent_node_of_ne hc

@[simp] theorem adopt_some (t : Tree ι) (c x : ι) : t.adopt (some c) x = t.setParent c (some x) := rfl

variable {x : ι}

theorem NodeIs.setChild {c : Bool} {o o' o'' p : Option ι}
    (h : NodeIs (t.node x) c d o o' p) : NodeIs ((t.setChild x d o'').node x) c d o'' o' p := by
  obtain ⟨hred, -, hfar, hparent⟩ := h
  cases d with
  | left =>
    have hself : (t.setChild x .left o'').node x = { t.node x with left := o'' } :=
      update_self ..
    rw [hself]
    exact ⟨hred, rfl, hfar, hparent⟩
  | right =>
    have hself : (t.setChild x .right o'').node x = { t.node x with right := o'' } :=
      update_self ..
    rw [hself]
    exact ⟨hred, rfl, hfar, hparent⟩

theorem NodeIs.setParent {c : Bool} {o o' p p' : Option ι}
    (h : NodeIs (t.node x) c d o o' p) : NodeIs ((t.setParent x p').node x) c d o o' p' := by
  obtain ⟨hred, hnear, hfar, -⟩ := h
  rw [setParent_node_self]
  cases d <;> exact ⟨hred, hnear, hfar, rfl⟩

theorem NodeIs.setRed {c c' : Bool} {o o' p : Option ι}
    (h : NodeIs (t.node x) c d o o' p) : NodeIs ((t.setRed x c').node x) c' d o o' p := by
  obtain ⟨-, hnear, hfar, hparent⟩ := h
  rw [setRed_node_self]
  cases d <;> exact ⟨rfl, hnear, hfar, hparent⟩

variable {S : List ι}

theorem keeps_modify {f : Node ι → Node ι} (hx : x ∈ S)
    (hnext : (f (t.node x)).next = (t.node x).next) (hprev : (f (t.node x)).prev = (t.node x).prev) :
    Keeps S t (t.modify x f) := by
  have hother : ∀ z, z ≠ x → (t.modify x f).node z = t.node z := fun z hz =>
    update_of_ne hz ..
  have hself : (t.modify x f).node x = f (t.node x) := by simp [Tree.modify]
  refine ⟨fun z hz => hother z fun heq => hz (heq ▸ hx), fun z => ?_, fun z => ?_⟩
  · by_cases hzx : z = x
    · rw [hzx, hself, hnext]
    · rw [hother z hzx]
  · by_cases hzx : z = x
    · rw [hzx, hself, hprev]
    · rw [hother z hzx]

theorem keeps_setRed (t : Tree ι) (c : Bool) (hx : x ∈ S) : Keeps S t (t.setRed x c) :=
  keeps_modify hx rfl rfl

theorem keeps_setParent (t : Tree ι) (p : Option ι) (hx : x ∈ S) : Keeps S t (t.setParent x p) :=
  keeps_modify hx rfl rfl

theorem keeps_setChild (t : Tree ι) (d : Side) (o : Option ι) (hx : x ∈ S) :
    Keeps S t (t.setChild x d o) := by
  cases d with
  | left =>
    change Keeps S t (t.modify x fun n => { n with left := o })
    exact keeps_modify hx rfl rfl
  | right =>
    change Keeps S t (t.modify x fun n => { n with right := o })
    exact keeps_modify hx rfl rfl

theorem keeps_adopt (t : Tree ι) (o : Option ι) (ho : ∀ z, o = some z → z ∈ S) :
    Keeps S t (t.adopt o x) := by
  cases o with
  | none => exact Keeps.refl S t
  | some c => exact keeps_setParent t (some x) (ho c rfl)

variable {s : Shape ι}

theorem Rep.adopt {p : Option ι} (h : Rep t p s)
    (hnodup : s.inorder.Nodup) : Rep (t.adopt s.root x) (some x) s := by
  cases s with
  | leaf => trivial
  | node c l y r =>
    obtain ⟨⟨hyl, hyr⟩, -⟩ := (nodup_branch (d := .left) (c := c) (a := l) (b := r) (x := y)).mp hnodup
    obtain ⟨hy, hl, hr⟩ := h
    refine ⟨hy.setParent, hl.congr fun z hz => ?_, hr.congr fun z hz => ?_⟩
    · exact SameLinks.of_eq (setParent_node_of_ne fun heq => hyl (heq ▸ hz))
    · exact SameLinks.of_eq (setParent_node_of_ne fun heq => hyr (heq ▸ hz))

/-- The link to a place is overwritten. -/
def Tree.setTop (t : Tree ι) (o : Option ι) : List (Frame ι) → Tree ι
  | [] => { t with root := o }
  | f :: _ => t.setChild f.x f.side o

/-- `ocf_rb_tree_update_parent` finds the link from a parent to its child. -/
theorem updateParent_eq_setChild {p x : ι}
    (hnear : (t.node p).child d = some x) (hfar : (t.node p).child d.other ≠ some x) :
    ocfRbTreeUpdateParent t (some p) x o = t.setChild p d o := by
  cases d with
  | left =>
    have hleft : (t.node p).left = some x := hnear
    simp only [ocfRbTreeUpdateParent, hleft, if_true]
    rfl
  | right =>
    have hright : (t.node p).right = some x := hnear
    have hleft : ¬ (t.node p).left = some x := hfar
    simp only [ocfRbTreeUpdateParent, hleft, hright, if_true, if_false]
    rfl

variable {fs : List (Frame ι)}

/-- `ocf_rb_tree_update_parent` overwrites the link to a place. -/
theorem updateParent_eq_setTop
    (hroot : t.root = base (some x) fs) (habove : Above t (some x) fs) (hx : x ∉ names fs) :
    ocfRbTreeUpdateParent t (top fs) x o = t.setTop o fs := by
  cases fs with
  | nil =>
    have hroot' : t.root = some x := hroot
    simp only [top, ocfRbTreeUpdateParent, hroot', if_true]
    rfl
  | cons f fs =>
    have hf := habove.1
    refine updateParent_eq_setChild hf.near ?_
    rw [hf.far]
    intro hsib
    simp only [names, List.mem_append, List.mem_cons, not_or] at hx
    exact hx.1.2 (root_mem hsib)

theorem setTop_node_of_ne {z : ι} (hz : top fs ≠ some z) : (t.setTop o fs).node z = t.node z := by
  cases fs with
  | nil => rfl
  | cons f fs => exact setChild_node_of_ne fun heq => hz (heq ▸ rfl)

theorem setTop_root {o o' : Option ι} (h : t.root = base o fs) :
    (t.setTop o' fs).root = base o' fs := by
  cases fs with
  | nil => rfl
  | cons f fs => exact (setChild_root ..).trans h

theorem Above.setTop {t : Tree ι} {o o' : Option ι} {fs : List (Frame ι)} (h : Above t o fs)
    (hnodup : (names fs).Nodup) : Above (t.setTop o' fs) o' fs := by
  cases fs with
  | nil => trivial
  | cons f fs =>
    obtain ⟨hf, hsib, hfs⟩ := h
    have hfresh : f.x ∉ f.sib.inorder ++ names fs := (List.nodup_cons.mp hnodup).1
    rw [List.mem_append, not_or] at hfresh
    refine ⟨hf.setChild, hsib.congr fun z hz => ?_, hfs.congr fun z hz => ?_⟩
    · exact SameLinks.of_eq (setChild_node_of_ne fun heq => hfresh.1 (heq ▸ hz))
    · exact SameLinks.of_eq (setChild_node_of_ne fun heq => hfresh.2 (heq ▸ hz))

theorem keeps_setTop (t : Tree ι) (o : Option ι)
    (hS : ∀ z ∈ names fs, z ∈ S) : Keeps S t (t.setTop o fs) := by
  cases fs with
  | nil => exact ⟨fun _ _ => rfl, fun _ => rfl, fun _ => rfl⟩
  | cons f fs => exact keeps_setChild t f.side o (hS f.x (by simp [names]))

theorem Represents.setTop {t : Tree ι} {s s' : Shape ι} {fs : List (Frame ι)}
    (h : Represents t (plug s fs)) (hrep : Rep t (top fs) s') (hnodup : s'.inorder.Nodup)
    (hnames : ∀ z ∈ s'.inorder, z ∉ names fs) : Represents (t.setTop s'.root fs) (plug s' fs) := by
  obtain ⟨⟨hroot, -, habove⟩, -, hfs, -⟩ := represents_plug.mp h
  refine represents_plug.mpr ⟨⟨setTop_root hroot, hrep.congr fun z hz => ?_, habove.setTop hfs⟩,
    hnodup, hfs, hnames⟩
  exact SameLinks.of_eq (setTop_node_of_ne fun htop => hnames z hz (top_mem htop))

/-- `ocf_rb_tree_update_parent` at a place of the tree. -/
theorem Represents.updateParent_eq
    (h : Represents t (plug s fs)) (hx : s.root = some x) (o : Option ι) :
    ocfRbTreeUpdateParent t (top fs) x o = t.setTop o fs := by
  obtain ⟨⟨hroot, -, habove⟩, -, -, hdisjoint⟩ := represents_plug.mp h
  rw [hx] at hroot habove
  exact updateParent_eq_setTop hroot habove (hdisjoint x (root_mem hx))

theorem Represents.cut (h : Represents t (plug s fs)) (hx : s.root = some x) :
    Represents (ocfRbTreeUpdateParent t (top fs) x none) (plug leaf fs) := by
  rw [h.updateParent_eq hx]
  exact @Represents.setTop ι _ t s leaf fs h trivial List.nodup_nil fun _ hz =>
    absurd hz List.not_mem_nil

end Writes

section Rotations

variable [DecidableEq ι]

/-- `ocf_rb_tree_rotate_left` and `ocf_rb_tree_rotate_right`: a node moves to
its side `d`, below its other child. -/
def rotate (d : Side) (t : Tree ι) (x : ι) : Option (Tree ι) :=
  match d with
  | .left => ocfRbTreeRotateLeft t x
  | .right => ocfRbTreeRotateRight t x

theorem rotate_eq (d : Side) (t : Tree ι) (x : ι) :
    rotate d t x = ((t.node x).child d.other).map fun y =>
      let t := t.setChild x d.other ((t.node y).child d)
      let t := t.adopt ((t.node x).child d.other) x
      let t := t.setParent y (t.node x).parent
      let t := ocfRbTreeUpdateParent t (t.node x).parent x (some y)
      let t := t.setChild y d (some x)
      t.setParent x (some y) := by
  cases d <;> rfl

/-- A rotation turns the shape around an edge. -/
theorem Represents.rotate {t : Tree ι} {d : Side} {c e : Bool} {a b w : Shape ι} {x y : ι}
    {fs : List (Frame ι)} (h : Represents t (plug (branch d c a x (branch d e b y w)) fs)) :
    ∃ t', RbTree.rotate d t x = some t' ∧
      Represents t' (plug (branch d e (branch d c a x b) y w) fs) ∧
      Keeps (plug (branch d c a x (branch d e b y w)) fs).inorder t t' := by
  obtain ⟨⟨hroot, hrep, habove⟩, hnodup, hfs, hdisjoint⟩ := represents_plug.mp h
  obtain ⟨hx, ha, hrest⟩ := rep_branch.mp hrep
  obtain ⟨hy, hb, hw⟩ := rep_branch.mp hrest
  obtain ⟨⟨hxa, hxrest⟩, hnodupA, hnodupRest, habw⟩ := nodup_branch.mp hnodup
  obtain ⟨⟨hyb, hyw⟩, hnodupB, hnodupW, hbw⟩ := nodup_branch.mp hnodupRest
  simp only [mem_inorder_branch, not_or] at hxrest habw hdisjoint
  obtain ⟨hxy, hxb, hxw⟩ := hxrest
  have hxfs := hdisjoint x (Or.inl rfl)
  have hyfs := hdisjoint y (Or.inr (Or.inr (Or.inl rfl)))
  rw [root_branch] at hroot habove
  have hbx : b.root ≠ some x := fun heq => hxb (root_mem heq)
  have hby : b.root ≠ some y := fun heq => hyb (root_mem heq)
  have htx : top fs ≠ some x := fun heq => hxfs (top_mem heq)
  have hty : top fs ≠ some y := fun heq => hyfs (top_mem heq)
  -- the writes, one after another
  obtain ⟨t₁, ht₁⟩ : ∃ u, u = t.setChild x d.other b.root := ⟨_, rfl⟩
  obtain ⟨t₂, ht₂⟩ : ∃ u, u = t₁.adopt b.root x := ⟨_, rfl⟩
  obtain ⟨t₃, ht₃⟩ : ∃ u, u = t₂.setParent y (top fs) := ⟨_, rfl⟩
  obtain ⟨t₄, ht₄⟩ : ∃ u, u = t₃.setTop (some y) fs := ⟨_, rfl⟩
  obtain ⟨t₅, ht₅⟩ : ∃ u, u = t₄.setChild y d (some x) := ⟨_, rfl⟩
  obtain ⟨t₆, ht₆⟩ : ∃ u, u = t₅.setParent x (some y) := ⟨_, rfl⟩
  have hx₁ : NodeIs (t₁.node x) c d a.root b.root (top fs) := by
    have hset : NodeIs ((t.setChild x d.other b.root).node x) c d.other b.root a.root (top fs) :=
      (nodeIs_other.mpr hx).setChild
    rw [← ht₁] at hset
    exact nodeIs_other.mp hset
  have hx₂ : NodeIs (t₂.node x) c d a.root b.root (top fs) := by
    rw [ht₂, adopt_node_of_ne hbx]
    exact hx₁
  have hx₃ : NodeIs (t₃.node x) c d a.root b.root (top fs) := by
    rw [ht₃, setParent_node_of_ne hxy]
    exact hx₂
  have hx₆ : NodeIs (t₆.node x) c d a.root b.root (some y) := by
    rw [ht₆]
    refine NodeIs.setParent (p := top fs) ?_
    rw [ht₅, setChild_node_of_ne hxy, ht₄, setTop_node_of_ne htx]
    exact hx₃
  have hy₃ : NodeIs (t₃.node y) e d b.root w.root (top fs) := by
    rw [ht₃]
    refine NodeIs.setParent (p := some x) ?_
    rw [ht₂, adopt_node_of_ne hby, ht₁, setChild_node_of_ne (Ne.symm hxy)]
    exact hy
  have hy₆ : NodeIs (t₆.node y) e d (some x) w.root (top fs) := by
    rw [ht₆, setParent_node_of_ne (Ne.symm hxy), ht₅]
    refine NodeIs.setChild (o := b.root) ?_
    rw [ht₄, setTop_node_of_ne hty]
    exact hy₃
  have hlow : ∀ z, z ≠ x → z ≠ y → b.root ≠ some z → t₃.node z = t.node z := by
    intro z hzx hzy hzb
    rw [ht₃, setParent_node_of_ne hzy, ht₂, adopt_node_of_ne hzb, ht₁, setChild_node_of_ne hzx]
  have hhigh : ∀ z, z ≠ x → z ≠ y → t₆.node z = t₄.node z := by
    intro z hzx hzy
    rw [ht₆, setParent_node_of_ne hzx, ht₅, setChild_node_of_ne hzy]
  have hrest₆ : ∀ z, z ≠ x → z ≠ y → b.root ≠ some z → top fs ≠ some z → t₆.node z = t.node z := by
    intro z hzx hzy hzb hztop
    rw [hhigh z hzx hzy, ht₄, setTop_node_of_ne hztop, hlow z hzx hzy hzb]
  have hroot₃ : t₃.root = base (some x) fs := by
    rw [ht₃, setParent_root, ht₂, adopt_root, ht₁, setChild_root, hroot]
  have hnefs : ∀ z ∈ names fs, z ≠ x ∧ z ≠ y ∧ b.root ≠ some z := by
    intro z hz
    refine ⟨fun heq => hxfs (heq ▸ hz), fun heq => hyfs (heq ▸ hz), fun heq => ?_⟩
    exact hdisjoint z (Or.inr (Or.inr (Or.inr (Or.inl (root_mem heq))))) hz
  have habove₃ : Above t₃ (some x) fs := habove.congr fun z hz =>
    SameLinks.of_eq (hlow z (hnefs z hz).1 (hnefs z hz).2.1 (hnefs z hz).2.2)
  have habove₆ : Above t₆ (some y) fs := by
    have habove₄ : Above (t₃.setTop (some y) fs) (some y) fs := habove₃.setTop hfs
    rw [← ht₄] at habove₄
    exact habove₄.congr fun z hz =>
      SameLinks.of_eq (hhigh z (hnefs z hz).1 (hnefs z hz).2.1)
  have ha₆ : Rep t₆ (some x) a := ha.congr fun z hz => by
    have hz' := habw z hz
    refine SameLinks.of_eq (hrest₆ z ?_ hz'.1 ?_ ?_)
    · exact fun heq => hxa (heq ▸ hz)
    · exact fun heq => hz'.2.1 (root_mem heq)
    · exact fun heq => hdisjoint z (Or.inr (Or.inl hz)) (top_mem heq)
  have hw₆ : Rep t₆ (some y) w := hw.congr fun z hz => by
    refine SameLinks.of_eq (hrest₆ z ?_ ?_ ?_ ?_)
    · exact fun heq => hxw (heq ▸ hz)
    · exact fun heq => hyw (heq ▸ hz)
    · exact fun heq => hbw z (root_mem heq) hz
    · exact fun heq => hdisjoint z (Or.inr (Or.inr (Or.inr (Or.inr hz)))) (top_mem heq)
  have hb₆ : Rep t₆ (some x) b := by
    have hb₁ : Rep t₁ (some y) b := hb.congr fun z hz => by
      rw [ht₁]
      exact SameLinks.of_eq (setChild_node_of_ne fun heq => hxb (heq ▸ hz))
    have hb₂ := hb₁.adopt (x := x) hnodupB
    rw [← ht₂] at hb₂
    refine hb₂.congr fun z hz => SameLinks.of_eq ?_
    have hzx : z ≠ x := fun heq => hxb (heq ▸ hz)
    have hzy : z ≠ y := fun heq => hyb (heq ▸ hz)
    have hztop : top fs ≠ some z := fun heq =>
      hdisjoint z (Or.inr (Or.inr (Or.inr (Or.inl hz)))) (top_mem heq)
    rw [hhigh z hzx hzy, ht₄, setTop_node_of_ne hztop, ht₃, setParent_node_of_ne hzy]
  have hrun : RbTree.rotate d t x = some t₆ := by
    have hfar : (t.node x).child d.other = some y := by
      rw [hx.far, root_branch]
    rw [rotate_eq, hfar, Option.map_some]
    dsimp only
    rw [hy.near, ← ht₁, hx₁.far, ← ht₂, hx₂.parent, ← ht₃, hx₃.parent,
      updateParent_eq_setTop hroot₃ habove₃ hxfs, ← ht₄, ← ht₅, ← ht₆]
  refine ⟨t₆, hrun, represents_plug.mpr ⟨⟨?_, rep_branch.mpr ⟨?_, rep_branch.mpr ⟨?_, ha₆, hb₆⟩, hw₆⟩,
    ?_⟩, ?_, hfs, ?_⟩, ?_⟩
  · rw [root_branch, ht₆, setParent_root, ht₅, setChild_root, ht₄, setTop_root hroot₃]
  · rw [root_branch]
    exact hy₆
  · exact hx₆
  · rw [root_branch]
    exact habove₆
  · refine nodup_branch.mpr ⟨⟨?_, hyw⟩, nodup_branch.mpr ⟨⟨hxa, hxb⟩, hnodupA, hnodupB, ?_⟩, hnodupW, ?_⟩
    · simp only [mem_inorder_branch, not_or]
      exact ⟨Ne.symm hxy, fun hya => (habw y hya).1 rfl, hyb⟩
    · exact fun z hz => (habw z hz).2.1
    · intro z hz
      rcases mem_inorder_branch.mp hz with rfl | hza | hzb
      · exact hxw
      · exact (habw z hza).2.2
      · exact hbw z hzb
  · intro z hz
    simp only [mem_inorder_branch] at hz
    exact hdisjoint z (by tauto)
  · have hmem : ∀ z, z = x ∨ z = y ∨ b.root = some z ∨ z ∈ names fs →
        z ∈ (plug (branch d c a x (branch d e b y w)) fs).inorder := by
      intro z hz
      simp only [mem_inorder_plug, mem_inorder_branch]
      rcases hz with hz | hz | hz | hz
      · exact Or.inl (Or.inl hz)
      · exact Or.inl (Or.inr (Or.inr (Or.inl hz)))
      · exact Or.inl (Or.inr (Or.inr (Or.inr (Or.inl (root_mem hz)))))
      · exact Or.inr hz
    have hkeeps₁ := keeps_setChild t d.other b.root (hmem x (by simp))
    have hkeeps₂ := keeps_adopt (x := x) t₁ b.root fun z hz => hmem z (by simp [hz])
    have hkeeps₃ := keeps_setParent t₂ (top fs) (hmem y (by simp))
    have hkeeps₄ := keeps_setTop t₃ (some y) fun z (hz : z ∈ names fs) => hmem z (by simp [hz])
    have hkeeps₅ := keeps_setChild t₄ d (some x) (hmem y (by simp))
    have hkeeps₆ := keeps_setParent t₅ (some y) (hmem x (by simp))
    rw [← ht₁] at hkeeps₁
    rw [← ht₂] at hkeeps₂
    rw [← ht₃] at hkeeps₃
    rw [← ht₄] at hkeeps₄
    rw [← ht₅] at hkeeps₅
    rw [← ht₆] at hkeeps₆
    exact ((((hkeeps₁.trans hkeeps₂).trans hkeeps₃).trans hkeeps₄).trans hkeeps₅).trans hkeeps₆

theorem Represents.setRed {t : Tree ι} {d : Side} {c c' : Bool} {a b : Shape ι} {x : ι}
    {fs : List (Frame ι)} (h : Represents t (plug (branch d c a x b) fs)) :
    Represents (t.setRed x c') (plug (branch d c' a x b) fs) := by
  obtain ⟨⟨hroot, hrep, habove⟩, hnodup, hfs, hdisjoint⟩ := represents_plug.mp h
  obtain ⟨hx, ha, hb⟩ := rep_branch.mp hrep
  obtain ⟨⟨hxa, hxb⟩, hrest⟩ := nodup_branch.mp hnodup
  have hxfs := hdisjoint x (mem_inorder_branch.mpr (Or.inl rfl))
  simp only [root_branch] at hroot habove
  have hsame : ∀ z, z ≠ x → SameLinks ((t.setRed x c').node z) (t.node z) := fun z hz =>
    SameLinks.of_eq (setRed_node_of_ne hz)
  refine represents_plug.mpr ⟨⟨?_, rep_branch.mpr ⟨hx.setRed, ?_, ?_⟩, ?_⟩,
    nodup_branch.mpr ⟨⟨hxa, hxb⟩, hrest⟩, hfs, ?_⟩
  · rw [root_branch, setRed_root, hroot]
  · exact ha.congr fun z hz => hsame z fun heq => hxa (heq ▸ hz)
  · exact hb.congr fun z hz => hsame z fun heq => hxb (heq ▸ hz)
  · rw [root_branch]
    exact habove.congr fun z hz => hsame z fun heq => hxfs (heq ▸ hz)
  · intro z hz
    exact hdisjoint z (mem_inorder_branch.mpr (mem_inorder_branch.mp hz))

end Rotations

end OcfCache.RbTree
