import Mathlib.Data.List.Nodup
import Mathlib.Data.List.Perm.Basic
import Mathlib.Tactic.Common

/-!
# Shapes of red-black trees

Binary trees with coloured nodes, and a place in such a tree: the subtree that
hangs there and the frames above it, from the parent of the place up to the
root. A frame is a node with the side of the place and with the subtree on the
other side. Balance is stated for a subtree and for the frames above a place,
so that a change at a place is judged where it is made.
-/

namespace OcfCache.RbShapes

/-- A side of a node. -/
inductive Side
  /-- Smaller keys. -/
  | left
  /-- Larger keys. -/
  | right
deriving DecidableEq

/-- The other side. -/
def Side.other : Side → Side
  | .left => .right
  | .right => .left

@[simp] theorem Side.other_other (d : Side) : d.other.other = d := by
  cases d <;> rfl

/-- A tree of coloured nodes. -/
inductive Shape (ι : Type*)
  /-- No node. -/
  | leaf
  /-- A node with its colour and its two subtrees. -/
  | node (red : Bool) (l : Shape ι) (x : ι) (r : Shape ι)

/-- A node above a place, with the side of the place and the other subtree. -/
structure Frame (ι : Type*) where
  /-- Side on which the place is. -/
  side : Side
  /-- Colour. -/
  red : Bool
  /-- Node. -/
  x : ι
  /-- Subtree on the other side. -/
  sib : Shape ι

variable {ι κ : Type*}

namespace Shape

/-- A node with the subtree `a` on the side `d` and `b` on the other one. -/
def branch (d : Side) (red : Bool) (a : Shape ι) (x : ι) (b : Shape ι) : Shape ι :=
  match d with
  | .left => node red a x b
  | .right => node red b x a

/-- The node at the top. -/
def root : Shape ι → Option ι
  | leaf => none
  | node _ _ x _ => some x

/-- The node at the top is red. -/
def isRed : Shape ι → Bool
  | leaf => false
  | node red _ _ _ => red

/-- The nodes in the order of the tree. -/
def inorder : Shape ι → List ι
  | leaf => []
  | node _ l x r => l.inorder ++ x :: r.inorder

/-- The same tree with a black node at the top. -/
def blacken : Shape ι → Shape ι
  | leaf => leaf
  | node _ l x r => node false l x r

/-- No red node has a red child, and `n` black nodes are on each path down. -/
def Bal : Shape ι → Nat → Prop
  | leaf, n => n = 0
  | node true l _ r, n => (l.isRed = false ∧ r.isRed = false) ∧ l.Bal n ∧ r.Bal n
  | node false l _ r, n => ∃ m, n = m + 1 ∧ l.Bal m ∧ r.Bal m

/-- A red-black tree: balanced, with a black node at the top. -/
def IsRb (s : Shape ι) : Prop := s.isRed = false ∧ ∃ n, s.Bal n

/-- The tree with other names for its nodes. -/
def map (f : ι → κ) : Shape ι → Shape κ
  | leaf => leaf
  | node red l x r => node red (l.map f) (f x) (r.map f)

@[simp] theorem root_leaf : (leaf : Shape ι).root = none := rfl

@[simp] theorem root_branch (d : Side) (c : Bool) (a : Shape ι) (x : ι) (b : Shape ι) :
    (branch d c a x b).root = some x := by
  cases d <;> rfl

@[simp] theorem isRed_leaf : (leaf : Shape ι).isRed = false := rfl

@[simp] theorem isRed_branch (d : Side) (c : Bool) (a : Shape ι) (x : ι) (b : Shape ι) :
    (branch d c a x b).isRed = c := by
  cases d <;> rfl

@[simp] theorem inorder_leaf : (leaf : Shape ι).inorder = [] := rfl

theorem inorder_branch_perm (d : Side) (c : Bool) (a : Shape ι) (x : ι) (b : Shape ι) :
    (branch d c a x b).inorder.Perm (x :: (a.inorder ++ b.inorder)) := by
  cases d with
  | left => exact List.perm_middle
  | right => exact List.perm_middle.trans (List.perm_append_comm.cons x)

variable {d : Side} {a b s : Shape ι} {x : ι} {n : Nat} {fs : List (Frame ι)} {cmp : ι → Int}

@[simp] theorem mem_inorder_branch {c : Bool} {z : ι} :
    z ∈ (branch d c a x b).inorder ↔ z = x ∨ z ∈ a.inorder ∨ z ∈ b.inorder := by
  rw [(inorder_branch_perm d c a x b).mem_iff, List.mem_cons, List.mem_append]

theorem root_mem (h : s.root = some x) : x ∈ s.inorder := by
  cases s with
  | leaf => simp at h
  | node c l y r =>
    have hxy : y = x := Option.some.inj h
    simp [inorder, hxy]

theorem eq_leaf_of_root (h : s.root = none) : s = leaf := by
  cases s with
  | leaf => rfl
  | node c l x r => simp [root] at h

theorem exists_branch (d : Side) (h : s ≠ leaf) : ∃ c a x b, s = branch d c a x b := by
  cases s with
  | leaf => exact absurd rfl h
  | node c l x r =>
    cases d with
    | left => exact ⟨c, l, x, r, rfl⟩
    | right => exact ⟨c, r, x, l, rfl⟩

theorem exists_root_branch (d : Side) (h : s.root = some x) :
    ∃ a b, s = branch d s.isRed a x b := by
  cases s with
  | leaf => simp at h
  | node c l y r =>
    have hyx : y = x := Option.some.inj h
    subst hyx
    cases d with
    | left => exact ⟨l, r, rfl⟩
    | right => exact ⟨r, l, rfl⟩

theorem branch_other (d : Side) (c : Bool) (a : Shape ι) (x : ι) (b : Shape ι) :
    branch d.other c b x a = branch d c a x b := by
  cases d <;> rfl

theorem inorder_branch_congr (d : Side) (c c' : Bool) {a' b' : Shape ι} (x : ι)
    (ha : a.inorder = a'.inorder) (hb : b.inorder = b'.inorder) :
    (branch d c a x b).inorder = (branch d c' a' x b').inorder := by
  cases d <;> simp [branch, inorder, ha, hb]

theorem inorder_rotate (d : Side) (c c' e e' : Bool) (a b w : Shape ι) (x y : ι) :
    (branch d e (branch d c a x b) y w).inorder = (branch d c' a x (branch d e' b y w)).inorder := by
  cases d <;> simp [branch, inorder]

@[simp] theorem bal_leaf : (leaf : Shape ι).Bal n ↔ n = 0 := Iff.rfl

@[simp] theorem bal_branch_red :
    (branch d true a x b).Bal n ↔ (a.isRed = false ∧ b.isRed = false) ∧ a.Bal n ∧ b.Bal n := by
  cases d with
  | left => rfl
  | right =>
    simp only [branch, Bal]
    tauto

@[simp] theorem bal_branch_black :
    (branch d false a x b).Bal (n + 1) ↔ a.Bal n ∧ b.Bal n := by
  cases d with
  | left => simp [branch, Bal]
  | right =>
    simp only [branch, Bal, Nat.add_right_cancel_iff, exists_eq_left']
    tauto

theorem Bal.black (h : (branch d false a x b).Bal n) : ∃ m, n = m + 1 ∧ a.Bal m ∧ b.Bal m := by
  cases d with
  | left => exact h
  | right =>
    obtain ⟨m, hn, hb, ha⟩ := h
    exact ⟨m, hn, ha, hb⟩

theorem bal_branch {c : Bool} (ha : a.Bal n)
    (hb : b.Bal n) (hred : c = true → a.isRed = false ∧ b.isRed = false) :
    (branch d c a x b).Bal (if c then n else n + 1) := by
  cases c with
  | false => exact bal_branch_black.mpr ⟨ha, hb⟩
  | true => exact bal_branch_red.mpr ⟨hred rfl, ha, hb⟩

theorem Bal.eq_leaf (h : s.Bal 0) (hs : s.isRed = false) : s = leaf := by
  cases s with
  | leaf => rfl
  | node c l x r =>
    cases c with
    | false => simp [Bal] at h
    | true => simp [isRed] at hs

theorem Bal.ne_leaf (h : s.Bal (n + 1)) : s ≠ leaf := by
  rintro rfl
  simp at h

theorem Bal.isRb_blacken (h : s.Bal n) : s.blacken.IsRb := by
  cases s with
  | leaf => exact ⟨rfl, n, h⟩
  | node c l x r =>
    cases c with
    | false => exact ⟨rfl, n, h⟩
    | true => exact ⟨rfl, n + 1, n, rfl, h.2⟩

section

variable (f : ι → κ)
include f

@[simp] theorem inorder_map (s : Shape ι) :
    (s.map f).inorder = s.inorder.map f := by
  induction s with
  | leaf => rfl
  | node c l x r ihl ihr => simp [map, inorder, ihl, ihr]

@[simp] theorem root_map (s : Shape ι) : (s.map f).root = s.root.map f := by
  cases s <;> rfl

@[simp] theorem isRed_map (s : Shape ι) : (s.map f).isRed = s.isRed := by
  cases s <;> rfl

@[simp] theorem map_branch (d : Side) (c : Bool) (a : Shape ι) (x : ι) (b : Shape ι) :
    (branch d c a x b).map f = branch d c (a.map f) (f x) (b.map f) := by
  cases d <;> rfl

theorem bal_map : (s.map f).Bal n ↔ s.Bal n := by
  induction s generalizing n with
  | leaf => rfl
  | node c l x r ihl ihr => cases c <;> simp [map, Bal, ihl, ihr]

theorem IsRb.map (h : s.IsRb) : (s.map f).IsRb := by
  obtain ⟨hroot, n, hn⟩ := h
  exact ⟨(isRed_map f s).trans hroot, n, (bal_map f).mpr hn⟩

end

theorem map_eq_self {f : ι → ι} (h : ∀ z ∈ s.inorder, f z = z) : s.map f = s := by
  induction s with
  | leaf => rfl
  | node c l x r ihl ihr =>
    simp only [inorder, List.mem_append, List.mem_cons] at h
    have hl := ihl fun z hz => h z (Or.inl hz)
    have hr := ihr fun z hz => h z (Or.inr (Or.inr hz))
    have hx := h x (Or.inr (Or.inl rfl))
    simp only [map, hl, hr, hx]

end Shape

variable {cmp : ι → Int} {a b s : Shape ι} {fs : List (Frame ι)} {d : Side} {x : ι} {n : Nat}

open Shape

/-- The subtree of a frame with `s` at its place. -/
def Frame.fill (f : Frame ι) (s : Shape ι) : Shape ι := branch f.side f.red s f.x f.sib

/-- A frame with other names. -/
def Frame.map (f : ι → κ) (g : Frame ι) : Frame κ := ⟨g.side, g.red, f g.x, g.sib.map f⟩

/-- The tree with `s` at a place below these frames. -/
def plug (s : Shape ι) : List (Frame ι) → Shape ι
  | [] => s
  | f :: fs => plug (f.fill s) fs

/-- The nodes in front of a place. -/
def before : List (Frame ι) → List ι
  | [] => []
  | f :: fs => match f.side with
    | .left => before fs
    | .right => before fs ++ (f.sib.inorder ++ [f.x])

/-- The nodes behind a place. -/
def after : List (Frame ι) → List ι
  | [] => []
  | f :: fs => match f.side with
    | .left => f.x :: f.sib.inorder ++ after fs
    | .right => after fs

/-- The nodes of the frames. -/
def names : List (Frame ι) → List ι
  | [] => []
  | f :: fs => f.x :: f.sib.inorder ++ names fs

/-- The parent of a place. -/
def top : List (Frame ι) → Option ι
  | [] => none
  | f :: _ => some f.x

/-- The node at the top of the tree with `o` at the place. -/
def base (o : Option ι) : List (Frame ι) → Option ι
  | [] => o
  | f :: fs => base (some f.x) fs

/-- A red node can stand at the place. -/
def RedOk : List (Frame ι) → Prop
  | [] => False
  | f :: _ => f.red = false

/-- The tree is balanced around a place for a subtree with `n` black nodes on
each path. -/
def Fits : List (Frame ι) → Nat → Prop
  | [], _ => True
  | f :: fs, n => f.sib.Bal n ∧ (f.red = true → f.sib.isRed = false ∧ RedOk fs) ∧
      Fits fs (if f.red then n else n + 1)

@[simp] theorem plug_nil (s : Shape ι) : plug s [] = s := rfl

@[simp] theorem plug_cons (s : Shape ι) (d : Side) (c : Bool) (x : ι) (b : Shape ι)
    (fs : List (Frame ι)) : plug s (⟨d, c, x, b⟩ :: fs) = plug (branch d c s x b) fs := rfl

theorem plug_append (s : Shape ι) (fs gs : List (Frame ι)) :
    plug s (fs ++ gs) = plug (plug s fs) gs := by
  induction fs generalizing s with
  | nil => rfl
  | cons f fs ih => exact ih (f.fill s)

theorem inorder_plug (s : Shape ι) (fs : List (Frame ι)) :
    (plug s fs).inorder = before fs ++ (s.inorder ++ after fs) := by
  induction fs generalizing s with
  | nil => simp [before, after]
  | cons f fs ih =>
    obtain ⟨d, c, x, b⟩ := f
    rw [plug_cons, ih]
    cases d <;> simp [branch, inorder, before, after]

theorem before_append (fs gs : List (Frame ι)) : before (fs ++ gs) = before gs ++ before fs := by
  induction fs with
  | nil => simp [before]
  | cons f fs ih =>
    cases hside : f.side <;> simp [before, hside, ih]

theorem after_append (fs gs : List (Frame ι)) : after (fs ++ gs) = after fs ++ after gs := by
  induction fs with
  | nil => simp [after]
  | cons f fs ih =>
    cases hside : f.side <;> simp [after, hside, ih]

theorem inorder_plug_congr {s' : Shape ι} (fs : List (Frame ι)) (h : s.inorder = s'.inorder) :
    (plug s fs).inorder = (plug s' fs).inorder := by
  rw [inorder_plug, inorder_plug, h]

theorem inorder_plug_perm (s : Shape ι) (fs : List (Frame ι)) :
    (plug s fs).inorder.Perm (s.inorder ++ names fs) := by
  induction fs generalizing s with
  | nil => simp [names]
  | cons f fs ih =>
    obtain ⟨d, c, x, b⟩ := f
    have hnode : ((branch d c s x b).inorder ++ names fs).Perm
        (x :: (s.inorder ++ b.inorder) ++ names fs) :=
      (inorder_branch_perm d c s x b).append_right (names fs)
    have hmove : (x :: (s.inorder ++ b.inorder) ++ names fs).Perm
        (s.inorder ++ (x :: b.inorder ++ names fs)) := by
      simp only [List.cons_append, List.append_assoc]
      exact List.perm_middle.symm
    exact (ih (branch d c s x b)).trans (hnode.trans hmove)

@[simp] theorem mem_inorder_plug {z : ι} :
    z ∈ (plug s fs).inorder ↔ z ∈ s.inorder ∨ z ∈ names fs := by
  rw [(inorder_plug_perm s fs).mem_iff, List.mem_append]

theorem nodup_plug : (plug s fs).inorder.Nodup ↔
      s.inorder.Nodup ∧ (names fs).Nodup ∧ ∀ z ∈ s.inorder, z ∉ names fs := by
  rw [(inorder_plug_perm s fs).nodup_iff, List.nodup_append']
  rfl

theorem nodup_branch {c : Bool} :
    (branch d c a x b).inorder.Nodup ↔ (x ∉ a.inorder ∧ x ∉ b.inorder) ∧
      a.inorder.Nodup ∧ b.inorder.Nodup ∧ ∀ z ∈ a.inorder, z ∉ b.inorder := by
  rw [(inorder_branch_perm d c a x b).nodup_iff, List.nodup_cons, List.nodup_append',
    List.mem_append, not_or]
  rfl

theorem root_plug (s : Shape ι) (fs : List (Frame ι)) : (plug s fs).root = base s.root fs := by
  induction fs generalizing s with
  | nil => rfl
  | cons f fs ih =>
    have hfill : (f.fill s).root = some f.x := root_branch ..
    rw [plug, ih, hfill]
    rfl

theorem exists_plug (h : x ∈ s.inorder) : ∃ c l r fs, s = plug (node c l x r) fs := by
  induction s with
  | leaf => simp at h
  | node c l y r ihl ihr =>
    simp only [inorder, List.mem_append, List.mem_cons] at h
    rcases h with hl | rfl | hr
    · obtain ⟨c', l', r', fs, hplug⟩ := ihl hl
      refine ⟨c', l', r', fs ++ [⟨.left, c, y, r⟩], ?_⟩
      rw [plug_append, ← hplug]
      rfl
    · exact ⟨c, l, r, [], rfl⟩
    · obtain ⟨c', l', r', fs, hplug⟩ := ihr hr
      refine ⟨c', l', r', fs ++ [⟨.right, c, y, l⟩], ?_⟩
      rw [plug_append, ← hplug]
      rfl

theorem isRb_plug : (plug s fs).IsRb ↔ ∃ n, s.Bal n ∧ Fits fs n ∧ (s.isRed = true → RedOk fs) := by
  induction fs generalizing s with
  | nil =>
    simp only [plug_nil, IsRb, Fits, RedOk, true_and, imp_false, Bool.not_eq_true]
    constructor
    · rintro ⟨hroot, n, hn⟩
      exact ⟨n, hn, hroot⟩
    · rintro ⟨n, hn, hroot⟩
      exact ⟨hroot, n, hn⟩
  | cons f fs ih =>
    obtain ⟨d, c, x, b⟩ := f
    rw [plug_cons, ih]
    cases c with
    | true =>
      simp only [bal_branch_red, isRed_branch, Fits, RedOk, if_true, true_implies,
        Bool.true_eq_false, imp_false, Bool.not_eq_true]
      constructor
      · rintro ⟨n, ⟨⟨hs, hb⟩, hsn, hbn⟩, hfs, hok⟩
        exact ⟨n, hsn, ⟨hbn, ⟨hb, hok⟩, hfs⟩, hs⟩
      · rintro ⟨n, hsn, ⟨hbn, ⟨hb, hok⟩, hfs⟩, hs⟩
        exact ⟨n, ⟨⟨hs, hb⟩, hsn, hbn⟩, hfs, hok⟩
    | false =>
      simp only [isRed_branch, Fits, RedOk, Bool.false_eq_true, if_false, false_implies, true_and,
        implies_true, and_true]
      constructor
      · rintro ⟨n, hn, hfs⟩
        obtain ⟨m, rfl, hs, hb⟩ := hn.black
        exact ⟨m, hs, hb, hfs⟩
      · rintro ⟨n, hs, hb, hfs⟩
        exact ⟨n + 1, bal_branch_black.mpr ⟨hs, hb⟩, hfs⟩

@[simp] theorem map_plug (f : ι → κ) (s : Shape ι) (fs : List (Frame ι)) :
    (plug s fs).map f = plug (s.map f) (fs.map (Frame.map f)) := by
  induction fs generalizing s with
  | nil => rfl
  | cons g fs ih =>
    have hfill : (g.fill s).map f = (g.map f).fill (s.map f) := map_branch ..
    rw [plug, ih, hfill]
    rfl

theorem map_frames_eq_self {f : ι → ι} (h : ∀ z ∈ names fs, f z = z) :
    fs.map (Frame.map f) = fs := by
  induction fs with
  | nil => rfl
  | cons g fs ih =>
    obtain ⟨d, c, x, b⟩ := g
    simp only [names, List.mem_append, List.mem_cons] at h
    have hx := h x (Or.inl (Or.inl rfl))
    have hb : b.map f = b := map_eq_self fun z hz => h z (Or.inl (Or.inr hz))
    have hfs := ih fun z hz => h z (Or.inr hz)
    simp only [List.map_cons, hfs, Frame.map, hx, hb]

@[simp] theorem names_append (fs gs : List (Frame ι)) : names (fs ++ gs) = names fs ++ names gs := by
  induction fs with
  | nil => rfl
  | cons f fs ih => simp [names, ih]

/-- The search of a place: to the left of a node where the comparison of the key
with the node is negative, to the right where it is positive. -/
def zoom (cmp : ι → Int) : Shape ι → List (Frame ι) → Shape ι × List (Frame ι)
  | leaf, fs => (leaf, fs)
  | node c l x r, fs =>
    if cmp x = 0 then (node c l x r, fs)
    else if cmp x < 0 then zoom cmp l (⟨.left, c, x, r⟩ :: fs)
    else zoom cmp r (⟨.right, c, x, l⟩ :: fs)

/-- The key belongs to the place below these frames. -/
def Zoomed (cmp : ι → Int) (fs : List (Frame ι)) : Prop :=
  ∀ f ∈ fs, (f.side = .left → cmp f.x < 0) ∧ (f.side = .right → 0 < cmp f.x)

/-- Comparisons of a key with the nodes that agree with the order of the nodes. -/
structure Cut (lt : ι → ι → Prop) (cmp : ι → Int) : Prop where
  /-- What lies below a node that is not above the key is below the key. -/
  pos : ∀ a b, lt a b → 0 ≤ cmp b → 0 < cmp a
  /-- What lies above a node that is not below the key is above the key. -/
  neg : ∀ a b, lt a b → cmp a ≤ 0 → cmp b < 0

theorem plug_zoom (cmp : ι → Int) (s : Shape ι) (fs : List (Frame ι)) :
    plug (zoom cmp s fs).1 (zoom cmp s fs).2 = plug s fs := by
  induction s generalizing fs with
  | leaf => rfl
  | node c l x r ihl ihr =>
    simp only [zoom]
    split
    · rfl
    · split
      · exact ihl _
      · exact ihr _

theorem zoomed_zoom (s : Shape ι) (h : Zoomed cmp fs) : Zoomed cmp (zoom cmp s fs).2 := by
  induction s generalizing fs with
  | leaf => exact h
  | node c l x r ihl ihr =>
    simp only [zoom]
    split
    · exact h
    · next hne =>
      split
      · next hneg =>
        refine ihl fun f hf => ?_
        rcases List.mem_cons.mp hf with rfl | hf
        · exact ⟨fun _ => hneg, fun hside => by simp at hside⟩
        · exact h f hf
      · next hnot =>
        refine ihr fun f hf => ?_
        rcases List.mem_cons.mp hf with rfl | hf
        · exact ⟨fun hside => by simp at hside, fun _ => by simp only; omega⟩
        · exact h f hf

theorem cmp_zoom {y : ι} (h : (zoom cmp s fs).1.root = some y) : cmp y = 0 := by
  induction s generalizing fs with
  | leaf => simp [zoom] at h
  | node c l x r ihl ihr =>
    simp only [zoom] at h
    split at h
    · next heq =>
      have hxy : x = y := Option.some.inj h
      rw [← hxy, heq]
    · split at h
      · exact ihl h
      · exact ihr h

variable {lt : ι → ι → Prop}

theorem before_forall {P : ι → Prop} (hP : ∀ z x, lt z x → P x → P z) (h : ∀ f ∈ fs, f.side = .right → P f.x)
    (hsorted : (before fs).Pairwise lt) : ∀ z ∈ before fs, P z := by
  induction fs with
  | nil => simp [before]
  | cons f fs ih =>
    have hfs : ∀ g ∈ fs, g.side = .right → P g.x := fun g hg => h g (List.mem_cons_of_mem f hg)
    cases hside : f.side with
    | left =>
      simp only [before, hside] at hsorted ⊢
      exact ih hfs hsorted
    | right =>
      simp only [before, hside, List.pairwise_append, List.mem_append, List.mem_singleton]
        at hsorted ⊢
      obtain ⟨hfront, ⟨-, -, hsib⟩, -⟩ := hsorted
      have hx := h f List.mem_cons_self hside
      rintro z (hz | hz | rfl)
      · exact ih hfs hfront z hz
      · exact hP z f.x (hsib z hz f.x rfl) hx
      · exact hx

theorem before_nonneg (h : ∀ f ∈ fs, f.side = .right → 0 ≤ cmp f.x) (hcut : Cut lt cmp)
    (hsorted : (before fs).Pairwise lt) : ∀ z ∈ before fs, 0 ≤ cmp z :=
  before_forall (fun z x hzx hx => Int.le_of_lt (hcut.pos z x hzx hx)) h hsorted

theorem after_neg (h : ∀ f ∈ fs, f.side = .left → cmp f.x < 0) (hcut : Cut lt cmp)
    (hsorted : (after fs).Pairwise lt) : ∀ z ∈ after fs, cmp z < 0 := by
  induction fs with
  | nil => simp [after]
  | cons f fs ih =>
    have hfs : ∀ g ∈ fs, g.side = .left → cmp g.x < 0 := fun g hg => h g (List.mem_cons_of_mem f hg)
    have hf := h f List.mem_cons_self
    cases hside : f.side with
    | right =>
      simp only [after, hside] at hsorted ⊢
      exact ih hfs hsorted
    | left =>
      simp only [after, hside, List.cons_append, List.pairwise_cons, List.pairwise_append,
        List.mem_append, List.mem_cons] at hsorted ⊢
      obtain ⟨hsib, -, hback, -⟩ := hsorted
      have hx := hf hside
      rintro z (rfl | hz | hz)
      · exact hx
      · exact hcut.neg f.x z (hsib z (Or.inl hz)) (by omega)
      · exact ih hfs hback z hz

theorem Zoomed.before_pos (h : Zoomed cmp fs) (hcut : Cut lt cmp) (hsorted : (before fs).Pairwise lt) :
    ∀ z ∈ before fs, 0 < cmp z :=
  before_forall (fun z x hzx hx => hcut.pos z x hzx (Int.le_of_lt hx)) (fun f hf => (h f hf).2) hsorted

theorem zoom_leaf (hcut : Cut lt cmp)
    (hsorted : s.inorder.Pairwise lt) (h : (zoom cmp s []).1 = leaf) :
    ∃ fs, s = plug leaf fs ∧ Zoomed cmp fs ∧ fs = (zoom cmp s []).2 ∧
      (∀ z ∈ before fs, 0 < cmp z) ∧ ∀ z ∈ after fs, cmp z < 0 := by
  have hplug : plug leaf (zoom cmp s []).2 = s := by
    have hzoom := plug_zoom cmp s []
    rw [h, plug_nil] at hzoom
    exact hzoom
  have hzoomed : Zoomed cmp (zoom cmp s []).2 := zoomed_zoom s fun f hf => absurd hf List.not_mem_nil
  have hlist := inorder_plug leaf (zoom cmp s []).2
  rw [hplug] at hlist
  rw [hlist, inorder_leaf, List.nil_append, List.pairwise_append] at hsorted
  exact ⟨(zoom cmp s []).2, hplug.symm, hzoomed, rfl, hzoomed.before_pos hcut hsorted.1,
    after_neg (fun f hf => (hzoomed f hf).1) hcut hsorted.2.1⟩

end OcfCache.RbShapes
