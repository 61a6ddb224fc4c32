import OcfCache.RbDoubleBlack
import OcfCache.RbSearch
import OcfCache.RbSwap

/-!
# Removal from the red-black tree

A node that is removed exchanges its place with the next one or with its only
child until it is a leaf; then it is cut off, and the black node that may be
missing is made up for.
-/

namespace OcfCache.RbTree

open RbShapes RbShapes.Shape FuelLoops

variable {ι : Type*} [DecidableEq ι] {t : Tree ι} {x y : ι} {fs : List (Frame ι)}

theorem remove_blackLeaf (h : Represents t (plug (node false leaf x leaf) fs))
    (hrb : (plug (node false leaf x leaf) fs).IsRb) :
    ∃ t' s', Returns (fun k => (ocfRbTreeFixDoubleBlack k t x).map fun t =>
        ocfRbTreeUpdateParent t (t.node x).parent x none) t' ∧
      Represents t' s' ∧ s'.IsRb ∧ s'.inorder = before fs ++ after fs ∧
      Keeps (plug (node false leaf x leaf) fs).inorder t t' := by
  obtain ⟨n, hn, hfits, -⟩ := isRb_plug.mp hrb
  obtain ⟨m, rfl, hm, -⟩ := hn
  have hzero : m = 0 := hm
  subst hzero
  obtain ⟨t₁, fs', hrun, hrep, hrb', hlist, hkeeps⟩ := repairs fs t _ x 0 h rfl hfits
  have hparent : (t₁.node x).parent = top fs' :=
    Represents.nodeIs (show Represents t₁ (plug (branch .left false leaf x leaf) fs') from hrep) |>.parent
  have hcut := hrep.cut (x := x) rfl
  have hleaf := hlist leaf
  rw [inorder_plug leaf fs, inorder_leaf, List.nil_append] at hleaf
  refine ⟨ocfRbTreeUpdateParent t₁ (top fs') x none, plug leaf fs', ?_, hcut, hrb' leaf rfl rfl,
    hleaf, hkeeps.trans (keeps_updateParent fun z hz => ?_)⟩
  · have hmap := hrun.map fun t => ocfRbTreeUpdateParent t (t.node x).parent x none
    rw [hparent] at hmap
    exact hmap
  · rw [← hlist, mem_inorder_plug]
    exact Or.inr (top_mem hz)

theorem remove_redLeaf (h : Represents t (plug (node true leaf x leaf) fs))
    (hrb : (plug (node true leaf x leaf) fs).IsRb) :
    Represents (ocfRbTreeUpdateParent t (t.node x).parent x none) (plug leaf fs) ∧
      (plug leaf fs).IsRb ∧ (plug (leaf : Shape ι) fs).inorder = before fs ++ after fs ∧
      Keeps (plug (node true leaf x leaf) fs).inorder t
        (ocfRbTreeUpdateParent t (t.node x).parent x none) := by
  obtain ⟨n, hn, hfits, -⟩ := isRb_plug.mp hrb
  have hparent : (t.node x).parent = top fs :=
    Represents.nodeIs (show Represents t (plug (branch .left true leaf x leaf) fs) from h) |>.parent
  rw [hparent]
  refine ⟨h.cut rfl, isRb_plug.mpr ⟨n, hn.2.1, hfits, fun hred => by simp at hred⟩, ?_, ?_⟩
  · rw [inorder_plug, inorder_leaf, List.nil_append]
  · refine keeps_updateParent fun z hz => ?_
    rw [mem_inorder_plug]
    exact Or.inr (top_mem hz)

/-- The sibling of a red leaf is red or there is none. -/
theorem sibling_of_redLeaf (h : Represents t (plug (node true leaf x leaf) fs))
    (hrb : (plug (node true leaf x leaf) fs).IsRb) :
    Represents (t.paint (ocfRbTreeSibling t x) true) (plug (node true leaf x leaf) fs) ∧
      Keeps (plug (node true leaf x leaf) fs).inorder t (t.paint (ocfRbTreeSibling t x) true) := by
  obtain ⟨n, hn, hfits, hok⟩ := isRb_plug.mp hrb
  have hzero : n = 0 := hn.2.1
  subst hzero
  cases fs with
  | nil => exact absurd (hok rfl) id
  | cons f fs =>
    obtain ⟨d, c, p, b⟩ := f
    obtain ⟨-, hsib⟩ := h.sibling (x := x) rfl
    rw [hsib]
    have hb : b.Bal 0 := hfits.1
    cases hred : b.isRed with
    | false =>
      obtain rfl := hb.eq_leaf hred
      exact ⟨h, Keeps.refl ..⟩
    | true =>
      have hbleaf : b ≠ leaf := by
        rintro rfl
        simp at hred
      obtain ⟨e, u, y, v, rfl⟩ := exists_branch d hbleaf
      rw [isRed_branch] at hred
      subst hred
      have hside : plug (branch d true u y v) (⟨d.other, c, p, node true leaf x leaf⟩ :: fs) =
          plug (node true leaf x leaf) (⟨d, c, p, branch d true u y v⟩ :: fs) := by
        rw [plug_cons, branch_other]
        rfl
      rw [root_branch]
      refine ⟨?_, keeps_setRed t true ?_⟩
      · rw [← hside] at h ⊢
        exact h.setRed
      · simp

/-- The loop of `ocf_rb_tree_remove` at a leaf. -/
theorem removeLoop_leaf {c : Bool} (h : Represents t (plug (node c leaf x leaf) fs))
    (hrb : (plug (node c leaf x leaf) fs).IsRb) :
    ∃ t' s', Returns₂ (fun fuel n => removeLoop fuel n t x) t' ∧ Represents t' s' ∧ s'.IsRb ∧
      s'.inorder = before fs ++ after fs ∧ Keeps (plug (node c leaf x leaf) fs).inorder t t' := by
  have hnode := Represents.nodeIs (show Represents t (plug (branch .left c leaf x leaf) fs) from h)
  have hleft : (t.node x).left = none := hnode.near
  have hright : (t.node x).right = none := hnode.far
  have hrep : ∀ fuel, ocfRbTreeBstReplacement fuel t x = some none := by
    simp [ocfRbTreeBstReplacement, hleft, hright]
  cases fs with
  | nil =>
    have hroot : t.root = some x := h.root
    refine ⟨{ t with root := none }, leaf, Returns₂.last (Returns.const ()) fun m n _ => ?_,
      ⟨rfl, trivial, List.nodup_nil⟩, ⟨rfl, 0, rfl⟩, rfl, ⟨fun _ _ => rfl, fun _ => rfl, fun _ => rfl⟩⟩
    simp only [removeLoop, hrep, Option.bind_some, hroot, if_true]
  | cons f fs =>
    have hroot : ¬ t.root = some x := by
      intro heq
      have htop := h.linked.1.top x (by simp [inorder]) heq
      have hparent := hnode.parent
      rw [htop] at hparent
      simp [top] at hparent
    cases c with
    | false =>
      obtain ⟨t', s', hrun, hrep', hrb', hlist, hkeeps⟩ := remove_blackLeaf h hrb
      refine ⟨t', s', Returns₂.last hrun fun m n hm => ?_, hrep', hrb', hlist, hkeeps⟩
      have hred : (t.node x).red = false := hnode.red
      simp only [removeLoop, hrep, Option.bind_some, hroot, hred, if_false, if_true]
      exact hm
    | true =>
      obtain ⟨hpaint, hkeeps₁⟩ := sibling_of_redLeaf h hrb
      obtain ⟨hrep', hrb', hlist, hkeeps₂⟩ := remove_redLeaf hpaint hrb
      refine ⟨_, _, Returns₂.last (Returns.const ()) fun m n _ => ?_, hrep', hrb', hlist,
        hkeeps₁.trans hkeeps₂⟩
      have hred : (t.node x).red = true := hnode.red
      simp only [removeLoop, hrep, Option.bind_some, hroot, hred, Bool.true_eq_false, if_false,
        Option.map_some]

section Exchange

variable {d e : Side} {c k : Bool} {a w l : Shape ι} {gs : List (Frame ι)}

omit [DecidableEq ι] in
/-- The names of a node, of the frames between and of the frames above another
node are different. -/
theorem exchange_fresh (h : (plug (branch e k a y w) (gs ++ ⟨d, c, x, l⟩ :: fs)).inorder.Nodup) :
    (y ∉ a.inorder ∧ y ∉ w.inorder) ∧ x ∉ l.inorder ++ names fs ∧
      (∀ z ∈ names gs, z ∉ x :: (l.inorder ++ names fs)) ∧
      ∀ z ∈ (branch e k a y w).inorder, z ∉ names gs ∧ z ≠ x ∧ z ∉ l.inorder ∧ z ∉ names fs := by
  obtain ⟨hnodup, hnames, hdisjoint⟩ := nodup_plug.mp h
  obtain ⟨hy, -⟩ := nodup_branch.mp hnodup
  rw [names_append] at hnames hdisjoint
  have hbelow := List.nodup_append'.mp hnames
  refine ⟨hy, (List.nodup_cons.mp hbelow.2.1).1, hbelow.2.2, fun z hz => ?_⟩
  have hout := hdisjoint z hz
  simp only [names, List.mem_append, List.mem_cons, not_or] at hout
  tauto

/-- The shape in which two nodes have exchanged their names. -/
theorem map_swap_plug (h : (plug (branch e k a y w) (gs ++ ⟨d, c, x, l⟩ :: fs)).inorder.Nodup) :
    (plug (branch e k a y w) (gs ++ ⟨d, c, x, l⟩ :: fs)).map (Equiv.swap x y) =
      plug (branch e k a x w) (gs ++ ⟨d, c, y, l⟩ :: fs) := by
  obtain ⟨⟨hya, hyw⟩, hfs, hgs, hxs⟩ := exchange_fresh h
  have hy := hxs y (mem_inorder_branch.mpr (Or.inl rfl))
  have hfix : ∀ z, z ≠ x → z ≠ y → Equiv.swap x y z = z := fun z hzx hzy =>
    Equiv.swap_apply_of_ne_of_ne hzx hzy
  have ha : a.map (Equiv.swap x y) = a := map_eq_self fun z hz =>
    hfix z (hxs z (mem_inorder_branch.mpr (Or.inr (Or.inl hz)))).2.1 fun heq => hya (heq ▸ hz)
  have hw : w.map (Equiv.swap x y) = w := map_eq_self fun z hz =>
    hfix z (hxs z (mem_inorder_branch.mpr (Or.inr (Or.inr hz)))).2.1 fun heq => hyw (heq ▸ hz)
  have hl : l.map (Equiv.swap x y) = l := map_eq_self fun z hz =>
    hfix z (fun heq => hfs (List.mem_append_left _ (heq ▸ hz))) fun heq => hy.2.2.1 (heq ▸ hz)
  have hfs' : fs.map (Frame.map (Equiv.swap x y)) = fs := map_frames_eq_self fun z hz =>
    hfix z (fun heq => hfs (List.mem_append_right _ (heq ▸ hz))) fun heq => hy.2.2.2 (heq ▸ hz)
  have hgs' : gs.map (Frame.map (Equiv.swap x y)) = gs := map_frames_eq_self fun z hz =>
    hfix z (fun heq => hgs z hz (heq ▸ List.mem_cons_self)) fun heq => hy.1 (heq ▸ hz)
  rw [map_plug, map_branch, ha, hw, List.map_append, List.map_cons, hgs', hfs',
    Equiv.swap_apply_right]
  simp only [Frame.map, hl, Equiv.swap_apply_left]

/-- A node exchanges its place with a node below it, which is not its sibling. -/
theorem Represents.exchange
    (h : Represents t (plug (branch e k a y w) (gs ++ ⟨d, c, x, l⟩ :: fs))) :
    Represents (ocfRbTreeSwap t x y) (plug (branch e k a x w) (gs ++ ⟨d, c, y, l⟩ :: fs)) ∧
      Keeps (plug (branch e k a y w) (gs ++ ⟨d, c, x, l⟩ :: fs)).inorder t (ocfRbTreeSwap t x y) := by
  obtain ⟨-, hfs, hgs, hxs⟩ := exchange_fresh h.nodup
  have hy := hxs y (mem_inorder_branch.mpr (Or.inl rfl))
  have hx : x ∈ (plug (branch e k a y w) (gs ++ ⟨d, c, x, l⟩ :: fs)).inorder := by
    rw [mem_inorder_plug, names_append]
    exact Or.inr (List.mem_append_right _ List.mem_cons_self)
  have hyin : y ∈ (plug (branch e k a y w) (gs ++ ⟨d, c, x, l⟩ :: fs)).inorder := by
    rw [mem_inorder_plug, mem_inorder_branch]
    exact Or.inl (Or.inl rfl)
  have hparentX : (t.node x).parent = top fs := by
    have hplace : Represents t (plug (plug (branch e k a y w) gs) (⟨d, c, x, l⟩ :: fs)) := by
      rw [← plug_append]
      exact h
    exact hplace.frame.parent
  have hparentY := h.nodeIs.parent
  rw [← map_swap_plug h.nodup]
  refine h.swap hx hyin (Ne.symm hy.2.1) fun p hpx hpy => ?_
  rw [hparentX] at hpx
  have hpfs := top_mem hpx
  rw [hparentY] at hpy
  cases gs with
  | nil =>
    have hxp : x = p := Option.some.inj hpy
    exact hfs (List.mem_append_right _ (hxp ▸ hpfs))
  | cons g gs =>
    have hgp : g.x = p := Option.some.inj hpy
    have hgin : p ∈ names (g :: gs) := by simp [names, hgp]
    exact hgs p hgin (List.mem_cons_of_mem x (List.mem_append_right _ hpfs))

end Exchange

/-- The node that takes the place is a leaf. -/
theorem removeLoop_swap_leaf {d : Side} {c k : Bool} {l : Shape ι} {gs : List (Frame ι)}
    (h : Represents t (plug (node k leaf y leaf) (gs ++ ⟨d, c, x, l⟩ :: fs)))
    (hrb : (plug (node k leaf y leaf) (gs ++ ⟨d, c, x, l⟩ :: fs)).IsRb)
    (hrep : Returns (fun fuel => ocfRbTreeBstReplacement fuel t x) (some y)) :
    ∃ t' s', Returns₂ (fun fuel n => removeLoop fuel n t x) t' ∧ Represents t' s' ∧ s'.IsRb ∧
      s'.inorder = before (gs ++ ⟨d, c, y, l⟩ :: fs) ++ after (gs ++ ⟨d, c, y, l⟩ :: fs) ∧
      Keeps (plug (node k leaf y leaf) (gs ++ ⟨d, c, x, l⟩ :: fs)).inorder t t' := by
  have hnode := Represents.nodeIs
    (show Represents t (plug (branch .left k leaf y leaf) (gs ++ ⟨d, c, x, l⟩ :: fs)) from h)
  have hleaf : (t.node y).left = none ∧ (t.node y).right = none := ⟨hnode.near, hnode.far⟩
  obtain ⟨hswap, hkeeps₁⟩ := Represents.exchange
    (show Represents t (plug (branch .left k leaf y leaf) (gs ++ ⟨d, c, x, l⟩ :: fs)) from h)
  have hswapRb : (plug (node k leaf x leaf) (gs ++ ⟨d, c, y, l⟩ :: fs)).IsRb := by
    have hmap := hrb.map (Equiv.swap x y)
    have hshape := @map_swap_plug ι _ x y fs d .left c k leaf leaf l gs h.nodup
    exact hshape ▸ hmap
  have hmem : ∀ z, z ∈ (plug (node k leaf x leaf) (gs ++ ⟨d, c, y, l⟩ :: fs)).inorder →
      z ∈ (plug (node k leaf y leaf) (gs ++ ⟨d, c, x, l⟩ :: fs)).inorder := by
    intro z hz
    simp only [mem_inorder_plug, inorder, names_append, names, List.mem_append, List.mem_cons,
      List.not_mem_nil, or_false, false_or] at hz ⊢
    tauto
  have hred : ((ocfRbTreeSwap t x y).node x).red = k := Represents.nodeIs hswap |>.red
  cases k with
  | false =>
    obtain ⟨t', s', hrun, hrep', hrb', hlist, hkeeps₂⟩ := remove_blackLeaf hswap hswapRb
    obtain ⟨b₁, h₁⟩ := hrep
    obtain ⟨b₂, h₂⟩ := hrun
    refine ⟨t', s', ⟨max b₁ b₂ + 1, fun m n hm hn => ?_⟩, hrep', hrb', hlist,
      hkeeps₁.trans (hkeeps₂.mono hmem)⟩
    obtain ⟨n, rfl⟩ : ∃ n', n = n' + 1 := ⟨n - 1, by omega⟩
    have hm₁ : ocfRbTreeBstReplacement m t x = some (some y) := h₁ m (by omega)
    have hm₂ := h₂ m (by omega)
    simp only [removeLoop, hm₁, Option.bind_some, hleaf, and_self, if_true, hred]
    exact hm₂
  | true =>
    obtain ⟨hrep', hrb', hlist, hkeeps₂⟩ := remove_redLeaf hswap hswapRb
    refine ⟨_, _, Returns₂.last hrep fun m n hm => ?_, hrep', hrb', hlist,
      hkeeps₁.trans (hkeeps₂.mono hmem)⟩
    simp only [removeLoop, hm, Option.bind_some, hleaf, and_self, if_true, hred, Bool.true_eq_false,
      if_false, Option.map_some]

theorem removeLoop_single {d : Side} {c : Bool} {l : Shape ι}
    (h : Represents t (plug (branch d c l x leaf) fs)) (hrb : (plug (branch d c l x leaf) fs).IsRb)
    (hl : l ≠ leaf) :
    ∃ t' s', Returns₂ (fun fuel n => removeLoop fuel n t x) t' ∧ Represents t' s' ∧ s'.IsRb ∧
      s'.inorder = before fs ++ (l.inorder ++ after fs) ∧
      Keeps (plug (branch d c l x leaf) fs).inorder t t' := by
  obtain ⟨n, hn, -, -⟩ := isRb_plug.mp hrb
  obtain ⟨k, y, rfl⟩ : ∃ k y, l = node k leaf y leaf := by
    obtain ⟨k, a, y, b, rfl⟩ := exists_branch .left hl
    have hbal : (branch .left k a y b).Bal 0 := by
      cases c with
      | false =>
        obtain ⟨m, -, hlBal, hm⟩ := hn.black
        have hzero : m = 0 := hm
        exact hzero ▸ hlBal
      | true =>
        obtain ⟨-, hlBal, hm⟩ := bal_branch_red.mp hn
        have hzero : n = 0 := hm
        exact hzero ▸ hlBal
    cases k with
    | false =>
      obtain ⟨m, hm, -⟩ := hbal
      omega
    | true =>
      obtain ⟨⟨hablack, hbblack⟩, ha, hb⟩ := bal_branch_red.mp hbal
      rw [ha.eq_leaf hablack, hb.eq_leaf hbblack]
      exact ⟨true, y, rfl⟩
  have hnode := h.nodeIs
  have hrep : Returns (fun fuel => ocfRbTreeBstReplacement fuel t x) (some y) := by
    refine (Returns.const (some y)).congr fun fuel _ => ?_
    cases d with
    | left =>
      have hleft : (t.node x).left = some y := hnode.near
      have hright : (t.node x).right = none := hnode.far
      simp [ocfRbTreeBstReplacement, hleft, hright]
    | right =>
      have hleft : (t.node x).left = none := hnode.far
      have hright : (t.node x).right = some y := hnode.near
      simp [ocfRbTreeBstReplacement, hleft, hright]
  obtain ⟨t', s', hrun, hrep', hrb', hlist, hkeeps⟩ :=
    @removeLoop_swap_leaf ι _ t x y fs d c k leaf [] h hrb hrep
  refine ⟨t', s', hrun, hrep', hrb', hlist.trans ?_, hkeeps⟩
  cases d <;> simp [before, after, inorder]

/-- The loop of `ocf_rb_tree_remove` at a node with two children. -/
theorem removeLoop_both {c : Bool} {l r : Shape ι} (h : Represents t (plug (node c l x r) fs))
    (hrb : (plug (node c l x r) fs).IsRb) (hl : l ≠ leaf) (hr : r ≠ leaf) :
    ∃ t' s', Returns₂ (fun fuel n => removeLoop fuel n t x) t' ∧ Represents t' s' ∧ s'.IsRb ∧
      s'.inorder = before fs ++ (l.inorder ++ (r.inorder ++ after fs)) ∧
      Keeps (plug (node c l x r) fs).inorder t t' := by
  have hnode := Represents.nodeIs (show Represents t (plug (branch .left c l x r) fs) from h)
  obtain ⟨u, hu⟩ : ∃ u, l.root = some u := by
    cases l with
    | leaf => exact absurd rfl hl
    | node _ _ u _ => exact ⟨u, rfl⟩
  obtain ⟨v, hv⟩ : ∃ v, r.root = some v := by
    cases r with
    | leaf => exact absurd rfl hr
    | node _ _ v _ => exact ⟨v, rfl⟩
  have hplace : Represents t (plug r (⟨.right, c, x, l⟩ :: fs)) := h
  obtain ⟨gs, k, y, w, hplug, hgs, hrun⟩ :=
    outermost_returns .left (represents_plug.mp hplace).1.2.1 hv
  have hrinorder : r.inorder = y :: (w.inorder ++ after gs) := by
    rw [hplug, inorder_plug, before_eq_nil hgs]
    rfl
  have hrep : Returns (fun fuel => ocfRbTreeBstReplacement fuel t x) (some y) := by
    refine (hrun.map some).congr fun fuel hn => ?_
    have hleft : (t.node x).left = some u := hnode.near.trans hu
    have hright : (t.node x).right = some v := hnode.far.trans hv
    have hleftmost : (leftmost t fuel v).map some = some (some y) := hn
    simp only [ocfRbTreeBstReplacement, hleft, hright, ne_eq, reduceCtorEq, not_false_eq_true, and_self,
      if_true, ocfRbTreeSuccessor]
    exact hleftmost
  have hwhole : plug (branch .left k leaf y w) (gs ++ ⟨.right, c, x, l⟩ :: fs) =
      plug (node c l x r) fs := by
    rw [plug_append, ← hplug]
    rfl
  have hlistNew : ∀ z : ι, before (gs ++ ⟨.right, c, z, l⟩ :: fs) = before fs ++ (l.inorder ++ [z]) := by
    intro z
    rw [before_append, before_eq_nil hgs, List.append_nil]
    rfl
  have hafterNew : ∀ z : ι, after (gs ++ ⟨.right, c, z, l⟩ :: fs) = after gs ++ after fs := by
    intro z
    rw [after_append]
    rfl
  rw [← hwhole] at h hrb
  rw [← hwhole, hrinorder]
  by_cases hw : w = leaf
  · subst hw
    obtain ⟨t', s', hrun', hrep', hrb', hlist, hkeeps⟩ := removeLoop_swap_leaf h hrb hrep
    refine ⟨t', s', hrun', hrep', hrb', hlist.trans ?_, hkeeps⟩
    rw [hlistNew, hafterNew]
    simp
  · -- the next node has a child, so the loop goes on with one child
    obtain ⟨hswap, hkeeps₁⟩ := h.exchange
    have hynode := h.nodeIs
    have hyright : (t.node y).right ≠ none := by
      have hfar : (t.node y).right = w.root := hynode.far
      rw [hfar]
      exact fun hnone => hw (eq_leaf_of_root hnone)
    have hswapRb : (plug (branch .right k w x leaf) (gs ++ ⟨.right, c, y, l⟩ :: fs)).IsRb := by
      have hmap := hrb.map (Equiv.swap x y)
      rw [map_swap_plug h.nodup] at hmap
      exact hmap
    obtain ⟨t', s', hrun', hrep', hrb', hlist, hkeeps₂⟩ := removeLoop_single hswap hswapRb hw
    refine ⟨t', s', hrun'.succ hrep fun m n hm hn => ?_, hrep', hrb', hlist.trans ?_, ?_⟩
    · simp only [removeLoop, hm, Option.bind_some]
      rw [if_neg fun hboth => hyright hboth.2]
      exact hn
    · rw [hlistNew, hafterNew]
      simp
    · refine hkeeps₁.trans (hkeeps₂.mono fun z hz => ?_)
      simp only [mem_inorder_plug, mem_inorder_branch, names_append, names, List.mem_append,
        List.mem_cons] at hz ⊢
      tauto

/-- The loop of `ocf_rb_tree_remove` takes the node out of the order and leaves a
red-black tree. -/
theorem removeLoop_spec {s : Shape ι} (h : Represents t s) (hrb : s.IsRb) (hx : x ∈ s.inorder) :
    ∃ t' s' as bs, Returns₂ (fun fuel n => removeLoop fuel n t x) t' ∧ Represents t' s' ∧ s'.IsRb ∧
      s.inorder = as ++ x :: bs ∧ s'.inorder = as ++ bs ∧ Keeps s.inorder t t' := by
  obtain ⟨c, l, r, fs, rfl⟩ := exists_plug hx
  have hlist : (plug (node c l x r) fs).inorder = (before fs ++ l.inorder) ++ x :: (r.inorder ++ after fs) := by
    rw [inorder_plug]
    simp [inorder]
  by_cases hl : l = leaf
  · subst hl
    by_cases hr : r = leaf
    · subst hr
      obtain ⟨t', s', hrun, hrep, hrb', hlist', hkeeps⟩ := removeLoop_leaf h hrb
      refine ⟨t', s', _, _, hrun, hrep, hrb', hlist, hlist'.trans ?_, hkeeps⟩
      simp
    · obtain ⟨t', s', hrun, hrep, hrb', hlist', hkeeps⟩ :=
        @removeLoop_single ι _ t x fs .right c r h hrb hr
      refine ⟨t', s', _, _, hrun, hrep, hrb', hlist, hlist'.trans ?_, hkeeps⟩
      simp
  · by_cases hr : r = leaf
    · subst hr
      obtain ⟨t', s', hrun, hrep, hrb', hlist', hkeeps⟩ :=
        @removeLoop_single ι _ t x fs .left c l h hrb hl
      refine ⟨t', s', _, _, hrun, hrep, hrb', hlist, hlist'.trans ?_, hkeeps⟩
      simp
    · obtain ⟨t', s', hrun, hrep, hrb', hlist', hkeeps⟩ := removeLoop_both h hrb hl hr
      refine ⟨t', s', _, _, hrun, hrep, hrb', hlist, hlist'.trans ?_, hkeeps⟩
      simp

end OcfCache.RbTree
