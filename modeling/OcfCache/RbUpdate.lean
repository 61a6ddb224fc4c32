import OcfCache.RbRuns

/-!
# A new key in place

`ocf_rb_tree_can_update` walks to the node along the order of the new key and
compares the key with the neighbours of the node in the subtree below it. The
walk goes on to the right at a node that compares equal. So it misses one case:
the node before the one to be updated lies above it and has the new key.
-/

namespace OcfCache.RbTree

open Function RbShapes RbShapes.Shape FuelLoops
open List (mem_append mem_cons mem_cons_self pairwise_append pairwise_cons)

variable {ι κ : Type*} [DecidableEq ι]

/-- The comparison that the walk of `ocf_rb_tree_can_update` follows: it stops at
the node, and an equal key counts as a larger one. -/
def walkCmp (cmp : ι → Int) (x z : ι) : Int := if z = x then 0 else if cmp z = 0 then 1 else cmp z

theorem canUpdateWalk_eq_findFrom (t : Tree ι) (cmp : ι → Int) (x : ι) (n : Nat) (o : Option ι) :
    canUpdateWalk t cmp x n o = findFrom t (walkCmp cmp x) n o := by
  induction n generalizing o with
  | zero => rfl
  | succ n ih =>
    cases o with
    | none => rfl
    | some iter =>
      simp only [canUpdateWalk, findFrom, walkCmp]
      by_cases hx : iter = x
      · simp only [hx, if_true]
      · by_cases hzero : cmp iter = 0
        · simp only [hx, hzero, if_false, if_true, ih]
          rfl
        · simp only [hx, hzero, if_false, ih]

variable {t : Tree ι}

theorem canUpdateWalk_returns {s : Shape ι} (h : Represents t s) (cmp : ι → Int) (x : ι) :
    Returns (fun n => canUpdateWalk t cmp x n t.root) (zoom (walkCmp cmp x) s []).1.root := by
  have hrun := findFrom_returns (walkCmp cmp x) [] h.rep
  rw [← h.root] at hrun
  exact hrun.congr fun n hn => (canUpdateWalk_eq_findFrom t cmp x n t.root).trans hn

theorem walkCmp_eq_zero {cmp : ι → Int} {x z : ι} : walkCmp cmp x z = 0 ↔ z = x := by
  unfold walkCmp
  split
  · simp [*]
  · split
    · simp [*]
    · simp [*]

/-- Away from the node the sign is that of the comparison, but for equal keys. -/
theorem walkCmp_sign {cmp : ι → Int} {x z : ι} (h : z ≠ x) :
    (walkCmp cmp x z < 0 ↔ cmp z < 0) ∧ (0 < walkCmp cmp x z ↔ 0 ≤ cmp z) := by
  unfold walkCmp
  rw [if_neg h]
  split
  · omega
  · omega

variable {c : Bool} {l r : Shape ι} {fs : List (Frame ι)}

variable {x : ι}

omit [DecidableEq ι] in
/-- `ocf_rb_tree_predecessor` finds the last node of the left subtree. -/
theorem predecessor_returns (h : Represents t (plug (node c l x r) fs)) :
    Returns (fun n => ocfRbTreePredecessor n t x) l.inorder.getLast? := by
  have hnode := Represents.nodeIs (show Represents t (plug (branch .left c l x r) fs) from h)
  have hleft : (t.node x).left = l.root := hnode.near
  have hplace : Represents t (plug l (⟨.left, c, x, r⟩ :: fs)) := h
  cases hl : l.root with
  | none =>
    rw [eq_leaf_of_root hl]
    refine (Returns.const none).congr fun n _ => ?_
    simp only [ocfRbTreePredecessor, hleft, hl]
  | some y =>
    obtain ⟨gs, k, p, w, hplug, hgs, hrun⟩ :=
      outermost_returns .right (represents_plug.mp hplace).1.2.1 hl
    have hlast : l.inorder.getLast? = some p := by
      rw [hplug, inorder_plug, after_eq_nil hgs]
      simp [branch, inorder]
    rw [hlast]
    refine (hrun.map some).congr fun n hn => ?_
    simp only [ocfRbTreePredecessor, hleft, hl]
    exact hn

omit [DecidableEq ι] in
/-- `ocf_rb_tree_successor` finds the first node of the right subtree. -/
theorem successor_returns (h : Represents t (plug (node c l x r) fs)) :
    Returns (fun n => ocfRbTreeSuccessor n t x) r.inorder.head? := by
  have hnode := Represents.nodeIs (show Represents t (plug (branch .left c l x r) fs) from h)
  have hright : (t.node x).right = r.root := hnode.far
  have hplace : Represents t (plug r (⟨.right, c, x, l⟩ :: fs)) := h
  cases hr : r.root with
  | none =>
    rw [eq_leaf_of_root hr]
    refine (Returns.const none).congr fun n _ => ?_
    simp only [ocfRbTreeSuccessor, hright, hr]
  | some y =>
    obtain ⟨gs, k, q, w, hplug, hgs, hrun⟩ :=
      outermost_returns .left (represents_plug.mp hplace).1.2.1 hr
    have hfirst : r.inorder.head? = some q := by
      rw [hplug, inorder_plug, before_eq_nil hgs]
      rfl
    rw [hfirst]
    refine (hrun.map some).congr fun n hn => ?_
    simp only [ocfRbTreeSuccessor, hright, hr]
    exact hn

/-- The comparison of the new key with the neighbours of the node below it. -/
def neighboursAllow (cmp : ι → Int) (l : Shape ι) (x : ι) (r : Shape ι) : Bool :=
  if cmp x < 0 then l.inorder.getLast?.all fun p => decide (0 < cmp p)
  else if 0 < cmp x then r.inorder.head?.all fun q => decide (cmp q < 0)
  else true

/-- The answer of `ocf_rb_tree_can_update` where the walk reaches the node. -/
theorem canUpdate_reached
    (h : Represents t (plug (node c l x r) fs)) (cmp : ι → Int) (hlist : t.listEmpty x = true)
    (hwalk : Returns (fun n => canUpdateWalk t cmp x n t.root) (some x)) :
    Returns (fun n => ocfRbTreeCanUpdate n cmp t x) (neighboursAllow cmp l x r) := by
  obtain ⟨i, hi⟩ := hwalk
  obtain ⟨j, hj⟩ := predecessor_returns h
  obtain ⟨k, hk⟩ := successor_returns h
  refine ⟨max i (max j k), fun n hn => ?_⟩
  have hin : canUpdateWalk t cmp x n t.root = some (some x) := hi n (by omega)
  have hjn : ocfRbTreePredecessor n t x = some l.inorder.getLast? := hj n (by omega)
  have hkn : ocfRbTreeSuccessor n t x = some r.inorder.head? := hk n (by omega)
  simp only [ocfRbTreeCanUpdate, hlist, Bool.true_eq_false, if_false, hin, Option.bind_some, hjn, hkn,
    neighboursAllow]
  split
  · cases l.inorder.getLast? <;> rfl
  · split
    · cases r.inorder.head? <;> rfl
    · rfl

/-- The answer where the walk misses the node or the node has equal ones. -/
theorem canUpdate_refused {cmp : ι → Int}
    (h : t.listEmpty x = false ∨ Returns (fun n => canUpdateWalk t cmp x n t.root) none) :
    Returns (fun n => ocfRbTreeCanUpdate n cmp t x) false := by
  rcases h with hlist | ⟨i, hi⟩
  · refine (Returns.const false).congr fun n _ => ?_
    simp only [ocfRbTreeCanUpdate, hlist, if_true]
  · refine ⟨i, fun n hn => ?_⟩
    have hin : canUpdateWalk t cmp x n t.root = some none := hi n hn
    simp only [ocfRbTreeCanUpdate, hin, Option.bind_some]
    split <;> rfl

section Update

variable {cmp : κ → κ → Int} {key : ι → κ} {t : Tree ι} {s : Shape ι} {dup : ι → List ι} {x : ι}

/-- Keys increase after an update if the new key lies between the neighbours. -/
theorem sorted_update_iff (hcmp : StrictCmp cmp) {as bs : List ι}
    (hsorted : (as ++ x :: bs).Pairwise fun a b => cmp (key a) (key b) < 0)
    (hnodup : (as ++ x :: bs).Nodup) (k : κ) : ((as ++ x :: bs).Pairwise fun a b =>
      cmp (update key x k a) (update key x k b) < 0) ↔
      (∀ z ∈ as, 0 < cmp k (key z)) ∧ ∀ z ∈ bs, cmp k (key z) < 0 := by
  have hmiddle : (as ++ x :: bs).Perm (x :: (as ++ bs)) := List.perm_middle
  have hfresh := (List.nodup_cons.mp (hmiddle.nodup_iff.mp hnodup)).1
  have hother : ∀ z ∈ as ++ bs, update key x k z = key z := by
    intro z hz
    have hzx : z ≠ x := fun heq => hfresh (heq ▸ hz)
    exact update_of_ne hzx ..
  have has : ∀ z ∈ as, update key x k z = key z := fun z hz =>
    hother z (List.mem_append_left bs hz)
  have hbs : ∀ z ∈ bs, update key x k z = key z := fun z hz =>
    hother z (List.mem_append_right as hz)
  have hself : update key x k x = k := update_self ..
  rw [pairwise_append, pairwise_cons] at hsorted ⊢
  obtain ⟨hA, ⟨-, hB⟩, hAB⟩ := hsorted
  constructor
  · rintro ⟨-, ⟨hxB, -⟩, hAx⟩
    refine ⟨fun z hz => ?_, fun z hz => ?_⟩
    · have hzx := hAx z hz x mem_cons_self
      rw [has z hz, hself] at hzx
      exact (hcmp.swap _ _).mp hzx
    · have hxz := hxB z hz
      rw [hbs z hz, hself] at hxz
      exact hxz
  · rintro ⟨hlow, hhigh⟩
    refine ⟨hA.imp_of_mem fun {a b} ha hb hab => ?_, ⟨fun z hz => ?_,
      hB.imp_of_mem fun {a b} ha hb hab => ?_⟩, fun a ha b hb => ?_⟩
    · rw [has a ha, has b hb]
      exact hab
    · rw [hbs z hz, hself]
      exact hhigh z hz
    · rw [hbs a ha, hbs b hb]
      exact hab
    · rcases mem_cons.mp hb with rfl | hb
      · rw [has a ha, hself]
        exact (hcmp.swap _ _).mpr (hlow a ha)
      · rw [has a ha, hbs b hb]
        exact hAB a ha b (List.mem_cons_of_mem x hb)

/-- What `ocf_rb_tree_can_update` is to guarantee: with the new key the keys
still increase along the tree, and every stored key is found. -/
def UpdateSafe (cmp : κ → κ → Int) (find : Tree ι → ι → Option ι) (key : ι → κ) (t : Tree ι)
    (s : Shape ι) (dup : ι → List ι) : Prop :=
  (s.inorder.Pairwise fun a b => cmp (key a) (key b) < 0) ∧
    ∀ z, Stored s dup z → ∃ y, Returns (fun n => ocfRbTreeFind n find (fun b => cmp (key z) (key b)) t)
      (some y) ∧ Stored s dup y ∧ cmp (key z) (key y) = 0

theorem updateSafe_of_sorted (h : WellFormed cmp key t s dup) (hcmp : StrictCmp cmp)
    {find : Tree ι → ι → Option ι} (hfind : Picks find) (hx : x ∈ s.inorder) (hdup : dup x = []) {k : κ}
    (hsorted : s.inorder.Pairwise fun a b => cmp (update key x k a) (update key x k b) < 0) :
    UpdateSafe cmp find (update key x k) t s dup := by
  have hwf : WellFormed cmp (update key x k) t s dup := by
    refine ⟨h.represents, h.isRb, hsorted, h.ring, fun a ha y hy => ?_, h.detached, h.apart⟩
    have hax : a ≠ x := by
      rintro rfl
      rw [hdup] at hy
      exact absurd hy List.not_mem_nil
    have hyx : y ≠ x := by
      rintro rfl
      exact h.not_mem ha hy hx
    rw [update_of_ne hax, update_of_ne hyx]
    exact h.equal a ha y hy
  refine ⟨hsorted, fun z hz => ?_⟩
  obtain ⟨r, hrun, hiff, hfound⟩ := hwf.find hcmp hfind (update key x k z)
  obtain ⟨y, rfl⟩ := Option.ne_none_iff_exists'.mp (hiff.mpr ⟨z, hz, hcmp.refl _⟩)
  exact ⟨y, hrun, hfound y rfl⟩

/-- Where the walk reaches the node, the new key lies between the neighbours,
but for a node in front that lies above it and compares equal. -/
theorem between_of_reached (h : WellFormed cmp key t s dup) (hcmp : StrictCmp cmp) {k : κ}
    (hs : s = plug (node c l x r) fs) (hzoomed : Zoomed (walkCmp (fun z => cmp k (key z)) x) fs)
    (hallow : neighboursAllow (fun z => cmp k (key z)) l x r = true)
    (hlast : l = leaf → ∀ as p, before fs = as ++ [p] → cmp k (key p) ≠ 0) :
    (∀ z ∈ before fs ++ l.inorder, 0 < cmp k (key z)) ∧
      ∀ z ∈ r.inorder ++ after fs, cmp k (key z) < 0 := by
  have hcut : Cut (fun a b => cmp (key a) (key b) < 0) fun b => cmp k (key b) := hcmp.cut key k
  have hlist : s.inorder = (before fs ++ l.inorder) ++ x :: (r.inorder ++ after fs) := by
    rw [hs, inorder_plug]
    simp [inorder]
  have hsorted := h.sorted
  rw [hlist, pairwise_append, pairwise_cons, pairwise_append,
    pairwise_append] at hsorted
  obtain ⟨⟨hsBefore, hsL, hBL⟩, ⟨hxHigh, hsR, hsAfter, -⟩, hlowHigh⟩ := hsorted
  have hlowX : ∀ z ∈ before fs ++ l.inorder, cmp (key z) (key x) < 0 := fun z hz =>
    hlowHigh z hz x mem_cons_self
  have hne : ∀ f ∈ fs, f.x ≠ x := by
    intro f hf heq
    have hzoom := hzoomed f hf
    have hzero := (@walkCmp_eq_zero ι _ (fun z => cmp k (key z)) x f.x).mpr heq
    cases hside : f.side with
    | left =>
      have hneg := hzoom.1 hside
      omega
    | right =>
      have hpos := hzoom.2 hside
      omega
  have hafter : ∀ z ∈ after fs, cmp k (key z) < 0 := after_neg (fun f hf hside =>
    (walkCmp_sign (hne f hf)).1.mp ((hzoomed f hf).1 hside)) hcut hsAfter
  have hbefore : ∀ z ∈ before fs, 0 ≤ cmp k (key z) := before_nonneg (fun f hf hside =>
    (walkCmp_sign (hne f hf)).2.mp ((hzoomed f hf).2 hside)) hcut hsBefore
  by_cases hneg : cmp k (key x) < 0
  · refine ⟨fun z hz => ?_, fun z hz => ?_⟩
    · simp only [neighboursAllow, hneg, if_true] at hallow
      rcases List.eq_nil_or_concat' l.inorder with hl | ⟨us, p, hl⟩
      · -- the node in front lies above
        have hleaf : l = leaf := by
          cases l with
          | leaf => rfl
          | node => simp [inorder] at hl
        rw [hl, List.append_nil] at hz
        rcases List.eq_nil_or_concat' (before fs) with hb | ⟨as, p, hb⟩
        · rw [hb] at hz
          exact absurd hz List.not_mem_nil
        · have hp : 0 < cmp k (key p) := by
            have hnonneg := hbefore p (by rw [hb]; simp)
            have hnz := hlast hleaf as p hb
            omega
          rw [hb, pairwise_append] at hsBefore
          rw [hb, mem_append, List.mem_singleton] at hz
          rcases hz with hz | rfl
          · exact hcut.pos z p (hsBefore.2.2 z hz p (List.mem_singleton_self p)) hp.le
          · exact hp
      · have hp : 0 < cmp k (key p) := by
          rw [hl, List.getLast?_concat, Option.all_some] at hallow
          exact of_decide_eq_true hallow
        have hpl : p ∈ l.inorder := by
          rw [hl]
          simp
        rcases mem_append.mp hz with hz | hz
        · exact hcut.pos z p (hBL z hz p hpl) hp.le
        · rw [hl, pairwise_append] at hsL
          rw [hl, mem_append, List.mem_singleton] at hz
          rcases hz with hz | rfl
          · exact hcut.pos z p (hsL.2.2 z hz p (List.mem_singleton_self p)) hp.le
          · exact hp
    · exact hcut.neg x z (hxHigh z hz) hneg.le
  · refine ⟨fun z hz => hcut.pos z x (hlowX z hz) (by omega), fun z hz => ?_⟩
    by_cases hpos : 0 < cmp k (key x)
    · simp only [neighboursAllow, hneg, hpos, if_true, if_false] at hallow
      rcases mem_append.mp hz with hz | hz
      · cases hr : r.inorder with
        | nil =>
          rw [hr] at hz
          exact absurd hz List.not_mem_nil
        | cons q bs =>
          rw [hr, List.head?_cons, Option.all_some] at hallow
          have hq : cmp k (key q) < 0 := of_decide_eq_true hallow
          rw [hr] at hz hsR
          rcases mem_cons.mp hz with rfl | hz
          · exact hq
          · exact hcut.neg q z ((pairwise_cons.mp hsR).1 z hz) hq.le
      · exact hafter z hz
    · exact hcut.neg x z (hxHigh z hz) (by omega)

/-- The walk reaches a node whose predecessor compares equal to the new key. -/
theorem walk_reaches (h : WellFormed cmp key t s dup) (hcmp : StrictCmp cmp) {k : κ} {as bs : List ι}
    {p : ι} (hs : s.inorder = as ++ p :: x :: bs) (hp : cmp k (key p) = 0) :
    (zoom (walkCmp (fun z => cmp k (key z)) x) s []).1.root = some x := by
  have hcut : Cut (fun a b => cmp (key a) (key b) < 0) fun b => cmp k (key b) := hcmp.cut key k
  have hx : x ∈ s.inorder := by
    rw [hs]
    simp
  have hsorted := h.sorted
  rw [hs] at hsorted
  obtain ⟨hsA, hsRest, hAB⟩ := pairwise_append.mp hsorted
  obtain ⟨hpRest, hxRest⟩ := pairwise_cons.mp hsRest
  have hxB := (pairwise_cons.mp hxRest).1
  -- in front of the node the walk goes to the right, behind it to the left
  have hfront : ∀ z ∈ as ++ [p], 0 ≤ cmp k (key z) := by
    intro z hz
    rcases mem_append.mp hz with hz | hz
    · exact (hcut.pos z p (hAB z hz p mem_cons_self) hp.ge).le
    · rw [List.mem_singleton.mp hz, hp]
  have hback : ∀ z ∈ bs, cmp k (key z) < 0 := fun z hz =>
    hcut.neg p z (hpRest z (List.mem_cons_of_mem x hz)) hp.le
  have hlist : s.inorder = (as ++ [p]) ++ x :: bs := by
    rw [hs]
    simp
  have hmem : ∀ z ∈ s.inorder, z ∈ as ++ [p] ∨ z = x ∨ z ∈ bs := by
    intro z hz
    rw [hlist, mem_append, mem_cons] at hz
    exact hz
  have hnodup := h.represents.nodup
  rw [hlist] at hnodup
  have hmiddle : ((as ++ [p]) ++ x :: bs).Perm (x :: ((as ++ [p]) ++ bs)) := List.perm_middle
  have hfresh := (List.nodup_cons.mp (hmiddle.nodup_iff.mp hnodup)).1
  rw [mem_append, not_or] at hfresh
  have hirrefl : ∀ a, ¬ cmp (key a) (key a) < 0 := by
    intro a ha
    have hself := hcmp.refl (key a)
    omega
  have hwalkCut : Cut (fun a b => a ∈ s.inorder ∧ b ∈ s.inorder ∧ cmp (key a) (key b) < 0)
      (walkCmp (fun z => cmp k (key z)) x) := by
    have hsign : ∀ a ∈ s.inorder, (a ∈ as ++ [p] → 0 < walkCmp (fun z => cmp k (key z)) x a) ∧
        (a = x → walkCmp (fun z => cmp k (key z)) x a = 0) ∧
        (a ∈ bs → walkCmp (fun z => cmp k (key z)) x a < 0) := by
      intro a ha
      refine ⟨fun hin => ?_, fun heq => walkCmp_eq_zero.mpr heq, fun hin => ?_⟩
      · have hax : a ≠ x := fun heq => hfresh.1 (heq ▸ hin)
        exact (walkCmp_sign hax).2.mpr (hfront a hin)
      · have hax : a ≠ x := fun heq => hfresh.2 (heq ▸ hin)
        exact (walkCmp_sign hax).1.mpr (hback a hin)
    have horder : ∀ a b, a ∈ s.inorder → b ∈ s.inorder → cmp (key a) (key b) < 0 →
        (b ∈ as ++ [p] ∨ b = x → a ∈ as ++ [p]) ∧ (a ∈ bs ∨ a = x → b ∈ bs) := by
      intro a b ha hb hab
      have hsorted' := h.sorted
      rw [hlist] at hsorted'
      obtain ⟨-, hsX, hAX⟩ := pairwise_append.mp hsorted'
      have hXB := (pairwise_cons.mp hsX).1
      have hnot : ∀ u v, cmp (key u) (key v) < 0 → ¬ cmp (key v) (key u) < 0 := by
        intro u v huv hvu
        have hpos := (hcmp.swap _ _).mp huv
        omega
      refine ⟨fun hlow => ?_, fun hhigh => ?_⟩
      · rcases hmem a ha with hin | rfl | hin
        · exact hin
        · rcases hlow with hlow | rfl
          · exact absurd hab (hnot b a (hAX b hlow a mem_cons_self))
          · exact absurd hab (hirrefl b)
        · rcases hlow with hlow | rfl
          · exact absurd hab (hnot b a (hAX b hlow a (List.mem_cons_of_mem x hin)))
          · exact absurd hab (hnot b a (hXB a hin))
      · rcases hmem b hb with hin | rfl | hin
        · rcases hhigh with hhigh | rfl
          · exact absurd hab (hnot b a (hAX b hin a (List.mem_cons_of_mem x hhigh)))
          · exact absurd hab (hnot b a (hAX b hin a mem_cons_self))
        · rcases hhigh with hhigh | rfl
          · exact absurd hab (hnot b a (hXB a hhigh))
          · exact absurd hab (hirrefl a)
        · exact hin
    constructor
    · rintro a b ⟨ha, hb, hab⟩ hnonneg
      refine (hsign a ha).1 ((horder a b ha hb hab).1 ?_)
      rcases hmem b hb with hin | hbx | hin
      · exact Or.inl hin
      · exact Or.inr hbx
      · have hneg := (hsign b hb).2.2 hin
        omega
    · rintro a b ⟨ha, hb, hab⟩ hnonpos
      refine (hsign b hb).2.2 ((horder a b ha hb hab).2 ?_)
      rcases hmem a ha with hin | hax | hin
      · have hpos := (hsign a ha).1 hin
        omega
      · exact Or.inr hax
      · exact Or.inl hin
  have hsortedIn : s.inorder.Pairwise fun a b =>
      a ∈ s.inorder ∧ b ∈ s.inorder ∧ cmp (key a) (key b) < 0 :=
    h.sorted.imp_of_mem fun ha hb hab => ⟨ha, hb, hab⟩
  cases hplace : (zoom (walkCmp (fun z => cmp k (key z)) x) s []).1 with
  | leaf =>
    obtain ⟨fs, hsfs, -, -, hbefore, hafter⟩ := zoom_leaf hwalkCut hsortedIn hplace
    have hzero := (@walkCmp_eq_zero ι _ (fun z => cmp k (key z)) x x).mpr rfl
    rw [hsfs, inorder_plug, inorder_leaf, List.nil_append, mem_append] at hx
    rcases hx with hx | hx
    · have hpos := hbefore x hx
      omega
    · have hneg := hafter x hx
      omega
  | node c l y r =>
    have hroot : (zoom (walkCmp (fun z => cmp k (key z)) x) s []).1.root = some y := by
      rw [hplace]
      rfl
    have hyx : y = x := walkCmp_eq_zero.mp (cmp_zoom hroot)
    rw [← hyx]
    rfl

/-- An update that `ocf_rb_tree_can_update` allows is safe, unless the node has no
left child and the node before it in the order compares equal to the new key. -/
theorem canUpdate_safe_iff (h : WellFormed cmp key t s dup) (hcmp : StrictCmp cmp)
    {find : Tree ι → ι → Option ι} (hfind : Picks find) (hx : Stored s dup x) (k : κ) :
    (Returns (fun n => ocfRbTreeCanUpdate n (fun z => cmp k (key z)) t x) true →
      UpdateSafe cmp find (update key x k) t s dup) ↔ ¬ (dup x = [] ∧ (t.node x).left = none ∧
        ∃ as p bs, s.inorder = as ++ p :: x :: bs ∧ cmp k (key p) = 0) := by
  have hwalk := canUpdateWalk_returns h.represents (fun z => cmp k (key z)) x
  -- the shape around a node that the walk reaches
  have hreach : (zoom (walkCmp (fun z => cmp k (key z)) x) s []).1.root = some x →
      ∃ c l r fs, s = plug (node c l x r) fs ∧ Zoomed (walkCmp (fun z => cmp k (key z)) x) fs := by
    intro hroot
    have hplug := plug_zoom (walkCmp (fun z => cmp k (key z)) x) s []
    obtain ⟨l, r, hplace⟩ := exists_root_branch .left hroot
    rw [hplace, plug_nil] at hplug
    exact ⟨_, l, r, _, hplug.symm, zoomed_zoom s fun f hf => absurd hf List.not_mem_nil⟩
  constructor
  · rintro hsafe ⟨hdup, hleft, as, p, bs, hs, hp⟩
    have hin : x ∈ s.inorder := by
      rw [hs]
      simp
    have hroot := walk_reaches h hcmp hs hp
    rw [hroot] at hwalk
    obtain ⟨c, l, r, fs, hsplug, -⟩ := hreach hroot
    have hrep : Represents t (plug (node c l x r) fs) := hsplug ▸ h.represents
    have hnode := Represents.nodeIs (show Represents t (plug (branch .left c l x r) fs) from hrep)
    have hleaf : l = leaf := eq_leaf_of_root (hnode.near.symm.trans hleft)
    have hanswer := canUpdate_reached hrep _ ((h.listEmpty_iff hin).mpr hdup) hwalk
    have hsorted := h.sorted
    rw [hs] at hsorted
    have hpx : cmp (key p) (key x) < 0 :=
      (pairwise_cons.mp (pairwise_append.mp hsorted).2.1).1 x mem_cons_self
    have hkx : cmp k (key x) < 0 := hcmp.lt_of_le_of_lt hp.le hpx
    have hallow : neighboursAllow (fun z => cmp k (key z)) l x r = true := by
      simp only [neighboursAllow, hkx, if_true, hleaf, inorder_leaf, List.getLast?_nil, Option.all_none]
    rw [hallow] at hanswer
    have hnew := (hsafe hanswer).1
    rw [hs] at hnew
    have hpx' := (pairwise_cons.mp (pairwise_append.mp hnew).2.1).1 x mem_cons_self
    have hne : p ≠ x := by
      rintro rfl
      have hself := hcmp.refl (key p)
      omega
    rw [update_of_ne hne, update_self, hcmp.symm hp] at hpx'
    omega
  · intro hcond hanswer
    obtain ⟨b, hb, hxb⟩ := hx
    have hlist : t.listEmpty x = true := by
      by_contra hnot
      have hrefused : Returns (fun n => ocfRbTreeCanUpdate n (fun z => cmp k (key z)) t x) false :=
        canUpdate_refused (Or.inl ((Bool.not_eq_true _).mp hnot))
      exact Bool.noConfusion (hrefused.unique hanswer)
    have hin : x ∈ s.inorder := by
      rcases mem_cons.mp hxb with rfl | hmem
      · exact hb
      · have hfalse := h.listEmpty_member hb hmem
        rw [hlist] at hfalse
        exact Bool.noConfusion hfalse
    have hdup := (h.listEmpty_iff hin).mp hlist
    cases hroot : (zoom (walkCmp (fun z => cmp k (key z)) x) s []).1.root with
    | none =>
      rw [hroot] at hwalk
      exact Bool.noConfusion ((canUpdate_refused (Or.inr hwalk)).unique hanswer)
    | some y =>
      have hyx : y = x := walkCmp_eq_zero.mp (cmp_zoom hroot)
      subst hyx
      rw [hroot] at hwalk
      obtain ⟨c, l, r, fs, hsplug, hzoomed⟩ := hreach hroot
      have hrep : Represents t (plug (node c l y r) fs) := hsplug ▸ h.represents
      have hnode := Represents.nodeIs (show Represents t (plug (branch .left c l y r) fs) from hrep)
      have hallow := (canUpdate_reached hrep _ hlist hwalk).unique hanswer
      have hinorder : s.inorder = (before fs ++ l.inorder) ++ y :: (r.inorder ++ after fs) := by
        rw [hsplug, inorder_plug]
        simp [inorder]
      have hbetween := between_of_reached h hcmp hsplug hzoomed hallow fun hleaf as p hbefore hp => by
        refine hcond ⟨hdup, ?_, as, p, r.inorder ++ after fs, ?_, hp⟩
        · have hnear : (t.node y).left = l.root := hnode.near
          rw [hnear, hleaf]
          rfl
        · rw [hinorder, hleaf, hbefore]
          simp
      refine updateSafe_of_sorted h hcmp hfind hin hdup ?_
      have hsorted := h.sorted
      have hnodup := h.represents.nodup
      rw [hinorder] at hsorted hnodup ⊢
      exact (sorted_update_iff hcmp hsorted hnodup k).mpr hbetween

/-- A root with a red right child. -/
def rootAndChild : Tree Nat :=
  ⟨some 0, fun z => if z = 0 then ⟨false, none, some 1, none, 0, 0⟩ else ⟨true, none, none, some 0, z, z⟩⟩

/-- Keys of the two nodes. -/
def tenAndTwenty (z : Nat) : Int := if z = 0 then 10 else 20

/-- The two nodes are a well-formed tree. -/
theorem wellFormed_rootAndChild : WellFormed (fun a b : Int => a - b) tenAndTwenty rootAndChild
    (node false leaf 0 (node true leaf 1 leaf)) fun _ => [] := by
  refine ⟨⟨rfl, ⟨⟨rfl, rfl, rfl, rfl⟩, trivial, ⟨rfl, rfl, rfl, rfl⟩, trivial, trivial⟩, by decide⟩,
    ⟨rfl, 1, 0, rfl, rfl, ⟨rfl, rfl⟩, rfl, rfl⟩, by simp [inorder, tenAndTwenty], ?_, by simp, by simp,
    by simp⟩
  intro h hh
  have hcase : h = 0 ∨ h = 1 := by simpa [inorder] using hh
  rcases hcase with rfl | rfl
  · exact RingLists.Ring.empty rfl rfl
  · exact RingLists.Ring.empty rfl rfl

/-- An update of the child to a key between those of the two nodes. -/
theorem canUpdate_safe_iff_between :
    (Returns (fun n => ocfRbTreeCanUpdate n (fun z => 15 - tenAndTwenty z) rootAndChild 1) true →
      UpdateSafe (fun a b : Int => a - b) ocfRbTreeListFindFirst (update tenAndTwenty 1 15)
        rootAndChild (node false leaf 0 (node true leaf 1 leaf)) fun _ => []) ↔
      ¬ (([] : List Nat) = [] ∧ (rootAndChild.node 1).left = none ∧
        ∃ as p bs, (node false leaf 0 (node true leaf 1 leaf) : Shape Nat).inorder = as ++ p :: 1 :: bs ∧
          15 - tenAndTwenty p = 0) :=
  canUpdate_safe_iff wellFormed_rootAndChild strictCmp_sub picks_listFindFirst
    ⟨1, by simp [inorder], mem_cons_self⟩ 15

/-- An update of the child to the key of the root is allowed, and then two nodes
of the tree have one key. -/
theorem canUpdate_allows_equal : ∃ (t : Tree Nat) (key : Nat → Int) (s : Shape Nat),
    WellFormed (fun a b : Int => a - b) key t s (fun _ => []) ∧ 1 ∈ s.inorder ∧
      Returns (fun n => ocfRbTreeCanUpdate n (fun z => 10 - key z) t 1) true ∧
      ¬ s.inorder.Pairwise fun a b => update key 1 10 a - update key 1 10 b < 0 := by
  refine ⟨rootAndChild, tenAndTwenty, node false leaf 0 (node true leaf 1 leaf),
    wellFormed_rootAndChild, by simp [inorder], ⟨3, fun n hn => ?_⟩, by simp [inorder, tenAndTwenty]⟩
  obtain ⟨m, rfl⟩ : ∃ m, n = m + 3 := ⟨n - 3, by omega⟩
  rfl

end Update

end OcfCache.RbTree
