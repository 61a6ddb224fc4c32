import Mathlib.Data.Set.Insert
import OcfCache.RbRemove
import OcfCache.RbWellFormed

/-!
# Runs of the red-black tree

A removal returns and keeps the tree well-formed, whether the node is alone in
the tree, the head of a list of equal nodes or an entry of such a list. So does
every run of insertions and removals from the empty tree, and a search in the
tree finds a node exactly if a stored node compares equal.
-/

namespace OcfCache.RbTree

open Function RbShapes RbShapes.Shape FuelLoops RingLists
open List (mem_append mem_cons mem_cons_of_mem mem_cons_self nodup_cons)

variable {ι κ : Type*} {cmp : κ → κ → Int} {key : ι → κ} {t : Tree ι} {s : Shape ι}
  {dup : ι → List ι}

section Remove

variable [DecidableEq ι]

/-- The rings of other nodes after an entry was taken from a list. -/
theorem WellFormed.ring_listDel (h : WellFormed cmp key t s dup) {u : Tree ι} {a b x : ι}
    (ha : a ∈ s.inorder) (hb : b ∈ s.inorder) (hab : a ≠ b) (hx : x ∈ b :: dup b)
    (hnext : ∀ z, (u.node z).next = (t.node z).next) (hprev : ∀ z, (u.node z).prev = (t.node z).prev) :
    (u.listDel x).Ring a (dup a) := by
  have hapart : ∀ z ∈ a :: dup a, z ∉ b :: dup b := fun z hz hzb => hab (h.apart a ha b hb z hz hzb)
  have hlinks := ring_prev_mem (h.ring b hb) hx
  obtain ⟨-, hnextDel, hprevDel⟩ := listDel_links u x
  refine ring_keep (h.ring a ha) (fun z hz => ?_) fun z hz => ?_
  · have hne : z ≠ (u.node x).prev := by
      rw [hprev]
      exact fun heq => hapart z hz (heq ▸ hlinks.2)
    have hz' := congrFun hnextDel z
    rw [update_of_ne hne] at hz'
    exact hz'.trans (hnext z)
  · have hne : z ≠ (u.node x).next := by
      rw [hnext]
      exact fun heq => hapart z hz (heq ▸ hlinks.1)
    have hz' := congrFun hprevDel z
    rw [update_of_ne hne] at hz'
    exact hz'.trans (hprev z)

/-- An entry behind the first of its key leaves the list; every other one stays. -/
theorem WellFormed.removeMember (h : WellFormed cmp key t s dup) {x b : ι} {as bs : List ι}
    (hb : b ∈ s.inorder) (hdup : dup b = as ++ x :: bs) :
    WellFormed cmp key (t.listDel x) s (update dup b (as ++ bs)) ∧
      ∀ z, Stored s (update dup b (as ++ bs)) z ↔ z ≠ x ∧ Stored s dup z := by
  have hself : update dup b (as ++ bs) b = as ++ bs := update_self ..
  have hne : ∀ a, a ≠ b → update dup b (as ++ bs) a = dup a := fun a ha =>
    update_of_ne ha ..
  have hsub : ∀ a, ∀ z ∈ update dup b (as ++ bs) a, z ∈ dup a := by
    intro a z hz
    by_cases hab : a = b
    · subst hab
      rw [hself, mem_append] at hz
      rw [hdup, mem_append, mem_cons]
      tauto
    · rw [hne a hab] at hz
      exact hz
  have hxb : x ∈ b :: dup b := by
    rw [hdup]
    simp
  have hringB := h.ring b hb
  rw [hdup] at hringB
  have hfresh : x ≠ b ∧ x ∉ as ++ bs := by
    have hperm : (b :: (as ++ x :: bs)).Perm (x :: b :: (as ++ bs)) := by
      have hmiddle : (as ++ x :: bs).Perm (x :: (as ++ bs)) := List.perm_middle
      exact (hmiddle.cons b).trans (List.Perm.swap x b _)
    have hnodup := (nodup_cons.mp (hperm.nodup_iff.mp hringB.nodup)).1
    rw [mem_cons, not_or] at hnodup
    exact hnodup
  obtain ⟨hsame, hnext, hprev⟩ := listDel_links t x
  refine ⟨⟨h.represents.congr rfl fun z _ => hsame z, h.isRb, h.sorted, fun a ha => ?_,
    fun a ha z hz => h.equal a ha z (hsub a z hz), fun a ha z hz => ?_, ?_⟩, fun z => ⟨?_, ?_⟩⟩
  · by_cases hab : a = b
    · subst hab
      rw [hself]
      have hgoal : RingLists.Ring (fun z => ((t.listDel x).node z).next)
          (fun z => ((t.listDel x).node z).prev) a (as ++ bs) := by
        rw [hnext, hprev]
        exact hringB.remove
      exact hgoal
    · rw [hne a hab]
      exact h.ring_listDel ha hb hab hxb (fun _ => rfl) fun _ => rfl
  · have hlinks := hsame z
    rw [hlinks.left, hlinks.right, hlinks.parent]
    exact h.detached a ha z (hsub a z hz)
  · intro a ha a' ha' z hza hza'
    have hsub' : ∀ c, z ∈ c :: update dup b (as ++ bs) c → z ∈ c :: dup c := by
      intro c hz
      rcases mem_cons.mp hz with rfl | hz
      · exact mem_cons_self
      · exact mem_cons_of_mem c (hsub c z hz)
    exact h.apart a ha a' ha' z (hsub' a hza) (hsub' a' hza')
  · rintro ⟨a, ha, hz⟩
    have hin : z ∈ a :: dup a := by
      rcases mem_cons.mp hz with rfl | hz
      · exact mem_cons_self
      · exact mem_cons_of_mem a (hsub a z hz)
    refine ⟨?_, a, ha, hin⟩
    rintro rfl
    have hab := h.apart a ha b hb z hin hxb
    subst hab
    rw [hself, mem_cons] at hz
    rcases hz with hz | hz
    · exact hfresh.1 hz
    · exact hfresh.2 hz
  · rintro ⟨hzx, a, ha, hz⟩
    refine ⟨a, ha, ?_⟩
    by_cases hab : a = b
    · subst hab
      rw [hdup] at hz
      rw [hself]
      simp only [mem_cons, mem_append] at hz ⊢
      tauto
    · rw [hne a hab]
      exact hz

/-- The head of a list is taken out: the first entry of the list takes its place. -/
theorem WellFormed.removeHead (h : WellFormed cmp key t s dup) (hcmp : StrictCmp cmp) {x y : ι}
    {rest : List ι} (hx : x ∈ s.inorder) (hdup : dup x = y :: rest) :
    WellFormed cmp key ((ocfRbTreeSwap t x y).listDel x) (s.map (Equiv.swap x y))
        (update dup y rest) ∧
      ∀ z, Stored (s.map (Equiv.swap x y)) (update dup y rest) z ↔ z ≠ x ∧ Stored s dup z := by
  have hy : y ∈ dup x := by
    rw [hdup]
    exact mem_cons_self
  have hys : y ∉ s.inorder := h.not_mem hx hy
  have hxy : x ≠ y := fun heq => hys (heq ▸ hx)
  obtain ⟨hleft, hright, hparent⟩ := h.detached x hx y hy
  obtain ⟨hrep, hkeeps⟩ := h.represents.substitute hx hys hleft hright hparent
  obtain ⟨u, hu⟩ : ∃ u, u = ocfRbTreeSwap t x y := ⟨_, rfl⟩
  rw [← hu] at hrep hkeeps ⊢
  have hself : update dup y rest y = rest := update_self ..
  have hne : ∀ a ∈ s.inorder, update dup y rest a = dup a := by
    intro a ha
    have hay : a ≠ y := fun heq => hys (heq ▸ ha)
    exact update_of_ne hay ..
  have hmem : ∀ a, a ∈ (s.map (Equiv.swap x y)).inorder ↔ a = y ∨ a ∈ s.inorder ∧ a ≠ x := by
    intro a
    rw [inorder_map, List.mem_map]
    constructor
    · rintro ⟨b, hb, rfl⟩
      by_cases hbx : b = x
      · rw [hbx, Equiv.swap_apply_left]
        exact Or.inl rfl
      · have hby : b ≠ y := fun heq => hys (heq ▸ hb)
        rw [Equiv.swap_apply_of_ne_of_ne hbx hby]
        exact Or.inr ⟨hb, hbx⟩
    · rintro (rfl | ⟨ha, hax⟩)
      · exact ⟨x, hx, Equiv.swap_apply_left x a⟩
      · have hay : a ≠ y := fun heq => hys (heq ▸ ha)
        exact ⟨a, ha, Equiv.swap_apply_of_ne_of_ne hax hay⟩
  have hringX := h.ring x hx
  rw [hdup] at hringX
  have hnodup := hringX.nodup
  have hxrest : x ∉ rest := fun hin =>
    (nodup_cons.mp hnodup).1 (mem_cons_of_mem y hin)
  have hyrest : y ∉ rest := (nodup_cons.mp (nodup_cons.mp hnodup).2).1
  obtain ⟨hsame, hnext, hprev⟩ := listDel_links u x
  have heq : cmp (key y) (key x) = 0 := h.equal x hx y hy
  have hxin : ∀ z ∈ rest, z ∈ dup x := fun z hz => by
    rw [hdup]
    exact mem_cons_of_mem y hz
  refine ⟨⟨hrep.congr rfl fun z _ => hsame z, h.isRb.map _, ?_, fun a ha => ?_, fun a ha z hz => ?_,
    fun a ha z hz => ?_, ?_⟩, fun z => ⟨?_, ?_⟩⟩
  · rw [inorder_map, List.pairwise_map]
    have hkey : ∀ a ∈ s.inorder, cmp (key (Equiv.swap x y a)) (key a) = 0 := by
      intro a ha
      by_cases hax : a = x
      · rw [hax, Equiv.swap_apply_left]
        exact heq
      · have hay : a ≠ y := fun heq => hys (heq ▸ ha)
        rw [Equiv.swap_apply_of_ne_of_ne hax hay]
        exact hcmp.refl _
    refine h.sorted.imp_of_mem fun {a b} ha hb hab => ?_
    have hleft := hcmp.lt_of_le_of_lt (show cmp (key (Equiv.swap x y a)) (key a) ≤ 0 from
      (hkey a ha).le) hab
    exact hcmp.lt_of_lt_of_le hleft (hcmp.symm (hkey b hb)).le
  · rcases (hmem a).mp ha with rfl | ⟨hin, hax⟩
    · rw [hself]
      have hrotate : RingLists.Ring (fun z => (t.node z).next) (fun z => (t.node z).prev) a
          (rest ++ x :: []) := hringX.rotate
      have hringU : RingLists.Ring (fun z => (u.node z).next) (fun z => (u.node z).prev) a
          (rest ++ x :: []) := hrotate.congr (fun z _ => hkeeps.next z) fun z _ => hkeeps.prev z
      have hgoal : RingLists.Ring (fun z => ((u.listDel x).node z).next)
          (fun z => ((u.listDel x).node z).prev) a (rest ++ []) := by
        rw [hnext, hprev]
        exact hringU.remove
      rw [List.append_nil] at hgoal
      exact hgoal
    · rw [hne a hin]
      exact h.ring_listDel hin hx hax mem_cons_self hkeeps.next hkeeps.prev
  · rcases (hmem a).mp ha with rfl | ⟨hin, -⟩
    · rw [hself] at hz
      have hzx := h.equal x hx z (hxin z hz)
      have hxa := hcmp.symm heq
      have hza := hcmp.trans _ _ _ hzx.le hxa.le
      have haz := hcmp.trans _ _ _ heq.le (hcmp.symm hzx).le
      have hge := (hcmp.le_iff _ _).mp haz
      omega
    · rw [hne a hin] at hz
      exact h.equal a hin z hz
  · have hlinks := hsame z
    rw [hlinks.left, hlinks.right, hlinks.parent]
    have hcase : ∃ b ∈ s.inorder, z ∈ dup b ∧ z ≠ y := by
      rcases (hmem a).mp ha with rfl | ⟨hin, hax⟩
      · rw [hself] at hz
        exact ⟨x, hx, hxin z hz, fun heq => hyrest (heq ▸ hz)⟩
      · rw [hne a hin] at hz
        refine ⟨a, hin, hz, fun heq => hax ?_⟩
        exact h.apart a hin x hx z (mem_cons_of_mem a hz) (heq ▸ mem_cons_of_mem x hy)
    obtain ⟨b, hb, hzb, hzy⟩ := hcase
    have hout : z ∉ y :: s.inorder := by
      rw [mem_cons, not_or]
      exact ⟨hzy, h.not_mem hb hzb⟩
    rw [hkeeps.outside z hout]
    exact h.detached b hb z hzb
  · have hplace : ∀ a ∈ (s.map (Equiv.swap x y)).inorder, ∀ z ∈ a :: update dup y rest a,
        ∃ b ∈ s.inorder, z ∈ b :: dup b ∧ (b = x → a = y) ∧ (b ≠ x → a = b) := by
      intro a ha z hz
      rcases (hmem a).mp ha with rfl | ⟨hin, hax⟩
      · rw [hself] at hz
        refine ⟨x, hx, ?_, fun _ => rfl, fun hcontra => absurd rfl hcontra⟩
        rw [hdup]
        exact mem_cons_of_mem x hz
      · rw [hne a hin] at hz
        exact ⟨a, hin, hz, fun heq => absurd heq hax, fun _ => rfl⟩
    intro a ha a' ha' z hza hza'
    obtain ⟨b, hb, hzb, hbx, hbn⟩ := hplace a ha z hza
    obtain ⟨b', hb', hzb', hbx', hbn'⟩ := hplace a' ha' z hza'
    have hbb := h.apart b hb b' hb' z hzb hzb'
    subst hbb
    by_cases hb0 : b = x
    · exact (hbx hb0).trans (hbx' hb0).symm
    · exact (hbn hb0).trans (hbn' hb0).symm
  · rintro ⟨a, ha, hz⟩
    rcases (hmem a).mp ha with rfl | ⟨hin, hax⟩
    · rw [hself] at hz
      refine ⟨?_, x, hx, ?_⟩
      · rintro rfl
        rcases mem_cons.mp hz with heq' | hin
        · exact hxy heq'
        · exact hxrest hin
      · rw [hdup]
        exact mem_cons_of_mem x hz
    · rw [hne a hin] at hz
      refine ⟨?_, a, hin, hz⟩
      rintro rfl
      exact hax (h.apart a hin z hx z hz mem_cons_self)
  · rintro ⟨hzx, a, ha, hz⟩
    by_cases hax : a = x
    · subst hax
      rw [hdup] at hz
      refine ⟨y, (hmem y).mpr (Or.inl rfl), ?_⟩
      rw [hself]
      rcases mem_cons.mp hz with rfl | hz
      · exact absurd rfl hzx
      · exact hz
    · refine ⟨a, (hmem a).mpr (Or.inr ⟨ha, hax⟩), ?_⟩
      rw [hne a ha]
      exact hz

omit [DecidableEq ι] in
/-- A node without equal ones is taken out of the tree. -/
theorem WellFormed.removeNode (h : WellFormed cmp key t s dup) {x : ι} (hx : x ∈ s.inorder)
    (hdup : dup x = []) {t' : Tree ι} {s' : Shape ι} {as bs : List ι} (hrep : Represents t' s')
    (hrb : s'.IsRb) (hs : s.inorder = as ++ x :: bs) (hs' : s'.inorder = as ++ bs)
    (hkeeps : Keeps s.inorder t t') :
    WellFormed cmp key t' s' dup ∧ ∀ z, Stored s' dup z ↔ z ≠ x ∧ Stored s dup z := by
  have hfresh : x ∉ as ++ bs := by
    have hnodup := h.represents.nodup
    rw [hs] at hnodup
    have hmiddle : (as ++ x :: bs).Perm (x :: (as ++ bs)) := List.perm_middle
    exact (nodup_cons.mp (hmiddle.nodup_iff.mp hnodup)).1
  have hmem : ∀ a, a ∈ s'.inorder ↔ a ∈ s.inorder ∧ a ≠ x := by
    intro a
    rw [hs', hs]
    constructor
    · intro ha
      refine ⟨?_, fun heq => hfresh (heq ▸ ha)⟩
      simp only [mem_append, mem_cons] at ha ⊢
      tauto
    · rintro ⟨ha, hax⟩
      simp only [mem_append, mem_cons] at ha ⊢
      tauto
  refine ⟨⟨hrep, hrb, ?_, fun a ha => ?_, fun a ha => h.equal a ((hmem a).mp ha).1,
    fun a ha z hz => ?_, fun a ha a' ha' => h.apart a ((hmem a).mp ha).1 a' ((hmem a').mp ha').1⟩,
    fun z => ⟨?_, ?_⟩⟩
  · have hsorted := h.sorted
    rw [hs, List.pairwise_append, List.pairwise_cons] at hsorted
    rw [hs', List.pairwise_append]
    exact ⟨hsorted.1, hsorted.2.1.2, fun a ha b hb => hsorted.2.2 a ha b (mem_cons_of_mem x hb)⟩
  · exact ring_keep (h.ring a ((hmem a).mp ha).1) (fun z _ => hkeeps.next z) fun z _ => hkeeps.prev z
  · have hin := ((hmem a).mp ha).1
    rw [hkeeps.outside z (h.not_mem hin hz)]
    exact h.detached a hin z hz
  · rintro ⟨a, ha, hz⟩
    obtain ⟨hin, hax⟩ := (hmem a).mp ha
    refine ⟨?_, a, hin, hz⟩
    rintro rfl
    exact hax (h.apart a hin z hx z hz mem_cons_self)
  · rintro ⟨hzx, a, ha, hz⟩
    refine ⟨a, (hmem a).mpr ⟨ha, ?_⟩, hz⟩
    rintro rfl
    rw [hdup] at hz
    exact hzx (List.mem_singleton.mp hz)

theorem WellFormed.listEmpty_iff (h : WellFormed cmp key t s dup) {x : ι} (hx : x ∈ s.inorder) :
    t.listEmpty x = true ↔ dup x = [] := by
  have hring := h.ring x hx
  have hnext := ring_next hring
  cases hdup : dup x with
  | nil =>
    simp only [hdup, List.nil_append, List.head_cons] at hnext
    simp [Tree.listEmpty, hnext]
  | cons y ys =>
    simp only [hdup, List.cons_append, List.head_cons] at hnext
    have hyx : y ≠ x := by
      rintro rfl
      rw [hdup] at hring
      exact (nodup_cons.mp hring.nodup).1 mem_cons_self
    simp [Tree.listEmpty, hnext, hyx]

theorem WellFormed.listEmpty_member (h : WellFormed cmp key t s dup) {b x : ι} (hb : b ∈ s.inorder)
    (hx : x ∈ dup b) : t.listEmpty x = false := by
  have hring := h.ring b hb
  obtain ⟨as, bs, hdup⟩ := List.append_of_mem hx
  have hnext : (t.node x).next ≠ x := by
    rw [hdup] at hring
    have hlinked := hring.linked
    obtain ⟨c, vs, hc⟩ := List.exists_cons_of_ne_nil (List.concat_ne_nil b bs)
    have hsplit : b :: (as ++ x :: bs ++ [b]) = (b :: as) ++ x :: c :: vs := by
      simp [← hc]
    rw [hsplit, List.isChain_append_cons_cons] at hlinked
    have hxc : (t.node x).next = c := hlinked.2.1.1
    rw [hxc]
    rintro rfl
    have hmem : c ∈ bs ++ [b] := by
      rw [hc]
      exact mem_cons_self
    have hperm : (b :: (as ++ c :: bs)).Perm (c :: b :: (as ++ bs)) := by
      have hmiddle : (as ++ c :: bs).Perm (c :: (as ++ bs)) := List.perm_middle
      exact (hmiddle.cons b).trans (List.Perm.swap c b _)
    have hout := (nodup_cons.mp (hperm.nodup_iff.mp hring.nodup)).1
    simp only [mem_append, mem_cons, List.not_mem_nil, or_false] at hmem hout
    tauto
  simp [Tree.listEmpty, hnext]

/-- A removal returns and keeps the tree well-formed. -/
theorem WellFormed.remove (h : WellFormed cmp key t s dup) (hcmp : StrictCmp cmp) {x : ι}
    (hx : Stored s dup x) : ∃ t' s' dup', Returns (fun n => ocfRbTreeRemove n t x) t' ∧
      WellFormed cmp key t' s' dup' ∧ ∀ z, Stored s' dup' z ↔ z ≠ x ∧ Stored s dup z := by
  obtain ⟨b, hb, hxb⟩ := hx
  have hring := h.ring b hb
  rcases mem_cons.mp hxb with rfl | hin
  · have hnext := ring_next hring
    cases hdup : dup x with
    | nil =>
      have halone : t.listEmpty x = true := (h.listEmpty_iff hb).mpr hdup
      obtain ⟨t', s', as, bs, hrun, hrep, hrb, hs, hs', hkeeps⟩ :=
        removeLoop_spec h.represents h.isRb hb
      obtain ⟨hwf, hstored⟩ := h.removeNode hb hdup hrep hrb hs hs' hkeeps
      refine ⟨t', s', dup, hrun.returns.congr fun n hn => ?_, hwf, hstored⟩
      simp only [ocfRbTreeRemove, halone, Bool.true_eq_false, if_false]
      exact hn
    | cons y rest =>
      simp only [hdup, List.cons_append, List.head_cons] at hnext
      have hlist : t.listEmpty x = false := by
        rw [← Bool.not_eq_true, h.listEmpty_iff hb, hdup]
        exact List.cons_ne_nil y rest
      have hhead : ¬ ((t.node x).parent = none ∧ t.root ≠ some x) := by
        rintro ⟨hnone, hroot⟩
        exact hroot (h.represents.linked.2 x hb hnone)
      obtain ⟨hwf, hstored⟩ := h.removeHead hcmp hb hdup
      refine ⟨_, _, _, (Returns.const _).congr fun n hn => ?_, hwf, hstored⟩
      simp only [ocfRbTreeRemove, hlist, if_true, hhead, if_false, hnext]
  · obtain ⟨as, bs, hdup⟩ := List.append_of_mem hin
    have hlist := h.listEmpty_member hb hin
    have hroot : t.root ≠ some x := by
      intro heq
      exact h.not_mem hb hin (root_mem (h.represents.root.symm.trans heq))
    obtain ⟨hwf, hstored⟩ := h.removeMember hb hdup
    refine ⟨_, _, _, (Returns.const _).congr fun n hn => ?_, hwf, hstored⟩
    have hparent := (h.detached b hb x hin).2.2
    simp only [ocfRbTreeRemove, hlist, hparent, hroot, ne_eq, not_false_eq_true, and_self, if_true]

end Remove

section Find

variable [DecidableEq ι]

/-- A callback for lists of equal nodes: it returns a node of the list, the head
included. -/
def Picks (find : Tree ι → ι → Option ι) : Prop :=
  ∀ (u : Tree ι) (x : ι) (ys : List ι), u.Ring x ys → ∃ y ∈ x :: ys, find u x = some y

omit [DecidableEq ι] in
/-- `ocf_rb_tree_list_find_first` is such a callback. -/
theorem picks_listFindFirst : Picks (ocfRbTreeListFindFirst : Tree ι → ι → Option ι) :=
  fun _ x _ _ => ⟨x, mem_cons_self, rfl⟩

/-- A search returns, it finds a node exactly if a stored node compares equal to
the key, and the node that it finds is such a node. -/
theorem WellFormed.find (h : WellFormed cmp key t s dup) (hcmp : StrictCmp cmp)
    {find : Tree ι → ι → Option ι} (hfind : Picks find) (k : κ) :
    ∃ r, Returns (fun n => ocfRbTreeFind n find (fun b => cmp k (key b)) t) r ∧
      (r ≠ none ↔ ∃ z, Stored s dup z ∧ cmp k (key z) = 0) ∧
      ∀ y, r = some y → Stored s dup y ∧ cmp k (key y) = 0 := by
  have hcut : Cut (fun a b => cmp (key a) (key b) < 0) fun b => cmp k (key b) := hcmp.cut key k
  have hrun := findFrom_returns (fun b => cmp k (key b)) [] h.represents.rep
  rw [← h.represents.root] at hrun
  have hlist : ∀ a ∈ s.inorder, ∀ z ∈ a :: dup a, cmp (key z) (key a) = 0 := by
    intro a ha z hz
    rcases mem_cons.mp hz with rfl | hz
    · exact hcmp.refl _
    · exact h.equal a ha z hz
  cases hplace : (zoom (fun b => cmp k (key b)) s []).1 with
  | leaf =>
    obtain ⟨fs, hs, -, -, hbefore, hafter⟩ := zoom_leaf hcut h.sorted hplace
    refine ⟨none, ?_, ?_, fun y hy => by simp at hy⟩
    · rw [hplace] at hrun
      obtain ⟨bound, hbound⟩ := hrun
      refine ⟨bound, fun n hn => ?_⟩
      have hfrom : findFrom t (fun b => cmp k (key b)) n t.root = some none := hbound n hn
      simp only [ocfRbTreeFind, hfrom, Option.map_some]
    · refine ⟨fun hcontra => absurd rfl hcontra, ?_⟩
      rintro ⟨z, ⟨a, ha, hz⟩, hkz⟩
      have hza := hlist a ha z hz
      have hka := hcmp.trans k (key z) (key a) hkz.le hza.le
      have hak := hcmp.trans (key a) (key z) k (hcmp.symm hza).le (hcmp.symm hkz).le
      have hge := (hcmp.le_iff (key a) k).mp hak
      rw [hs, inorder_plug, inorder_leaf, List.nil_append, mem_append] at ha
      rcases ha with ha | ha
      · have hpos := hbefore a ha
        omega
      · have hneg := hafter a ha
        omega
  | node c l x r =>
    have hxroot : (zoom (fun b => cmp k (key b)) s []).1.root = some x := by
      rw [hplace]
      rfl
    have hkx : cmp k (key x) = 0 := @cmp_zoom ι (fun b => cmp k (key b)) s [] x hxroot
    have hx : x ∈ s.inorder := by
      have hplug := plug_zoom (fun b => cmp k (key b)) s []
      rw [plug_nil] at hplug
      rw [← hplug, mem_inorder_plug]
      exact Or.inl (root_mem hxroot)
    obtain ⟨y, hy, hpick⟩ : ∃ y ∈ x :: dup x,
        (if t.listEmpty x then some x else find t x) = some y := by
      split
      · exact ⟨x, mem_cons_self, rfl⟩
      · exact hfind t x (dup x) (h.ring x hx)
    have hky : cmp k (key y) = 0 := by
      have hyx := hlist x hx y hy
      have hle := hcmp.trans k (key x) (key y) hkx.le (hcmp.symm hyx).le
      have hge := hcmp.trans (key y) (key x) k hyx.le (hcmp.symm hkx).le
      have hpos := (hcmp.le_iff (key y) k).mp hge
      omega
    refine ⟨some y, ?_, ?_, ?_⟩
    · rw [hplace] at hrun
      obtain ⟨bound, hbound⟩ := hrun
      refine ⟨bound, fun n hn => ?_⟩
      have hfrom : findFrom t (fun b => cmp k (key b)) n t.root = some (some x) := hbound n hn
      simp only [ocfRbTreeFind, hfrom, Option.map_some]
      rw [hpick]
    · exact ⟨fun _ => ⟨y, ⟨x, hx, hy⟩, hky⟩, fun _ => by simp⟩
    · rintro z hz
      have hyz : y = z := Option.some.inj hz
      rw [← hyz]
      exact ⟨⟨x, hx, hy⟩, hky⟩

end Find

section Runs

variable [DecidableEq ι]

/-- Runs from an empty tree: nodes that are not in the tree are inserted with
any key, and nodes that are in the tree are removed. The last argument is what
was inserted and not removed. -/
inductive Runs (cmp : κ → κ → Int) : Tree ι → (ι → κ) → Set ι → Prop
  /-- Only the root matters of an empty tree. -/
  | empty {t : Tree ι} {key : ι → κ} (hroot : t.root = none) : Runs cmp t key ∅
  /-- A node is inserted; its key may be a new one. -/
  | insert {t t' : Tree ι} {key : ι → κ} {S : Set ι} {x : ι} {k : κ} (hrun : Runs cmp t key S)
    (hx : x ∉ S)
    (hstep : Returns (fun n => ocfRbTreeInsert n
      (fun a b => cmp (update key x k a) (update key x k b)) t x) t') :
    Runs cmp t' (update key x k) (insert x S)
  /-- A node is removed. -/
  | remove {t t' : Tree ι} {key : ι → κ} {S : Set ι} {x : ι} (hrun : Runs cmp t key S) (hx : x ∈ S)
    (hstep : Returns (fun n => ocfRbTreeRemove n t x) t') : Runs cmp t' key (S \ {x})

omit [DecidableEq ι] in
theorem wellFormed_empty (hroot : t.root = none) : WellFormed cmp key t leaf fun _ => [] := by
  refine ⟨⟨hroot, trivial, List.nodup_nil⟩, ⟨rfl, 0, rfl⟩, List.Pairwise.nil, ?_, ?_, ?_, ?_⟩ <;>
    exact fun a ha => absurd ha List.not_mem_nil

theorem WellFormed.insertKey (h : WellFormed cmp key t s dup) (hcmp : StrictCmp cmp) {x : ι}
    (hx : ¬ Stored s dup x) (k : κ) : ∃ t' s' dup', Returns (fun n => ocfRbTreeInsert n
        (fun a b => cmp (update key x k a) (update key x k b)) t x) t' ∧
      WellFormed cmp (update key x k) t' s' dup' ∧
      ∀ z, Stored s' dup' z ↔ z = x ∨ Stored s dup z := by
  have hwf : WellFormed cmp (update key x k) t s dup :=
    h.congr_key fun z hz => update_of_ne (hz.ne hx) ..
  exact hwf.insert hcmp hx

/-- Runs reach well-formed trees that store what was inserted and not removed. -/
theorem wellFormed_of_runs (hcmp : StrictCmp cmp) {S : Set ι} (hrun : Runs cmp t key S) :
    ∃ s dup, WellFormed cmp key t s dup ∧ ∀ z, Stored s dup z ↔ z ∈ S := by
  induction hrun with
  | empty hroot =>
    refine ⟨leaf, fun _ => [], wellFormed_empty hroot, fun z => ⟨?_, fun hz => absurd hz id⟩⟩
    rintro ⟨a, ha, -⟩
    exact absurd ha List.not_mem_nil
  | @insert t t' key S x k hrun hx hstep ih =>
    obtain ⟨s, dup, hwf, hstored⟩ := ih
    obtain ⟨u, s', dup', hreturns, hwf', hstored'⟩ :=
      hwf.insertKey hcmp (fun hin => hx ((hstored x).mp hin)) k
    obtain rfl := hreturns.unique hstep
    refine ⟨s', dup', hwf', fun z => ?_⟩
    rw [hstored', hstored, Set.mem_insert_iff]
  | @remove t t' key S x hrun hx hstep ih =>
    obtain ⟨s, dup, hwf, hstored⟩ := ih
    obtain ⟨u, s', dup', hreturns, hwf', hstored'⟩ := hwf.remove hcmp ((hstored x).mpr hx)
    obtain rfl := hreturns.unique hstep
    refine ⟨s', dup', hwf', fun z => ?_⟩
    rw [hstored', hstored, Set.mem_sdiff, Set.mem_singleton_iff]
    exact and_comm

/-- The red-black tree over whole runs: it stays well-formed and stores exactly
what was inserted and not removed, the next insertion, removal and search
return, and a search returns a node exactly if a stored node compares equal to
the key, and then such a node. -/
theorem rbTree_correct (hcmp : StrictCmp cmp) {find : Tree ι → ι → Option ι} (hfind : Picks find)
    {S : Set ι} (hrun : Runs cmp t key S) :
    (∃ s dup, WellFormed cmp key t s dup ∧ ∀ z, Stored s dup z ↔ z ∈ S) ∧
      (∀ x ∉ S, ∀ k, ∃ t', Returns (fun n => ocfRbTreeInsert n
        (fun a b => cmp (update key x k a) (update key x k b)) t x) t') ∧
      (∀ x ∈ S, ∃ t', Returns (fun n => ocfRbTreeRemove n t x) t') ∧
      ∀ k, ∃ r, Returns (fun n => ocfRbTreeFind n find (fun b => cmp k (key b)) t) r ∧
        (r ≠ none ↔ ∃ z ∈ S, cmp k (key z) = 0) ∧ ∀ y, r = some y → y ∈ S ∧ cmp k (key y) = 0 := by
  obtain ⟨s, dup, hwf, hstored⟩ := wellFormed_of_runs hcmp hrun
  refine ⟨⟨s, dup, hwf, hstored⟩, fun x hx k => ?_, fun x hx => ?_, fun k => ?_⟩
  · obtain ⟨t', -, -, hreturns, -⟩ := hwf.insertKey hcmp (fun hin => hx ((hstored x).mp hin)) k
    exact ⟨t', hreturns⟩
  · obtain ⟨t', -, -, hreturns, -⟩ := hwf.remove hcmp ((hstored x).mpr hx)
    exact ⟨t', hreturns⟩
  · obtain ⟨r, hreturns, hiff, hfound⟩ := hwf.find hcmp hfind k
    simp only [hstored] at hiff hfound
    exact ⟨r, hreturns, hiff, hfound⟩

theorem strictCmp_sub : StrictCmp fun a b : Int => a - b :=
  ⟨fun a b => by omega, fun a b c hab hbc => by omega⟩

/-- After two nodes with the key 5 were inserted and the first one was removed,
the second one is found. -/
theorem rbTree_correct_equalKeys : ∃ (t : Tree Nat) (key : Nat → Int),
    Runs (fun a b : Int => a - b) t key (insert 1 (insert 0 ∅) \ {0}) ∧
      ∀ k, ∃ r, Returns (fun n => ocfRbTreeFind n ocfRbTreeListFindFirst (fun b => k - key b) t) r ∧
        (r ≠ none ↔ ∃ z ∈ (insert 1 (insert 0 ∅) \ {0} : Set Nat), k - key z = 0) ∧
        ∀ y, r = some y → y ∈ (insert 1 (insert 0 ∅) \ {0} : Set Nat) ∧ k - key y = 0 := by
  have hempty : Runs (fun a b : Int => a - b)
      (⟨none, fun _ => ⟨false, none, none, none, 0, 0⟩⟩ : Tree Nat) (fun _ => 0) ∅ := Runs.empty rfl
  have hfirst := Runs.insert (x := 0) (k := 5) hempty id ((Returns.const _).congr fun n _ =>
    ocfRbTreeInsert_none rfl n)
  have hsecond := Runs.insert (x := 1) (k := 5) hfirst (by simp)
    ⟨1, fun n hn => by
      obtain ⟨m, rfl⟩ : ∃ m, n = m + 1 := ⟨n - 1, by omega⟩
      rfl⟩
  have hthird := Runs.remove (x := 0) hsecond (by simp) ⟨0, fun n _ => rfl⟩
  exact ⟨_, _, hthird, (rbTree_correct strictCmp_sub picks_listFindFirst hthird).2.2.2⟩

end Runs

end OcfCache.RbTree
