import OcfCache.RbInsert
import OcfCache.RingLists

/-!
# Well-formed red-black trees

A tree and its lists are well-formed if the tree is a red-black tree whose keys
increase, and if every node of the tree is the head of a ring of nodes without
links that compare equal to it. An insertion returns and keeps this.
-/

namespace OcfCache.RbTree

open Function RbShapes RbShapes.Shape FuelLoops RingLists
open List (mem_append mem_cons mem_cons_of_mem mem_cons_self mem_singleton not_mem_nil)

section Order

variable {κ : Type*} {cmp : κ → κ → Int}

/-- A comparison function: it tells which of two keys is smaller, and keys that
are not smaller than each other are alike. -/
structure StrictCmp (cmp : κ → κ → Int) : Prop where
  /-- The result for exchanged arguments has the opposite sign. -/
  swap : ∀ a b, cmp a b < 0 ↔ 0 < cmp b a
  /-- Keys are in one order. -/
  trans : ∀ a b c, cmp a b ≤ 0 → cmp b c ≤ 0 → cmp a c ≤ 0

section

variable (h : StrictCmp cmp)
include h

theorem StrictCmp.le_iff (a b : κ) : cmp a b ≤ 0 ↔ 0 ≤ cmp b a := by
  have hswap := h.swap b a
  constructor
  · intro hab
    by_contra hneg
    have hpos := hswap.mp (by omega)
    omega
  · intro hba
    by_contra hpos
    have hneg := hswap.mpr (by omega)
    omega

theorem StrictCmp.symm {a b : κ} (hab : cmp a b = 0) : cmp b a = 0 := by
  have hle := (h.le_iff a b).mp (by omega)
  have hge := (h.le_iff b a).mpr (by omega)
  omega

theorem StrictCmp.refl (a : κ) : cmp a a = 0 := by
  have hswap := h.swap a a
  omega

theorem StrictCmp.lt_of_lt_of_le {a b c : κ} (hab : cmp a b < 0)
    (hbc : cmp b c ≤ 0) : cmp a c < 0 := by
  have hac := h.trans a b c (by omega) hbc
  by_contra hnot
  have hca := h.symm (show cmp a c = 0 by omega)
  have hba := h.trans b c a hbc (by omega)
  have hpos := (h.swap a b).mp hab
  omega

theorem StrictCmp.lt_of_le_of_lt {a b c : κ} (hab : cmp a b ≤ 0)
    (hbc : cmp b c < 0) : cmp a c < 0 := by
  have hac := h.trans a b c hab (by omega)
  by_contra hnot
  have hca := h.symm (show cmp a c = 0 by omega)
  have hcb := h.trans c a b (by omega) hab
  have hpos := (h.swap b c).mp hbc
  omega

theorem StrictCmp.cut {ι : Type*} (key : ι → κ) (k : κ) :
    Cut (fun a b => cmp (key a) (key b) < 0) fun b => cmp k (key b) := by
  constructor
  · intro a b hab hb
    have hba := (h.le_iff (key b) k).mpr hb
    exact (h.swap (key a) k).mp (h.lt_of_lt_of_le hab hba)
  · intro a b hab ha
    exact h.lt_of_le_of_lt ha hab

end

end Order

variable {ι κ : Type*}

/-- The links of the lists of equal nodes. -/
def Tree.Ring (t : Tree ι) : ι → List ι → Prop :=
  RingLists.Ring (fun z => (t.node z).next) fun z => (t.node z).prev

/-- A red-black tree with its lists: `s` is the shape of the tree, and `dup h`
are the nodes on the list of `h`. -/
structure WellFormed (cmp : κ → κ → Int) (key : ι → κ) (t : Tree ι) (s : Shape ι)
    (dup : ι → List ι) : Prop where
  /-- Child and parent pointers agree. -/
  represents : Represents t s
  /-- Colours are balanced. -/
  isRb : s.IsRb
  /-- Keys increase along the tree. -/
  sorted : s.inorder.Pairwise fun a b => cmp (key a) (key b) < 0
  /-- The nodes on the list of a node form a ring with it. -/
  ring : ∀ h ∈ s.inorder, t.Ring h (dup h)
  /-- They compare equal to it. -/
  equal : ∀ h ∈ s.inorder, ∀ y ∈ dup h, cmp (key y) (key h) = 0
  /-- They have no links in the tree. -/
  detached : ∀ h ∈ s.inorder, ∀ y ∈ dup h,
    (t.node y).left = none ∧ (t.node y).right = none ∧ (t.node y).parent = none
  /-- Every node has one place. -/
  apart : ∀ h ∈ s.inorder, ∀ h' ∈ s.inorder, ∀ z ∈ h :: dup h, z ∈ h' :: dup h' → h = h'

/-- The nodes of the tree and of its lists. -/
def Stored (s : Shape ι) (dup : ι → List ι) (z : ι) : Prop := ∃ h ∈ s.inorder, z ∈ h :: dup h

section Lemmas

variable {cmp : κ → κ → Int} {key key' : ι → κ} {t : Tree ι} {s : Shape ι} {dup : ι → List ι}

theorem WellFormed.not_mem (h : WellFormed cmp key t s dup) {x y : ι} (hx : x ∈ s.inorder)
    (hy : y ∈ dup x) : y ∉ s.inorder := by
  intro hin
  have hxy := h.apart x hx y hin y (mem_cons_of_mem x hy) mem_cons_self
  subst hxy
  exact (List.nodup_cons.mp (h.ring x hx).nodup).1 hy

theorem WellFormed.congr_key (h : WellFormed cmp key t s dup)
    (hkey : ∀ z, Stored s dup z → key' z = key z) : WellFormed cmp key' t s dup := by
  have hhead : ∀ a ∈ s.inorder, key' a = key a := fun a ha => hkey a ⟨a, ha, mem_cons_self⟩
  refine ⟨h.represents, h.isRb, ?_, h.ring, ?_, h.detached, h.apart⟩
  · refine h.sorted.imp_of_mem fun {a b} ha hb hab => ?_
    rw [hhead a ha, hhead b hb]
    exact hab
  · intro a ha y hy
    rw [hhead a ha, hkey y ⟨a, ha, mem_cons_of_mem a hy⟩]
    exact h.equal a ha y hy

variable {ys : List ι}

theorem ring_next {x : ι} (hring : t.Ring x ys) :
    (t.node x).next = (ys ++ [x]).head (List.concat_ne_nil x ys) := by
  have hlinked := hring.linked
  cases ys with
  | nil =>
    rw [List.nil_append, List.isChain_cons_cons] at hlinked
    exact hlinked.1.1
  | cons y ys =>
    rw [List.cons_append, List.isChain_cons_cons] at hlinked
    exact hlinked.1.1

theorem ring_prev_mem {x y : ι} (hring : t.Ring x ys) (hy : y ∈ x :: ys) :
    (t.node y).next ∈ x :: ys ∧ (t.node y).prev ∈ x :: ys := by
  have hlinked := hring.linked
  have hmem : ∀ z ∈ ys ++ [x], z ∈ x :: ys := by
    intro z hz
    simp only [mem_append, mem_cons, not_mem_nil, or_false] at hz ⊢
    tauto
  constructor
  · obtain ⟨us, vs, hsplit⟩ := List.append_of_mem hy
    obtain ⟨b, ws, hb⟩ := List.exists_cons_of_ne_nil (List.concat_ne_nil x vs)
    have hlist : x :: (ys ++ [x]) = us ++ y :: b :: ws := by
      rw [← List.cons_append, hsplit, List.append_assoc, List.cons_append, hb]
    rw [hlist, List.isChain_append_cons_cons] at hlinked
    rw [hlinked.2.1.1]
    have hin : b ∈ vs ++ [x] := by
      rw [hb]
      exact mem_cons_self
    rcases mem_append.mp hin with hin | hin
    · rw [hsplit]
      simp [hin]
    · rw [mem_singleton.mp hin]
      exact mem_cons_self
  · have hyin : y ∈ ys ++ [x] := by
      simp only [mem_append, mem_cons, not_mem_nil, or_false] at hy ⊢
      tauto
    obtain ⟨us, vs, hsplit⟩ := List.append_of_mem hyin
    obtain ⟨ws, a, ha⟩ := List.eq_nil_or_concat' (x :: us) |>.resolve_left (List.cons_ne_nil x us)
    have hlist : x :: (ys ++ [x]) = ws ++ a :: y :: vs := by
      rw [hsplit, ← List.cons_append, ha, List.append_assoc]
      rfl
    rw [hlist, List.isChain_append_cons_cons] at hlinked
    rw [hlinked.2.1.2]
    have hin : a ∈ x :: us := by
      rw [ha]
      exact List.mem_append_right _ (List.mem_singleton_self a)
    rcases mem_cons.mp hin with rfl | hin
    · exact mem_cons_self
    · refine hmem a ?_
      rw [hsplit]
      exact List.mem_append_left _ hin

theorem Stored.ne {x z : ι} (hz : Stored s dup z) (hx : ¬ Stored s dup x) : z ≠ x :=
  fun heq => hx (heq ▸ hz)

theorem ring_keep {t' : Tree ι} {x : ι} (hring : t.Ring x ys)
    (hn : ∀ z ∈ x :: ys, (t'.node z).next = (t.node z).next)
    (hp : ∀ z ∈ x :: ys, (t'.node z).prev = (t.node z).prev) : t'.Ring x ys :=
  hring.congr hn hp

variable [DecidableEq ι]

variable {f : Node ι → Node ι}

theorem modify_next (t : Tree ι) (x v : ι) (hf : (f (t.node x)).next = v) :
    (fun z => ((t.modify x f).node z).next) = update (fun z => (t.node z).next) x v := by
  funext z
  by_cases hz : z = x
  · subst hz
    simp [Tree.modify, hf]
  · simp [Tree.modify, update_of_ne hz]

theorem modify_prev (t : Tree ι) (x v : ι) (hf : (f (t.node x)).prev = v) :
    (fun z => ((t.modify x f).node z).prev) = update (fun z => (t.node z).prev) x v := by
  funext z
  by_cases hz : z = x
  · subst hz
    simp [Tree.modify, hf]
  · simp [Tree.modify, update_of_ne hz]

theorem modify_sameLinks (t : Tree ι) (x z : ι) (hf : ∀ n, SameLinks (f n) n) :
    SameLinks ((t.modify x f).node z) (t.node z) := by
  by_cases hz : z = x
  · subst hz
    have hself : (t.modify z f).node z = f (t.node z) := by simp [Tree.modify]
    rw [hself]
    exact hf (t.node z)
  · exact SameLinks.of_eq (update_of_ne hz ..)

omit [DecidableEq ι] in
theorem SameLinks.trans {l m n : Node ι} (h : SameLinks l m) (h' : SameLinks m n) : SameLinks l n :=
  ⟨h.red.trans h'.red, h.left.trans h'.left, h.right.trans h'.right, h.parent.trans h'.parent⟩

theorem listAddTail_links (t : Tree ι) (x head : ι) :
    (∀ z, SameLinks ((t.listAddTail x head).node z) (t.node z)) ∧
      (fun z => ((t.listAddTail x head).node z).next) =
        update (update (fun z => (t.node z).next) x head) (t.node head).prev x ∧
      (fun z => ((t.listAddTail x head).node z).prev) =
        update (update (fun z => (t.node z).prev) x (t.node head).prev) head x := by
  obtain ⟨t₁, ht₁⟩ : ∃ u, u = t.modify x fun n => { n with prev := (t.node head).prev, next := head } :=
    ⟨_, rfl⟩
  obtain ⟨t₂, ht₂⟩ : ∃ u, u = t₁.modify (t.node head).prev fun n => { n with next := x } := ⟨_, rfl⟩
  obtain ⟨t₃, ht₃⟩ : ∃ u, u = t₂.modify head fun n => { n with prev := x } := ⟨_, rfl⟩
  have hrun : t.listAddTail x head = t₃ := by
    rw [ht₃, ht₂, ht₁]
    rfl
  rw [hrun]
  refine ⟨fun z => ?_, ?_, ?_⟩
  · have hsame₁ : SameLinks (t₁.node z) (t.node z) := by
      rw [ht₁]
      exact modify_sameLinks t x z fun n => ⟨rfl, rfl, rfl, rfl⟩
    have hsame₂ : SameLinks (t₂.node z) (t₁.node z) := by
      rw [ht₂]
      exact modify_sameLinks t₁ _ z fun n => ⟨rfl, rfl, rfl, rfl⟩
    have hsame₃ : SameLinks (t₃.node z) (t₂.node z) := by
      rw [ht₃]
      exact modify_sameLinks t₂ head z fun n => ⟨rfl, rfl, rfl, rfl⟩
    exact hsame₃.trans (hsame₂.trans hsame₁)
  · rw [ht₃, modify_next t₂ head (t₂.node head).next rfl, update_eq_self, ht₂,
      modify_next t₁ _ x rfl, ht₁, modify_next t x head rfl]
  · rw [ht₃, modify_prev t₂ head x rfl, ht₂, modify_prev t₁ _ (t₁.node (t.node head).prev).prev rfl,
      update_eq_self, ht₁, modify_prev t x (t.node head).prev rfl]

theorem listDel_links (t : Tree ι) (x : ι) : (∀ z, SameLinks ((t.listDel x).node z) (t.node z)) ∧
      (fun z => ((t.listDel x).node z).next) =
        update (fun z => (t.node z).next) (t.node x).prev (t.node x).next ∧
      (fun z => ((t.listDel x).node z).prev) =
        update (fun z => (t.node z).prev) (t.node x).next (t.node x).prev := by
  obtain ⟨t₁, ht₁⟩ : ∃ u, u = t.modify (t.node x).next fun n => { n with prev := (t.node x).prev } :=
    ⟨_, rfl⟩
  obtain ⟨t₂, ht₂⟩ : ∃ u, u = t₁.modify (t.node x).prev fun n => { n with next := (t.node x).next } :=
    ⟨_, rfl⟩
  have hx : t₁.node x = t.node x := by
    rw [ht₁]
    by_cases hnext : x = (t.node x).next
    · rw [← hnext]
      simp [Tree.modify]
    · exact update_of_ne hnext ..
  have hrun : t.listDel x = t₂ := by
    rw [ht₂]
    simp only [Tree.listDel]
    rw [← ht₁, hx]
  rw [hrun]
  refine ⟨fun z => ?_, ?_, ?_⟩
  · have hsame₁ : SameLinks (t₁.node z) (t.node z) := by
      rw [ht₁]
      exact modify_sameLinks t _ z fun n => ⟨rfl, rfl, rfl, rfl⟩
    have hsame₂ : SameLinks (t₂.node z) (t₁.node z) := by
      rw [ht₂]
      exact modify_sameLinks t₁ _ z fun n => ⟨rfl, rfl, rfl, rfl⟩
    exact hsame₂.trans hsame₁
  · rw [ht₂, modify_next t₁ _ (t.node x).next rfl, ht₁,
      modify_next t _ (t.node (t.node x).next).next rfl, update_eq_self]
  · rw [ht₂, modify_prev t₁ _ (t₁.node (t.node x).prev).prev rfl, update_eq_self, ht₁,
      modify_prev t _ (t.node x).prev rfl]

/-- A second entry of a key goes on its list. -/
theorem WellFormed.insertList (h : WellFormed cmp key t s dup) {x y : ι} (hx : ¬ Stored s dup x)
    (hy : y ∈ s.inorder) (heq : cmp (key x) (key y) = 0) :
    WellFormed cmp key ((t.fresh x).listAddTail x y) s (update dup y (dup y ++ [x])) ∧
      ∀ z, Stored s (update dup y (dup y ++ [x])) z ↔ z = x ∨ Stored s dup z := by
  have hstored : ∀ a ∈ s.inorder, ∀ z ∈ a :: dup a, Stored s dup z := fun a ha z hz => ⟨a, ha, hz⟩
  have hother : ∀ z, Stored s dup z → (t.fresh x).node z = t.node z := fun z hz =>
    fresh_node_of_ne (hz.ne hx)
  have hyx : y ≠ x := (hstored y hy y mem_cons_self).ne hx
  have hxy : x ∉ y :: dup y := fun hin => hx ⟨y, hy, hin⟩
  have hxs : x ∉ s.inorder := fun hin => hx ⟨x, hin, mem_cons_self⟩
  obtain ⟨hsame, hnext, hprev⟩ := listAddTail_links (t.fresh x) x y
  have hself : update dup y (dup y ++ [x]) y = dup y ++ [x] := update_self ..
  have hne : ∀ a, a ≠ y → update dup y (dup y ++ [x]) a = dup a := fun a ha =>
    update_of_ne ha ..
  have hfreshRing : ∀ a ∈ s.inorder, (t.fresh x).Ring a (dup a) := fun a ha =>
    ring_keep (h.ring a ha) (fun z hz => by rw [hother z (hstored a ha z hz)])
      fun z hz => by rw [hother z (hstored a ha z hz)]
  have hlast : ((t.fresh x).node y).prev ∈ y :: dup y :=
    (ring_prev_mem (hfreshRing y hy) mem_cons_self).2
  refine ⟨⟨?_, h.isRb, h.sorted, fun a ha => ?_, fun a ha z hz => ?_, fun a ha z hz => ?_, ?_⟩, ?_⟩
  · exact (h.represents.fresh hxs).congr rfl fun z _ => hsame z
  · by_cases hay : a = y
    · subst hay
      have hring : (t.fresh x).Ring a (dup a ++ []) := by
        rw [List.append_nil]
        exact hfreshRing a ha
      have hlast : ([] : List ι) ++ [a] = a :: [] := rfl
      have hnew := hring.insertBefore hlast (by simpa using hxy)
      rw [hself]
      have hgoal : RingLists.Ring (fun z => (((t.fresh x).listAddTail x a).node z).next)
          (fun z => (((t.fresh x).listAddTail x a).node z).prev) a (dup a ++ [x]) := by
        rw [hnext, hprev]
        exact hnew
      exact hgoal
    · rw [hne a hay]
      have hapart : ∀ z ∈ a :: dup a, z ∉ y :: dup y := fun z hz hzy => hay (h.apart a ha y hy z hz hzy)
      refine ring_keep (hfreshRing a ha) (fun z hz => ?_) fun z hz => ?_
      · have hzlast : z ≠ ((t.fresh x).node y).prev := fun heq => hapart z hz (heq ▸ hlast)
        have hzx := (hstored a ha z hz).ne hx
        have hz' := congrFun hnext z
        rw [update_of_ne hzlast, update_of_ne hzx] at hz'
        exact hz'
      · have hzy : z ≠ y := fun heq => hapart z hz (heq ▸ mem_cons_self)
        have hzx := (hstored a ha z hz).ne hx
        have hz' := congrFun hprev z
        rw [update_of_ne hzy, update_of_ne hzx] at hz'
        exact hz'
  · by_cases hay : a = y
    · subst hay
      rw [hself, mem_append, mem_singleton] at hz
      rcases hz with hz | rfl
      · exact h.equal a ha z hz
      · exact heq
    · rw [hne a hay] at hz
      exact h.equal a ha z hz
  · have hlinks := hsame z
    have hcases : z = x ∨ z ∈ dup a := by
      by_cases hay : a = y
      · subst hay
        rw [hself, mem_append, mem_singleton] at hz
        exact hz.symm
      · rw [hne a hay] at hz
        exact Or.inr hz
    rw [hlinks.left, hlinks.right, hlinks.parent]
    rcases hcases with rfl | hz
    · rw [fresh_node_self]
      exact ⟨rfl, rfl, rfl⟩
    · rw [hother z ⟨a, ha, mem_cons_of_mem a hz⟩]
      exact h.detached a ha z hz
  · have hplace : ∀ a ∈ s.inorder, ∀ z ∈ a :: update dup y (dup y ++ [x]) a,
        z ∈ a :: dup a ∨ z = x ∧ a = y := by
      intro a ha z hz
      by_cases hay : a = y
      · subst hay
        rw [hself] at hz
        simp only [mem_cons, mem_append, not_mem_nil, or_false] at hz ⊢
        tauto
      · rw [hne a hay] at hz
        exact Or.inl hz
    intro a ha b hb z hza hzb
    rcases hplace a ha z hza with hina | ⟨hzx, hay⟩
    · rcases hplace b hb z hzb with hinb | ⟨hzx, -⟩
      · exact h.apart a ha b hb z hina hinb
      · exact absurd (hzx ▸ ⟨a, ha, hina⟩) hx
    · rcases hplace b hb z hzb with hinb | ⟨-, hby⟩
      · exact absurd (hzx ▸ ⟨b, hb, hinb⟩) hx
      · exact hay.trans hby.symm
  · intro z
    constructor
    · rintro ⟨a, ha, hz⟩
      by_cases hay : a = y
      · subst hay
        rw [hself] at hz
        simp only [mem_cons, mem_append, not_mem_nil, or_false] at hz
        rcases hz with rfl | hz | rfl
        · exact Or.inr ⟨z, ha, mem_cons_self⟩
        · exact Or.inr ⟨a, ha, mem_cons_of_mem a hz⟩
        · exact Or.inl rfl
      · rw [hne a hay] at hz
        exact Or.inr ⟨a, ha, hz⟩
    · rintro (rfl | ⟨a, ha, hz⟩)
      · exact ⟨y, hy, by rw [hself]; simp⟩
      · refine ⟨a, ha, ?_⟩
        by_cases hay : a = y
        · subst hay
          rw [hself]
          simp only [mem_cons, mem_append] at hz ⊢
          tauto
        · rw [hne a hay]
          exact hz

/-- The first entry of a key becomes a node. -/
theorem WellFormed.insertNode (h : WellFormed cmp key t s dup) (hcmp : StrictCmp cmp) {x : ι}
    (hx : ¬ Stored s dup x) {t' : Tree ι} {s' : Shape ι} {as bs : List ι} (hrep : Represents t' s')
    (hrb : s'.IsRb) (hs : s.inorder = as ++ bs) (hs' : s'.inorder = as ++ x :: bs)
    (has : ∀ z ∈ as, 0 < cmp (key x) (key z)) (hbs : ∀ z ∈ bs, cmp (key x) (key z) < 0)
    (hkeeps : Keeps (x :: s.inorder) (t.fresh x) t') : WellFormed cmp key t' s' (update dup x []) ∧
      ∀ z, Stored s' (update dup x []) z ↔ z = x ∨ Stored s dup z := by
  have hstored : ∀ a ∈ s.inorder, ∀ z ∈ a :: dup a, Stored s dup z := fun a ha z hz => ⟨a, ha, hz⟩
  have hself : update dup x [] x = [] := update_self ..
  have hne : ∀ a ∈ s.inorder, update dup x [] a = dup a := fun a ha =>
    update_of_ne ((hstored a ha a mem_cons_self).ne hx) ..
  have hmem : ∀ a, a ∈ s'.inorder ↔ a = x ∨ a ∈ s.inorder := by
    rw [hs', hs]
    simp only [mem_append, mem_cons]
    tauto
  have hother : ∀ z, Stored s dup z → (t.fresh x).node z = t.node z := fun z hz =>
    fresh_node_of_ne (hz.ne hx)
  refine ⟨⟨hrep, hrb, ?_, fun a ha => ?_, fun a ha z hz => ?_, fun a ha z hz => ?_, ?_⟩, ?_⟩
  · have hsorted := h.sorted
    rw [hs, List.pairwise_append] at hsorted
    obtain ⟨hsa, hsb, hab⟩ := hsorted
    rw [hs', List.pairwise_append, List.pairwise_cons]
    refine ⟨hsa, ⟨fun z hz => hbs z hz, hsb⟩, fun a ha b hb => ?_⟩
    rcases mem_cons.mp hb with rfl | hb
    · exact (hcmp.swap _ _).mpr (has a ha)
    · exact hab a ha b hb
  · rcases (hmem a).mp ha with rfl | hin
    · rw [hself]
      refine RingLists.Ring.empty ?_ ?_
      · rw [hkeeps.next, fresh_node_self]
      · rw [hkeeps.prev, fresh_node_self]
    · rw [hne a hin]
      refine ring_keep (h.ring a hin) (fun z hz => ?_) fun z hz => ?_
      · rw [hkeeps.next, hother z (hstored a hin z hz)]
      · rw [hkeeps.prev, hother z (hstored a hin z hz)]
  · rcases (hmem a).mp ha with rfl | hin
    · rw [hself] at hz
      exact absurd hz not_mem_nil
    · rw [hne a hin] at hz
      exact h.equal a hin z hz
  · rcases (hmem a).mp ha with rfl | hin
    · rw [hself] at hz
      exact absurd hz not_mem_nil
    · rw [hne a hin] at hz
      have hzStored := hstored a hin z (mem_cons_of_mem a hz)
      have hout : z ∉ x :: s.inorder := by
        rw [mem_cons, not_or]
        exact ⟨hzStored.ne hx, h.not_mem hin hz⟩
      rw [hkeeps.outside z hout, hother z hzStored]
      exact h.detached a hin z hz
  · have hplace : ∀ a ∈ s'.inorder, ∀ z ∈ a :: update dup x [] a,
        z = x ∧ a = x ∨ a ∈ s.inorder ∧ z ∈ a :: dup a := by
      intro a ha z hz
      rcases (hmem a).mp ha with rfl | hin
      · rw [hself] at hz
        exact Or.inl ⟨mem_singleton.mp hz, rfl⟩
      · rw [hne a hin] at hz
        exact Or.inr ⟨hin, hz⟩
    intro a ha b hb z hza hzb
    rcases hplace a ha z hza with ⟨hzx, hax⟩ | ⟨hain, hina⟩
    · rcases hplace b hb z hzb with ⟨-, hbx⟩ | ⟨hbin, hinb⟩
      · exact hax.trans hbx.symm
      · exact absurd (hzx ▸ ⟨b, hbin, hinb⟩) hx
    · rcases hplace b hb z hzb with ⟨hzx, -⟩ | ⟨hbin, hinb⟩
      · exact absurd (hzx ▸ ⟨a, hain, hina⟩) hx
      · exact h.apart a hain b hbin z hina hinb
  · intro z
    constructor
    · rintro ⟨a, ha, hz⟩
      rcases (hmem a).mp ha with rfl | hin
      · rw [hself] at hz
        exact Or.inl (mem_singleton.mp hz)
      · rw [hne a hin] at hz
        exact Or.inr ⟨a, hin, hz⟩
    · rintro (rfl | ⟨a, ha, hz⟩)
      · exact ⟨z, (hmem z).mpr (Or.inl rfl), mem_cons_self⟩
      · exact ⟨a, (hmem a).mpr (Or.inr ha), by rw [hne a ha]; exact hz⟩

theorem WellFormed.insert (h : WellFormed cmp key t s dup) (hcmp : StrictCmp cmp) {x : ι}
    (hx : ¬ Stored s dup x) :
    ∃ t' s' dup', Returns (fun n => ocfRbTreeInsert n (fun a b => cmp (key a) (key b)) t x) t' ∧
      WellFormed cmp key t' s' dup' ∧ ∀ z, Stored s' dup' z ↔ z = x ∨ Stored s dup z := by
  have hxs : x ∉ s.inorder := fun hin => hx ⟨x, hin, mem_cons_self⟩
  have hcut : Cut (fun a b => cmp (key a) (key b) < 0) fun b => cmp (key x) (key b) :=
    hcmp.cut key (key x)
  rcases @ocfRbTreeInsert_spec ι _ t x s (fun a b => cmp (key a) (key b)) _ h.represents h.isRb hxs
    h.sorted hcut with
    ⟨y, hy, heq, hrun⟩ | ⟨t', s', as, bs, hrun, hrep, hrb, hs, hs', has, hbs, hkeeps⟩
  · obtain ⟨hwf, hstored⟩ := h.insertList hx hy heq
    exact ⟨_, _, _, hrun, hwf, hstored⟩
  · obtain ⟨hwf, hstored⟩ := h.insertNode hcmp hx hrep hrb hs hs' has hbs hkeeps
    exact ⟨t', s', _, hrun, hwf, hstored⟩

end Lemmas

end OcfCache.RbTree
