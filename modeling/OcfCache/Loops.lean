import Mathlib.Algebra.BigOperators.Ring.Finset

/-!
# Counted loops

A `for` loop over the indices below a bound is a fold over `List.range`. The
module has the invariant rule of such loops, its version for two loops that
run side by side, and the counting of indices that loop counters amount to.
-/

namespace OcfCache.Loops

open Function

variable {σ τ : Type*}

/-- The loop `for (i = 0; i < n; i++) s = body(s, i)`. -/
def forRange (n : Nat) (body : σ → Nat → σ) (s : σ) : σ := (List.range n).foldl body s

@[simp] theorem forRange_zero (body : σ → Nat → σ) (s : σ) : forRange 0 body s = s := rfl

theorem forRange_succ (n : Nat) (body : σ → Nat → σ) (s : σ) :
    forRange (n + 1) body s = body (forRange n body s) n := by
  simp [forRange, List.range_succ]

theorem forRange_inv {n : Nat} {body : σ → Nat → σ} {s : σ} (inv : Nat → σ → Prop)
    (h0 : inv 0 s) (hstep : ∀ i t, i < n → inv i t → inv (i + 1) (body t i)) :
    inv n (forRange n body s) := by
  induction n with
  | zero => exact h0
  | succ n ih =>
    rw [forRange_succ]
    exact hstep n _ (Nat.lt_succ_self n)
      (ih fun i t hi => hstep i t (Nat.lt_succ_of_lt hi))

theorem forRange_option {body : Option σ → Nat → Option σ}
    (hnone : ∀ i, body none i = none) {n : Nat} {s s' : σ} (inv : Nat → σ → Prop) (h0 : inv 0 s)
    (hstep : ∀ i t t', i < n → inv i t → body (some t) i = some t' → inv (i + 1) t')
    (h : forRange n body (some s) = some s') : inv n s' := by
  refine forRange_inv (fun i (o : Option σ) => ∀ t, o = some t → inv i t) ?_ ?_ s' h
  · rintro t ⟨⟩
    exact h0
  · intro i o hi ho t' ht'
    cases o with
    | none =>
      rw [hnone] at ht'
      cases ht'
    | some t => exact hstep i t t' hi (ho t rfl) ht'

theorem forRange_except {ε : Type*} {body : σ → Nat → Except ε σ} {n : Nat} {s s' : σ}
    (inv : Nat → σ → Prop) (h0 : inv 0 s)
    (hstep : ∀ i t t', i < n → inv i t → body t i = .ok t' → inv (i + 1) t')
    (h : forRange n (fun (s : Except ε σ) i => s.bind fun t => body t i) (.ok s) = .ok s') : inv n s' := by
  refine forRange_inv (fun i (o : Except ε σ) => ∀ t, o = .ok t → inv i t) ?_ ?_ s' h
  · rintro t ⟨⟩
    exact h0
  · intro i o hi ho t' ht'
    cases o with
    | error e => cases ht'
    | ok t => exact hstep i t t' hi (ho t rfl) ht'

theorem forRange_ok {ε : Type*} {body : σ → Nat → Except ε σ} {n : Nat} {s : σ}
    (inv : Nat → σ → Prop) (h0 : inv 0 s)
    (hstep : ∀ i t, i < n → inv i t → ∃ t', body t i = .ok t' ∧ inv (i + 1) t') :
    ∃ s', forRange n (fun (s : Except ε σ) i => s.bind fun t => body t i) (.ok s) = .ok s' ∧ inv n s' := by
  refine forRange_inv (fun i (o : Except ε σ) => ∃ t, o = .ok t ∧ inv i t) ⟨s, rfl, h0⟩ ?_
  rintro i o hi ⟨t, rfl, ht⟩
  exact hstep i t hi ht

theorem forRange_rel {n : Nat} {body : σ → Nat → σ} {body' : τ → Nat → τ} {s : σ} {s' : τ}
    (rel : Nat → σ → τ → Prop) (h0 : rel 0 s s')
    (hstep : ∀ i t t', i < n → rel i t t' → rel (i + 1) (body t i) (body' t' i)) :
    rel n (forRange n body s) (forRange n body' s') := by
  induction n with
  | zero => exact h0
  | succ n ih =>
    rw [forRange_succ, forRange_succ]
    exact hstep n _ _ (Nat.lt_succ_self n)
      (ih fun i t t' hi => hstep i t t' (Nat.lt_succ_of_lt hi))

/-- Invariant rule of a loop over a list without repetitions that may abort,
with the elements behind the loop. -/
theorem foldlM_inv {α : Type*} {f : σ → α → Option σ} (inv : List α → σ → Prop)
    (hstep : ∀ done x s s', x ∉ done → inv done s → f s x = some s' → inv (done ++ [x]) s')
    {xs : List α} {s s' : σ} (hd : xs.Nodup) (h0 : inv [] s) (h : xs.foldlM f s = some s') :
    inv xs s' := by
  have hgen : ∀ (ys done : List α) (s : σ), (done ++ ys).Nodup → inv done s →
      ys.foldlM f s = some s' → inv (done ++ ys) s' := by
    intro ys
    induction ys with
    | nil =>
      intro done s _ hinv heq
      cases heq
      rw [List.append_nil]
      exact hinv
    | cons y ys ih =>
      intro done s hdone hinv heq
      obtain ⟨t, ht, hrest⟩ := Option.bind_eq_some_iff.mp heq
      have hy : y ∉ done := fun hin => (List.nodup_append.mp hdone).2.2 y hin y (by simp) rfl
      have happ : done ++ y :: ys = (done ++ [y]) ++ ys := by simp
      rw [happ] at hdone ⊢
      exact ih (done ++ [y]) t hdone (hstep done y s t hy hinv ht) hrest
  exact hgen xs [] s hd h0 h

theorem foldl_inv {α : Type*} {f : σ → α → σ} (inv : List α → σ → Prop)
    (hstep : ∀ done x s, x ∉ done → inv done s → inv (done ++ [x]) (f s x))
    {xs : List α} {s : σ} (hd : xs.Nodup) (h0 : inv [] s) : inv xs (xs.foldl f s) := by
  have hsome : ∀ (xs : List α) (s : σ),
      xs.foldlM (fun s x => some (f s x)) s = some (xs.foldl f s) := by
    intro xs
    induction xs with
    | nil => exact fun s => rfl
    | cons x xs ih => exact fun s => ih (f s x)
  refine foldlM_inv inv (fun done x s s' hx hinv heq => ?_) hd h0 (hsome xs s)
  cases heq
  exact hstep done x s hx hinv

theorem foldlM_some {α : Type*} {f : σ → α → Option σ} (inv : σ → Prop) {xs : List α} {s : σ} (h0 : inv s)
    (hstep : ∀ x ∈ xs, ∀ t, inv t → ∃ t', f t x = some t' ∧ inv t') :
    ∃ s', xs.foldlM f s = some s' ∧ inv s' := by
  induction xs generalizing s with
  | nil => exact ⟨s, rfl, h0⟩
  | cons x xs ih =>
    obtain ⟨t, ht, hinv⟩ := hstep x (by simp) s h0
    obtain ⟨s', hs', hinv'⟩ := ih hinv fun y hy => hstep y (by simp [hy])
    exact ⟨s', by rw [List.foldlM_cons, ht]; exact hs', hinv'⟩

theorem foldlM_range_some {f : σ → Nat → Option σ} (inv : Nat → σ → Prop) {n : Nat} {s : σ} (h0 : inv 0 s)
    (hstep : ∀ i t, i < n → inv i t → ∃ t', f t i = some t' ∧ inv (i + 1) t') :
    ∃ s', (List.range n).foldlM f s = some s' ∧ inv n s' := by
  induction n with
  | zero => exact ⟨s, rfl, h0⟩
  | succ n ih =>
    obtain ⟨t, ht, hinv⟩ := ih fun i t hi => hstep i t (Nat.lt_succ_of_lt hi)
    obtain ⟨s', hs', hinv'⟩ := hstep n t (Nat.lt_succ_self n) hinv
    refine ⟨s', ?_, hinv'⟩
    rw [List.range_succ, List.foldlM_append, ht]
    simpa using hs'

theorem foldlM_range'_some {f : σ → Nat → Option σ} (inv : Nat → σ → Prop) {a m : Nat} {s : σ} (h0 : inv a s)
    (hstep : ∀ i t, a ≤ i → i < a + m → inv i t → ∃ t', f t i = some t' ∧ inv (i + 1) t') :
    ∃ s', (List.range' a m).foldlM f s = some s' ∧ inv (a + m) s' := by
  induction m generalizing a s with
  | zero => exact ⟨s, rfl, h0⟩
  | succ m ih =>
    obtain ⟨t, ht, hinv⟩ := hstep a s (Nat.le_refl a) (by omega) h0
    obtain ⟨s', hs', hinv'⟩ := ih hinv fun i t hle hlt => hstep i t (by omega) (by omega)
    refine ⟨s', ?_, ?_⟩
    · rw [List.range'_succ, List.foldlM_cons, ht]
      exact hs'
    · have hsum : a + (m + 1) = a + 1 + m := by omega
      rw [hsum]
      exact hinv'

theorem foldlM_done_some {α : Type*} {f : σ → α → Option σ} {xs : List α} (inv : List α → σ → Prop) {s : σ}
    (h0 : inv [] s)
    (hstep : ∀ done x t, x ∈ xs → inv done t → ∃ t', f t x = some t' ∧ inv (done ++ [x]) t') :
    ∃ s', xs.foldlM f s = some s' ∧ inv xs s' := by
  have hgen : ∀ (ys done : List α) (s : σ), (∀ y ∈ ys, y ∈ xs) → inv done s →
      ∃ s', ys.foldlM f s = some s' ∧ inv (done ++ ys) s' := by
    intro ys
    induction ys with
    | nil => exact fun done s _ hinv => ⟨s, rfl, by rwa [List.append_nil]⟩
    | cons y ys ih =>
      intro done s hys hinv
      obtain ⟨t, ht, hinv⟩ := hstep done y s (hys y (by simp)) hinv
      obtain ⟨s', hs', hinv'⟩ := ih (done ++ [y]) t (fun z hz => hys z (by simp [hz])) hinv
      refine ⟨s', by rw [List.foldlM_cons, ht]; exact hs', ?_⟩
      rwa [List.append_assoc] at hinv'
  exact hgen xs [] s (fun _ h => h) h0

theorem foldl_range'_inv {f : σ → Nat → σ} (inv : Nat → σ → Prop) {a m : Nat} {s : σ} (h0 : inv a s)
    (hstep : ∀ i t, a ≤ i → i < a + m → inv i t → inv (i + 1) (f t i)) :
    inv (a + m) ((List.range' a m).foldl f s) := by
  induction m generalizing a s with
  | zero => exact h0
  | succ m ih =>
    have hnext := ih (hstep a s (Nat.le_refl a) (by omega) h0)
      fun i t hle hlt => hstep i t (by omega) (by omega)
    have hsum : a + (m + 1) = a + 1 + m := by omega
    rw [List.range'_succ, List.foldl_cons, hsum]
    exact hnext

/-- Number of indices below a bound with a property. -/
def countBelow (p : Nat → Bool) (n : Nat) : Nat := (List.range n).countP p

@[simp] theorem countBelow_zero (p : Nat → Bool) : countBelow p 0 = 0 := rfl

theorem countBelow_succ (p : Nat → Bool) (n : Nat) :
    countBelow p (n + 1) = countBelow p n + (p n).toNat := by
  simp only [countBelow, List.range_succ, List.countP_append, List.countP_singleton]
  cases p n <;> rfl

theorem countBelow_congr {p q : Nat → Bool} {n : Nat} (h : ∀ i < n, p i = q i) :
    countBelow p n = countBelow q n := by
  induction n with
  | zero => rfl
  | succ n ih =>
    rw [countBelow_succ, countBelow_succ, ih fun i hi => h i (Nat.lt_succ_of_lt hi),
      h n (Nat.lt_succ_self n)]

theorem countBelow_or {p q : Nat → Bool} (n : Nat) (h : ∀ i < n, ¬(p i = true ∧ q i = true)) :
    countBelow (fun i => p i || q i) n = countBelow p n + countBelow q n := by
  induction n with
  | zero => rfl
  | succ n ih =>
    have hn := h n (Nat.lt_succ_self n)
    have hr := ih fun i hi => h i (Nat.lt_succ_of_lt hi)
    simp only [countBelow_succ, hr]
    cases hp : p n <;> cases hq : q n <;> simp_all <;> omega

theorem countBelow_eq_zero {p : Nat → Bool} {n : Nat} :
    countBelow p n = 0 ↔ ∀ i < n, p i = false := by
  simp [countBelow, List.countP_eq_zero]

theorem countBelow_le (p : Nat → Bool) (n : Nat) : countBelow p n ≤ n := by
  have h := List.countP_le_length (p := p) (l := List.range n)
  rwa [List.length_range] at h

theorem countBelow_eq_self {p : Nat → Bool} {n : Nat} :
    countBelow p n = n ↔ ∀ i < n, p i = true := by
  have h := List.countP_eq_length (p := p) (l := List.range n)
  simpa [countBelow] using h

theorem countBelow_change {p q : Nat → Bool} {n i : Nat} (hi : i < n)
    (h : ∀ j < n, j ≠ i → q j = p j) :
    countBelow q n + (p i).toNat = countBelow p n + (q i).toNat := by
  induction n with
  | zero => omega
  | succ n ih =>
    simp only [countBelow_succ]
    by_cases hin : i = n
    · subst hin
      have hsame : countBelow q i = countBelow p i :=
        countBelow_congr fun j hj => h j (Nat.lt_succ_of_lt hj) (Nat.ne_of_lt hj)
      omega
    · have hlast := h n (Nat.lt_succ_self n) (Ne.symm hin)
      have hrest := ih (by omega) fun j hj => h j (Nat.lt_succ_of_lt hj)
      rw [hlast]
      omega

/-- Indices with a property that are sent to a short interval, no two to one
place. -/
theorem countBelow_le_of_inj {p : Nat → Bool} {n m : Nat} (f : Nat → Nat) (a : Nat)
    (hmem : ∀ x < n, p x = true → a ≤ f x ∧ f x < a + m)
    (hinj : ∀ x y, x < n → y < n → p x = true → p y = true → f x = f y → x = y) :
    countBelow p n ≤ m := by
  have hd : (((List.range n).filter p).map f).Nodup := by
    refine List.Nodup.map_on (fun x hx y hy hxy => ?_) (List.nodup_range.filter _)
    simp only [List.mem_filter, List.mem_range] at hx hy
    exact hinj x y hx.1 hy.1 hx.2 hy.2 hxy
  have hsub : ((List.range n).filter p).map f ⊆ List.range' a m := by
    intro y hy
    obtain ⟨x, hx, rfl⟩ := List.mem_map.mp hy
    simp only [List.mem_filter, List.mem_range] at hx
    exact List.mem_range'_1.mpr (hmem x hx.1 hx.2)
  have hlen := (List.Nodup.subperm hd hsub).length_le
  rw [List.length_map, List.length_range'] at hlen
  rw [countBelow, List.countP_eq_length_filter]
  exact hlen

theorem length_eq_countBelow {p : Nat → Bool} {n : Nat} {xs : List Nat} (hd : xs.Nodup)
    (h : ∀ x, x ∈ xs ↔ x < n ∧ p x = true) : xs.length = countBelow p n := by
  have hperm : xs.Perm ((List.range n).filter p) := by
    refine (List.perm_ext_iff_of_nodup hd (List.nodup_range.filter _)).mpr fun x => ?_
    rw [h x]
    simp
  rw [hperm.length_eq, countBelow, List.countP_eq_length_filter]

theorem sum_countBelow {κ : Type*} [DecidableEq κ] {keys : List κ} (hd : keys.Nodup)
    (f : Nat → κ) (n : Nat) : (keys.map fun k => countBelow (fun x => decide (f x = k)) n).sum =
      countBelow (fun x => decide (f x ∈ keys)) n := by
  induction keys with
  | nil => exact (countBelow_eq_zero.mpr fun x _ => by simp).symm
  | cons k keys ih =>
    obtain ⟨hk, hd⟩ := List.nodup_cons.mp hd
    have hor := countBelow_or (p := fun x => decide (f x = k)) (q := fun x => decide (f x ∈ keys)) n
      fun x _ hx => hk (of_decide_eq_true hx.1 ▸ of_decide_eq_true hx.2)
    rw [List.map_cons, List.sum_cons, ih hd, ← hor]
    exact countBelow_congr fun x _ => by simp

theorem sum_lengths {κ : Type*} [DecidableEq κ] {keys : List κ} (hkeys : keys.Nodup) {f : Nat → κ}
    {n : Nat} {lines : κ → List Nat} {num : κ → Nat}
    (h : ∀ k ∈ keys, (lines k).Nodup ∧ num k = (lines k).length ∧ ∀ x, x ∈ lines k ↔ x < n ∧ k = f x) :
    (keys.map num).sum = countBelow (fun x => decide (f x ∈ keys)) n := by
  rw [← sum_countBelow hkeys]
  refine congrArg List.sum (List.map_congr_left fun k hk => ?_)
  obtain ⟨hd, hnum, hmem⟩ := h k hk
  rw [hnum]
  refine length_eq_countBelow hd fun x => ?_
  rw [hmem x, decide_eq_true_eq, eq_comm (a := k)]

theorem sum_update {ι β : Type*} [Fintype ι] [DecidableEq ι] (w : β → Int) (pc : ι → β) (t : ι) (p : β) :
    ∑ u, w (update pc t p u) = ∑ u, w (pc u) + w p - w (pc t) := by
  have hmem : t ∈ Finset.univ := Finset.mem_univ t
  have hnew := Finset.add_sum_erase Finset.univ (fun u => w (update pc t p u)) hmem
  have hold := Finset.add_sum_erase Finset.univ (fun u => w (pc u)) hmem
  have hrest : ∑ u ∈ Finset.univ.erase t, w (update pc t p u) = ∑ u ∈ Finset.univ.erase t, w (pc u) :=
    Finset.sum_congr rfl fun u hu => by rw [update_of_ne (Finset.ne_of_mem_erase hu)]
  rw [update_self] at hnew
  omega

end OcfCache.Loops
