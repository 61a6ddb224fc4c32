import OcfCache.Alock

/-!
# Exclusion of the cache line lock

An access word stands for the holders of its entry: the value 255 for one
writer, any other value for that many readers. Every step of the lock keeps
this reading as long as no entry has more than 254 readers, and the hand-over
of a released lock never fires an `ENV_BUG_ON`. The 255th reader turns the word
into the writers' value, so the bound is also necessary.
-/

namespace OcfCache.AlockExclusion

open Function Runs Alock

/-- Number of locks of one direction on an entry. -/
def countOn (ls : List Lock) (e : Nat) (rw : Rw) : Nat :=
  ls.countP fun l => decide (l.entry = e ∧ l.rw = rw)

/-- Number of holders of an entry, by direction. -/
def heldOn (s : State) (e : Nat) : Rw → Nat := countOn s.holders e

/-- The access word of an entry says who holds it. -/
def Reads (v : BitVec 8) (held : Rw → Nat) : Prop :=
  (v = accessWr ∧ held .write = 1 ∧ held .read = 0) ∨
    (v ≠ accessWr ∧ held .write = 0 ∧ v.toNat = held .read)

/-- Every access word tells its holders and no permitted step aborts. -/
def Exclusive (n : Nat) (s : State) : Prop :=
  (∀ e, s.access e = accessWr ↔ heldOn s e .write = 1 ∧ heldOn s e .read = 0) ∧
    (∀ e, s.access e ≠ accessWr →
      (s.access e).toNat = heldOn s e .read ∧ heldOn s e .write = 0) ∧
    ∀ act, Permitted s act → step n s act ≠ none

/-- No entry is read locked by more than 254 holders. -/
def FewReaders (s : State) : Prop := ∀ e, heldOn s e .read ≤ 254

/-- The invariant of bounded runs. -/
def WordsTrue (s : State) : Prop := ∀ e, Reads (s.access e) (heldOn s e)

variable {v : BitVec 8} {l : Lock} {held : Rw → Nat} {s : State} {n : Nat}

theorem ne_accessWr_toNat (h : v ≠ accessWr) : v.toNat ≤ 254 := by
  have hlt := v.isLt
  have hne : v.toNat ≠ 255 := fun h' => h (BitVec.eq_of_toNat_eq (by simpa [accessWr] using h'))
  omega

theorem countOn_append (xs ys : List Lock) (e : Nat) (rw : Rw) :
    countOn (xs ++ ys) e rw = countOn xs e rw + countOn ys e rw := by
  simp [countOn]

theorem countOn_cons (l : Lock) (ls : List Lock) (e : Nat) (rw : Rw) :
    countOn (l :: ls) e rw = countOn ls e rw + if l.entry = e ∧ l.rw = rw then 1 else 0 := by
  simp [countOn, List.countP_cons]

theorem countOn_erase {ls : List Lock} (h : l ∈ ls) (e : Nat) (rw : Rw) :
    countOn (ls.erase l) e rw = countOn ls e rw - if l.entry = e ∧ l.rw = rw then 1 else 0 := by
  have hp := (List.perm_cons_erase h).countP_eq fun l => decide (l.entry = e ∧ l.rw = rw)
  have hc := countOn_cons l (ls.erase l) e rw
  simp only [countOn] at hc ⊢
  omega

theorem countOn_pos {ls : List Lock} (h : l ∈ ls) : 0 < countOn ls l.entry l.rw :=
  List.countP_pos_iff.mpr ⟨l, h, by simp⟩

theorem countOn_eq_zero {ls : List Lock} {e e' : Nat} (h : ∀ l ∈ ls, l.entry = e')
    (hne : e ≠ e') (rw : Rw) : countOn ls e rw = 0 := by
  refine List.countP_eq_zero.mpr fun l hl => ?_
  have := h l hl
  simp only [decide_eq_true_eq, not_and]
  omega

theorem Reads.idle_iff (h : Reads v held) : v = accessIdle ↔ held .write = 0 ∧ held .read = 0 := by
  rcases h with ⟨rfl, hw, hr⟩ | ⟨hv, hw, hr⟩
  · simp [hw, accessWr, accessIdle]
  · constructor
    · rintro rfl
      exact ⟨hw, by simpa [accessIdle] using hr.symm⟩
    · rintro ⟨-, h0⟩
      exact BitVec.eq_of_toNat_eq (by simpa [accessIdle, h0] using hr)

theorem Reads.add_reader {held' : Rw → Nat} (h : Reads v held)
    (hv : v ≠ accessWr) (hw : held' .write = held .write)
    (hr : held' .read = held .read + 1) (hb : held' .read ≤ 254) : Reads (v + 1#8) held' := by
  rcases h with ⟨rfl, -⟩ | ⟨-, hw', hr'⟩
  · exact absurd rfl hv
  · have hn : (v + 1#8).toNat = v.toNat + 1 := by
      simp only [BitVec.toNat_add, BitVec.toNat_ofNat]
      omega
    refine .inr ⟨fun h' => ?_, by omega, by omega⟩
    rw [h'] at hn
    simp only [accessWr, BitVec.toNat_ofNat] at hn
    omega

theorem unlockWalk_woken {ops : UnlockOps} {e : Nat} {ws : List Waiter} {x : Bool}
    {r : Walk} (h : unlockWalk ops e x v ws = some r) : ∀ w ∈ r.woken, w.entry = e := by
  induction ws generalizing x v r with
  | nil =>
    simp only [unlockWalk, Option.some.injEq] at h
    simp [← h]
  | cons w ws ih =>
    rw [unlockWalk] at h
    split at h
    · obtain ⟨r', hr', rfl⟩ := Option.map_eq_some_iff.mp h
      exact fun w' hw' => ih hr' w' hw'
    · rename_i he
      split at h
      · contradiction
      · simp only [Option.some.injEq] at h
        simp [← h]
      · obtain ⟨r', hr', rfl⟩ := Option.map_eq_some_iff.mp h
        intro w' hw'
        rcases List.mem_cons.mp hw' with rfl | hw'
        · exact (not_not.mp he).symm
        · exact ih hr' w' hw'

/-- Holders of the entry together with the waiters that a walk granted. -/
def heldWith (held : Rw → Nat) (e : Nat) (woken : List Waiter) (rw : Rw) : Nat :=
  held rw + countOn (woken.map Waiter.toLock) e rw

theorem heldWith_cons (held : Rw → Nat) (e : Nat) (w : Waiter) (ws : List Waiter) :
    heldWith held e (w :: ws) = heldWith (heldWith held e [w]) e ws := by
  funext rw
  have hnil : countOn [] e rw = 0 := rfl
  simp only [heldWith, List.map_cons, List.map_nil, countOn_cons, hnil]
  omega

theorem heldWith_single {e : Nat} {w : Waiter} (he : e = w.entry) (rw : Rw) :
    heldWith held e [w] rw = held rw + if w.rw = rw then 1 else 0 := by
  simp [heldWith, countOn, he]

theorem le_heldWith (held : Rw → Nat) (e : Nat) (ws : List Waiter) (rw : Rw) :
    held rw ≤ heldWith held e ws rw := Nat.le_add_right _ _

theorem grantOp_held (ops : UnlockOps) (rw : Rw) (hpos : v ≠ accessIdle) :
    grantOp ops false rw v = some (v, false) ∨
      (rw = .read ∧ v ≠ accessWr ∧ grantOp ops false rw v = some (v + 1#8, true)) := by
  cases rw with
  | write => simp [grantOp, ocfAlockTrylockEntryWr, cmpxchg, hpos]
  | read =>
    by_cases hv : v = accessWr
    · simp [grantOp, ocfAlockTrylockEntryRd, hv]
    · simp [grantOp, ocfAlockTrylockEntryRd, hv]

theorem unlockWalk_granted (ops : UnlockOps) (e : Nat) (ws : List Waiter) (v : BitVec 8)
    (held : Rw → Nat) (hpos : v ≠ accessIdle) :
    ∃ r, unlockWalk ops e false v ws = some r ∧ r.exchanged = false ∧
      (Reads v held → heldWith held e r.woken .read ≤ 254 →
        Reads r.word (heldWith held e r.woken)) := by
  induction ws generalizing v held with
  | nil => exact ⟨_, rfl, rfl, fun h _ => h⟩
  | cons w ws ih =>
    by_cases he : e = w.entry
    · rcases grantOp_held ops w.rw hpos with hop | ⟨hrw, hv, hop⟩
      · refine ⟨⟨v, false, w :: ws, []⟩, ?_, rfl, fun h _ => h⟩
        simp [unlockWalk, he, hop]
      · have hpos' : v + 1#8 ≠ accessIdle := by
          simp only [accessWr, accessIdle] at hv ⊢
          bv_omega
        obtain ⟨r, hr, hx, hreads⟩ := ih (v + 1#8) (heldWith held e [w]) hpos'
        refine ⟨{ r with woken := w :: r.woken }, by simp [unlockWalk, ← he, hop, hr], hx, ?_⟩
        intro h hb
        rw [heldWith_cons] at hb ⊢
        refine hreads (h.add_reader hv ?_ ?_ ?_) hb
        · simp [heldWith_single he, hrw]
        · simp [heldWith_single he, hrw]
        · exact Nat.le_trans (le_heldWith _ e r.woken .read) hb
    · obtain ⟨r, hr, hx, hreads⟩ := ih v held hpos
      exact ⟨{ r with kept := w :: r.kept }, by simp [unlockWalk, he, hr], hx, hreads⟩

/-- Holders left when one lock of a direction is given up. -/
def released (held : Rw → Nat) (d rw : Rw) : Nat := held rw - if d = rw then 1 else 0

theorem Reads.read_held (h : Reads v held)
    (hd : 0 < held .read) : v ≠ accessIdle ∧ v ≠ accessWr ∧ held .write = 0 ∧
      v.toNat = held .read := by
  have hi : v ≠ accessIdle := fun h' => by have := (h.idle_iff.mp h').2; omega
  rcases h with ⟨-, -, hr⟩ | ⟨hv, hw, hr⟩
  · omega
  · exact ⟨hi, hv, hw, hr⟩

theorem Reads.write_held (h : Reads v held)
    (hd : 0 < held .write) : v = accessWr ∧ held .write = 1 ∧ held .read = 0 := by
  rcases h with h | ⟨-, hw, -⟩
  · exact h
  · omega

theorem grantOp_exchange {d : Rw} {e : Nat} {w : Waiter}
    (h : Reads v held) (hd : 0 < held d) (he : e = w.entry) :
    grantOp (opsOf d) true w.rw v = some (v, false) ∨
      ∃ v', grantOp (opsOf d) true w.rw v = some (v', true) ∧ v' ≠ accessIdle ∧
        Reads v' (heldWith (released held d) e [w]) := by
  cases d with
  | read =>
    obtain ⟨hi, hv, hw, hr⟩ := h.read_held hd
    cases hrw : w.rw with
    | write =>
      by_cases h1 : v = accessOneRd
      · have hone : held .read = 1 := by simpa [h1, accessOneRd] using hr.symm
        refine .inr ⟨accessWr, ?_, by decide, .inl ⟨rfl, ?_, ?_⟩⟩
        · subst h1
          rfl
        · simp [heldWith_single he, released, hrw, hw]
        · simp [heldWith_single he, released, hrw, hone]
      · simp [grantOp, opsOf, rdOps, ocfAlockTrylockEntryRd2wr, hi, hv, cmpxchg, h1]
    | read =>
      refine .inr ⟨v, ?_, hi, .inr ⟨hv, ?_, ?_⟩⟩
      · simp [grantOp, opsOf, rdOps, ocfAlockTrylockEntryRd2rd, hi, hv]
      · simp [heldWith_single he, released, hrw, hw]
      · simp only [heldWith_single he, released, hrw, if_true]
        omega
  | write =>
    obtain ⟨rfl, hw, hr⟩ := h.write_held hd
    cases hrw : w.rw with
    | write =>
      refine .inr ⟨accessWr, rfl, by decide, .inl ⟨rfl, ?_, ?_⟩⟩
      · simp [heldWith_single he, released, hrw, hw]
      · simp [heldWith_single he, released, hrw, hr]
    | read =>
      refine .inr ⟨accessOneRd, rfl, by decide, .inr ⟨by decide, ?_, ?_⟩⟩
      · simp [heldWith_single he, released, hrw, hw]
      · simp [heldWith_single he, released, hrw, hr, accessOneRd]

theorem drop_held {d : Rw} (h : Reads v held)
    (hd : 0 < held d) : ∃ v', (opsOf d).drop v = some v' ∧ Reads v' (released held d) := by
  cases d with
  | read =>
    obtain ⟨hi, hv, hw, hr⟩ := h.read_held hd
    have hn : (v - 1#8).toNat = v.toNat - 1 := by bv_omega
    refine ⟨v - 1#8, ?_, .inr ⟨fun h' => ?_, by simp [released, hw], by simpa [released, hr] using hn⟩⟩
    · simp only [opsOf, rdOps, ocfAlockUnlockEntryRd]
      rw [if_neg (show v ≠ 0#8 from hi), if_neg hv]
    · have := ne_accessWr_toNat hv
      rw [h'] at hn
      simp only [accessWr, BitVec.toNat_ofNat] at hn
      omega
  | write =>
    obtain ⟨rfl, hw, hr⟩ := h.write_held hd
    exact ⟨accessIdle, rfl, .inr ⟨by decide, by simp [released, hw], by simp [released, hr, accessIdle]⟩⟩

theorem unlockWalk_release {d : Rw} (e : Nat)
    (ws : List Waiter) (h : Reads v held) (hd : 0 < held d) :
    ∃ r v', unlockWalk (opsOf d) e true v ws = some r ∧ r.release (opsOf d) = some v' ∧
      (heldWith (released held d) e r.woken .read ≤ 254 →
        Reads v' (heldWith (released held d) e r.woken)) := by
  obtain ⟨v₀, hdrop, hv₀⟩ := drop_held h hd
  induction ws with
  | nil => exact ⟨⟨v, true, [], []⟩, v₀, rfl, hdrop, fun _ => hv₀⟩
  | cons w ws ih =>
    by_cases he : e = w.entry
    · rcases grantOp_exchange h hd he with hop | ⟨v', hop, hpos, hreads⟩
      · exact ⟨⟨v, true, w :: ws, []⟩, v₀, by simp [unlockWalk, he, hop], hdrop, fun _ => hv₀⟩
      · obtain ⟨r, hr, hx, hrest⟩ := unlockWalk_granted (opsOf d) e ws v' _ hpos
        refine ⟨{ r with woken := w :: r.woken }, r.word, by simp [unlockWalk, ← he, hop, hr],
          by simp [Walk.release, hx], ?_⟩
        rw [heldWith_cons]
        exact hrest hreads
    · obtain ⟨r, v', hr, hrel, hreads⟩ := ih
      exact ⟨{ r with kept := w :: r.kept }, v', by simp [unlockWalk, he, hr], hrel, hreads⟩

theorem heldOn_hold (s : State) (l : Lock) (v : BitVec 8) (e : Nat) (rw : Rw) :
    heldOn (s.hold l v) e rw = heldOn s e rw + if l.entry = e ∧ l.rw = rw then 1 else 0 := by
  have hnil : countOn [] e rw = 0 := rfl
  simp only [heldOn, State.hold, countOn_append, countOn_cons, hnil]
  omega

section

variable (h : WordsTrue s)
include h

theorem wordsTrue_hold (hv : Reads v (heldOn (s.hold l v) l.entry)) : WordsTrue (s.hold l v) := by
  intro e
  by_cases he : e = l.entry
  · subst he
    simpa [State.hold] using hv
  · have hheld : heldOn (s.hold l v) e = heldOn s e := by
      funext rw
      simp [heldOn_hold, Ne.symm he]
    rw [hheld]
    simpa [State.hold, update_of_ne he] using h e

theorem wordsTrue_hold_idle (hidle : s.access l.entry = accessIdle) :
    WordsTrue (s.hold l (match l.rw with | .write => accessWr | .read => accessOneRd)) := by
  obtain ⟨hw, hr⟩ := (h l.entry).idle_iff.mp hidle
  refine wordsTrue_hold h ?_
  cases hrw : l.rw with
  | write => exact .inl ⟨rfl, by simp [heldOn_hold, hrw, hw], by simp [heldOn_hold, hrw, hr]⟩
  | read =>
    refine .inr ⟨by decide, by simp [heldOn_hold, hrw, hw], ?_⟩
    simp [heldOn_hold, hrw, hr, accessOneRd]

theorem trylockEntryWr_hold (hrw : l.rw = .write)
    (hop : ocfAlockTrylockEntryWr (s.access l.entry) = some (v, true)) :
    WordsTrue (s.hold l v) := by
  simp only [ocfAlockTrylockEntryWr, cmpxchg, Option.some.injEq] at hop
  split at hop
  · rename_i hidle
    simp only [Prod.mk.injEq, and_true] at hop
    simpa [hrw, hop] using wordsTrue_hold_idle h hidle
  · simp at hop

theorem trylockEntryRdIdle_hold (hrw : l.rw = .read)
    (hop : ocfAlockTrylockEntryRdIdle (s.access l.entry) = some (v, true)) :
    WordsTrue (s.hold l v) := by
  simp only [ocfAlockTrylockEntryRdIdle, cmpxchg, Option.some.injEq] at hop
  split at hop
  · rename_i hidle
    simp only [Prod.mk.injEq, and_true] at hop
    simpa [hrw, hop] using wordsTrue_hold_idle h hidle
  · simp at hop

theorem trylockEntryRd_hold (hrw : l.rw = .read)
    (hop : ocfAlockTrylockEntryRd (s.access l.entry) = some (v, true))
    (hb : FewReaders (s.hold l v)) : WordsTrue (s.hold l v) := by
  simp only [ocfAlockTrylockEntryRd] at hop
  split at hop
  · simp at hop
  · rename_i hv
    simp only [Option.some.injEq, Prod.mk.injEq, and_true] at hop
    subst hop
    refine wordsTrue_hold h ((h l.entry).add_reader hv ?_ ?_ (hb _))
    · simp [heldOn_hold, hrw]
    · simp [heldOn_hold, hrw]

theorem wordsTrue_waitlistAdd : WordsTrue (s.waitlistAdd n l) := h

theorem wordsTrue_unlink {entry req : Nat} : WordsTrue (s.unlink n entry req) := by
  unfold State.unlink
  split
  · exact h
  · exact h

end

theorem unlockOneCommon_spec (n : Nat) (h : WordsTrue s) (hl : l ∈ s.holders) :
    ∃ s', (unlockOneCommon (opsOf l.rw) n s l.entry).map (·.clear l) = some s' ∧
      (FewReaders s' → WordsTrue s') := by
  have hd : 0 < heldOn s l.entry l.rw := countOn_pos hl
  obtain ⟨r, v, hwalk, hrel, hreads⟩ :=
    unlockWalk_release l.entry (s.waitersLsts (l.entry % n)) (h l.entry) hd
  refine ⟨(s.commit n l.entry r v).clear l, by simp [unlockOneCommon, hwalk, hrel], ?_⟩
  intro hb e
  have hheld : ∀ rw, heldOn ((s.commit n l.entry r v).clear l) e rw =
      heldOn s e rw + countOn (r.woken.map Waiter.toLock) e rw -
        if l.entry = e ∧ l.rw = rw then 1 else 0 := by
    intro rw
    simp only [heldOn, State.clear, State.commit]
    rw [countOn_erase (List.mem_append_left _ hl), countOn_append]
  by_cases he : e = l.entry
  · subst he
    have heq : heldOn ((s.commit n l.entry r v).clear l) l.entry =
        heldWith (released (heldOn s l.entry) l.rw) l.entry r.woken := by
      funext rw
      rw [hheld]
      simp only [heldWith, released, true_and]
      split
      · rename_i hrw
        subst hrw
        omega
      · omega
    have hb' := hb l.entry
    rw [heq] at hb' ⊢
    simpa [State.clear, State.commit] using hreads hb'
  · have hwoken : ∀ x ∈ r.woken.map Waiter.toLock, x.entry = l.entry := by
      intro x hx
      obtain ⟨w, hw, rfl⟩ := List.mem_map.mp hx
      exact unlockWalk_woken hwalk w hw
    have heq : heldOn ((s.commit n l.entry r v).clear l) e = heldOn s e := by
      funext rw
      rw [hheld, countOn_eq_zero hwoken he]
      simp [Ne.symm he]
    rw [heq]
    simpa [State.clear, State.commit, update_of_ne he] using h e

theorem mem_holders_of_isIndexLocked
    (hg : Permitted s (.waitlistRemoveEntry l)) (h : ocfAlockIsIndexLocked s l.req l.idx = true) :
    l ∈ s.holders := by
  obtain ⟨x, hx, hxl⟩ := List.any_eq_true.mp h
  simp only [decide_eq_true_eq] at hxl
  have := hg x hx hxl.1 hxl.2
  exact this ▸ hx

theorem tryStep_spec (n : Nat) {op : WordOp} (h : WordsTrue s)
    (htotal : op (s.access l.entry) ≠ none)
    (hold : ∀ v, op (s.access l.entry) = some (v, true) → FewReaders (s.hold l v) →
      WordsTrue (s.hold l v)) : (∃ s', s.tryWith op l = some s' ∧ (FewReaders s' → WordsTrue s')) ∧
      ∃ s', s.tryOrAdd n op l = some s' ∧ (FewReaders s' → WordsTrue s') := by
  unfold State.tryWith State.tryOrAdd
  cases hop : op (s.access l.entry) with
  | none => exact absurd hop htotal
  | some out =>
    obtain ⟨v, locked⟩ := out
    cases locked with
    | true => exact ⟨⟨_, rfl, hold v hop⟩, ⟨_, rfl, hold v hop⟩⟩
    | false => exact ⟨⟨_, rfl, fun _ => h⟩, ⟨_, rfl, fun _ => wordsTrue_waitlistAdd h⟩⟩

/-- Step rule: a permitted step from true words does not abort, and the words
stay true when no entry gets more than 254 readers. -/
theorem step_spec (n : Nat) {act : Action} (h : WordsTrue s) (hg : Permitted s act) :
    ∃ s', step n s act = some s' ∧ (FewReaders s' → WordsTrue s') := by
  cases act with
  | trylockEntryWr l =>
    exact (tryStep_spec n h (by simp [ocfAlockTrylockEntryWr])
      fun v hop _ => trylockEntryWr_hold h hg.1 hop).1
  | trylockEntryRdIdle l =>
    exact (tryStep_spec n h (by simp [ocfAlockTrylockEntryRdIdle])
      fun v hop _ => trylockEntryRdIdle_hold h hg.1 hop).1
  | lockOneWr l =>
    exact (tryStep_spec n h (by simp [ocfAlockTrylockEntryWr])
      fun v hop _ => trylockEntryWr_hold h hg.1 hop).2
  | lockOneRd l =>
    have htotal : ocfAlockTrylockEntryRd (s.access l.entry) ≠ none := by
      unfold ocfAlockTrylockEntryRd
      split <;> simp
    have htry := (tryStep_spec n h htotal fun v hop => trylockEntryRd_hold h hg.1 hop).2
    dsimp only [step, ocfAlockLockOneRd]
    split
    · exact htry
    · exact ⟨_, rfl, fun _ => wordsTrue_waitlistAdd h⟩
  | unlockOneRd l =>
    have hspec := unlockOneCommon_spec n h hg.2
    rw [hg.1] at hspec
    exact hspec
  | unlockOneWr l =>
    have hspec := unlockOneCommon_spec n h hg.2
    rw [hg.1] at hspec
    exact hspec
  | waitlistRemoveEntry l =>
    dsimp only [step, ocfAlockWaitlistRemoveEntry]
    split
    · rename_i hl
      exact unlockOneCommon_spec n h (mem_holders_of_isIndexLocked hg hl)
    · exact ⟨_, rfl, fun _ => wordsTrue_unlink h⟩

theorem wordsTrue_init : WordsTrue init := by
  intro e
  exact .inr ⟨show accessIdle ≠ accessWr by decide, rfl, rfl⟩

theorem wordsTrue_of_run (h : RunIn (alock n) FewReaders init s) : WordsTrue s := by
  refine h.invariant (fun _ => wordsTrue_init) ?_
  intro s a s' hinv _ hg hs hok
  obtain ⟨s'', hs'', himp⟩ := step_spec n hinv hg
  have heq : s'' = s' := Option.some.inj (hs''.symm.trans hs)
  exact heq ▸ himp (heq ▸ hok)

theorem WordsTrue.exclusive (h : WordsTrue s) : Exclusive n s := by
  refine ⟨fun e => ?_, fun e hne => ?_, fun act hg => ?_⟩
  · rcases h e with ⟨hv, hw, hr⟩ | ⟨hv, hw, hr⟩
    · exact ⟨fun _ => ⟨hw, hr⟩, fun _ => hv⟩
    · exact ⟨fun h' => absurd h' hv, fun h' => by omega⟩
  · rcases h e with ⟨hv, -, -⟩ | ⟨-, hw, hr⟩
    · exact absurd hv hne
    · exact ⟨hr, hw⟩
  · obtain ⟨s', hs', -⟩ := step_spec n h hg
    simp [hs']

theorem Exclusive.fewReaders (h : Exclusive n s) : FewReaders s := by
  intro e
  by_cases hv : s.access e = accessWr
  · have := ((h.1 e).mp hv).2
    omega
  · have := (h.2.1 e hv).1
    have := ne_accessWr_toNat hv
    omega

/-- The lock is exclusive along a run exactly when no entry is ever read
locked by more than 254 holders at once. -/
theorem exclusive_run_iff_fewReaders (n : Nat) (s : State) :
    RunIn (alock n) (Exclusive n) init s ↔ RunIn (alock n) FewReaders init s :=
  (RunIn.iff_of_prefix (fun _ h => (wordsTrue_of_run h).exclusive)
    (fun _ h => h.fewReaders) s).symm

/-- The lock of one more reader of entry 0. -/
def reader (k : Nat) : Lock := ⟨0, 0, k, .read⟩

/-- Entry 0 after `k` readers took it one after another. -/
def readLocked : Nat → State
  | 0 => init
  | k + 1 => (readLocked k).hold (reader k) ((readLocked k).access 0 + 1#8)

theorem readLocked_spec (k : Nat) :
    (readLocked k).access 0 = BitVec.ofNat 8 k ∧ (∀ i, (readLocked k).waitersLsts i = []) ∧
      (∀ h ∈ (readLocked k).holders, h.req < k) ∧ heldOn (readLocked k) 0 .read = k := by
  induction k with
  | zero => exact ⟨rfl, fun _ => rfl, by simp [readLocked, init], rfl⟩
  | succ k ih =>
    obtain ⟨hv, hws, hreq, hheld⟩ := ih
    refine ⟨?_, hws, ?_, ?_⟩
    · simp [readLocked, State.hold, reader, hv, BitVec.ofNat_add]
    · intro h hh
      rcases List.mem_append.mp hh with hh | hh
      · exact Nat.lt_succ_of_lt (hreq h hh)
      · simp only [List.mem_singleton] at hh
        simp [hh, reader]
    · rw [readLocked, heldOn_hold, hheld]
      simp [reader]

/-- The first reader takes the idle entry, the others are counted in. -/
def readerAction (k : Nat) : Action :=
  if k = 0 then .trylockEntryRdIdle (reader k) else .lockOneRd (reader k)

theorem readLocked_reachable (n k : Nat) (hk : k ≤ 255) :
    Reachable (alock n) init (readLocked k) := by
  induction k with
  | zero => exact .refl trivial
  | succ k ih =>
    obtain ⟨hv, hws, hreq, -⟩ := readLocked_spec k
    have hv0 : (readLocked k).access (reader k).entry = BitVec.ofNat 8 k := hv
    have hunused : Unused (readLocked k) (reader k) := by
      refine ⟨fun h hh hne => ?_, fun i w hw => by simp [hws i] at hw⟩
      have := hreq h hh
      have : h.req = k := hne.1
      omega
    have hne : BitVec.ofNat 8 k ≠ accessWr := by
      intro h
      have := congrArg BitVec.toNat h
      simp only [BitVec.toNat_ofNat, accessWr] at this
      omega
    refine (ih (by omega)).next (readerAction k) ?_ ?_
    · by_cases h0 : k = 0
      · simpa [alock, readerAction, h0, Permitted] using ⟨rfl, h0 ▸ hunused⟩
      · simpa [alock, readerAction, h0, Permitted] using ⟨rfl, hunused⟩
    · by_cases h0 : k = 0
      · subst h0
        rfl
      · simp [alock, readerAction, h0, step, ocfAlockLockOneRd, ocfAlockWaitlistIsEmptyLocked,
          hws, State.tryOrAdd, ocfAlockTrylockEntryRd, hv0, hne, readLocked, hv]

/-- With 255 readers admitted the word reads as a write lock that nobody
holds, and the unlock of the last reader aborts. -/
theorem readLocked_not_exclusive :
    Reachable (alock 699050) init (readLocked 255) ∧ ¬ Exclusive 699050 (readLocked 255) ∧
      (readLocked 255).access 0 = accessWr ∧ heldOn (readLocked 255) 0 .read = 255 ∧
      step 699050 (readLocked 255) (.unlockOneRd (reader 254)) = none := by
  obtain ⟨hv, hws, -, hheld⟩ := readLocked_spec 255
  refine ⟨readLocked_reachable 699050 255 (by decide), fun h => ?_, hv, hheld, ?_⟩
  · have := h.fewReaders 0
    omega
  · have hv0 : (readLocked 255).access (reader 254).entry = accessWr := hv
    simp [step, ocfAlockUnlockOneRdCommon, unlockOneCommon, hws, unlockWalk, Walk.release,
      rdOps, ocfAlockUnlockEntryRd, hv0]

end OcfCache.AlockExclusion
