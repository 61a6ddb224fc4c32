import Mathlib.Algebra.Ring.Nat
import Mathlib.Data.List.Basic

/-!
# Tokens of forwarded operations

A token counts references. Whoever holds it forwards operations, each of which
takes a reference that is given back when the operation ends, and ends the token
for itself once. The callback is called when the last reference is given back,
with the first error. The count has 32 bits. A history interleaves a program of the
holder with the ends of the operations that it has forwarded, each of which ends
once.
-/

namespace OcfCache.ForwardTokens

open List (foldl_cons length_cons)

/-- What a holder does with a token. -/
inductive Op
  /-- It takes a reference for itself. -/
  | hold
  /-- It forwards an operation. -/
  | forward
  /-- It ends the token for itself. -/
  | finish (error : Int)

/-- What happens to a token. -/
inductive Step
  /-- The holder does something. -/
  | own (op : Op)
  /-- A forwarded operation ends. -/
  | ended (error : Int)

/-- A token. -/
structure Token where
  /-- References, modulo `2 ^ 32`. -/
  remaining : Nat
  /-- The first error. -/
  error : Int
  /-- Errors with which the callback was called. -/
  calls : List Int

/-- The first of two errors. -/
def orElse (first second : Int) : Int := if first = 0 then second else first

/-- A reference is given back. -/
def Token.put (t : Token) (error : Int) : Token :=
  let remaining := (t.remaining + 2 ^ 32 - 1) % 2 ^ 32
  let e := orElse t.error error
  ⟨remaining, e, if remaining = 0 then t.calls ++ [e] else t.calls⟩

/-- The token after a step. -/
def Token.step (t : Token) : Step → Token
  | .own .hold => { t with remaining := (t.remaining + 1) % 2 ^ 32 }
  | .own .forward => { t with remaining := (t.remaining + 1) % 2 ^ 32 }
  | .own (.finish error) => t.put error
  | .ended error => t.put error

/-- The token after a history. -/
def Token.run (t : Token) (h : List Step) : Token := h.foldl Token.step t

/-- A history of a program, with a number of operations that have not ended. -/
inductive History : List Op → Nat → List Step → Prop
  | nil : History [] 0 []
  | hold {p o h} : History p o h → History (.hold :: p) o (.own .hold :: h)
  | forward {p o h} : History p (o + 1) h → History (.forward :: p) o (.own .forward :: h)
  | finish {p o h e} : History p o h → History (.finish e :: p) o (.own (.finish e) :: h)
  | ended {p o h e} : History p o h → History p (o + 1) (.ended e :: h)

/-- The error of a step. -/
def Step.error : Step → Int
  | .own (.finish error) => error
  | .ended error => error
  | _ => 0

/-- The first error of a history. -/
def firstError (error : Int) (h : List Step) : Int := h.foldl (fun e s => orElse e s.error) error

theorem orElse_eq_zero {a b : Int} : orElse a b = 0 ↔ a = 0 ∧ b = 0 := by
  unfold orElse
  by_cases ha : a = 0
  · simp [ha]
  · simp [ha]

theorem orElse_zero (a : Int) : orElse a 0 = a := by
  unfold orElse
  by_cases ha : a = 0
  · rw [if_pos ha, ha]
  · rw [if_neg ha]

variable {h : List Step} {o : Nat}

theorem firstError_eq_zero {error : Int} :
    firstError error h = 0 ↔ error = 0 ∧ ∀ s ∈ h, s.error = 0 := by
  unfold firstError
  induction h generalizing error with
  | nil => simp
  | cons s h ih =>
    rw [foldl_cons, ih, orElse_eq_zero]
    simp only [List.mem_cons, forall_eq_or_imp, and_assoc]

/-- The program of a holder that forwards operations and then ends the token. -/
def forwards (n : Nat) (error : Int) : List Op := List.replicate n .forward ++ [.finish error]

theorem Token.put_succ (ho : o + 1 < 2 ^ 32) (error e : Int) (calls : List Int) :
    Token.put ⟨(o + 1 + 1) % 2 ^ 32, error, calls⟩ e = ⟨o + 1, orElse error e, calls⟩ := by
  have hsub : ((o + 1 + 1) % 2 ^ 32 + 2 ^ 32 - 1) % 2 ^ 32 = o + 1 := by omega
  have hne : o + 1 ≠ 0 := Nat.succ_ne_zero o
  unfold Token.put
  simp only [hsub, if_neg hne]

theorem Token.put_last (error e : Int) (calls : List Int) :
    Token.put ⟨1, error, calls⟩ e = ⟨0, orElse error e, calls ++ [orElse error e]⟩ := by
  have hsub : (1 + 2 ^ 32 - 1) % 2 ^ 32 = 0 := by omega
  unfold Token.put
  simp only [hsub, if_true]

/-- All references are given back and the callback is called once, at the end and
with the first error. -/
structure EndsOnce (t : Token) (h : List Step) : Prop where
  /-- No reference is left. -/
  remaining : (t.run h).remaining = 0
  /-- The callback is called with the first error. -/
  calls : (t.run h).calls = [firstError t.error h]
  /-- It is called at the end. -/
  last : ∀ k < h.length, (t.run (h.take k)).calls = []

theorem EndsOnce.cons {t t' : Token} {s : Step} (hs : t.step s = t') (hcalls : t.calls = [])
    (herror : t'.error = orElse t.error s.error) (hrest : EndsOnce t' h) : EndsOnce t (s :: h) where
  remaining := by
    have hrun : t.run (s :: h) = t'.run h := by rw [Token.run, foldl_cons, hs, Token.run]
    rw [hrun]
    exact hrest.remaining
  calls := by
    have hrun : t.run (s :: h) = t'.run h := by rw [Token.run, foldl_cons, hs, Token.run]
    rw [hrun, hrest.calls, herror, firstError, firstError, foldl_cons]
  last k hk := by
    cases k with
    | zero => exact hcalls
    | succ k =>
      have hrun : t.run ((s :: h).take (k + 1)) = t'.run (h.take k) := by
        rw [List.take_succ_cons, Token.run, foldl_cons, hs, Token.run]
      rw [hrun]
      exact hrest.last k (by simpa using hk)

theorem EndsOnce.last_put {error : Int} {s : Step} (hs : ∀ t : Token, t.step s = t.put s.error) :
    EndsOnce ⟨1, error, []⟩ [s] where
  remaining := by
    rw [Token.run, foldl_cons, hs, Token.put_last]
    rfl
  calls := by
    rw [Token.run, foldl_cons, hs, Token.put_last]
    rfl
  last k hk := by
    obtain rfl : k = 0 := by simpa using hk
    rfl

theorem History.eq_nil {p : List Op} (hh : History p o h) (hp : p = []) (ho : o = 0) : h = [] := by
  cases hh with
  | nil => rfl
  | hold _ => exact absurd hp nofun
  | forward _ => exact absurd hp nofun
  | finish _ => exact absurd hp nofun
  | ended _ => exact absurd ho nofun

theorem History.drain {p : List Op} (hh : History p o h) (hp : p = []) (ho : 0 < o)
    (hlt : o < 2 ^ 32) (error : Int) : EndsOnce ⟨o, error, []⟩ h := by
  induction hh generalizing error with
  | nil => exact absurd ho (Nat.lt_irrefl 0)
  | hold _ _ => exact absurd hp nofun
  | forward _ _ => exact absurd hp nofun
  | finish _ _ => exact absurd hp nofun
  | @ended p o h e hh ih =>
    cases o with
    | zero =>
      obtain rfl := hh.eq_nil hp rfl
      exact .last_put fun _ => rfl
    | succ o =>
      have hput := Token.put_succ (Nat.lt_of_succ_lt hlt) error e []
      rw [Nat.mod_eq_of_lt hlt] at hput
      exact (ih hp (Nat.succ_pos o) (Nat.lt_of_succ_lt hlt) (orElse error e)).cons hput rfl rfl

/-- Whatever the order in which the operations end, the callback is called once, when
all of them have ended and the holder has ended the token, if fewer than `2 ^ 32` are
forwarded. -/
theorem History.endsOnce {p : List Op} (hh : History p o h) {n : Nat} {e : Int}
    (hp : p = forwards n e) (hlt : o + n < 2 ^ 32) (error : Int) : EndsOnce ⟨(o + 1) % 2 ^ 32, error, []⟩ h := by
  induction hh generalizing n error with
  | nil => cases n <;> exact absurd hp nofun
  | hold _ _ => cases n <;> exact absurd hp nofun
  | @forward p o h _ ih =>
    cases n with
    | zero => exact absurd hp nofun
    | succ n =>
      have hrest : p = forwards n e := (List.cons.inj hp).2
      have hinc : ((o + 1) % 2 ^ 32 + 1) % 2 ^ 32 = (o + 1 + 1) % 2 ^ 32 := by omega
      have hstep : Token.step ⟨(o + 1) % 2 ^ 32, error, []⟩ (.own .forward) = ⟨(o + 1 + 1) % 2 ^ 32, error, []⟩ := by
        unfold Token.step
        simp only [hinc]
      exact (ih hrest (by omega) error).cons hstep rfl (orElse_zero error).symm
  | @finish p o h e' hh _ =>
    cases n with
    | zero =>
      have hrest : p = [] := (List.cons.inj hp).2
      cases o with
      | zero =>
        obtain rfl := hh.eq_nil hrest rfl
        exact .last_put fun _ => rfl
      | succ o =>
        have hput := Token.put_succ (o := o) (by omega) error e' []
        exact (hh.drain hrest (Nat.succ_pos o) (by omega) (orElse error e')).cons hput rfl rfl
    | succ n => exact absurd hp nofun
  | @ended p o h e' hh ih =>
    have hput := Token.put_succ (o := o) (by omega) error e' []
    have hrest := ih hp (by omega) (orElse error e')
    rw [Nat.mod_eq_of_lt (by omega)] at hrest
    exact hrest.cons hput rfl rfl

/-- A token that is held while it is forwarded ends once, at the end. -/
theorem History.endsOnce_held {n : Nat} {e : Int} (hh : History (.hold :: forwards n e) 0 h)
    (hlt : n < 2 ^ 32) : EndsOnce ⟨0, 0, []⟩ h := by
  cases hh with
  | hold hrest => exact (hrest.endsOnce rfl (by omega) 0).cons rfl rfl rfl

theorem History.endsOnce_single (hh : History [.forward] 0 h) : EndsOnce ⟨0, 0, []⟩ h := by
  cases hh with
  | forward hrest => exact (hrest.drain rfl Nat.zero_lt_one (by omega) 0).cons rfl rfl rfl

theorem EndsOnce.calls_iff (hends : EndsOnce ⟨0, 0, []⟩ h) :
    ∃ e, (Token.run ⟨0, 0, []⟩ h).calls = [e] ∧ (e ≠ 0 ↔ ∃ s ∈ h, s.error ≠ 0) := by
  refine ⟨firstError 0 h, hends.calls, ?_⟩
  rw [Ne, firstError_eq_zero]
  simp only [true_and, not_forall, exists_prop]

/-- Each operation ends before the next one is forwarded. -/
def oneByOne : Nat → List Step
  | 0 => [.own (.finish 0)]
  | n + 1 => .own .forward :: .ended 0 :: oneByOne n

theorem history_oneByOne (n : Nat) : History (forwards n 0) 0 (oneByOne n) := by
  induction n with
  | zero => exact .finish .nil
  | succ n ih => exact .forward (.ended ih)

theorem run_oneByOne (n : Nat) : Token.run ⟨1, 0, []⟩ (oneByOne n) = ⟨0, 0, [0]⟩ := by
  induction n with
  | zero => exact Token.put_last 0 0 []
  | succ n ih =>
    have hput : Token.step ⟨2, 0, []⟩ (.ended 0) = ⟨1, 0, []⟩ := Token.put_succ (o := 0) (by omega) 0 0 []
    have hstep : Token.run ⟨1, 0, []⟩ (oneByOne (n + 1)) = Token.run (Token.step ⟨2, 0, []⟩ (.ended 0)) (oneByOne n) := rfl
    rw [hstep, hput, ih]

/-- All operations are forwarded before one ends. -/
def allTogether (n : Nat) : List Step :=
  .own .hold :: (List.replicate n (.own .forward) ++ .own (.finish 0) :: List.replicate n (.ended 0))

theorem history_allTogether (n : Nat) : History (.hold :: forwards n 0) 0 (allTogether n) := by
  have hends : ∀ o, History [] o (List.replicate o (.ended 0)) := by
    intro o
    induction o with
    | zero => exact .nil
    | succ o ih => exact .ended ih
  have hforwards : ∀ m o, History (forwards m 0) o
      (List.replicate m (.own .forward) ++ .own (.finish 0) :: List.replicate (o + m) (.ended 0)) := by
    intro m
    induction m with
    | zero => exact fun o => .finish (hends o)
    | succ m ih =>
      intro o
      have hrest := ih (o + 1)
      rw [Nat.add_right_comm] at hrest
      exact .forward hrest
  have hall := hforwards n 0
  rw [Nat.zero_add] at hall
  exact .hold hall

theorem run_replicate_forward (n r : Nat) (error : Int) (calls : List Int) :
    Token.run ⟨r % 2 ^ 32, error, calls⟩ (List.replicate n (.own .forward)) = ⟨(r + n) % 2 ^ 32, error, calls⟩ := by
  induction n generalizing r with
  | zero => rfl
  | succ n ih =>
    have hinc : (r % 2 ^ 32 + 1) % 2 ^ 32 = (r + 1) % 2 ^ 32 := by omega
    have hstep : Token.step ⟨r % 2 ^ 32, error, calls⟩ (.own .forward) = ⟨(r + 1) % 2 ^ 32, error, calls⟩ := by
      unfold Token.step
      simp only [hinc]
    have hrest := ih (r + 1)
    unfold Token.run at hrest ⊢
    rw [List.replicate_succ, foldl_cons, hstep, hrest]
    congr 2
    omega

theorem calls_of_puts {hs : List Step} (hput : ∀ s ∈ hs, ∀ t : Token, t.step s = t.put s.error) (hne : hs ≠ []) {r : Nat}
    (hle : hs.length ≤ r) (hzero : (r - hs.length) % 2 ^ 32 = 0) (error : Int) (calls : List Int) :
    (Token.run ⟨r % 2 ^ 32, error, calls⟩ hs).calls ≠ [] := by
  induction hs generalizing r error calls with
  | nil => exact absurd rfl hne
  | cons s hs ih =>
    rw [length_cons] at hle hzero
    have hsub : (r % 2 ^ 32 + 2 ^ 32 - 1) % 2 ^ 32 = (r - 1) % 2 ^ 32 := by omega
    obtain ⟨calls', hcalls'⟩ : ∃ calls', calls' =
        if (r - 1) % 2 ^ 32 = 0 then calls ++ [orElse error s.error] else calls := ⟨_, rfl⟩
    have hstep : Token.step ⟨r % 2 ^ 32, error, calls⟩ s = ⟨(r - 1) % 2 ^ 32, orElse error s.error, calls'⟩ := by
      rw [hput s List.mem_cons_self, hcalls']
      unfold Token.put
      simp only [hsub]
    have hrun : Token.run ⟨r % 2 ^ 32, error, calls⟩ (s :: hs) =
        Token.run ⟨(r - 1) % 2 ^ 32, orElse error s.error, calls'⟩ hs := by
      unfold Token.run
      rw [foldl_cons, hstep]
    rw [hrun]
    cases hs with
    | nil =>
      have hlast : (r - 1) % 2 ^ 32 = 0 := hzero
      rw [if_pos hlast] at hcalls'
      rw [hcalls']
      exact List.append_ne_nil_of_right_ne_nil calls nofun
    | cons s' hs =>
      rw [length_cons] at hle hzero
      refine ih (fun u hu => hput u (List.mem_cons_of_mem s hu)) nofun ?_ ?_ _ _
      · rw [length_cons]
        omega
      · rw [length_cons]
        omega

theorem allTogether_early {n : Nat} (hn : 2 ^ 32 ≤ n) :
    ∃ k < (allTogether n).length, (Token.run ⟨0, 0, []⟩ ((allTogether n).take k)).calls ≠ [] := by
  obtain ⟨m, rfl⟩ : ∃ m, n = m + 2 ^ 32 := ⟨n - 2 ^ 32, by omega⟩
  obtain ⟨hs, hhs⟩ : ∃ hs : List Step, hs = .own (.finish 0) :: List.replicate m (.ended 0) := ⟨_, rfl⟩
  have hlen : hs.length = m + 1 := by
    rw [hhs, length_cons, List.length_replicate]
  have hsplit : allTogether (m + 2 ^ 32) = (.own .hold :: (List.replicate (m + 2 ^ 32) (.own .forward) ++ hs)) ++
      List.replicate (2 ^ 32) (.ended 0) := by
    unfold allTogether
    rw [hhs, List.cons_append, List.append_assoc, List.cons_append, ← List.replicate_add]
  have htake : (allTogether (m + 2 ^ 32)).take (1 + (m + 2 ^ 32) + (m + 1)) =
      .own .hold :: (List.replicate (m + 2 ^ 32) (.own .forward) ++ hs) := by
    rw [hsplit]
    refine List.take_left' ?_
    rw [length_cons, List.length_append, List.length_replicate, hlen]
    omega
  refine ⟨1 + (m + 2 ^ 32) + (m + 1), ?_, ?_⟩
  · rw [hsplit, List.length_append, length_cons, List.length_append, List.length_replicate, List.length_replicate, hlen]
    omega
  · have hrun : Token.run ⟨0, 0, []⟩ (.own .hold :: (List.replicate (m + 2 ^ 32) (.own .forward) ++ hs)) =
        Token.run (Token.run ⟨1 % 2 ^ 32, 0, []⟩ (List.replicate (m + 2 ^ 32) (.own .forward))) hs := by
      unfold Token.run
      rw [foldl_cons, List.foldl_append]
      rfl
    rw [htake, hrun, run_replicate_forward]
    refine calls_of_puts (fun s hs' t => ?_) (by rw [hhs]; exact nofun) (by omega) ?_ _ _
    · rw [hhs] at hs'
      cases List.mem_cons.mp hs' with
      | inl heq => rw [heq]; rfl
      | inr hin => rw [List.eq_of_mem_replicate hin]; rfl
    · rw [hlen]
      have hsub : 1 + (m + 2 ^ 32) - (m + 1) = 2 ^ 32 := by omega
      rw [hsub, Nat.mod_self]

end OcfCache.ForwardTokens
