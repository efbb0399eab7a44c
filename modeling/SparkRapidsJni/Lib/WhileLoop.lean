import Mathlib.Data.Option.Basic
import Mathlib.Logic.Relation

/-!
# Loops

`while (!done) step`, where a turn may fail. `whileLoop` runs it with a bound on the turns, and
`Turns` says where some turns lead. A loop is verified without counting: turns that lead to a
state that is done are the whole run, whatever the bound, if it is large enough
(`Turns.whileLoop_eq`), and what the loop ends with is such a state (`turns_of_whileLoop`). A `for` loop
is one that counts its turns (`whileLoop_of_count`).

`doWhile` is a loop that ends with what one of its turns returns. It comes with a measure that every
other turn makes smaller, so it always returns; what the turns keep is what can be said of its result
(`doWhile_rule`).
-/

namespace SparkRapids

open Relation (ReflTransGen)

variable {σ : Type*} {done : σ → Bool} {step : σ → Option σ} {a b c : σ}

/-- The loop, with a bound on its turns: `none` if a turn fails or the bound is too small. -/
def whileLoop (done : σ → Bool) (step : σ → Option σ) : Nat → σ → Option σ
  | 0, a => if done a then some a else none
  | n + 1, a => if done a then some a else (step a).bind (whileLoop done step n)

/-- The loop gets from `a` to `b`, in any number of turns. -/
def Turns (done : σ → Bool) (step : σ → Option σ) : σ → σ → Prop :=
  ReflTransGen fun a b => done a = false ∧ step a = some b

theorem Turns.refl (a : σ) : Turns done step a a := ReflTransGen.refl

theorem Turns.trans (h1 : Turns done step a b) (h2 : Turns done step b c) : Turns done step a c :=
  ReflTransGen.trans h1 h2

/-- A turn before others. -/
theorem Turns.head (hdone : done a = false) (hstep : step a = some b) (h : Turns done step b c) :
    Turns done step a c :=
  ReflTransGen.head ⟨hdone, hstep⟩ h

theorem Turns.single (hdone : done a = false) (hstep : step a = some b) : Turns done step a b :=
  .head hdone hstep (.refl b)

theorem whileLoop_of_done (h : done a = true) (n : Nat) : whileLoop done step n a = some a := by
  cases n with
  | zero => exact if_pos h
  | succ n => exact if_pos h

/-- Turns to a state that is done are the run of the loop. -/
theorem Turns.whileLoop_eq (h : Turns done step a b) (hb : done b = true) :
    ∃ turns, ∀ n, turns ≤ n → whileLoop done step n a = some b := by
  induction h using ReflTransGen.head_induction_on with
  | refl => exact ⟨0, fun n _ => whileLoop_of_done hb n⟩
  | @head a c hturn _ ih =>
    obtain ⟨turns, hturns⟩ := ih
    refine ⟨turns + 1, fun n hn => ?_⟩
    obtain ⟨m, rfl⟩ : ∃ m, n = m + 1 := ⟨n - 1, (Nat.sub_add_cancel (Nat.one_le_of_lt hn)).symm⟩
    unfold whileLoop
    rw [hturn.1, hturn.2, Option.bind_some]
    exact hturns m (Nat.le_of_succ_le_succ hn)

/-- What the loop ends with is a state that turns lead to, and that is done. -/
theorem turns_of_whileLoop {n : Nat} (h : whileLoop done step n a = some b) :
    Turns done step a b ∧ done b = true := by
  induction n generalizing a with
  | zero =>
    by_cases hdone : done a = true
    · rw [whileLoop_of_done hdone] at h
      cases h
      exact ⟨.refl _, hdone⟩
    · exact nomatch (if_neg hdone).symm.trans h
  | succ n ih =>
    by_cases hdone : done a = true
    · rw [whileLoop_of_done hdone] at h
      cases h
      exact ⟨.refl _, hdone⟩
    · obtain ⟨c, hstep, hrest⟩ := Option.bind_eq_some_iff.1 ((if_neg hdone).symm.trans h)
      obtain ⟨hturns, hb⟩ := ih hrest
      exact ⟨.head (eq_false_of_ne_true hdone) hstep hturns, hb⟩

/-- A loop that counts to `num`. -/
theorem whileLoop_of_count {state : Nat → σ} {num n : Nat} (hdone : done (state num) = true)
    (hturn : ∀ c < num, done (state c) = false ∧ step (state c) = some (state (c + 1)))
    (hn : num ≤ n) : whileLoop done step n (state 0) = some (state num) := by
  induction num generalizing state n with
  | zero => exact whileLoop_of_done hdone n
  | succ num ih =>
    obtain ⟨m, rfl⟩ : ∃ m, n = m + 1 := ⟨n - 1, (Nat.sub_add_cancel (Nat.one_le_of_lt hn)).symm⟩
    obtain ⟨hfirst, hstep⟩ := hturn 0 (Nat.succ_pos num)
    unfold whileLoop
    rw [hfirst, hstep, Option.bind_some]
    exact @ih (fun c => state (c + 1)) m hdone (fun c hc => hturn (c + 1) (Nat.succ_lt_succ hc))
      (Nat.le_of_succ_le_succ hn)

/-- What every turn keeps holds of the states that turns lead to. -/
theorem Turns.keeps {I : σ → Prop} (h : Turns done step a b)
    (hkeep : ∀ a b, I a → done a = false → step a = some b → I b) (ha : I a) : I b := by
  induction h with
  | refl => exact ha
  | tail _ hturn ih => exact hkeep _ _ ih hturn.1 hturn.2

section DoWhile

variable {ρ : Type*} {turn : σ → ρ ⊕ σ} {measure : σ → Nat}

/-- Turns until one of them returns; the others make the measure of the state smaller. -/
def doWhile (turn : σ → ρ ⊕ σ) (measure : σ → Nat)
    (hmeasure : ∀ s s', turn s = .inr s' → measure s' < measure s) (s : σ) : ρ :=
  match _h : turn s with
  | .inl r => r
  | .inr s' => doWhile turn measure hmeasure s'
termination_by measure s
decreasing_by exact hmeasure s s' _h

/-- What holds before the loop and is kept by a turn says what the loop returns. -/
theorem doWhile_rule {I : σ → Prop} {Q : ρ → Prop}
    {hmeasure : ∀ s s', turn s = .inr s' → measure s' < measure s}
    (hkeep : ∀ s s', I s → turn s = .inr s' → I s') (hreturn : ∀ s r, I s → turn s = .inl r → Q r)
    {s : σ} (hs : I s) : Q (doWhile turn measure hmeasure s) := by
  induction s using doWhile.induct turn measure hmeasure with
  | case1 s r hr =>
    rw [doWhile]
    split
    next r' hr' => exact hreturn s r' hs hr'
    next s' hs' => cases hr.symm.trans hs'
  | case2 s s' hs' ih =>
    rw [doWhile]
    split
    next r hr => cases hs'.symm.trans hr
    next s'' hs'' =>
      obtain rfl := Sum.inr.inj (hs'.symm.trans hs'')
      exact ih (hkeep s s' hs hs')

end DoWhile

end SparkRapids
