import Mathlib.Data.List.Basic
import Mathlib.Order.Basic

/-!
# Labelled transition systems

The executions of a system whose critical sections run one at a time: a state space, a set of
labels (the operation that runs, with its arguments) and the initial states.

* `Lts.Run` is a finite execution with the list of its labels, `Lts.Reachable` the states some
  execution from an initial state ends in;
* `Lts.Invariant` packages the induction over executions once: what the initial states have and
  every step keeps, every reachable state has;
* `Lts.restrict` keeps the steps that meet a side condition, so "in every run whose steps all meet
  the condition" is reachability in the restricted system.
-/

namespace SparkRapids

/-- A labelled transition system over states `σ` and labels `ℓ`. -/
structure Lts (σ : Type*) (ℓ : Type*) where
  /-- The states an execution may start in. -/
  init : σ → Prop
  /-- `step s l s'`: the system may run `l` in `s` and end in `s'`. -/
  step : σ → ℓ → σ → Prop

namespace Lts

variable {σ ℓ : Type*} {A : Lts σ ℓ}

/-- `Run A s ls s'`: the labels `ls`, run in order, lead from `s` to `s'`. -/
inductive Run (A : Lts σ ℓ) : σ → List ℓ → σ → Prop
  | nil (s : σ) : Run A s [] s
  | snoc {s s' s'' : σ} {ls : List ℓ} {l : ℓ} :
      Run A s ls s' → A.step s' l s'' → Run A s (ls ++ [l]) s''

/-- The states that some execution from an initial state reaches. -/
inductive Reachable (A : Lts σ ℓ) : σ → Prop
  | init {s : σ} : A.init s → Reachable A s
  | step {s s' : σ} {l : ℓ} : Reachable A s → A.step s l s' → Reachable A s'

/-- `A` with only the steps that meet `ok`. -/
def restrict (A : Lts σ ℓ) (ok : σ → ℓ → Prop) : Lts σ ℓ where
  init := A.init
  step s l s' := ok s l ∧ A.step s l s'

/-- An inductive invariant: the initial states have it and every step from a state that has it
keeps it. -/
structure Invariant (A : Lts σ ℓ) (I : σ → Prop) : Prop where
  init : ∀ s, A.init s → I s
  step : ∀ s l s', I s → A.step s l s' → I s'

theorem Reachable.run {s s' : σ} {ls : List ℓ} (h : A.Reachable s) (hr : A.Run s ls s') :
    A.Reachable s' := by
  induction hr with
  | nil => exact h
  | snoc _ hst ih => exact .step ih hst

/-- A run may also be extended at its front. -/
theorem Run.cons {s s' s'' : σ} {l : ℓ} {ls : List ℓ} (hst : A.step s l s')
    (hr : A.Run s' ls s'') : A.Run s (l :: ls) s'' := by
  induction hr with
  | nil => exact .snoc (.nil s) hst
  | snoc _ hlast ih => exact .snoc ih hlast

/-- Every reachable state has an inductive invariant. -/
theorem Invariant.reachable {I : σ → Prop} (hI : A.Invariant I) {s : σ} (h : A.Reachable s) :
    I s := by
  induction h with
  | init h0 => exact hI.init _ h0
  | step _ hst ih => exact hI.step _ _ _ ih hst

/-- An invariant that only needs preserving where another invariant already holds. -/
theorem Invariant.strengthen {I J : σ → Prop} (hI : A.Invariant I) (h0 : ∀ s, A.init s → J s)
    (hstep : ∀ s l s', I s → J s → A.step s l s' → J s') : A.Invariant fun s => I s ∧ J s where
  init s hs := ⟨hI.init s hs, h0 s hs⟩
  step s l s' hs hst := ⟨hI.step s l s' hs.1 hst, hstep s l s' hs.1 hs.2 hst⟩

/-- What every step keeps is kept along a whole run. -/
theorem Run.preserves {I : σ → Prop} (hstep : ∀ s l s', I s → A.step s l s' → I s')
    {s s' : σ} {ls : List ℓ} (hr : A.Run s ls s') (hs : I s) : I s' := by
  induction hr with
  | nil => exact hs
  | snoc _ hst ih => exact hstep _ _ _ ih hst

theorem Reachable.of_restrict {ok : σ → ℓ → Prop} {s : σ} (h : (A.restrict ok).Reachable s) :
    A.Reachable s := by
  induction h with
  | init h0 => exact .init h0
  | step _ hst ih => exact .step ih hst.2

/-- An invariant of the whole system is one of each restriction. -/
theorem Invariant.restrict {I : σ → Prop} (hI : A.Invariant I) (ok : σ → ℓ → Prop) :
    (A.restrict ok).Invariant I where
  init s hs := hI.init s hs
  step s l s' hs hst := hI.step s l s' hs hst.2

end Lts

end SparkRapids
