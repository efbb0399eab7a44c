import Mathlib.Tactic.Basic

/-!
# Programs that read a memory

A program reads a memory at places of its choice, and may announce the steps it takes. What it does
depends on nothing but the contents of the places it reads (`Reading.run_congr`).

Some kinds of specification go through the program by a rule for one program behind another. `Ok` says
where a program without steps reads and what it returns, whatever the memory has. `Blames` says, for one
memory, that the program reads where it may exactly if none of its steps is a bad one. A program that
goes through the memory front to back has a rule of its own (`Scans.bind`).

A loop that goes on with what a program returns is defined with `attach`, which hands on that the program
may return it: so the loop ends where that makes progress (`Ok.attach`, `Blames.attach`).
-/

namespace SparkRapids

/-- A program that reads values of the type `β` and takes steps of the type `σ`. -/
inductive Reading (β σ α : Type)
  | done (a : α)
  | read (place : Nat) (next : β → Reading β σ α)
  | step (s : σ) (rest : Reading β σ α)

namespace Reading

variable {β σ α γ δ : Type}

/-- A program, and another one that gets what the first one returns. -/
def bind : Reading β σ α → (α → Reading β σ γ) → Reading β σ γ
  | done a, f => f a
  | read place next, f => read place fun b => (next b).bind f
  | step s rest, f => step s (rest.bind f)

instance : Monad (Reading β σ) where
  pure := done
  bind := bind

/-- What a program returns. -/
def run (memory : Nat → β) : Reading β σ α → α
  | done a => a
  | read place next => (next (memory place)).run memory
  | step _ rest => rest.run memory

/-- The places that a program reads. -/
def accesses (memory : Nat → β) : Reading β σ α → List Nat
  | done _ => []
  | read place next => place :: (next (memory place)).accesses memory
  | step _ rest => rest.accesses memory

/-- The steps that a program takes. -/
def steps (memory : Nat → β) : Reading β σ α → List σ
  | done _ => []
  | read place next => (next (memory place)).steps memory
  | step s rest => s :: rest.steps memory

/-- The program returns `a` for some values that it reads. -/
def Returns : Reading β σ α → α → Prop
  | done b, a => b = a
  | read _ next, a => ∃ b, (next b).Returns a
  | step _ rest, a => rest.Returns a

/-- The program, with what it returns known to be returned by it. -/
def attach : (r : Reading β σ α) → Reading β σ { a // r.Returns a }
  | done a => done ⟨a, rfl⟩
  | read place next => read place fun b => (next b).attach.bind fun a => done ⟨a.1, b, a.2⟩
  | step s rest => step s (rest.attach.bind fun a => done ⟨a.1, a.2⟩)

section Bind

variable {memory memory' : Nat → β} {r : Reading β σ α} {f : α → Reading β σ γ} {a : α}

@[simp] theorem run_pure (a : α) : (pure a : Reading β σ α).run memory = a := rfl

@[simp] theorem accesses_pure (a : α) : (pure a : Reading β σ α).accesses memory = [] := rfl

@[simp] theorem steps_pure (a : α) : (pure a : Reading β σ α).steps memory = [] := rfl

theorem bind_assoc (r : Reading β σ α) (f : α → Reading β σ γ) (g : γ → Reading β σ δ) :
    (r.bind f).bind g = r.bind fun a => (f a).bind g := by
  induction r with
  | done a => rfl
  | read place next ih => exact congrArg (read place) (funext fun b => ih b)
  | step s rest ih => exact congrArg (step s) ih

/-- What is known of the returned value does not change the program. -/
theorem attach_bind (r : Reading β σ α) (f : α → Reading β σ γ) :
    r.attach.bind (fun a => f a.1) = r.bind f := by
  induction r with
  | done a => rfl
  | read place next ih =>
    refine congrArg (read place) (funext fun b => ?_)
    rw [← ih b]
    exact bind_assoc ..
  | step s rest ih =>
    refine congrArg (step s) ?_
    rw [← ih]
    exact bind_assoc ..

theorem bind_done (r : Reading β σ α) : r.bind done = r := by
  induction r with
  | done a => rfl
  | read place next ih => exact congrArg (read place) (funext ih)
  | step s rest ih => exact congrArg (step s) ih

theorem attach_val (r : Reading β σ α) : (r.attach.bind fun a => done a.1) = r := by
  rw [attach_bind, bind_done]

@[simp] theorem run_bind : (r >>= f).run memory = (f (r.run memory)).run memory := by
  show (r.bind f).run memory = _
  induction r with
  | done a => rfl
  | read place next ih => exact ih _
  | step s rest ih => exact ih

@[simp] theorem accesses_bind : (r >>= f).accesses memory =
    r.accesses memory ++ (f (r.run memory)).accesses memory := by
  show (r.bind f).accesses memory = _
  induction r with
  | done a => rfl
  | read place next ih => exact congrArg (place :: ·) (ih _)
  | step s rest ih => exact ih

@[simp] theorem steps_bind : (r >>= f).steps memory =
    r.steps memory ++ (f (r.run memory)).steps memory := by
  show (r.bind f).steps memory = _
  induction r with
  | done a => rfl
  | read place next ih => exact ih _
  | step s rest ih => exact congrArg (s :: ·) ih

theorem returns_run (r : Reading β σ α) (memory : Nat → β) : r.Returns (r.run memory) := by
  induction r with
  | done a => rfl
  | read place next ih => exact ⟨memory place, ih _⟩
  | step s rest ih => exact ih

/-- Memories that agree wherever the program reads are the same to it. -/
theorem run_congr (h : ∀ place ∈ r.accesses memory, memory' place = memory place) :
    r.run memory' = r.run memory ∧ r.accesses memory' = r.accesses memory ∧
      r.steps memory' = r.steps memory := by
  induction r with
  | done a => exact ⟨rfl, rfl, rfl⟩
  | read place next ih =>
    have hplace : memory' place = memory place := h place (List.mem_cons_self ..)
    obtain ⟨hrun, haccesses, hsteps⟩ :=
      ih (memory place) fun place' hplace' => h place' (List.mem_cons_of_mem _ hplace')
    unfold run accesses steps
    rw [hplace, hrun, haccesses, hsteps]
    exact ⟨rfl, rfl, rfl⟩
  | step s rest ih =>
    obtain ⟨hrun, haccesses, hsteps⟩ := ih h
    unfold run accesses steps
    rw [hrun, haccesses, hsteps]
    exact ⟨rfl, rfl, rfl⟩

end Bind

/-! ### Programs without steps -/

/-- Whatever it reads, the program reads at places with `access` only, takes no steps, and returns
something with `post`. -/
def Ok (access : Nat → Prop) (post : α → Prop) : Reading β σ α → Prop
  | done a => post a
  | read place next => access place ∧ ∀ b, (next b).Ok access post
  | step _ _ => False

section Ok

variable {memory : Nat → β} {access access' : Nat → Prop} {post post' : α → Prop}
  {post'' : γ → Prop} {r : Reading β σ α} {f : α → Reading β σ γ} {a : α}

theorem Ok.done (h : post a) : (pure a : Reading β σ α).Ok access post := h

theorem Ok.read {place : Nat} {next : β → Reading β σ α} (hplace : access place)
    (h : ∀ b, (next b).Ok access post) : (Reading.read place next).Ok access post := ⟨hplace, h⟩

variable (hr : r.Ok access post)
include hr

theorem Ok.bind (hf : ∀ a, post a → (f a).Ok access post'') : (r >>= f).Ok access post'' := by
  show (r.bind f).Ok access post''
  induction r with
  | done a => exact hf a hr
  | read place next ih => exact ⟨hr.1, fun b => ih b (hr.2 b)⟩
  | step s rest ih => exact False.elim hr

theorem Ok.mono (haccess : ∀ place, access place → access' place) (hpost : ∀ a, post a → post' a) :
    r.Ok access' post' := by
  induction r with
  | done a => exact hpost a hr
  | read place next ih => exact ⟨haccess place hr.1, fun b => ih b (hr.2 b)⟩
  | step s rest ih => exact False.elim hr

theorem Ok.imp (hpost : ∀ a, post a → post' a) : r.Ok access post' :=
  hr.mono (fun _ h => h) hpost

theorem Ok.attach : r.attach.Ok access fun a => post a.1 := by
  rw [← attach_val r] at hr
  revert hr
  generalize r.attach = r'
  intro hr
  induction r' with
  | done a => exact hr
  | read place next ih => exact ⟨hr.1, fun b => ih b (hr.2 b)⟩
  | step s rest ih => exact False.elim hr

theorem Ok.of_returns (h : r.Returns a) : post a := by
  induction r with
  | done b =>
    obtain rfl : b = a := h
    exact hr
  | read place next ih =>
    obtain ⟨b, hb⟩ := h
    exact ih b (hr.2 b) hb
  | step s rest ih => exact False.elim hr

theorem Ok.run (memory : Nat → β) : post (r.run memory) :=
  hr.of_returns (returns_run r memory)

theorem Ok.accesses : ∀ place ∈ r.accesses memory, access place := by
  intro place hplace
  induction r with
  | done a => exact absurd hplace List.not_mem_nil
  | read place' next ih =>
    rcases List.mem_cons.1 hplace with rfl | hplace
    · exact hr.1
    · exact ih _ (hr.2 _) hplace
  | step s rest ih => exact False.elim hr

theorem Ok.steps : r.steps memory = [] := by
  induction r with
  | done a => rfl
  | read place next ih => exact ih _ (hr.2 _)
  | step s rest ih => exact False.elim hr

end Ok

/-! ### Programs with bad steps -/

/-- For this memory, the program reads at places with `access` only, exactly if none of its steps is
bad. Then it returns something with `post`. -/
structure Blames (memory : Nat → β) (access : Nat → Prop) (bad : σ → Prop) (post : α → Prop)
    (r : Reading β σ α) : Prop where
  iff : (∀ place ∈ r.accesses memory, access place) ↔ ∀ s ∈ r.steps memory, ¬bad s
  post : (∀ place ∈ r.accesses memory, access place) → post (r.run memory)

section Blames

variable {memory : Nat → β} {access : Nat → Prop} {bad : σ → Prop} {post post' : α → Prop}
  {post'' : γ → Prop} {r : Reading β σ α} {f : α → Reading β σ γ} {a : α}

theorem Ok.blames (h : r.Ok access post) : r.Blames memory access bad post where
  iff := by
    rw [h.steps]
    exact ⟨fun _ s hs => absurd hs List.not_mem_nil, fun _ => h.accesses⟩
  post := fun _ => h.run memory

theorem Blames.done (h : post a) : (pure a : Reading β σ α).Blames memory access bad post :=
  Ok.blames (Ok.done h)

variable (hr : r.Blames memory access bad post)
include hr

theorem Blames.bind (hf : ∀ a, post a → (f a).Blames memory access bad post'') :
    (r >>= f).Blames memory access bad post'' where
  iff := by
    rw [accesses_bind, steps_bind]
    simp only [List.mem_append, or_imp, forall_and]
    rw [← hr.iff]
    refine and_congr_right fun haccess => ?_
    exact (hf _ (hr.post haccess)).iff
  post := by
    rw [accesses_bind, run_bind]
    intro haccess
    have hfirst := hr.post fun place hplace => haccess place (List.mem_append_left _ hplace)
    exact (hf _ hfirst).post fun place hplace => haccess place (List.mem_append_right _ hplace)

theorem Blames.attach : r.attach.Blames memory access bad fun a => post a.1 := by
  have hval : (r.attach >>= fun a => pure a.1) = r := attach_val r
  have haccesses := @accesses_bind _ _ _ _ memory r.attach fun a => pure a.1
  have hsteps := @steps_bind _ _ _ _ memory r.attach fun a => pure a.1
  have hrun := @run_bind _ _ _ _ memory r.attach fun a => pure a.1
  rw [hval, accesses_pure, List.append_nil] at haccesses
  rw [hval, steps_pure, List.append_nil] at hsteps
  rw [hval, run_pure] at hrun
  have hiff := hr.iff
  have hpost := hr.post
  rw [haccesses, hsteps] at hiff
  rw [haccesses, hrun] at hpost
  exact ⟨hiff, hpost⟩

theorem Blames.imp (h : ∀ a, post a → post' a) : r.Blames memory access bad post' :=
  ⟨hr.iff, fun haccess => h _ (hr.post haccess)⟩

end Blames

/-! ### Programs that read front to back -/

/-- The program reads the `n` places from `o` on, each once and in order, and returns `a`. -/
structure Scans (memory : Nat → β) (o n : Nat) (a : α) (r : Reading β σ α) : Prop where
  run : r.run memory = a
  accesses : r.accesses memory = List.range' o n

section Scans

variable {memory : Nat → β} {r : Reading β σ α} {f : α → Reading β σ γ} {a : α} {c : γ} {o n m : Nat}

theorem Scans.pure (a : α) : (pure a : Reading β σ α).Scans memory o 0 a := ⟨rfl, rfl⟩

theorem Scans.bind (hr : r.Scans memory o n a) (hf : (f a).Scans memory (o + n) m c) :
    (r >>= f).Scans memory o (n + m) c where
  run := by
    rw [run_bind, hr.run, hf.run]
  accesses := by
    rw [accesses_bind, hr.run, hr.accesses, hf.accesses, List.range'_append_1]

/-- A program, and what it returns changed. -/
theorem Scans.map (hr : r.Scans memory o n a) (hf : (f a).Scans memory (o + n) 0 c) :
    (r >>= f).Scans memory o n c := hr.bind hf

end Scans

end Reading

end SparkRapids
