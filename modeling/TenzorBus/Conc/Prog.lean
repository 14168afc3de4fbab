import Mathlib.Logic.Function.Basic

/-!
# Programs made of atomic actions

A program over a shared state `σ` is a tree of atomic actions. Nothing happens inside an action:
it reads and changes the state in one step, or it is blocked (`none`) and the program waits.

Each action also updates an auxiliary state `γ`. The auxiliary state is a history that proofs
talk about; the action's result and its effect on `σ` are functions of `σ` alone, so it can never
influence a run.

* `Prog` : the programs, a monad
* `Prog.iter` : the loop that runs its body until it answers with `some`
* `Prog.next?` : one atomic step
-/

namespace TenzorBus.Conc

/-- Programs over the shared state `σ` with auxiliary state `γ` that return a value of `α`. -/
inductive Prog (σ γ : Type) : Type → Type 1
  | ret {α : Type} (a : α) : Prog σ γ α
  | act {α β : Type} (f : σ → Option (β × σ)) (aux : β → σ → γ → γ) (k : β → Prog σ γ α) :
      Prog σ γ α
  | iter {α β : Type} (body : Prog σ γ (Option β)) (k : β → Prog σ γ α) : Prog σ γ α

namespace Prog

variable {σ γ α β : Type}

/-- Sequential composition. -/
def bind : Prog σ γ α → (α → Prog σ γ β) → Prog σ γ β
  | .ret a, g => g a
  | .act f aux k, g => .act f aux fun b => (k b).bind g
  | .iter body k, g => .iter body fun b => (k b).bind g

instance : Monad (Prog σ γ) where
  pure := .ret
  bind := Prog.bind

@[simp] theorem pure_eq (a : α) : (pure a : Prog σ γ α) = .ret a := rfl

@[simp] theorem bind_eq (p : Prog σ γ α) (g : α → Prog σ γ β) : p >>= g = p.bind g := rfl

@[simp] theorem ret_bind (a : α) (g : α → Prog σ γ β) : (ret a : Prog σ γ α).bind g = g a := rfl

theorem bind_assoc {δ : Type} (p : Prog σ γ α) (f : α → Prog σ γ β) (g : β → Prog σ γ δ) :
    (p.bind f).bind g = p.bind fun a => (f a).bind g := by
  induction p with
  | ret a => rfl
  | act f' aux k ih => simp only [bind, ih]
  | iter body k _ ih => simp only [bind, ih]

/-- One action that leaves the auxiliary state alone. -/
def atomic (f : σ → Option (β × σ)) : Prog σ γ β :=
  .act f (fun _ _ g => g) .ret

/-- One action that records something in the auxiliary state. -/
def atomicWith (f : σ → Option (β × σ)) (aux : β → σ → γ → γ) : Prog σ γ β :=
  .act f aux .ret

/-- Read something. -/
def read (f : σ → β) : Prog σ γ β := atomic fun s => some (f s, s)

/-- Change the state. -/
def modify (f : σ → σ) : Prog σ γ Unit := atomic fun s => some ((), f s)

/-- Change the state and record it. -/
def modifyWith (f : σ → σ) (aux : σ → γ → γ) : Prog σ γ Unit :=
  atomicWith (fun s => some ((), f s)) fun _ => aux

/-- Record something without touching the state. -/
def record (aux : σ → γ → γ) : Prog σ γ Unit := modifyWith id aux

/-- Run `body` again and again until it answers with `some`. -/
def loop (body : Prog σ γ (Option β)) : Prog σ γ β := .iter body .ret

/-- What is left of a loop when one round of its body has answered. -/
def again (body : Prog σ γ (Option β)) (k : β → Prog σ γ α) : Option β → Prog σ γ α
  | none => .iter body k
  | some b => k b

theorem again_bind {δ : Type} (body : Prog σ γ (Option β)) (k : β → Prog σ γ α)
    (q : α → Prog σ γ δ) :
    (fun r => (again body k r).bind q) = again body fun b => (k b).bind q := by
  funext r; cases r <;> rfl

/-- One atomic step: the rest of the program and the new state. A loop unfolds in one step. -/
def next? : Prog σ γ α → σ × γ → Option (Prog σ γ α × (σ × γ))
  | .ret _, _ => none
  | .act f aux k, (s, g) => (f s).map fun r => (k r.1, (r.2, aux r.1 s g))
  | .iter body k, m => some (body.bind (again body k), m)

end Prog

end TenzorBus.Conc
