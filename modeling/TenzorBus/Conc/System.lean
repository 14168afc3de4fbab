import TenzorBus.Conc.Prog
import Mathlib.Logic.Relation

/-!
# Systems of actors

A system has actors that run programs over one shared memory, and an environment that changes the
memory on its own (a clock that ticks, a process that dies). A step is one atomic action of one
actor, the start of an operation by an idle actor, or a step of the environment, in any order:
the reachable configurations are those of all interleavings.

`Reach S ok init c` is reachability through steps that all satisfy `ok`, a condition on the memory
before and after the step. Assumptions about a run are stated with it.
-/

namespace TenzorBus.Conc

/-- The actors `ι` over the shared state `σ` with auxiliary state `γ`. -/
structure System (ι σ γ : Type) where
  /-- The operations that an actor may start, as programs. -/
  starts : ι → σ → Prog σ γ Unit → Prop
  /-- Only live actors take steps. -/
  live : ι → σ → Prop
  /-- What the environment may do. -/
  env : σ × γ → σ × γ → Prop

/-- The memory, and what each actor has left to do. An idle actor has nothing left. -/
structure Config (ι σ γ : Type) where
  mem : σ × γ
  pool : ι → Prog σ γ Unit

variable {ι σ γ : Type} [DecidableEq ι]

namespace System

/-- One step of the system. -/
inductive Step (S : System ι σ γ) : Config ι σ γ → Config ι σ γ → Prop
  | start {c : Config ι σ γ} (i : ι) (p : Prog σ γ Unit) (idle : c.pool i = .ret ())
      (live : S.live i c.mem.1) (h : S.starts i c.mem.1 p) :
      Step S c { c with pool := Function.update c.pool i p }
  | act {c : Config ι σ γ} (i : ι) (p : Prog σ γ Unit) (m : σ × γ) (live : S.live i c.mem.1)
      (h : (c.pool i).next? c.mem = some (p, m)) :
      Step S c { mem := m, pool := Function.update c.pool i p }
  | env {c : Config ι σ γ} (m : σ × γ) (h : S.env c.mem m) : Step S c { c with mem := m }

/-- The configurations reached from `init` through steps that satisfy `ok`. -/
inductive Reach (S : System ι σ γ) (ok : σ × γ → σ × γ → Prop) (init : Config ι σ γ → Prop) :
    Config ι σ γ → Prop
  | init {c : Config ι σ γ} (h : init c) : Reach S ok init c
  | step {c d : Config ι σ γ} (h : Reach S ok init c) (hs : S.Step c d) (hok : ok c.mem d.mem) :
      Reach S ok init d

/-- A run under a stronger condition is a run under a weaker one. -/
theorem Reach.mono {S : System ι σ γ} {ok ok' : σ × γ → σ × γ → Prop}
    {init : Config ι σ γ → Prop} (hok : ∀ s t, ok s t → ok' s t) {c : Config ι σ γ}
    (h : Reach S ok init c) : Reach S ok' init c := by
  induction h with
  | init h => exact .init h
  | step _ hs hk ih => exact .step ih hs (hok _ _ hk)

/-- There are more places to begin. -/
theorem Reach.begin_mono {S : System ι σ γ} {ok : σ × γ → σ × γ → Prop}
    {init init' : Config ι σ γ → Prop} (hinit : ∀ c, init c → init' c) {c : Config ι σ γ}
    (h : Reach S ok init c) : Reach S ok init' c := by
  induction h with
  | init h => exact .init (hinit _ h)
  | step _ hs hk ih => exact .step ih hs hk

/-- A condition on the steps that follows where a run has come so far. -/
theorem Reach.strengthen {S : System ι σ γ} {ok ok' : σ × γ → σ × γ → Prop}
    {init : Config ι σ γ → Prop}
    (hok : ∀ c d, Reach S ok init c → Step S c d → ok c.mem d.mem → ok' c.mem d.mem)
    {c : Config ι σ γ} (h : Reach S ok init c) : Reach S ok' init c := by
  induction h with
  | init h => exact .init h
  | step h hs hk ih => exact .step ih hs (hok _ _ h hs hk)

/-- A run that goes on from where another one ends. -/
theorem Reach.trans {S : System ι σ γ} {ok : σ × γ → σ × γ → Prop} {init : Config ι σ γ → Prop}
    {c d : Config ι σ γ} (h : Reach S ok init c) (hd : Reach S ok (· = c) d) :
    Reach S ok init d := by
  induction hd with
  | init he => exact he ▸ h
  | step _ hs hk ih => exact .step ih hs hk

end System

end TenzorBus.Conc
