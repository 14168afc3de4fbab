import TenzorBus.Ring.System

/-!
# A registry lock that may be taken from its holder

`futex::lock` takes the lock from a holder that the liveness check reports dead. The check may be
wrong, and a waiter may have read the words of the lock while it changed hands: here somebody who
waits may take the lock from anybody at any time.

* `TakesOver` : somebody who waits takes the lock from its holder
* `StepOf`, `LockStep`, `LockReach` : the steps of one actor and of all, and the runs
* `Exclusive` : the lock is not taken from the living
* `LockReach.reach` : then a run is one of the ring
-/

namespace TenzorBus

open Conc

variable {P : Platform} {L : RingLayout} {n : Nat}

/-- `b` waits for the lock, and takes it from its holder. -/
inductive TakesOver (b : Actor) (c : RingConfig P L) : RingConfig P L → Prop
  | take (a : Actor) (k : Unit → RingM P L.slotCount Unit) (held : c.mem.1.lock = some a)
      (other : b ≠ a) (live : c.mem.1.aliveActor b)
      (waits : c.pool b = (lockRegistry b).bind k) :
      TakesOver b c { mem := ({ c.mem.1 with lock := some b }, c.mem.2),
                      pool := Function.update c.pool b (k ()) }

/-- A step of `a`: its next action, or that it takes the lock from its holder. -/
inductive StepOf (a : Actor) (c : RingConfig P L) : RingConfig P L → Prop
  | act (p : RingM P L.slotCount Unit) (m : State P L.slotCount × Ghost L.slotCount)
      (live : c.mem.1.aliveActor a) (h : (c.pool a).next? c.mem = some (p, m)) :
      StepOf a c { mem := m, pool := Function.update c.pool a p }
  | takeOver {d : RingConfig P L} (h : TakesOver a c d) : StepOf a c d

/-- A step of the ring, or one by which somebody takes the lock from its holder. -/
def LockStep (c d : RingConfig P L) : Prop := (ringSystem P L).Step c d ∨ ∃ b, TakesOver b c d

/-- What is reached from `init` through such steps that satisfy `ok`. -/
def LockReach
    (ok : State P L.slotCount × Ghost L.slotCount → State P L.slotCount × Ghost L.slotCount → Prop)
    (init : RingConfig P L → Prop) (c : RingConfig P L) : Prop :=
  ∃ c₀, init c₀ ∧ Relation.ReflTransGen (fun c d => LockStep c d ∧ ok c.mem d.mem) c₀ c

/-- The lock is not taken from a holder that is alive. -/
def Exclusive (m m' : State P n × Ghost n) : Prop :=
  ∀ a b, m.1.lock = some a → m'.1.lock = some b → m.1.aliveActor a → b = a

/-- The lock of the dead is there to be taken. -/
theorem TakesOver.next? {b : Actor} {c d : RingConfig P L} (h : TakesOver b c d)
    (hx : Exclusive c.mem d.mem) : ∃ p, c.mem.1.aliveActor b ∧
      (c.pool b).next? c.mem = some (p, d.mem) ∧ d.pool = Function.update c.pool b p := by
  obtain ⟨a, k, held, other, live, waits⟩ := h
  have hdead : ¬c.mem.1.aliveActor a := fun ha => other (hx a b held rfl ha)
  have hfree : c.mem.1.lockFree = true := by
    unfold State.lockFree
    rw [held]
    simpa [State.aliveActor] using hdead
  refine ⟨k (), live, ?_, rfl⟩
  rw [waits, lockRegistry, Prog.atomic, Prog.bind, Prog.next?, if_pos hfree]
  rfl

theorem TakesOver.step {b : Actor} {c d : RingConfig P L} (h : TakesOver b c d)
    (hx : Exclusive c.mem d.mem) : (ringSystem P L).Step c d := by
  obtain ⟨p, live, hn, hpool⟩ := h.next? hx
  obtain ⟨m, pool⟩ := d
  cases hpool
  exact .act b p m live hn

theorem StepOf.next? {a : Actor} {c d : RingConfig P L} (h : StepOf a c d)
    (hx : Exclusive c.mem d.mem) :
    ∃ p, c.mem.1.aliveActor a ∧ (c.pool a).next? c.mem = some (p, d.mem) := by
  cases h with
  | act p m live hn => exact ⟨p, live, hn⟩
  | takeOver h =>
    obtain ⟨p, live, hn, -⟩ := h.next? hx
    exact ⟨p, live, hn⟩

section

variable {ok : State P L.slotCount × Ghost L.slotCount →
    State P L.slotCount × Ghost L.slotCount → Prop}
  {init : RingConfig P L → Prop} {c : RingConfig P L}

theorem LockReach.reach (hok : ∀ m m', ok m m' → Exclusive m m') (h : LockReach ok init c) :
    (ringSystem P L).Reach ok init c := by
  obtain ⟨c₀, hinit, hrun⟩ := h
  induction hrun with
  | refl => exact .init hinit
  | tail _ hs ih =>
    obtain ⟨hs | ⟨b, hs⟩, hm⟩ := hs
    · exact ih.step hs hm
    · exact ih.step (hs.step (hok _ _ hm)) hm

theorem LockReach.of_reach (h : (ringSystem P L).Reach ok init c) : LockReach ok init c := by
  induction h with
  | init h => exact ⟨_, h, .refl⟩
  | step _ hs hm ih =>
    obtain ⟨c₀, hinit, hrun⟩ := ih
    exact ⟨c₀, hinit, hrun.tail ⟨.inl hs, hm⟩⟩

end

end TenzorBus
