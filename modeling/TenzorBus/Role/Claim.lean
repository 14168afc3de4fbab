import TenzorBus.Conc.Script
import TenzorBus.Processes

/-!
# The producer role (`Ring::producer`, `Drop for Producer`)

One pid word in the mapping says which process is the producer. Each attachment of a process to the
ring (`Inner`) counts the `Producer` handles that were made through it.

* `Handle` : a handle that a thread makes and drops, one after the other
* `State`, `Ghost` : the words, where each handle is, and the history
* `attach`, `producer`, `drop` : the programs
* `roleSystem` : any number of processes, attachments, threads and handles
-/

namespace TenzorBus.Role

open Conc

/-- A place for a `Producer` handle, in a process and made through one of its attachments. -/
structure Handle where
  proc : Nat
  attachment : Nat
  id : Nat
  deriving DecidableEq

/-- There is no handle; `producer` has stored the pid; it has also counted the handle; the handle
has been returned; `drop` has found that it was the last one of its attachment. -/
inductive Phase
  | none
  | claimed
  | counted
  | live
  | last
  deriving DecidableEq

/-- A handle that exists, or that `producer` is about to return. -/
def Phase.engaged : Phase → Bool
  | .none | .last => false
  | .claimed | .counted | .live => true

structure State where
  producerPid : UInt32
  lock : Option Handle
  /-- Which attachments there are, and the counter of each. -/
  attached : Nat → Nat → Bool
  producers : Nat → Nat → Nat
  phase : Handle → Phase
  procs : Processes

/-- `producer` was refused: who had claimed the role, and whether that process was alive. -/
structure Refusal where
  claimant : Option Nat
  alive : Bool
  deriving DecidableEq

/-- The history: which process has claimed the role, the refusals, and the handles whose `drop` has
handed the role back. -/
structure Ghost where
  claimant : Option Nat
  refusals : List Refusal
  handbacks : List Handle

abbrev RoleM := Prog State Ghost

def State.goto (s : State) (x : Handle) (ph : Phase) : State :=
  { s with phase := Function.update s.phase x ph }

/-- The process that claimed the role is alive. -/
def State.claimantAlive (s : State) (g : Ghost) : Bool := g.claimant.any s.procs.alive

/-- The counter of an attachment. -/
def State.count (s : State) (x : Handle) (f : Nat → Nat) : State :=
  { s with
    producers := Function.update s.producers x.proc
      (Function.update (s.producers x.proc) x.attachment (f (s.producers x.proc x.attachment))) }

/-! ## the programs -/

variable (T : ProcessTable) (x : Handle)

/-- `Ring::attach`, as far as the role is concerned: an `Inner` with its counter at zero. -/
def attach : RoleM Unit :=
  Prog.modify fun s =>
    { s.count x (fun _ => 0) with
      attached := Function.update s.attached x.proc
        (Function.update (s.attached x.proc) x.attachment true) }

/-- The registry lock, as a mutex that a dead holder loses. -/
def lockRegistry : RoleM Unit :=
  Prog.atomic fun s =>
    if s.lock.all fun y => !s.procs.alive y.proc then some ((), { s with lock := some x }) else none

def unlockRegistry : RoleM Unit := Prog.modify fun s => { s with lock := none }

/-- `shm::pid_alive`; that a pid is alive leads to a refusal. -/
def pidAlive (held : UInt32) : RoleM Bool :=
  Prog.atomicWith (fun s => some (s.procs.check T held 0, s)) fun alive s g =>
    if alive then
      { g with refusals := { claimant := g.claimant, alive := s.claimantAlive g } :: g.refusals }
    else g

/-- The part of `producer` behind the check. -/
def claim : RoleM Bool := do
  Prog.modifyWith (fun s => { s with producerPid := T.pid x.proc }.goto x .claimed)
    fun _ g => { g with claimant := some x.proc }
  Prog.modify fun s => (s.count x (· + 1)).goto x .counted
  unlockRegistry
  Prog.modify fun s => s.goto x .live
  return true

/-- `Ring::producer`: claim the single-producer role. -/
def producer : RoleM Bool := do
  lockRegistry x
  let held ← Prog.read fun s => s.producerPid
  if held ≠ 0 ∧ held ≠ T.pid x.proc then
    let alive ← pidAlive T held
    if alive then
      unlockRegistry
      return false
    else
      claim T x
  else
    claim T x

/-- `Drop for Producer`. The last handle of the attachment hands the role back. -/
def drop : RoleM Unit := do
  let previous ← Prog.atomic fun s =>
    some (s.producers x.proc x.attachment,
      (s.count x (· - 1)).goto x
        (if s.producers x.proc x.attachment = 1 then .last else .none))
  if previous ≠ 1 then
    return
  else
    Prog.modifyWith
      (fun s =>
        if s.producerPid = T.pid x.proc then { s with producerPid := 0 }.goto x .none
        else s.goto x .none)
      fun s g =>
        if s.producerPid = T.pid x.proc then
          { g with claimant := none, handbacks := x :: g.handbacks }
        else g

/-! ## the system -/

/-- What the threads of a process that has been started may call. -/
inductive Starts (s : State) : Handle → RoleM Unit → Prop
  | attach (x : Handle) (h : s.attached x.proc x.attachment = false) : Starts s x (attach x)
  | producer (x : Handle) (h : s.attached x.proc x.attachment = true)
      (hp : s.phase x = .none) : Starts s x ((producer T x).bind fun _ => .ret ())
  | drop (x : Handle) (hp : s.phase x = .live) : Starts s x (drop T x)

/-- Processes are started and die; the threads of those that have not died run. -/
def roleSystem : System Handle State Ghost where
  starts x s p := s.procs.born.contains x.proc = true ∧ Starts T s x p
  live x s := s.procs.died.contains x.proc = false
  env m m' := ∃ procs, Processes.Step T m.1.procs procs ∧ m' = ({ m.1 with procs := procs }, m.2)

abbrev RoleConfig := Config Handle State Ghost

/-- A ring that nobody has attached to yet, on a system without processes. -/
def RoleConfig.init : RoleConfig :=
  { mem := ({ producerPid := 0, lock := none, attached := fun _ _ => false,
              producers := fun _ _ => 0, phase := fun _ => .none,
              procs := { born := [], died := [] } },
            { claimant := none, refusals := [], handbacks := [] }),
    pool := fun _ => .ret () }

end TenzorBus.Role
