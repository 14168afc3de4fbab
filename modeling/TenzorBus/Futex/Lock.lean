import TenzorBus.Conc.Script
import TenzorBus.Conc.Alone
import Mathlib.Data.Set.Function

/-!
# The registry lock (`futex::lock`, `futex::unlock`)

A mutex between processes in three words of the mapping. A waiter that finds the recorded owner
dead takes the lock over.

* `State` : the three words, the processes, and where each thread is
* `Ghost` : what the liveness checks have answered, from whom the lock was taken over, who has it
* `lock`, `recover`, `unlock` : the programs
* `lockSystem` : any number of threads of any number of processes, that may die at any moment
-/

namespace TenzorBus.Futex

open Conc

/-! ## processes and words -/

/-- A thread of the process with this pid. -/
structure Thread where
  pid : UInt32
  id : Nat
  deriving DecidableEq

/-- The start tokens of the processes, by pid. -/
structure StartTokens where
  token : UInt32 → UInt32
  distinct : Function.Injective token

/-- Where a thread is: outside of `lock` and `unlock` and without the lock; in `lock`; it has taken
the word; it has stored its pid; it has stored its pid over the one of a dead process; it has the
lock; in `unlock`, its pid is gone from the words; it has released the word. -/
inductive Phase
  | idle
  | waiting
  | taken
  | recorded
  | recovering
  | inside
  | clearing
  | leaving
  deriving DecidableEq

/-- The thread has taken the lock and has not yet released it. -/
def Phase.engaged : Phase → Bool
  | .idle | .waiting | .leaving => false
  | .taken | .recorded | .recovering | .inside | .clearing => true

def unlocked : UInt32 := 0
def locked : UInt32 := 1
def contended : UInt32 := 2

/-- The three words, the processes that have died, and where each thread is. -/
structure State where
  word : UInt32
  owner : UInt32
  ownerToken : UInt32
  dead : List UInt32
  phase : Thread → Phase

/-- A process with this pid is alive. None has pid 0. -/
def State.alive (s : State) (p : UInt32) : Bool := p != 0 && !s.dead.contains p

/-- An answer of the liveness check to a waiter. -/
structure Check where
  holder : UInt32
  token : UInt32
  alive : Bool
  deriving DecidableEq

/-- The history: the answers of the liveness check, the pids that were in `owner` when somebody
took the lock over, and who has the lock. -/
structure Ghost where
  checks : List Check
  takeovers : List UInt32
  holder : Option Thread

abbrev LockM := Prog State Ghost

/-- The next phase of a thread. -/
def State.goto (s : State) (i : Thread) (ph : Phase) : State :=
  { s with phase := Function.update s.phase i ph }

/-- `shm::pid_alive_with_token`, on a system that tells the start tokens of its processes. -/
def pidAliveWithToken (T : StartTokens) (s : State) (pid token : UInt32) : Bool :=
  pid != 0 && s.alive pid && (token == 0 || T.token pid == token)

/-! ## the programs -/

variable (T : StartTokens) (i : Thread)

/-- `word.compare_exchange(UNLOCKED, LOCKED)`. -/
def compareExchange : LockM Bool :=
  Prog.atomicWith
    (fun s => some (if s.word = unlocked then (true, { s with word := locked }.goto i .taken)
      else (false, s.goto i .waiting)))
    fun ok _ g => if ok then { g with holder := some i } else g

/-- `word.swap(CONTENDED)`. -/
def swapContended : LockM UInt32 :=
  Prog.atomicWith
    (fun s => some (s.word, if s.word = unlocked then { s with word := contended }.goto i .taken
      else { s with word := contended }))
    fun previous _ g => if previous = unlocked then { g with holder := some i } else g

/-- The two stores of a thread that has taken the word. -/
def record : LockM Unit := do
  Prog.modify fun s => { s with owner := i.pid }.goto i .recorded
  Prog.modify fun s => { s with ownerToken := T.token i.pid }.goto i .inside

/-- `pid_alive_with_token`, noted in the history. -/
def check (holder token : UInt32) : LockM Bool :=
  Prog.atomicWith (fun s => some (pidAliveWithToken T s holder token, s))
    fun alive _ g => { g with checks := { holder, token, alive } :: g.checks }

/-- The three stores of the recovery path. -/
def takeOver : LockM Unit := do
  Prog.modifyWith (fun s => { s with owner := i.pid }.goto i .recovering)
    fun s g => { g with takeovers := s.owner :: g.takeovers, holder := some i }
  Prog.modify fun s => { s with ownerToken := T.token i.pid }
  Prog.modify fun s => { s with word := contended }.goto i .inside

/-- The recovery path: the holder died without unlocking. -/
def recover : LockM Bool := do
  let word ← Prog.read fun s => s.word
  if word ≠ unlocked then
    let holder ← Prog.read fun s => s.owner
    let holderToken ← Prog.read fun s => s.ownerToken
    if holder ≠ 0 ∧ holder ≠ i.pid then
      let alive ← check T holder holderToken
      if alive then
        return false
      else
        takeOver T i
        return true
    else
      return false
  else
    return false

/-- `futex::lock`. A wait ends when somebody wakes the waiter, after 20 ms, or for no reason. -/
def lock : LockM Unit := do
  let ok ← compareExchange i
  if ok then
    record T i
  else
    Prog.loop do
      let previous ← swapContended i
      if previous = unlocked then
        record T i
        return some ()
      else
        Prog.modify id
        let recovered ← recover T i
        return if recovered then some () else none

/-- `futex::unlock`. -/
def unlock : LockM Unit := do
  Prog.modify fun s => { s with owner := 0 }.goto i .clearing
  Prog.modify fun s => { s with ownerToken := 0 }
  let previous ← Prog.atomicWith
    (fun s => some (s.word, { s with word := unlocked }.goto i .leaving))
    fun _ _ g => { g with holder := none }
  -- a waiter that is woken goes round its loop, like one whose time is over
  if previous = contended then Prog.modify id
  Prog.modify fun s => s.goto i .idle

/-! ## the system -/

/-- A thread without the lock may call `lock`, one that has it `unlock`. -/
inductive Starts (s : State) : Thread → LockM Unit → Prop
  | lock (i : Thread) (h : s.phase i = .idle) : Starts s i (lock T i)
  | unlock (i : Thread) (h : s.phase i = .inside) : Starts s i (unlock i)

/-- A process dies. -/
def State.kill (s : State) (p : UInt32) : State := { s with dead := p :: s.dead }

/-- The threads of the live processes run, and processes die. -/
def lockSystem : System Thread State Ghost where
  starts i s p := Starts T s i p
  live i s := s.alive i.pid
  env m m' := ∃ p, m' = (m.1.kill p, m.2)

abbrev LockConfig := Config Thread State Ghost

/-- A lock that nobody has taken yet. -/
def LockConfig.init : LockConfig :=
  { mem := ({ word := unlocked, owner := 0, ownerToken := 0, dead := [], phase := fun _ => .idle },
            { checks := [], takeovers := [], holder := none }),
    pool := fun _ => .ret () }

end TenzorBus.Futex
