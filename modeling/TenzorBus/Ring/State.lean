import TenzorBus.Conc.System
import TenzorBus.Core
import Mathlib.Data.Fintype.Pi

/-!
# The state of a ring and of the processes that use it

* `Ring` : the words of the shared mapping
* `State` : the mapping, the registry lock, the operating system, and what the processes hold:
  consumer handles, leases and slot writers
* `Ghost` : the history that the theorems talk about. No program reads it.

The registry lock is a mutex here (`lock`): a holder that has died loses it to the next one who
asks. The futex protocol that implements it is modelled in `TenzorBus.Futex`.
-/

namespace TenzorBus

open Conc

/-! ## who takes part -/

/-- Whoever runs operations one after the other: a consumer handle with its leases, a thread of a
producer with at most one reservation in hand, or somebody who sweeps. -/
inductive Actor
  | consumer (c : Nat)
  | writer (t : Nat)
  | sweeper (k : Nat)
  deriving DecidableEq

/-- The operating system, as far as the ring asks it. Processes are told apart by numbers that are
never reused; their pids may be. -/
structure Platform where
  Os : Type
  /-- What the system does on its own: clocks tick, processes are started and die. -/
  step : Os → Os → Prop
  /-- The process has not died; it has been started and has not died. -/
  alive : Os → Nat → Bool
  running : Os → Nat → Bool
  alive_of_step : ∀ os os' p, step os os' → alive os' p = true → alive os p = true
  running_of_step : ∀ os os' p, step os os' → running os p = true → alive os' p = true →
    running os' p = true
  /-- The process of an actor, and its pid. -/
  proc : Actor → Nat
  pid : Nat → UInt32
  /-- `shm::pid_start_token` and `shm::pid_alive_with_token`. -/
  pidStartToken : Os → UInt32 → UInt32
  pidAliveWithToken : Os → UInt32 → UInt32 → Bool
  /-- `Instant::now` and `shm::now_ns`. -/
  now : Os → Nat
  nowNs : Os → UInt64
  debugAssertions : Bool

/-- `std::process::id`. -/
def Platform.me (P : Platform) (a : Actor) : UInt32 := P.pid (P.proc a)

/-! ## the shared mapping -/

/-- The words of the mapping that the ring's operations use. -/
structure Ring (n : Nat) where
  nextSeq : UInt64
  consumers : UInt32
  publishCount : UInt64
  dropCount : UInt64
  publishFutex : UInt32
  reclaimFutex : UInt32
  registryEpoch : UInt32
  reapedCount : UInt64
  entries : Fin 64 → ConsumerEntry
  slots : Fin n → Slot

def Ring.setSlot {n : Nat} (r : Ring n) (i : Fin n) (f : Slot → Slot) : Ring n :=
  { r with slots := Function.update r.slots i (f (r.slots i)) }

def Ring.setEntry {n : Nat} (r : Ring n) (i : Fin 64) (f : ConsumerEntry → ConsumerEntry) :
    Ring n :=
  { r with entries := Function.update r.entries i (f (r.entries i)) }

/-- A ring as `format` leaves it, its sequence counter set to `k` (`set_next_sequence`). -/
def Ring.format (n : Nat) (k : UInt64) : Ring n :=
  { nextSeq := k, consumers := 0, publishCount := 0, dropCount := 0, publishFutex := 0,
    reclaimFutex := 0, registryEpoch := 0, reapedCount := 0, entries := fun _ => .zero,
    slots := fun _ => .zero }

/-! ## what the processes hold -/

inductive Backpressure
  | block
  | dropNewest
  deriving DecidableEq

inductive Error
  | ringFull
  | timeout
  | capacity (m : String)
  | invalid (m : String)
  | leaseViolation (m : String)
  deriving DecidableEq, Repr

structure PublishResult (n : Nat) where
  sequence : UInt64
  slotIndex : Fin n
  nbytes : Nat
  readers : Nat

structure TensorMeta (n : Nat) where
  sequence : UInt64
  timestampNs : UInt64
  nbytes : Nat
  dtype : DType
  ndim : Nat
  shape : Fin maxNdim → UInt32
  strides : Fin maxNdim → UInt32
  slotIndex : Fin n
  readersRemaining : Nat
  deriving DecidableEq

/-- A `Consumer` handle. `lastSequence` and `closed` are its cells. -/
structure Consumer where
  index : Fin 64
  generation : UInt32
  lastSequence : UInt64
  closed : Bool

/-- A `SlotWriter` that has been neither committed nor dropped. -/
structure SlotWriter (n : Nat) where
  slot : Fin n
  sequence : UInt64
  mask : UInt64
  nbytes : Nat

/-- The two futex words that somebody sleeps on. -/
inductive FutexWord
  | publish
  | reclaim
  deriving DecidableEq

def Ring.futexWord {n : Nat} (r : Ring n) : FutexWord → UInt32
  | .publish => r.publishFutex
  | .reclaim => r.reclaimFutex

structure State (P : Platform) (n : Nat) where
  ring : Ring n
  lock : Option Actor
  os : P.Os
  /-- Who sleeps in `futex::wait`, on which word and with which expected value. -/
  asleep : Actor → Option (FutexWord × UInt32)
  consumer : Nat → Option Consumer
  /-- The leases of a consumer that are not released. -/
  leases : Nat → List (TensorMeta n)
  writer : Nat → Option (SlotWriter n)

variable {P : Platform} {n : Nat}

def State.aliveActor (s : State P n) (a : Actor) : Prop := P.alive s.os (P.proc a) = true

def State.running (s : State P n) (a : Actor) : Prop := P.running s.os (P.proc a) = true

/-- The consumer handle `c` exists and has not been closed. -/
def State.isOpen (s : State P n) (c : Nat) (h : Consumer) : Prop :=
  s.consumer c = some h ∧ h.closed = false

/-! ## the history -/

/-- How far a reservation is: its slot is `STATE_WRITING` and the header is being written, the
sequence is written, the reader mask is written; the counter has been advanced and the writer
has the slot in hand; it is being aborted and the mask has been cleared; or the slot has been
given back and only the number is still to be returned. -/
inductive Phase
  | header
  | numbered
  | masked
  | inHand
  | aborting
  | returning
  deriving DecidableEq

/-- An unfinished reservation: the slot, the reader mask captured, and which registration held
each registry entry then. -/
structure Reservation (n : Nat) where
  slot : Fin n
  mask : UInt64
  owners : Fin 64 → Option Nat
  phase : Phase

/-- A registration: its registry entry and the number that its `last_sequence` stands for. -/
structure Registration where
  index : Fin 64
  last : Int
  /-- `close` has been called. -/
  closing : Bool
  /-- How many publications were committed when the consumer registered. -/
  start : Nat
  /-- No reservation was unfinished then. -/
  quiet : Prop
  /-- The numbers that the unfinished reservations had then. -/
  during : Int → Prop

/-- What a commit made visible: the words in place at the commit and the mask captured at the
reservation. -/
structure Publication (n : Nat) where
  slot : Fin n
  sequence : UInt64
  header : TensorHeader
  payload : Nat → UInt8
  mask : UInt64

/-- A call of `try_take`: how many publications were committed when it began, how many the
consumer had been handed, and the answer. -/
structure Try (n : Nat) where
  start : Nat
  handed : Nat
  result : Option (TensorMeta n)

/-- What `read_validated` returned, to whom, with the payload at that moment and how many
publications were committed. -/
structure Validation (n : Nat) where
  consumer : Nat
  tensor : TensorMeta n
  payload : Nat → UInt8
  published : Nat

/-- What the liveness check was asked about. -/
inductive Subject (n : Nat)
  | entry (i : Fin 64)
  | slot (j : Fin n)

/-- An answer of the liveness check. -/
structure Verdict (n : Nat) where
  subject : Subject n
  alive : Bool

/-- A sweep that is going on: who was alive when it began, and the answers that there were. -/
structure Sweep (n : Nat) where
  alive : Actor → Bool
  before : List (Verdict n)

/-- The history. The counters are not bounded: `seqWord` of a number is the word in memory. -/
structure Ghost (n : Nat) where
  /-- The number of the slot's sequence, and of the next one to assign. -/
  num : Fin n → Int
  next : Int
  reservation : Nat → Option (Reservation n)
  /-- How many reservations have been begun. -/
  begun : Nat
  /-- Who holds a registry entry, and the registrations. -/
  holder : Fin 64 → Option Nat
  registration : Nat → Option Registration
  published : List (Publication n)
  /-- The position in `published` of what the slot was last committed with. -/
  position : Fin n → Nat
  handed : Nat → List (TensorMeta n)
  /-- The numbers of what a consumer has been handed. -/
  taken : Nat → List Int
  /-- How many publications were committed when the current `try_take` began. -/
  trying : Nat → Nat
  tries : Nat → List (Try n)
  validated : List (Validation n)
  verdicts : List (Verdict n)
  /-- The consumers whose `release` was answered with `Error::LeaseViolation`, and those whose
  registration was refused. -/
  violations : List Nat
  refused : List Nat
  /-- The actor who has just made a registry entry active (`true`) or free and has not yet stored
  `G_CONSUMERS`. -/
  counting : Option (Actor × Bool)
  /-- The slot whose mask an actor has changed without having stored the number of its readers,
  and who was the last to change the mask of a slot, until the number is stored. -/
  changing : Actor → Option (Fin n)
  latest : Fin n → Option Actor
  sweeping : Actor → Option (Sweep n)

/-! ## atomic accesses -/

/-- The programs of the ring's operations. -/
abbrev RingM (P : Platform) (n : Nat) := Prog (State P n) (Ghost n)

def load {β : Type} (f : Ring n → β) : RingM P n β := Prog.read fun s => f s.ring

def store (f : Ring n → Ring n) : RingM P n Unit := Prog.modify fun s => { s with ring := f s.ring }

def loadSlot {β : Type} (i : Fin n) (f : Slot → β) : RingM P n β := load fun r => f (r.slots i)

def storeSlot (i : Fin n) (f : Slot → Slot) : RingM P n Unit := store fun r => r.setSlot i f

/-- A store to a slot that the history takes note of. -/
def storeSlotWith (i : Fin n) (f : Slot → Slot) (aux : State P n → Ghost n → Ghost n) :
    RingM P n Unit :=
  Prog.modifyWith (fun s => { s with ring := s.ring.setSlot i f }) aux

def loadEntry {β : Type} (i : Fin 64) (f : ConsumerEntry → β) : RingM P n β :=
  load fun r => f (r.entries i)

def storeEntry (i : Fin 64) (f : ConsumerEntry → ConsumerEntry) : RingM P n Unit :=
  store fun r => r.setEntry i f

/-- Actor `a` changes the mask of slot `i`. -/
def Ghost.change (g : Ghost n) (a : Actor) (i : Fin n) : Ghost n :=
  { g with
    changing := Function.update g.changing a (some i)
    latest := Function.update g.latest i (some a) }

/-- Actor `a` stores the number of readers of slot `i`. -/
def Ghost.settle (g : Ghost n) (a : Actor) (i : Fin n) : Ghost n :=
  { g with
    changing := Function.update g.changing a none
    latest := Function.update g.latest i ((g.latest i).filter (· ≠ a)) }

/-- `slot_mask(i).fetch_and(!bit)`, with what becomes of the process that does it. -/
def fetchAndMask (i : Fin n) (b : UInt64) (local' : State P n → State P n)
    (aux : UInt64 → Ghost n → Ghost n) : RingM P n UInt64 :=
  Prog.atomicWith
    (fun s => some ((s.ring.slots i).readersMask,
      local' { s with
        ring := s.ring.setSlot i fun t => { t with readersMask := t.readersMask &&& ~~~b } }))
    fun previous _ g => aux previous g

/-- `slot_readers(i).store(count)`, by actor `a`. -/
def storeReaders (a : Actor) (i : Fin n) (count : Nat) : RingM P n Unit :=
  storeSlotWith i (fun t => { t with readersRemaining := UInt16.ofNat count })
    fun _ g => g.settle a i

/-! ## the operating system -/

def pidStartToken (pid : UInt32) : RingM P n UInt32 := Prog.read fun s => P.pidStartToken s.os pid

/-- `shm::pid_alive_with_token`, noted in the history. -/
def pidAliveWithToken (subject : Subject n) (pid token : UInt32) : RingM P n Bool :=
  Prog.atomicWith (fun s => some (P.pidAliveWithToken s.os pid token, s))
    fun b _ g => { g with verdicts := { subject := subject, alive := b } :: g.verdicts }

/-- `shm::pid_alive`. -/
def pidAlive (subject : Subject n) (pid : UInt32) : RingM P n Bool :=
  pidAliveWithToken subject pid 0

def now : RingM P n Nat := Prog.read fun s => P.now s.os

def nowNs : RingM P n UInt64 := Prog.read fun s => P.nowNs s.os

/-! ## futexes -/

/-- `futex::wait`: the kernel puts the caller to sleep if the word still has the expected value;
it wakes up when somebody signals, when the time is over, or for no reason. -/
def futexWait (a : Actor) (w : FutexWord) (expected : UInt32) : RingM P n Unit := do
  Prog.modify fun s =>
    if s.ring.futexWord w = expected then
      { s with asleep := Function.update s.asleep a (some (w, expected)) }
    else s
  Prog.modify fun s => { s with asleep := Function.update s.asleep a none }

/-- Wake everyone who sleeps on the word. -/
def wakeAll (w : FutexWord) : RingM P n Unit :=
  Prog.modify fun s =>
    { s with asleep := fun a => (s.asleep a).filter fun x => decide (x.1 ≠ w) }

/-- `futex::signal`: bump the word, then wake everyone. -/
def signal (w : FutexWord) : RingM P n Unit := do
  store fun r =>
    match w with
    | .publish => { r with publishFutex := r.publishFutex + 1 }
    | .reclaim => { r with reclaimFutex := r.reclaimFutex + 1 }
  wakeAll w

/-! ## the registry lock -/

/-- The lock is free, or its holder has died. -/
def State.lockFree (s : State P n) : Bool :=
  match s.lock with
  | none => true
  | some a => !P.alive s.os (P.proc a)

def lockRegistry (a : Actor) : RingM P n Unit :=
  Prog.atomic fun s => if s.lockFree then some ((), { s with lock := some a }) else none

def unlockRegistry : RingM P n Unit := Prog.modify fun s => { s with lock := none }

end TenzorBus
