import TenzorBus.Bindings.Objects
import TenzorBus.Ring.Session

/-!
# Programs that use the bindings

The session of a ring together with the objects that its users have made, and everything that the
users can do: make the calls of the API, release or drop an object, make an array from one and let
go of it, in any order.

* `Interp` : the session, the objects and the buffers that have been exported
* `Event` : what happens
* `Interp.next?` : one event
* `Interp.Prompt` : no consumer is used after its `close`
* `Run` : a run, with conditions on its events and on the memory

A view of a lease is writable, but the contract is that consumers do not write.
-/

namespace TenzorBus.Bindings

open Conc

variable {P : Platform} {L : RingLayout} {n : Nat}

/-- A buffer that has been exported, by the place of the object that it is a view of. -/
inductive View
  | lease (i : Nat)
  | writer (i : Nat)
  deriving DecidableEq

structure Interp (P : Platform) (L : RingLayout) extends Session P L where
  /-- All objects that have been made. -/
  leases : List (PyLease L.slotCount)
  writers : List (PySlotWriter L.slotCount)
  /-- The buffers that have not been released. -/
  views : List View
  /-- What has been raised. -/
  raised : List PyErr

/-- What happens. Objects are named by their place in the order in which they were made. -/
inductive Event
  /-- A call that is about no lease and no slot writer. -/
  | call (r : Request)
  /-- `PyConsumer::close` and `__exit__`; the drop of a `PyConsumer`. -/
  | close (c : Nat)
  | dropConsumer (c : Nat)
  | getBuffer (v : View)
  | releaseBuffer (v : View)
  | releaseLease (i : Nat)
  | dropLease (i : Nat)
  /-- A write through a view of a slot writer. -/
  | write (i : Nat) (off : Nat) (b : UInt8)
  | setTimestampNs (i : Nat) (timestampNs : UInt64)
  | commit (i : Nat)
  | abort (i : Nat)
  | dropWriter (i : Nat)
  /-- An atomic action of a call, and its return. -/
  | step (a : Actor)
  | reply (a : Actor)

/-- The call is about no lease and no slot writer. -/
def plain : Request → Bool
  | .register _ | .next .. | .publish .. | .reserve .. | .sweep _ => true
  | _ => false

/-- The error that a call returns. -/
def error? : Reply n → Option Error
  | .registered (.error e) | .delivered (.error e) | .published (.error e)
  | .reserved (.error e) | .released (.error e) => some e
  | _ => none

namespace Interp

/-- Actor `a` begins a call. -/
def start (x : Interp P L) (a : Actor) (p : RingM P L.slotCount (Reply L.slotCount)) :
    Option (Interp P L) :=
  if (x.pool a).isNone ∧ P.alive x.mem.1.os (P.proc a) = true ∧
      P.running x.mem.1.os (P.proc a) = true then
    some { x with pool := Function.update x.pool a (some p) }
  else none

def request (x : Interp P L) (r : Request) : Option (Interp P L) :=
  (r.program L x.mem.1).bind (x.start r.actor)

def raise (x : Interp P L) (e : PyErr) : Interp P L := { x with raised := e :: x.raised }

/-- The method of an object that somebody refers to. -/
def onLease (x : Interp P L) (i : Nat) (f : PyLease L.slotCount → Option (Interp P L)) :
    Option (Interp P L) :=
  (x.leases[i]?).bind fun o => if o.dropped then none else f o

def onWriter (x : Interp P L) (i : Nat) (f : PySlotWriter L.slotCount → Option (Interp P L)) :
    Option (Interp P L) :=
  (x.writers[i]?).bind fun o => if o.dropped then none else f o

def setLease (x : Interp P L) (i : Nat) (o : PyLease L.slotCount) : Interp P L :=
  { x with leases := x.leases.set i o }

def setWriter (x : Interp P L) (i : Nat) (o : PySlotWriter L.slotCount) : Interp P L :=
  { x with writers := x.writers.set i o }

/-- `release_raw`, if there is something to release; `f` says what becomes of its result. Whether
the consumer has been closed is not asked. -/
def releaseRaw (x : Interp P L) (f : Except Error Unit → Reply L.slotCount) (c : Nat) :
    Option (TensorMeta L.slotCount) → Option (Interp P L)
  | none => some x
  | some m => (x.mem.1.consumer c).bind fun h =>
      x.start (.consumer c) (replying f (Consumer.release c h m))

/-- `SlotWriter::abort`, if there is something to abort. -/
def abortRaw (x : Interp P L) (t : Nat) : Option (SlotWriter L.slotCount) → Option (Interp P L)
  | none => some x
  | some w => x.start (.writer t) (replying (fun _ => .done) (w.abort t))

/-- What a call returns becomes an object. -/
def receive (x : Interp P L) : Actor → Reply L.slotCount → Interp P L
  | .consumer c, .delivered (.ok m) => { x with leases := x.leases ++ [.new c m] }
  | .writer t, .reserved (.ok (some w)) => { x with writers := x.writers ++ [.new t w] }
  | _, _ => x

/-- A view is gone. -/
def forget (x : Interp P L) (v : View) : Interp P L := { x with views := x.views.erase v }

/-- One event, if it can happen. -/
def next? (x : Interp P L) : Event → Option (Interp P L)
  | .call r => if plain r then x.request r else none
  | .close c => x.request (.close c)
  | .dropConsumer c =>
    if x.leases.all fun o => o.keeper ≠ c ∨ o.dropped then x.request (.close c) else none
  | .getBuffer (.lease i) => x.onLease i fun o =>
    match PyLease.getBuffer o with
    | .error e => some (x.raise e)
    | .ok o => some { x.setLease i o with views := .lease i :: x.views }
  | .getBuffer (.writer i) => x.onWriter i fun o =>
    match PySlotWriter.getBuffer o with
    | .error e => some (x.raise e)
    | .ok o => some { x.setWriter i o with views := .writer i :: x.views }
  | .releaseBuffer (.lease i) => x.onLease i fun o =>
    if .lease i ∈ x.views then some ((x.setLease i o.letGo).forget (.lease i)) else none
  | .releaseBuffer (.writer i) => x.onWriter i fun o =>
    if .writer i ∈ x.views then some ((x.setWriter i o.letGo).forget (.writer i)) else none
  | .releaseLease i => x.onLease i fun o =>
    match PyLease.release o with
    | .error e => some (x.raise e)
    | .ok (o, m) => (x.setLease i o).releaseRaw .released o.keeper m
  | .dropLease i => x.onLease i fun o =>
    if .lease i ∈ x.views then none
    else (x.setLease i o.drop).releaseRaw (fun _ => .done) o.keeper o.item
  | .write i off b => x.onWriter i fun o =>
    if .writer i ∈ x.views then
      o.item.bind fun w =>
        if off < w.nbytes then
          x.start (.writer o.keeper) (replying (fun _ => .done) (Producer.writeByte w.slot off b))
        else none
    else none
  | .setTimestampNs i timestampNs => x.onWriter i fun o =>
    match PySlotWriter.getWriter o with
    | .error e => some (x.raise e)
    | .ok w =>
      x.start (.writer o.keeper) (replying (fun _ => .done) (w.setTimestampNs timestampNs))
  | .commit i => x.onWriter i fun o =>
    match PySlotWriter.commit o with
    | .error e => some (x.raise e)
    | .ok (o, w) =>
      (x.setWriter i o).start (.writer o.keeper) (replying .committed (w.commit o.keeper))
  | .abort i => x.onWriter i fun o =>
    match PySlotWriter.abort o with
    | .error e => some (x.raise e)
    | .ok (o, w) => (x.setWriter i o).abortRaw o.keeper w
  | .dropWriter i => x.onWriter i fun o =>
    if .writer i ∈ x.views then none
    else (x.setWriter i o.drop).abortRaw o.keeper o.item
  | .step a =>
    if P.alive x.mem.1.os (P.proc a) = true then
      (x.pool a).bind fun p => (p.next? x.mem).map fun r =>
        { x with mem := r.2, pool := Function.update x.pool a (some r.1) }
    else none
  | .reply a =>
    if P.alive x.mem.1.os (P.proc a) = true then
      ((x.pool a).bind Prog.result?).map fun r =>
        { x with
          pool := Function.update x.pool a none
          log := x.log ++ [(a, r)]
          raised := ((error? r).map toPyErr).toList ++ x.raised }.receive a r
    else none

/-- The consumer whose handle the event uses. -/
def consumer? (x : Interp P L) : Event → Option Nat
  | .call r => r.consumer?
  | .close c | .dropConsumer c => some c
  | .releaseLease i | .dropLease i => (x.leases[i]?).bind fun o => o.item.map fun _ => o.keeper
  | _ => none

/-- The event uses no consumer that has been closed. -/
def Prompt (e : Event) (x : Interp P L) : Prop :=
  ∀ c ∈ x.consumer? e, ∀ h ∈ x.mem.1.consumer c, h.closed = false

instance (e : Event) (x : Interp P L) : Decidable (Prompt e x) :=
  inferInstanceAs (Decidable (∀ c ∈ x.consumer? e, ∀ h ∈ x.mem.1.consumer c, h.closed = false))

/-- A ring whose sequence counter has been set to `k`, before anybody did anything. -/
def fresh (L : RingLayout) (k : UInt64) (os : P.Os) : Interp P L :=
  { Session.fresh L k os with leases := [], writers := [], views := [], raised := [] }

end Interp

/-- The states in which a run begins, on a system that is as `start` says. -/
def Begins (P : Platform) (L : RingLayout) (k : UInt64) (start : P.Os → Prop)
    (x : Interp P L) : Prop :=
  ∃ os, start os ∧ x = .fresh L k os

/-- The states reached through events that satisfy `may` and steps of the memory that satisfy
`ok`. -/
inductive Run (may : Event → Interp P L → Prop)
    (ok : State P L.slotCount × Ghost L.slotCount → State P L.slotCount × Ghost L.slotCount → Prop)
    (init : Interp P L → Prop) : Interp P L → Prop
  | init {x : Interp P L} (h : init x) : Run may ok init x
  | event {x y : Interp P L} (e : Event) (h : Run may ok init x) (hm : may e x)
      (hs : x.next? e = some y) (hok : ok x.mem y.mem) : Run may ok init y
  | os {x : Interp P L} (os : P.Os) (h : Run may ok init x) (hs : P.step x.mem.1.os os)
      (hok : ok x.mem ({ x.mem.1 with os := os }, x.mem.2)) :
      Run may ok init { x with mem := ({ x.mem.1 with os := os }, x.mem.2) }

/-- A run under a stronger condition is a run under a weaker one. -/
theorem Run.mono {may : Event → Interp P L → Prop}
    {ok ok' : State P L.slotCount × Ghost L.slotCount →
      State P L.slotCount × Ghost L.slotCount → Prop}
    {init : Interp P L → Prop} (hok : ∀ m m', ok m m' → ok' m m') {x : Interp P L}
    (h : Run may ok init x) : Run may ok' init x := by
  induction h with
  | init h => exact .init h
  | event e _ hm hs hk ih => exact ih.event e hm hs (hok _ _ hk)
  | os os _ hs hk ih => exact ih.os os hs (hok _ _ hk)

/-- A run that goes on from where another one ends. -/
theorem Run.trans {may : Event → Interp P L → Prop}
    {ok : State P L.slotCount × Ghost L.slotCount → State P L.slotCount × Ghost L.slotCount → Prop}
    {init : Interp P L → Prop} {x y : Interp P L} (h : Run may ok init x)
    (hy : Run may ok (· = x) y) : Run may ok init y := by
  induction hy with
  | init he => exact he ▸ h
  | event e _ hm hs hok ih => exact ih.event e hm hs hok
  | os os _ hs hok ih => exact ih.os os hs hok

end TenzorBus.Bindings
