import TenzorBus.Reference.Publish
import Mathlib.Data.Finset.Card

/-!
# The reference ring and its consumers

The consumers of a reference ring, with the leases they hold, and the operations that run inside
the file lock, one after the other.

* `World` : the buffer, the handles, and for whom a slot was published
* `Op`, `World.run` : the operations
* `Reach` : the runs
-/

namespace TenzorBus.Reference

variable {n : Nat}

/-- A `TensorConsumer`, with its leases that have not been released. -/
structure Handle (n : Nat) where
  lastSequence : Int
  closed : Bool
  leases : List (TensorMeta n)

/-- The buffer and the handles. The rest is history: who has registered and not closed, for whom a
slot was published, and who of them has released it. -/
structure World (n : Nat) where
  buf : Buf n
  handles : Nat → Option (Handle n)
  opened : Finset Nat
  audience : Fin n → Finset Nat
  released : Fin n → Finset Nat

def World.create (n : Nat) : World n :=
  { buf := .create n, handles := fun _ => none, opened := ∅, audience := fun _ => ∅,
    released := fun _ => ∅ }

inductive Op (n : Nat)
  /-- A new consumer. -/
  | register (c : Nat)
  /-- A round of `publish`, with an array that has passed its checks. -/
  | publish (call : Call) (arr : NdArray) (code : UInt8)
  /-- A round of `next`. -/
  | next (c : Nat)
  | release (c : Nat) (m : TensorMeta n)
  | close (c : Nat)

namespace World

def setHandle (w : World n) (c : Nat) (h : Handle n) : World n :=
  { w with handles := Function.update w.handles c (some h) }

def register (w : World n) (c : Nat) : World n :=
  match exec TensorConsumer.init w.buf with
  | (.ok last, b) =>
    { w with
      buf := b
      handles := Function.update w.handles c
        (some { lastSequence := last, closed := false, leases := [] })
      opened := insert c w.opened }
  | (.error _, b) => { w with buf := b }

def publish (w : World n) (call : Call) (arr : NdArray) (code : UInt8) : World n :=
  let b := (exec (SharedTensorRing.tryPublish call arr code) w.buf).2
  match SharedTensorRing.selectSlot w.buf with
  | some slot =>
    { w with
      buf := b
      audience := Function.update w.audience slot w.opened
      released := Function.update w.released slot ∅ }
  | none => { w with buf := b }

/-- `last_sequence` is set, and the lease is handed out, if one was found. -/
def next (w : World n) (c : Nat) (h : Handle n) : World n :=
  match exec (TensorConsumer.look h.lastSequence) w.buf with
  | (.ok (.lease m), b) =>
    { w with buf := b }.setHandle c { h with lastSequence := m.sequence, leases := m :: h.leases }
  | (.ok (.skip seq), b) => { w with buf := b }.setHandle c { h with lastSequence := seq }
  | (.ok .nothing, b) => { w with buf := b }
  | (.error _, b) => { w with buf := b }

/-- The lease counts as released whether or not `_release` raises. -/
def release (w : World n) (c : Nat) (h : Handle n) (m : TensorMeta n) : World n :=
  let w := w.setHandle c { h with leases := h.leases.erase m }
  match exec (TensorConsumer.release m) w.buf with
  | (.ok _, b) =>
    { w with
      buf := b
      released := Function.update w.released m.slotIndex (insert c (w.released m.slotIndex)) }
  | (.error _, b) => { w with buf := b }

def close (w : World n) (c : Nat) (h : Handle n) : World n :=
  if h.closed then w
  else
    { w with
      buf := (exec TensorConsumer.close w.buf).2
      opened := w.opened.erase c }.setHandle c { h with closed := true }

/-- The operation `op`. -/
inductive Run (w : World n) : Op n → World n → Prop
  | register (c : Nat) (fresh : w.handles c = none) : Run w (.register c) (w.register c)
  | publish (call : Call) (arr : NdArray) (code : UInt8) :
      Run w (.publish call arr code) (w.publish call arr code)
  | next (c : Nat) (h : Handle n) (handle : w.handles c = some h) : Run w (.next c) (w.next c h)
  | release (c : Nat) (h : Handle n) (handle : w.handles c = some h) (m : TensorMeta n)
      (lease : m ∈ h.leases) : Run w (.release c m) (w.release c h m)
  | close (c : Nat) (h : Handle n) (handle : w.handles c = some h) : Run w (.close c) (w.close c h)

/-- The worlds that operations which meet a condition lead to. -/
inductive Reach (ok : World n → Op n → Prop) : World n → Prop
  | create : Reach ok (.create n)
  | run {w w' : World n} {op : Op n} (h : Reach ok w) (hrun : w.Run op w') (hok : ok w op) :
      Reach ok w'

/-! ## what is expected -/

/-- Those for whom the slot was published who have neither closed nor released it. -/
def pending (w : World n) (j : Fin n) : Finset Nat :=
  (w.audience j ∩ w.opened) \ w.released j

/-- Every committed slot counts those who have still to release it. -/
def Accounted (w : World n) : Prop :=
  ∀ j, (w.buf.slots j).state = .committed →
    (w.buf.slots j).readersRemaining.toNat = (w.pending j).card

/-- If everybody has closed, every slot is free or can be reclaimed. -/
def Reclaimable (w : World n) : Prop :=
  (∀ c h, w.handles c = some h → h.closed = true) → ∀ j,
    (w.buf.slots j).state = .free ∨
      (w.buf.slots j).state = .committed ∧ (w.buf.slots j).readersRemaining = 0

/-- What the accounting takes for granted: a publication that fills a slot fits, a consumer that
closes has released everything that was published for it, and a closed handle finds nothing. -/
def Careful (w : World n) : Op n → Prop
  | .register _ => True
  | .publish call arr _ => ∀ slot, SharedTensorRing.selectSlot w.buf = some slot →
      Fits call arr w.buf.consumers ∧ w.buf.Counts
  | .next c => ∀ h, w.handles c = some h → h.closed = true → ∀ j,
      (w.buf.slots j).state = .committed → ((w.buf.slots j).sequence.toNat : Int) ≤ h.lastSequence
  | .release _ _ => True
  | .close c => ∀ j, (w.buf.slots j).state = .committed → c ∈ w.audience j → c ∈ w.opened →
      c ∈ w.released j

end World

end TenzorBus.Reference
