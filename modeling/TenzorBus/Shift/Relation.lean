import TenzorBus.Conc.Lockstep
import TenzorBus.Ring.System
import Mathlib.Data.Finset.Lattice.Basic

/-!
# A ring whose numbers are shifted

The state of a ring whose sequence counter began later, by an offset that is added modulo `2 ^ 64`.
Everything that was numbered is shifted. A slot that never had a number, and a registry entry that
was never used, are as `format` left them on both sides.

* `Known` : what has been numbered in a run
* `State.shift` : the shifted state
* `Shifted` : the relation between the states of two runs
-/

namespace TenzorBus

open Conc

variable {P : Platform} {n : Nat} {k : UInt64}

/-! ## shifted words -/

/-- What a consumer is handed, and what a producer is answered, with the number shifted. -/
def TensorMeta.shift (k : UInt64) (m : TensorMeta n) : TensorMeta n :=
  { m with sequence := m.sequence + k }

def PublishResult.shift (k : UInt64) (r : PublishResult n) : PublishResult n :=
  { r with sequence := r.sequence + k }

/-- A handle that has taken everything up to the shifted number. -/
def Consumer.shift (k : UInt64) (h : Consumer) : Consumer :=
  { h with lastSequence := h.lastSequence + k }

/-- A slot in hand under the shifted number. -/
def SlotWriter.shift (k : UInt64) (w : SlotWriter n) : SlotWriter n :=
  { w with sequence := w.sequence + k }

/-- A slot, if it has had a number. -/
def Slot.shift (k : UInt64) (numbered : Bool) (s : Slot) : Slot :=
  { s with sequence := if numbered then s.sequence + k else s.sequence }

/-- A registry entry, if it has been used. -/
def ConsumerEntry.shift (k : UInt64) (registered : Bool) (e : ConsumerEntry) : ConsumerEntry :=
  { e with lastSequence := if registered then e.lastSequence + k else e.lastSequence }

/-- Different leases stay different. -/
theorem TensorMeta.shift_injective : Function.Injective (TensorMeta.shift (n := n) k) := by
  intro m m' h
  obtain ⟨hs, rest⟩ := TensorMeta.mk.injEq .. ▸ h
  cases m
  cases m'
  simp only [TensorMeta.mk.injEq] at rest ⊢
  exact ⟨by simpa [TensorMeta.shift] using hs, rest⟩

/-- The order of the numbers does not depend on where they begin. -/
theorem seqNewer_shift (a b : UInt64) : seqNewer (a + k) (b + k) = seqNewer a b := by
  unfold seqNewer
  rw [show a + k - (b + k) = a - b by
    apply UInt64.toBitVec_inj.mp
    simp only [UInt64.toBitVec_sub, UInt64.toBitVec_add]
    bv_omega]

/-! ## what has been numbered -/

/-- The slots that have had a number, the registry entries that have been used, the consumer
handles that exist. -/
structure Known (n : Nat) where
  slots : Finset (Fin n)
  entries : Finset (Fin 64)
  handles : Finset Nat

instance : Preorder (Known n) :=
  Preorder.lift fun w => (w.slots, w.entries, w.handles)

/-- The mapping, of which `w` is known. -/
def Ring.shift (k : UInt64) (w : Known n) (r : Ring n) : Ring n :=
  { r with
    nextSeq := r.nextSeq + k
    entries := fun i => (r.entries i).shift k (decide (i ∈ w.entries))
    slots := fun i => (r.slots i).shift k (decide (i ∈ w.slots)) }

/-- The mapping and what the processes hold. -/
def State.shift (k : UInt64) (w : Known n) (s : State P n) : State P n :=
  { s with
    ring := s.ring.shift k w
    consumer := fun c => (s.consumer c).map (Consumer.shift k)
    leases := fun c => (s.leases c).map (TensorMeta.shift k)
    writer := fun t => (s.writer t).map (SlotWriter.shift k) }

/-- The second state is the first one, shifted; what is known is what can be seen. -/
structure Shifted (k : UInt64) (w : Known n) (s s' : State P n) : Prop where
  eq : s' = s.shift k w
  committed : ∀ i, (s.ring.slots i).state = .committed → i ∈ w.slots
  active : ∀ i, (s.ring.entries i).state = .active → i ∈ w.entries
  leases : ∀ c, ∀ m ∈ s.leases c, m.slotIndex ∈ w.slots
  writers : ∀ t x, s.writer t = some x → x.slot ∈ w.slots
  handles : ∀ c ∈ w.handles, (s.consumer c).isSome = true

end TenzorBus
