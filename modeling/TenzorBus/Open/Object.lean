import TenzorBus.Ring.System
import TenzorBus.Wire.Geometry
import Mathlib.Data.Fin.VecNotation

/-!
# The shared object

What is in the object besides the words that the ring's operations use, and the stores of `format`.

* `Marks` : the words that say what the object is
* `Object` : the object, from its first moment on
* `Store` : a store of `format`; `formatStores`, all of them in order
-/

namespace TenzorBus

variable {P : Platform} {n : Nat}

/-- `PROTOCOL_MAGIC`, `b"TZBUS001"`. -/
def protocolMagic : Fin 8 → UInt8 := ![84, 90, 66, 85, 83, 48, 48, 49]

/-- `SLOT_MAGIC`, `b"SLOT"`. -/
def slotMagic : Fin 4 → UInt8 := ![83, 76, 79, 84]

def protocolVersion : UInt32 := 1

/-- The words of the headers that no operation changes. -/
structure Marks (n : Nat) where
  magic : Fin 8 → UInt8
  version : UInt32
  slotCount : UInt32
  slotCapacity : UInt64
  maxConsumers : UInt32
  slotMagic : Fin n → Fin 4 → UInt8

def Marks.zero : Marks n :=
  { magic := fun _ => 0, version := 0, slotCount := 0, slotCapacity := 0, maxConsumers := 0,
    slotMagic := fun _ _ => 0 }

/-- An object of the shared memory. Its length is 0 until `ftruncate`. -/
structure Object (P : Platform) (n : Nat) where
  length : UInt64
  marks : Marks n
  state : State P n

/-- A new object: empty, and once it has a length all zero. -/
def Object.blank (os : P.Os) : Object P n := { length := 0, marks := .zero, state := .init 0 os }

/-- The stores of `format`. Those that begin with `zero` are the pieces of its `write_bytes`. -/
inductive Store (n : Nat)
  | zeroHeader
  | zeroEntry (i : Fin 64)
  | zeroSlot (i : Fin n)
  | magic (k : Fin 8)
  | version
  | slotCount
  | slotCapacity
  | nextSeq
  | consumers
  | maxConsumers
  | slotMagic (i : Fin n) (k : Fin 4)
  | slotState (i : Fin n)
  deriving DecidableEq

/-- The words of the global header, zero. -/
def Marks.zeroHeader (m : Marks n) : Marks n :=
  { (Marks.zero : Marks n) with slotMagic := m.slotMagic }

def Ring.zeroHeader (r : Ring n) : Ring n :=
  { Ring.format n 0 with entries := r.entries, slots := r.slots }

/-- A change to the marks. -/
def Object.mapMarks (o : Object P n) (f : Marks n → Marks n) : Object P n :=
  { o with marks := f o.marks }

/-- A change to the words of the ring. -/
def Object.mapRing (o : Object P n) (f : Ring n → Ring n) : Object P n :=
  { o with state := { o.state with ring := f o.state.ring } }

/-- What a store of `format` makes of the object, in a ring of geometry `L`. -/
def Store.apply (L : RingLayout) (o : Object P n) : Store n → Object P n
  | .zeroHeader =>
    { length := o.length, marks := o.marks.zeroHeader,
      state := { o.state with ring := o.state.ring.zeroHeader, lock := none } }
  | .zeroEntry i => o.mapRing fun r => r.setEntry i fun _ => .zero
  | .zeroSlot i => (o.mapRing fun r => r.setSlot i fun _ => .zero).mapMarks fun m =>
    { m with slotMagic := Function.update m.slotMagic i fun _ => 0 }
  | .magic k => o.mapMarks fun m =>
    { m with magic := Function.update m.magic k (protocolMagic k) }
  | .version => o.mapMarks fun m => { m with version := protocolVersion }
  | .slotCount => o.mapMarks fun m => { m with slotCount := UInt32.ofNat L.slotCount }
  | .slotCapacity => o.mapMarks fun m => { m with slotCapacity := UInt64.ofNat L.slotCapacity }
  | .nextSeq => o.mapRing fun r => { r with nextSeq := 1 }
  | .consumers => o.mapRing fun r => { r with consumers := 0 }
  | .maxConsumers => o.mapMarks fun m =>
    { m with maxConsumers := UInt32.ofNat TenzorBus.maxConsumers }
  | .slotMagic i k => o.mapMarks fun m =>
    { m with
      slotMagic := Function.update m.slotMagic i
        (Function.update (m.slotMagic i) k (TenzorBus.slotMagic k)) }
  | .slotState i => o.mapRing fun r => r.setSlot i fun s => { s with state := .free }

/-- The stores of `format`, in order. -/
def formatStores (n : Nat) : List (Store n) :=
  .zeroHeader :: (List.finRange 64).map .zeroEntry ++ (List.finRange n).map .zeroSlot ++
  (List.finRange 8).map .magic ++
  [.version, .slotCount, .slotCapacity, .nextSeq, .consumers, .maxConsumers] ++
  (List.finRange n).flatMap fun i => (List.finRange 4).map (.slotMagic i) ++ [.slotState i]

/-- No word is stored twice. -/
theorem formatStores_nodup (n : Nat) : (formatStores n).Nodup := by
  have hmap : ∀ {m : Nat} (f : Fin m → Store n), Function.Injective f →
      ((List.finRange m).map f).Nodup := fun f hf => (List.nodup_finRange _).map hf
  have hentries := hmap .zeroEntry fun _ _ h => Store.zeroEntry.inj h
  have hslots := hmap .zeroSlot fun _ _ h => Store.zeroSlot.inj h
  have hmagic := hmap .magic fun _ _ h => Store.magic.inj h
  have hslot : ∀ i : Fin n,
      ((List.finRange 4).map (Store.slotMagic i) ++ [Store.slotState i]).Nodup := fun i =>
    (hmap (Store.slotMagic i) fun _ _ h => (Store.slotMagic.inj h).2).append
      (List.nodup_singleton _) (by simp [List.Disjoint])
  have hall : ((List.finRange n).flatMap fun i =>
      (List.finRange 4).map (Store.slotMagic i) ++ [Store.slotState i]).Nodup := by
    refine List.nodup_flatMap.mpr ⟨fun i _ => hslot i, (List.nodup_finRange n).imp ?_⟩
    intro i j hij
    simp [Function.onFun, List.Disjoint]
    grind
  unfold formatStores
  simp [List.nodup_append, hentries, hslots, hmagic, hall]
  grind

theorem mem_formatStores (w : Store n) : w ∈ formatStores n := by
  cases w <;> simp [formatStores]

/-- As long as the slot capacity is not stored, it is zero. -/
theorem Store.apply_slotCapacity {L : RingLayout} {o : Object P n} {w : Store n}
    (hw : w ≠ .slotCapacity) (h : o.marks.slotCapacity = 0) :
    (w.apply L o).marks.slotCapacity = 0 := by
  cases w with
  | slotCapacity => exact absurd rfl hw
  | zeroHeader => rfl
  | _ => exact h

end TenzorBus
