import TenzorBus.Conc.Focus
import TenzorBus.Open.Object

/-!
# Opening a ring (`shm::create`, `shm::attach`, `Ring::create`, `Ring::attach`)

Any number of calls that create, attach or open a ring of one name, one atomic access at a time,
and the operations of the ring through the handles that they return.

* `Host` : the name, the objects, the handles
* `Entry` : the history
* `Ring.create`, `Ring.attach`, `Ring.openOrCreate` : the programs
* `hostSystem` : all calls, and all operations through their handles, in any order
-/

namespace TenzorBus

open Conc

/-- `std::io::Error`. -/
inductive IoError
  | alreadyExists
  | notFound
  | other (m : String)
  deriving DecidableEq

/-- The errors of `create` and `attach`. -/
inductive OpenError
  | io (e : IoError)
  | badHeader (m : String)
  deriving DecidableEq

/-- An `Inner`: the object that is mapped, the geometry, and whether the name goes when the handle
is dropped. -/
structure RingHandle where
  object : Nat
  slotCount : UInt64
  slotCapacity : UInt64
  slotStride : UInt64
  owner : Bool
  unlinkOnDrop : Bool
  deriving DecidableEq

/-- What the system has under one name. A call is known by its number, and so is the object that
it creates, of the geometry `layout` of its options. -/
structure Host (P : Platform) (layout : Nat → RingLayout) where
  os : P.Os
  /-- The object of the name. -/
  named : Option Nat
  object : (i : Nat) → Object P (layout i).slotCount
  /-- The call has created its object. -/
  created : Nat → Bool
  /-- The handle that the call has returned, until it is dropped. -/
  handle : Nat → Option RingHandle
  /-- The system has memory to give. -/
  spare : Bool

/-- What is noted in the history. -/
inductive Entry (layout : Nat → RingLayout)
  /-- `format` makes a store to its object. -/
  | stored (o : Nat) (w : Store (layout o).slotCount)
  /-- Call `i` loads the slot capacity of object `o`, having loaded this slot count. -/
  | sized (i o : Nat) (slotCount : UInt32)
  /-- `attach`, of call `i`, returns `Ok` with a handle to object `o`. -/
  | attached (i o : Nat)
  /-- An operation of the ring acts on object `o`. -/
  | used (o : Nat)

variable {P : Platform} {layout : Nat → RingLayout}

/-- The programs of the calls. The history has the newest entry first. -/
abbrev HostM (P : Platform) (layout : Nat → RingLayout) :=
  Prog (Host P layout) (List (Entry layout))

namespace Host

/-- A change to object `i`. -/
def setObject (s : Host P layout) (i : Nat)
    (f : Object P (layout i).slotCount → Object P (layout i).slotCount) : Host P layout :=
  { s with object := Function.update s.object i (f (s.object i)) }

def setHandle (s : Host P layout) (i : Nat) (h : Option RingHandle) : Host P layout :=
  { s with handle := Function.update s.handle i h }

end Host

/-! ## shared memory -/

namespace Shm

/-- `shm::unlink`. -/
def unlink : HostM P layout Unit := Prog.modify fun s => { s with named := none }

/-- Unlink if asked to. -/
def unlinkIf (b : Bool) : HostM P layout Unit := if b then unlink else return ()

/-- `shm_open` with `O_CREAT | O_EXCL`, by call `i`. -/
def openExclusive (i : Nat) : HostM P layout (Except IoError Unit) :=
  Prog.atomic fun s => some (
    if s.named.isSome then (.error .alreadyExists, s)
    else if s.spare then
      (.ok (), { s with named := some i, created := Function.update s.created i true })
    else (.error (.other "shm_open"), s))

/-- `ftruncate`: whether the object has got its length. -/
def truncate (i : Nat) (length : UInt64) : HostM P layout Bool :=
  Prog.atomic fun s => some (
    if s.spare then (true, s.setObject i fun o => { o with length := length }) else (false, s))

/-- `mmap`, in `map_fd`. -/
def map : HostM P layout (Except IoError Unit) :=
  Prog.read fun s => if s.spare then .ok () else .error (.other "mmap")

/-- `shm::create`. -/
def create (i : Nat) (length : UInt64) (force : Bool) : HostM P layout (Except IoError Unit) := do
  unlinkIf force
  let opened ← openExclusive i
  match opened with
  | .error e => return .error e
  | .ok () =>
    let sized ← truncate i length
    if sized then map
    else
      unlink
      return .error (.other "ftruncate")

/-- `shm::attach`: the object and its length. -/
def attach : HostM P layout (Except IoError (Nat × UInt64)) := do
  let named ← Prog.read (·.named)
  match named with
  | none => return .error .notFound
  | some o =>
    let length ← Prog.read fun s => (s.object o).length
    if length = 0 then return .error (.other "shared object has zero length")
    else
      let mapped ← map
      return mapped.map fun _ => (o, length)

end Shm

/-! ## the calls -/

namespace Ring

/-- One store of `format`. -/
def formatStore (i : Nat) (w : Store (layout i).slotCount) : HostM P layout PUnit :=
  Prog.modifyWith (fun s => s.setObject i fun o => w.apply (layout i) o) fun _ g => .stored i w :: g

/-- `Ring::format`, of the object of call `i`. -/
def formatSteps (i : Nat) : HostM P layout PUnit := (formatStores _).forM (formatStore i)

/-- The handle of a call that has created its object. -/
def created (layout : Nat → RingLayout) (i : Nat) : RingHandle :=
  { object := i, slotCount := UInt64.ofNat (layout i).slotCount,
    slotCapacity := UInt64.ofNat (layout i).slotCapacity,
    slotStride := Usize.slotStride (UInt64.ofNat (layout i).slotCapacity), owner := true,
    unlinkOnDrop := true }

/-- `Ring::create`, with options that `RingLayout::new` has accepted. -/
def create (i : Nat) (force : Bool) : HostM P layout (Except OpenError Unit) := do
  let map ← Shm.create i (UInt64.ofNat (totalBytes (layout i).slotCount (layout i).slotCapacity))
    force
  match map with
  | .error e => return .error (.io e)
  | .ok () =>
    formatSteps i
    Prog.modify fun s => s.setHandle i (some (created layout i))
    return .ok ()

/-- The comparison of the magic, byte by byte. -/
def loadMagic (o : Nat) : HostM P layout Bool :=
  (List.finRange 8).foldlM (fun same k => do
    let b ← Prog.read fun s => (s.object o).marks.magic k
    return same && b == protocolMagic k) true

/-- The handle of a call that has attached to object `o`. -/
def attached (o : Nat) (opened : Opened) : RingHandle :=
  { object := o, slotCount := opened.slotCount, slotCapacity := opened.slotCapacity,
    slotStride := opened.slotStride, owner := false, unlinkOnDrop := false }

/-- `Ring::attach`, by call `i`. -/
def attach (i : Nat) : HostM P layout (Except OpenError Unit) := do
  let map ← Shm.attach
  match map with
  | .error e => return .error (.io e)
  | .ok (o, length) =>
    let magic ← loadMagic o
    if !magic then return .error (.badHeader "invalid TenzorBus shared-memory magic")
    else
      let version ← Prog.read fun s => (s.object o).marks.version
      if version ≠ protocolVersion then
        return .error (.badHeader "unsupported TenzorBus protocol version")
      else
        let slotCount ← Prog.read fun s => (s.object o).marks.slotCount
        let slotCapacity ← Prog.atomicWith (fun s => some ((s.object o).marks.slotCapacity, s))
          fun _ _ g => .sized i o slotCount :: g
        match Opened.attach slotCount slotCapacity length with
        | .error m => return .error (.badHeader m)
        | .ok opened =>
          Prog.modifyWith (fun s => s.setHandle i (some (attached o opened)))
            fun _ g => .attached i o :: g
          return .ok ()

/-- `Ring::open_or_create`. -/
def openOrCreate (i : Nat) (force : Bool) : HostM P layout (Except OpenError Unit) := do
  let r ← create i force
  match r with
  | .ok () => return .ok ()
  | .error (.io .alreadyExists) => attach i
  | .error e => return .error e

/-- `Inner::drop`, of the handle that call `i` has returned. -/
def drop (i : Nat) (h : RingHandle) : HostM P layout Unit := do
  Shm.unlinkIf h.unlinkOnDrop
  Prog.modify fun s => s.setHandle i none

end Ring

/-! ## the system -/

/-- The memory of object `o`, as the operations of the ring see it. -/
def Host.focus (o : Nat) : Focus (Host P layout) (State P (layout o).slotCount) where
  get s := { (s.object o).state with os := s.os }
  set s t := s.setObject o fun x => { x with state := t }

/-- Who acts: a call that opens the ring, or somebody who uses object `o`. -/
inductive Party
  | opener (i : Nat)
  | user (o : Nat) (a : Actor)
  deriving DecidableEq

/-- A handle to object `o` that has its geometry. -/
def RingHandle.Maps (layout : Nat → RingLayout) (h : RingHandle) (o : Nat) : Prop :=
  h.object = o ∧ h.slotCount.toNat = (layout o).slotCount ∧
    h.slotCapacity.toNat = (layout o).slotCapacity

/-- The calls, each as long as it has no handle, and the operations of the ring. -/
inductive HostStarts (s : Host P layout) : Party → HostM P layout Unit → Prop
  | create (i : Nat) (h : s.handle i = none) (hc : s.created i = false) (force : Bool) :
      HostStarts s (.opener i) ((Ring.create i force).bind fun _ => .ret ())
  | attach (i : Nat) (h : s.handle i = none) :
      HostStarts s (.opener i) ((Ring.attach i).bind fun _ => .ret ())
  | openOrCreate (i : Nat) (h : s.handle i = none) (hc : s.created i = false) (force : Bool) :
      HostStarts s (.opener i) ((Ring.openOrCreate i force).bind fun _ => .ret ())
  | drop (i : Nat) (h : RingHandle) (hh : s.handle i = some h) :
      HostStarts s (.opener i) (Ring.drop i h)
  | use (o : Nat) (a : Actor) (i : Nat) (h : RingHandle) (hh : s.handle i = some h)
      (hm : h.Maps layout o) (hr : ((Host.focus o).get s).running a)
      (p : RingM P (layout o).slotCount Unit)
      (hp : Starts (layout o) ((Host.focus o).get s) a p) :
      HostStarts s (.user o a) (p.within (Host.focus o) (.used o :: ·))

/-- All calls and all operations through their handles. The environment changes what the operating
system says, and how much memory there is. -/
def hostSystem (P : Platform) (layout : Nat → RingLayout) :
    System Party (Host P layout) (List (Entry layout)) where
  starts a s p := HostStarts s a p
  live a s := match a with
    | .opener _ => True
    | .user o a => ((Host.focus o).get s).aliveActor a
  env m m' := ∃ os spare, (os = m.1.os ∨ P.step m.1.os os) ∧
    m' = ({ m.1 with os := os, spare := spare }, m.2)

/-- What the system has, with the history. -/
abbrev HostMem (P : Platform) (layout : Nat → RingLayout) := Host P layout × List (Entry layout)

abbrev HostConfig (P : Platform) (layout : Nat → RingLayout) :=
  Config Party (Host P layout) (List (Entry layout))

/-- Nothing has the name yet. -/
def HostConfig.init (os : P.Os) : HostConfig P layout :=
  { mem := ({ os := os, named := none, object := fun _ => .blank os, created := fun _ => false,
              handle := fun _ => none, spare := true }, []),
    pool := fun _ => .ret () }

end TenzorBus
