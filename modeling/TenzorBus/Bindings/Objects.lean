import TenzorBus.Bindings.Owner
import TenzorBus.Ring.State

/-!
# The objects of the Python bindings (`tenzorbus-py`)

A `PyLease` owns a lease until it is released, a `PySlotWriter` a slot writer until it is finished.
Arrays are made from them through the buffer protocol: each counts the buffers that it has exported
and that have not been released.

* `PyErr`, `toPyErr` : what is raised
* `PyLease`, `PySlotWriter` : the objects and their methods

A method that hands something to the ring returns it along with the object as it is afterwards.
`__releasebuffer__` is `Owner.letGo`, `drop` is `Owner.drop`.
-/

namespace TenzorBus.Bindings

variable {n : Nat}

/-- An exception, by its class. -/
inductive PyErr
  | timeout (message : String)
  | value (message : String)
  | runtime (message : String)
  | buffer (message : String)
  deriving DecidableEq, Repr

/-- `to_py_err`. -/
def toPyErr : Error → PyErr
  | .timeout => .timeout "no tensor published before timeout"
  | .ringFull => .runtime "no reclaimable slot before timeout"
  | .invalid m => .value m
  | .capacity m => .runtime s!"capacity: {m}"
  | .leaseViolation m => .runtime s!"lease violation: {m}"

/-! ## leases -/

/-- `PyLease`: `meta`, until the lease is released, kept for a consumer. The buffer that it exports
(`ptr`, `len`) is the payload of the slot that `meta` names. -/
abbrev PyLease (n : Nat) := Owner (TensorMeta n)

namespace PyLease

/-- `PyLease::meta`, behind the getters. -/
def getMeta (self : PyLease n) : Except PyErr (TensorMeta n) :=
  match self.item with
  | some m => .ok m
  | none => .error (.runtime "lease has already been released")

/-- `__getbuffer__`, which `numpy`, `torch` and `copy` go through. -/
def getBuffer (self : PyLease n) : Except PyErr (PyLease n) :=
  if self.item.isNone then .error (.buffer "lease has already been released")
  else .ok self.acquire

def release (self : PyLease n) : Except PyErr (PyLease n × Option (TensorMeta n)) :=
  if self.item.isNone then
    .ok (self, none)
  else if 0 < self.exports then
    .error (.buffer ("cannot release a lease while a view still references the slot; " ++
      "drop the view or use lease.copy()"))
  else
    .ok (self.empty, self.item)

end PyLease

/-! ## slot writers -/

/-- `PySlotWriter`: the slot writer, until it is committed or aborted, kept for the actor that owns
the reservation. The buffer that it exports is the payload of the slot. -/
abbrev PySlotWriter (n : Nat) := Owner (SlotWriter n)

namespace PySlotWriter

/-- `PySlotWriter::writer`, behind the getters and `set_timestamp_ns`. -/
def getWriter (self : PySlotWriter n) : Except PyErr (SlotWriter n) :=
  match self.item with
  | some w => .ok w
  | none => .error (.runtime "slot writer has already been finished")

/-- `__getbuffer__`, which `numpy` goes through. -/
def getBuffer (self : PySlotWriter n) : Except PyErr (PySlotWriter n) :=
  self.getWriter.map fun _ => self.acquire

def commit (self : PySlotWriter n) : Except PyErr (PySlotWriter n × SlotWriter n) :=
  if 0 < self.exports then
    .error (.buffer ("cannot commit while a view of the slot is still alive; " ++
      "drop the array first, or the producer could mutate a published slot"))
  else
    self.getWriter.map fun w => (self.empty, w)

def abort (self : PySlotWriter n) : Except PyErr (PySlotWriter n × Option (SlotWriter n)) :=
  if 0 < self.exports then
    .error (.buffer "cannot abort while a view of the slot is still alive")
  else
    .ok (self.empty, self.item)

end PySlotWriter

end TenzorBus.Bindings
