import TenzorBus.Conc.Yields
import TenzorBus.Paths.Header
import TenzorBus.Ring.Script

/-!
# The copy path and the direct path

`publish` of a tensor with a time stamp, and `reserve`, filling the payload in place,
`set_timestamp_ns` and `commit`: the two have the same outcomes.

* `Producer.publishInPlace` : the direct path as a whole
* `paths_agree` : the outcomes of both
-/

namespace TenzorBus

open Conc

variable {P : Platform} {n : Nat}

/-! ## the paths -/

theorem contiguousStrides_length (dtype : DType) (shape : List UInt32) :
    (contiguousStrides dtype shape).length = shape.length := by
  unfold contiguousStrides
  induction shape with
  | nil => rfl
  | cons d shape ih => simpa using ih

/-- `TensorView::with_timestamp_ns`. -/
def TensorView.withTimestampNs (view : TensorView) (timestampNs : UInt64) : TensorView :=
  { view with timestampNs := some timestampNs }

/-- The writes of a caller that fill the payload with `data`, in whatever order and however
often. -/
def Fills (data : List UInt8) (writes : List (Nat × UInt8)) : Prop :=
  ∀ p off, written p writes off = (data[off]?).getD (p off)

theorem fills_copyOf (data : List UInt8) : Fills data (copyOf data) :=
  fun p off => written_copyOf data p off

/-- What was there before does not matter where the data is. -/
theorem Fills.written_eq {data : List UInt8} {writes : List (Nat × UInt8)} (h : Fills data writes)
    {p p' : Nat → UInt8} (hp : ∀ off, data.length ≤ off → p' off = p off) :
    written p' writes = written p (copyOf data) := by
  funext off
  rw [h, written_copyOf]
  rcases Nat.lt_or_ge off data.length with hoff | hoff
  · rw [List.getElem?_eq_getElem hoff, Option.getD_some, Option.getD_some]
  · rw [List.getElem?_eq_none hoff, Option.getD_none, Option.getD_none, hp off hoff]

namespace SlotWriter

/-- Fill the slot in hand, stamp it and commit it. -/
def finish (t : Nat) (writes : List (Nat × UInt8)) (timestampNs : UInt64) (self : SlotWriter n) :
    RingM P n (PublishResult n) := do
  writes.forM fun x => Producer.writeByte self.slot x.1 x.2
  self.setTimestampNs timestampNs
  self.commit t

end SlotWriter

namespace Producer

/-- The direct path: `reserve`, fill the payload, `set_timestamp_ns`, `commit`. -/
def publishInPlace (L : RingLayout) (t : Nat) (dtype : DType) (shape : List UInt32)
    (writes : List (Nat × UInt8)) (timestampNs : UInt64) (policy : Backpressure) (timeout : Nat) :
    RingM P L.slotCount (Except Error (Option (PublishResult L.slotCount))) := do
  let reserved ← reserve L t dtype shape policy timeout
  match reserved with
  | .error e => return .error e
  | .ok none => return .ok none
  | .ok (some w) =>
    let result ← w.finish t writes timestampNs
    return .ok (some result)

/-- What follows the choice of a slot. -/
def chosen {α : Type} (t : Nat) (dtype : DType) (ndim : Nat) (shape strides : Fin maxNdim → UInt32)
    (nbytes : Nat) (timestampNs : Option UInt64)
    (k : Option (Fin n × UInt64 × UInt64) → RingM P n α) : Option (Fin n) → RingM P n α
  | none => unlockRegistry >>= fun _ => k none
  | some slot =>
    load (·.nextSeq) >>= fun sequence =>
      Ring.activeMask >>= fun mask =>
        writeHeader t slot sequence mask dtype ndim shape strides nbytes timestampNs >>= fun _ =>
          unlockRegistry >>= fun _ => k (some (slot, sequence, mask))

theorem lockedReserve_bind {α : Type} (t : Nat) (dtype : DType) (ndim : Nat)
    (shape strides : Fin maxNdim → UInt32) (nbytes : Nat) (timestampNs : Option UInt64)
    (k : Option (Fin n × UInt64 × UInt64) → RingM P n α) :
    lockedReserve t dtype ndim shape strides nbytes timestampNs >>= k =
      lockRegistry (.writer t) >>= fun _ =>
        Ring.reapDead (.writer t) >>= fun _ =>
          chooseSlot >>= chosen t dtype ndim shape strides nbytes timestampNs k := by
  unfold lockedReserve reserveHeader
  simp only [Prog.bind_eq, Prog.bind_assoc]
  congr 1
  funext _
  congr 1
  funext _
  congr 1
  funext slot
  cases slot with
  | none => rfl
  | some slot =>
    unfold chosen
    simp only [Prog.bind_eq, Prog.bind_assoc]
    rfl

end Producer

/-! ## what follows the number, on both paths -/

theorem foldl_payload {α : Type} (off : α → Nat) (b : α → UInt8) (xs : List α) (s : Slot) :
    xs.foldl (fun s x => { s with payload := Function.update s.payload (off x) (b x) }) s =
      { s with payload := xs.foldl (fun p x => Function.update p (off x) (b x)) s.payload } := by
  induction xs generalizing s with
  | nil => rfl
  | cons x xs ih => rw [List.foldl_cons, ih, List.foldl_cons]

/-- The slot after writes to its payload. -/
def Slot.filled (writes : List (Nat × UInt8)) (s : Slot) : Slot :=
  { s with payload := written s.payload writes }

theorem straight_fill (slot : Fin n) (writes : List (Nat × UInt8)) :
    Straight OsStep (writes.forM fun x => Producer.writeByte slot x.1 x.2 : RingM P n PUnit)
      (onSlot slot (Slot.filled writes)) := by
  refine (straight_forM slot (fun x => straight_storeSlot slot fun s =>
    { s with payload := Function.update s.payload x.1 x.2 }) writes).congr fun m => ?_
  simp only [foldl_payload]
  rfl

theorem straight_copyPayload (slot : Fin n) (data : List UInt8) :
    Straight OsStep (Producer.copyPayload slot data : RingM P n Unit)
      (onSlot slot (Slot.filled (copyOf data))) := by
  refine (straight_forM slot (fun x => straight_storeSlot slot fun s =>
    { s with payload := Function.update s.payload x.2 x.1 }) data.zipIdx).congr fun m => ?_
  have hcopy : Slot.filled (copyOf data) = fun s : Slot => { s with
      payload := data.zipIdx.foldl (fun p x => Function.update p x.2 x.1) s.payload } := by
    funext s
    rw [Slot.filled, written, copyOf, List.foldl_map]
  simp only [foldl_payload, hcopy]

/-- The slot in hand of writer `t` becomes `w`. -/
def handing (t : Nat) (w : Option (SlotWriter n)) (m : State P n × Ghost n) :
    State P n × Ghost n :=
  ({ m.1 with writer := Function.update m.1.writer t w }, m.2)

/-- Writer `t` gets a slot in hand, or gives it away. -/
def handOver (t : Nat) (w : Option (SlotWriter n)) : RingM P n Unit :=
  Prog.modify fun s => { s with writer := Function.update s.writer t w }

theorem straight_handOver (t : Nat) (w : Option (SlotWriter n)) :
    Straight OsStep (handOver t w : RingM P n Unit) (handing t w) :=
  straight_store (fun _ _ => rfl) (fun _ => rfl) fun _ _ _ => rfl

theorem straight_commitSlot (t : Nat) (slot : Fin n) (mask : UInt64) :
    ∃ f, Straight OsStep (Producer.commitSlot t slot mask : RingM P n Unit) f := by
  obtain ⟨f, hf⟩ := straight_signal (P := P) (n := n) .publish
  refine ⟨_, .seq (straight_store (fun _ _ => rfl) (fun _ => rfl) ?_)
    (.seq (straight_store (fun _ _ => rfl) (fun _ => rfl) ?_) hf)⟩ <;> intros <;> rfl

/-- The reservation is written, the lock is free. -/
def afterReserve (t : Nat) (slot : Fin n) (sequence mask : UInt64) (dtype : DType) (ndim : Nat)
    (shape strides : Fin maxNdim → UInt32) (nbytes : Nat) (stamp : UInt64)
    (m : State P n × Ghost n) : State P n × Ghost n :=
  let m' := afterDescribe t slot sequence mask dtype ndim shape strides nbytes
    (onSlot slot (fun s => { s with header.timestampNs := stamp }) m)
  ({ m'.1 with lock := none }, m'.2)

theorem straight_reserve (t : Nat) (slot : Fin n) (sequence mask : UInt64) (dtype : DType)
    (ndim : Nat) (shape strides : Fin maxNdim → UInt32) (nbytes : Nat) (stamp : UInt64) :
    Straight OsStep (Producer.stampSlot slot stamp >>= fun _ =>
        Producer.describe t slot sequence mask dtype ndim shape strides nbytes >>= fun _ =>
          unlockRegistry : RingM P n Unit)
      (afterReserve t slot sequence mask dtype ndim shape strides nbytes stamp) :=
  (straight_storeSlot slot _).seq ((straight_describe t slot sequence mask dtype ndim shape strides
    nbytes).seq straight_unlock)

/-- The poison of a debug build. -/
theorem straight_poison (slot : Fin n) (nbytes : Nat) : ∃ g : Slot → Slot,
    Straight OsStep ((if P.debugAssertions then
      Producer.copyPayload slot (List.replicate nbytes 0xA5) else pure ()) : RingM P n Unit)
      (onSlot slot g) ∧ ∀ s : Slot, ∃ p, g s = { s with payload := p } ∧
        ∀ off, nbytes ≤ off → p off = s.payload off := by
  by_cases h : P.debugAssertions = true
  · refine ⟨Slot.filled (copyOf (List.replicate nbytes 0xA5)), ?_,
      fun s => ⟨_, rfl, fun off hoff => ?_⟩⟩
    · rw [if_pos h]
      exact straight_copyPayload slot (List.replicate nbytes 0xA5)
    rw [written_copyOf, List.getElem?_eq_none (by simpa using hoff), Option.getD_none]
  · refine ⟨fun s => s, ?_, fun s => ⟨s.payload, rfl, fun _ _ => rfl⟩⟩
    rw [if_neg h]
    exact Straight.ret.congr fun m => (onSlot_self slot m).symm

/-- Both paths make the same of the slot: one writes the stamp, the header and the payload; the
other one a stamp, the header, the poison, the payload and its stamp. -/
theorem slot_agrees {data : List UInt8} {writes : List (Nat × UInt8)} (hfill : Fills data writes)
    {g : Slot → Slot} (hg : ∀ s : Slot, ∃ p, g s = { s with payload := p } ∧
      ∀ off, data.length ≤ off → p off = s.payload off) (mask : UInt64) (dtype : DType)
    (ndim : Nat) (shape strides : Fin maxNdim → UInt32) (nbytes : Nat) (stamp ts : UInt64)
    (s : Slot) :
    Slot.filled (copyOf data) (Slot.described mask dtype ndim shape strides nbytes
        { s with header.timestampNs := ts }) =
      { Slot.filled writes (g (Slot.described mask dtype ndim shape strides nbytes
          { s with header.timestampNs := stamp })) with
        header.timestampNs := ts } := by
  obtain ⟨p, hp, hoff⟩ := hg (Slot.described mask dtype ndim shape strides nbytes
    { s with header.timestampNs := stamp })
  rw [hp]
  simp only [Slot.filled, Slot.described] at hoff ⊢
  rw [hfill.written_eq hoff]

section

variable {t : Nat} {data : List UInt8} {writes : List (Nat × UInt8)} {dtype : DType}
  {ndim : Nat} {shape strides : Fin maxNdim → UInt32} {slot : Fin n} {sequence mask ts : UInt64}

/-- From the time stamp to the end, on the copy path. -/
def copyTail (t : Nat) (slot : Fin n) (sequence mask : UInt64) (dtype : DType) (ndim : Nat)
    (shape strides : Fin maxNdim → UInt32) (ts : UInt64) (data : List UInt8) : RingM P n Unit :=
  (Producer.stampSlot slot ts >>= fun _ =>
      Producer.describe t slot sequence mask dtype ndim shape strides data.length >>= fun _ =>
        unlockRegistry) >>= fun _ =>
    Producer.copyPayload slot data >>= fun _ => Producer.commitSlot t slot mask

/-- From the time stamp of the reservation to the end, on the direct path. -/
def directTail (t : Nat) (slot : Fin n) (sequence mask : UInt64) (dtype : DType) (ndim : Nat)
    (shape strides : Fin maxNdim → UInt32) (nbytes : Nat) (stamp ts : UInt64)
    (writes : List (Nat × UInt8)) : RingM P n Unit :=
  (Producer.stampSlot slot stamp >>= fun _ =>
      Producer.describe t slot sequence mask dtype ndim shape strides nbytes >>= fun _ =>
        unlockRegistry) >>= fun _ =>
    (if P.debugAssertions then Producer.copyPayload slot (List.replicate nbytes 0xA5)
      else pure ()) >>= fun _ =>
    handOver t (some { slot := slot, sequence := sequence, mask := mask,
                       nbytes := nbytes }) >>= fun _ =>
    (writes.forM fun x => Producer.writeByte slot x.1 x.2) >>= fun _ =>
    Producer.stampSlot slot ts >>= fun _ =>
    handOver t none >>= fun _ => Producer.commitSlot t slot mask

theorem tails_same (hfill : Fills data writes) (stamp : UInt64) :
    Same OsStep (fun s : State P n => s.writer t = none)
      (copyTail t slot sequence mask dtype ndim shape strides ts data)
      (directTail t slot sequence mask dtype ndim shape strides data.length stamp ts writes) := by
  obtain ⟨g, hpoison, hg⟩ := straight_poison (P := P) slot data.length
  obtain ⟨f, hcommit⟩ := straight_commitSlot (P := P) t slot mask
  have hcopy := (straight_reserve (P := P) t slot sequence mask dtype ndim shape strides
    data.length ts).seq ((straight_copyPayload slot data).seq hcommit)
  have hdirect := (straight_reserve (P := P) t slot sequence mask dtype ndim shape strides
    data.length stamp).seq <| hpoison.seq <|
    (straight_handOver t (some { slot := slot, sequence := sequence, mask := mask,
                                 nbytes := data.length })).seq <|
    (straight_fill slot writes).seq <|
    (straight_storeSlot slot fun s => { s with header.timestampNs := ts }).seq <|
    (straight_handOver t none).seq hcommit
  refine Straight.same hcopy hdirect fun m hm => congrArg f ?_
  have hslot := slot_agrees hfill hg mask dtype ndim shape strides data.length stamp ts
    (m.1.ring.slots slot)
  have hwriter : ∀ w, Function.update (Function.update m.1.writer t w) t none = m.1.writer := by
    intro w
    rw [Function.update_idem, ← hm, Function.update_eq_self]
  simp only [afterReserve, afterDescribe, onSlot, handing, Ring.setSlot, Function.update_self,
    Function.update_idem, hwriter] at hslot ⊢
  rw [hslot]

/-- A choice of a slot, on both paths, and what each of them does with it. -/
theorem chosen_same {α : Type} {nbytes : Nat}
    {k k' : Option (Fin n × UInt64 × UInt64) → RingM P n α}
    (hnone : Same OsStep (fun s : State P n => s.writer t = none)
      (unlockRegistry >>= fun _ => k none)
      (unlockRegistry >>= fun _ => k' none))
    (hsome : ∀ slot sequence mask stamp, Same OsStep (fun s : State P n => s.writer t = none)
      (Producer.stampSlot slot ts >>= fun _ =>
        Producer.describe t slot sequence mask dtype ndim shape strides nbytes >>= fun _ =>
          unlockRegistry >>= fun _ => k (some (slot, sequence, mask)))
      (Producer.stampSlot slot stamp >>= fun _ =>
        Producer.describe t slot sequence mask dtype ndim shape strides nbytes >>= fun _ =>
          unlockRegistry >>= fun _ => k' (some (slot, sequence, mask)))) :
    Same OsStep (fun s : State P n => s.writer t = none)
      (Producer.lockedReserve t dtype ndim shape strides nbytes (some ts) >>= k)
      (Producer.lockedReserve t dtype ndim shape strides nbytes none >>= k') := by
  have hl : Local fun s : State P n => s.writer t = none := .unwritten t
  rw [Producer.lockedReserve_bind, Producer.lockedReserve_bind]
  refine .bind (hl.keeps (inner_lockRegistry _)) fun _ => ?_
  refine .bind (hl.keeps (inner_reapDead _)) fun _ => ?_
  refine .bind (hl.keeps (inner_reads Producer.chooseSlot_reads)) fun slot => ?_
  cases slot with
  | none => exact hnone
  | some slot =>
    refine .bind (hl.keeps inner_read) fun sequence => ?_
    refine .bind (hl.keeps (inner_reads Ring.activeMask_reads)) fun mask => ?_
    rw [Producer.writeHeader_eq, Producer.writeHeader_eq]
    refine .bind (hl.keeps (inner_number t slot sequence mask)) fun _ => ?_
    -- the direct path reads the clock for a stamp that it overwrites
    exact (Same.unread (f := fun s => P.nowNs s.os)).symm.trans
      (.bind (hl.keeps inner_read) fun stamp => hsome slot sequence mask stamp)

end

/-! ## the two paths -/

namespace Producer

/-- What the copy path does with a slot, or without one. -/
def copyInto (t : Nat) (data : List UInt8) (policy : Backpressure) (deadline : Nat) :
    Option (Fin n × UInt64 × UInt64) →
      RingM P n (Option (Except Error (Option (PublishResult n))))
  | some (slot, sequence, mask) =>
    copyPayload slot data >>= fun _ => commitSlot t slot mask >>= fun _ =>
      pure (some (.ok (some { sequence := sequence, slotIndex := slot, nbytes := data.length,
                              readers := countOnes mask })))
  | none => backOff t policy deadline

/-- What the direct path does with a slot, or without one. -/
def putInHand (t : Nat) (nbytes : Nat) (policy : Backpressure) (deadline : Nat) :
    Option (Fin n × UInt64 × UInt64) → RingM P n (Option (Except Error (Option (SlotWriter n))))
  | some (slot, sequence, mask) =>
    (if P.debugAssertions then copyPayload slot (List.replicate nbytes 0xA5)
      else pure ()) >>= fun _ =>
    handOver t (some { slot := slot, sequence := sequence, mask := mask,
                       nbytes := nbytes }) >>= fun _ =>
      pure (some (.ok (some { slot := slot, sequence := sequence, mask := mask,
                              nbytes := nbytes })))
  | none => backOff t policy deadline

theorem publish_eq (L : RingLayout) (t : Nat) (view : TensorView) (policy : Backpressure)
    (timeout : Nat) : (publish L t view policy timeout : RingM P L.slotCount _) =
      if L.slotCapacity < view.data.length then
        pure (.error (.invalid
          s!"tensor requires {view.data.length} bytes; slot capacity is {L.slotCapacity}"))
      else now >>= fun start => Prog.loop
        (lockedReserve t view.dtype view.ndim view.shape view.strides view.data.length
          view.timestampNs >>= copyInto t view.data policy (start + timeout)) := by
  unfold publish
  split
  · rfl
  · congr 1
    funext start
    congr 2
    funext reserved
    cases reserved <;> rfl

theorem reserve_eq (L : RingLayout) (t : Nat) (dtype : DType) (shape : List UInt32)
    (policy : Backpressure) (timeout : Nat) :
    (reserve L t dtype shape policy timeout : RingM P L.slotCount _) =
      if maxNdim < shape.length then
        pure (.error (.invalid s!"ndim {shape.length} exceeds protocol max {maxNdim}"))
      else if L.slotCapacity < impliedBytes dtype shape then
        pure (.error (.invalid
          s!"tensor requires {impliedBytes dtype shape} bytes; slot capacity is {L.slotCapacity}"))
      else now >>= fun start => Prog.loop
        (lockedReserve t dtype shape.length (padded shape) (padded (contiguousStrides dtype shape))
          (impliedBytes dtype shape) none >>=
            putInHand t (impliedBytes dtype shape) policy (start + timeout)) := by
  unfold reserve
  split
  · rfl
  · simp only
    split
    · rfl
    · congr 1
      funext start
      congr 2
      funext reserved
      cases reserved with
      | none => rfl
      | some r =>
        unfold putInHand
        cases P.debugAssertions <;> rfl

end Producer

/-- The outcome of `reserve`, and the rest of the direct path. -/
def finishReserved (t : Nat) (writes : List (Nat × UInt8)) (ts : UInt64) :
    Except Error (Option (SlotWriter n)) → RingM P n (Except Error (Option (PublishResult n)))
  | .error e => pure (.error e)
  | .ok none => pure (.ok none)
  | .ok (some w) => w.finish t writes ts >>= fun result => pure (.ok (some result))

theorem Producer.publishInPlace_eq (L : RingLayout) (t : Nat) (dtype : DType) (shape : List UInt32)
    (writes : List (Nat × UInt8)) (ts : UInt64) (policy : Backpressure) (timeout : Nat) :
    (publishInPlace L t dtype shape writes ts policy timeout : RingM P L.slotCount _) =
      reserve L t dtype shape policy timeout >>= finishReserved t writes ts := by
  unfold publishInPlace
  congr 1
  funext reserved
  match reserved with
  | .error e => rfl
  | .ok none => rfl
  | .ok (some w) => rfl

/-- Backing off ends the same way on both paths. -/
theorem backOff_finish (t : Nat) (policy : Backpressure) (deadline : Nat)
    (writes : List (Nat × UInt8)) (ts : UInt64) :
    (Producer.backOff t policy deadline : RingM P n _) =
      Producer.backOff t policy deadline >>= Prog.andThen (finishReserved t writes ts) := by
  unfold Producer.backOff
  split
  · rfl
  · simp only [Prog.bind_eq, Prog.bind_assoc]
    refine congrArg _ (funext fun time => ?_)
    split <;> rfl

/-- One round of the copy path, against one of the direct path and what follows it. -/
theorem rounds_same {t : Nat} {data : List UInt8} {writes : List (Nat × UInt8)}
    (hfill : Fills data writes) (dtype : DType) (ndim : Nat) (shape strides : Fin maxNdim → UInt32)
    (ts : UInt64) (policy : Backpressure) (deadline : Nat) :
    Same OsStep (fun s : State P n => s.writer t = none)
      (Producer.lockedReserve t dtype ndim shape strides data.length (some ts) >>=
        Producer.copyInto t data policy deadline)
      ((Producer.lockedReserve t dtype ndim shape strides data.length none >>=
        Producer.putInHand t data.length policy deadline) >>=
          Prog.andThen (finishReserved t writes ts)) := by
  rw [Prog.bind_eq, Prog.bind_eq, Prog.bind_eq, Prog.bind_assoc]
  refine chosen_same ?_ fun slot sequence mask stamp => ?_
  · rw [← Prog.bind_eq, Producer.putInHand, ← backOff_finish]
    exact .refl _
  · have htails : Same OsStep (fun s : State P n => s.writer t = none)
        (copyTail t slot sequence mask dtype ndim shape strides ts data)
        (directTail t slot sequence mask dtype ndim shape strides data.length stamp ts writes) :=
      tails_same hfill stamp
    have := htails.before fun _ => (pure (some (.ok (some
        { sequence := sequence, slotIndex := slot, nbytes := data.length,
          readers := countOnes mask }))) :
        RingM P n (Option (Except Error (Option (PublishResult n)))))
    simp only [copyTail, directTail, Prog.bind_eq, Prog.bind_assoc, Prog.pure_eq] at this
    simp only [Producer.copyInto, Producer.putInHand, finishReserved, SlotWriter.finish,
      SlotWriter.commit, Prog.andThen, Prog.bind_eq, Prog.bind_assoc, Prog.pure_eq, Prog.ret_bind]
    exact this

/-- The view of a tensor with contiguous strides. -/
def TensorView.ofContiguous (dtype : DType) (shape : List UInt32) (hrank : shape.length ≤ maxNdim)
    (data : List UInt8) : TensorView :=
  { dtype := dtype, ndim := shape.length, ndim_le := hrank, shape := padded shape,
    strides := padded (contiguousStrides dtype shape), data := data, timestampNs := none }

/-- Where the size fits the data, the view can be built, and it holds what the caller gave. -/
theorem TensorView.contiguous_eq {dtype : DType} {shape : List UInt32} {data : List UInt8}
    (hrank : shape.length ≤ maxNdim) (hsize : impliedBytes dtype shape = data.length) :
    TensorView.contiguous dtype shape data = .ok (.ofContiguous dtype shape hrank data) := by
  unfold TensorView.contiguous TensorView.new
  rw [dif_pos hrank, if_neg (by simp [contiguousStrides_length]), if_neg (by simp [hsize])]
  rfl

/-- Whatever state the ring is in, a tensor of the size of its data has the same outcomes on both
paths: the same answer and the same memory. -/
theorem paths_agree (L : RingLayout) (t : Nat) (dtype : DType) (shape : List UInt32)
    (hrank : shape.length ≤ maxNdim) (data : List UInt8)
    (hsize : data.length = impliedBytes dtype shape) (writes : List (Nat × UInt8))
    (hfill : Fills data writes) (timestampNs : UInt64) (policy : Backpressure) (timeout : Nat)
    (m : State P L.slotCount × Ghost L.slotCount) (hidle : m.1.writer t = none) :
    ∃ view, TensorView.contiguous dtype shape data = .ok view ∧ ∀ result m',
      (Producer.publish L t (view.withTimestampNs timestampNs) policy timeout).Outcome
          (ringSystem P L).env m result m' ↔
        (Producer.publishInPlace L t dtype shape writes timestampNs policy timeout).Outcome
          (ringSystem P L).env m result m' := by
  refine ⟨_, TensorView.contiguous_eq hrank hsize.symm, fun result m' => ?_⟩
  have hl : Local fun s : State P L.slotCount => s.writer t = none := .unwritten t
  have hsame : Same OsStep (fun s : State P L.slotCount => s.writer t = none)
      (Producer.publish L t ((TensorView.ofContiguous dtype shape hrank data).withTimestampNs
        timestampNs) policy timeout)
      (Producer.publishInPlace L t dtype shape writes timestampNs policy timeout) := by
    rw [Producer.publish_eq, Producer.publishInPlace_eq, Producer.reserve_eq,
      if_neg (Nat.not_lt.mpr hrank), ← hsize]
    show Same _ _ (if L.slotCapacity < data.length then _ else now >>= fun start => Prog.loop
      (Producer.lockedReserve t dtype shape.length (padded shape)
        (padded (contiguousStrides dtype shape)) data.length (some timestampNs) >>=
          Producer.copyInto t data policy (start + timeout))) _
    by_cases hcap : L.slotCapacity < data.length
    · rw [if_pos hcap, if_pos hcap]
      exact .refl _
    · rw [if_neg hcap, if_neg hcap, Prog.bind_eq, Prog.bind_eq, Prog.bind_eq, Prog.bind_assoc]
      refine .bind (hl.keeps inner_read) fun start => ?_
      refine .loop (rounds_same hfill dtype _ _ _ timestampNs policy _) fun m m' hm h => ?_
      -- a round without an answer has no slot
      obtain ⟨reserved, m₁, h₁, h₂⟩ := Prog.Outcome.bind_iff.mp h
      have hm₁ := hl.keeps (inner_lockedReserve _ _ _ _ _ _ _) m reserved m₁ hm h₁
      match reserved with
      | none => exact hl.backOff _ _ _ m₁ none m' hm₁ h₂
      | some (slot, sequence, mask) =>
        obtain ⟨_, _, -, h₃⟩ := Prog.Outcome.bind_iff.mp h₂
        obtain ⟨_, _, -, h₄⟩ := Prog.Outcome.bind_iff.mp h₃
        cases (Prog.Outcome.ret_iff.mp h₄).1
  exact hsame m result m' hidle

/-- One byte, on a fresh ring: an outcome that both paths have. -/
theorem paths_agree_byte :
    ∃ (view : TensorView) (answer : PublishResult 2) (m' : State .single 2 × Ghost 2),
      TensorView.contiguous .u8 [1] [7] = .ok view ∧
        (Producer.publish (.small 2 (by decide) (by decide)) 0 (view.withTimestampNs 5)
          .dropNewest 0).Outcome (ringSystem .single (.small 2 (by decide) (by decide))).env
          (State.init 1 (), Ghost.init 2 1) (.ok (some answer)) m' ∧
        (Producer.publishInPlace (.small 2 (by decide) (by decide)) 0 .u8 [1] [(0, 7)] 5
          .dropNewest 0).Outcome (ringSystem .single (.small 2 (by decide) (by decide))).env
          (State.init 1 (), Ghost.init 2 1) (.ok (some answer)) m' ∧
        answer.sequence = 1 ∧ (m'.1.ring.slots answer.slotIndex).state = .committed ∧
        (m'.1.ring.slots answer.slotIndex).header.timestampNs = 5 ∧
        (m'.1.ring.slots answer.slotIndex).payload 0 = 7 := by
  obtain ⟨view, hview, hagree⟩ := paths_agree (P := .single) (.small 2 (by decide) (by decide))
    0 .u8 [1] (by decide) [7] (by decide) [(0, 7)] (fills_copyOf [7]) 5 .dropNewest 0
    (State.init 1 (), Ghost.init 2 1) rfl
  obtain ⟨result, m', h, ht⟩ := Prog.Outcome.computed
    (E := (ringSystem .single (.small 2 (by decide) (by decide))).env) 4000
    (p := Producer.publishInPlace (P := .single) (.small 2 (by decide) (by decide)) 0 .u8 [1]
      [(0, 7)] 5 .dropNewest 0) (m := (State.init 1 (), Ghost.init 2 1))
    (fun (result : Except Error (Option (PublishResult 2))) m' =>
      result.toOption.join.any fun (answer : PublishResult 2) => decide (answer.sequence = 1 ∧
        (m'.1.ring.slots answer.slotIndex).state = .committed ∧
        (m'.1.ring.slots answer.slotIndex).header.timestampNs = 5 ∧
        (m'.1.ring.slots answer.slotIndex).payload 0 = 7))
    (by decide +kernel)
  obtain ⟨answer, hanswer, ht⟩ := (Option.any_eq_true _ _).mp ht
  obtain rfl : result = .ok (some answer) := by
    cases result with
    | error e => cases hanswer
    | ok published => cases published with
      | none => cases hanswer
      | some other => exact congrArg Except.ok hanswer
  exact ⟨view, answer, m', hview, (hagree _ _).mpr h, h, of_decide_eq_true ht⟩

end TenzorBus
