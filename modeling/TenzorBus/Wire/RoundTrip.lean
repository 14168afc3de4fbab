import TenzorBus.Wire.Encoded
import TenzorBus.Reference.Written
import TenzorBus.Reference.Publish
import TenzorBus.Ring.Script

/-!
# What one side writes the other side reads

* `ByteM.read_publishTo` : the transport reads what the reference has published
* `ByteM.publishTo_outside` : a publication leaves alone what lies elsewhere
* `wire_round_trip` : both directions
-/

namespace TenzorBus

open TenzorCore Reference

/-! ## what the reference writes -/

namespace Reference.ByteM

variable {call : Call} {arr : NdArray} {code : UInt8} {sequence consumers : Nat}

/-- Where `publish` writes, relative to the slot. -/
def fillSpans : List (Nat × Nat) :=
  [(8, 8), (16, 8), (24, 8), (32, 1), (33, 1), (34, 2), (36, 4), (40, 4), (44, 4), (48, 4), (52, 4),
    (56, 4), (60, 4), (64, 4), (68, 4), (72, 4), (76, 4), (80, 4), (84, 4), (88, 4), (92, 4),
    (96, 4), (100, 4), (104, 4)]

theorem span_fillWords :
    (fillWords call arr code sequence consumers).map Write.span = fillSpans := rfl

/-- The writes of the header do not touch each other, nor the magic, nor the state. -/
theorem fillWords_apart :
    (.word sState 4 Protocol.stateCommitted ::
      fillWords call arr code sequence consumers).Pairwise Write.Apart := by
  refine Write.pairwise_apart ((4, 4) :: fillSpans) ?_ (by decide)
  rw [List.map_cons, span_fillWords]
  rfl

theorem fillWords_inside {w : Write} (hw : w ∈ fillWords call arr code sequence consumers) :
    8 ≤ w.off ∧ w.off + w.bytes.length ≤ slotHeaderSize := by
  have hall : ∀ s ∈ fillSpans, 8 ≤ s.1 ∧ s.1 + s.2 ≤ slotHeaderSize := by decide
  exact hall _ (span_fillWords ▸ List.mem_map_of_mem hw)

section

variable {L : RingLayout} {slot : Nat} {m m₁ : Image}

/-- All the writes of `publish` up to the commit but the first. -/
def fillWrites (slot slotCapacity : Nat) (call : Call) (arr : NdArray) (code : UInt8)
    (sequence consumers : Nat) : List Write :=
  (fillWords call arr code sequence consumers).map
      (Write.shifted (Protocol.slotBase slot slotCapacity)) ++
    [.mk (Protocol.payloadBase slot slotCapacity) arr.data,
      .word (Protocol.slotBase slot slotCapacity + sState) 4 Protocol.stateCommitted]

theorem fillWrites_apart (slot slotCapacity : Nat) :
    (fillWrites slot slotCapacity call arr code sequence consumers).Pairwise Write.Apart := by
  have hbase : globalHeaderSize ≤ Protocol.slotBase slot slotCapacity := Nat.le_add_right _ _
  have hin : ∀ w ∈ Write.word sState 4 Protocol.stateCommitted ::
      fillWords call arr code sequence consumers, w.off + w.bytes.length ≤ slotHeaderSize := by
    intro w hw
    rcases List.mem_cons.mp hw with rfl | hw
    · decide
    · exact (fillWords_inside hw).2
  have hwords : (.word sState 4 Protocol.stateCommitted ::
      fillWords call arr code sequence consumers).Pairwise Write.Apart := fillWords_apart
  have hall := slot_apart hbase hwords hin .nil (fun _ hw => nomatch hw) arr.data
  refine (List.Perm.pairwise_iff (fun h => h.symm) ?_).mp hall
  refine List.perm_iff_count.mpr fun w => ?_
  have hstate : Write.shifted (Protocol.slotBase slot slotCapacity)
      (.word sState 4 Protocol.stateCommitted) =
        .word (Protocol.slotBase slot slotCapacity + sState) 4 Protocol.stateCommitted := rfl
  unfold fillWrites
  simp only [List.map_cons, List.count_append, List.count_cons, List.count_nil,
    Protocol.payloadBase, hstate]
  omega

/-- What a computation leaves, whether it raises or not. -/
def left (c : ByteM Unit) (m : Image) : Image := (exec c m).2

theorem left_seq {c c' : ByteM Unit} {u : Unit} (h : exec c m = (.ok u, m₁)) :
    left (c >>= fun _ => c') m = left c' m₁ := by
  unfold left
  rw [exec_bind, h]

/-- What goes through has gone through its first part. -/
theorem exec_seq_ok {c c' : ByteM Unit} {u : Unit}
    (h : exec (c >>= fun _ => c') m = (.ok u, m₁)) : ∃ m', exec c m = (.ok ⟨⟩, m') := by
  rw [exec_bind] at h
  rcases hrun : exec c m with ⟨e | u', m'⟩
  · rw [hrun] at h
    cases h
  · exact ⟨m', rfl⟩

/-- Whether it raises or not, a computation leaves a byte alone. -/
def Spares (c : ByteM Unit) (a : Nat) : Prop := ∀ m, left c m a = m a

theorem Writes.spares {c : ByteM Unit} {φ : Prop} {xs : List Write} (h : Writes c φ xs) {a : Nat}
    (ha : ∀ x ∈ xs, a < x.off ∨ x.off + x.bytes.length ≤ a) : Spares c a :=
  fun _ => h.outside ha

theorem Spares.writeU64 {off a : Nat} {v : Int} (h : a < off ∨ off + 8 ≤ a) :
    Spares (writeU64 off v) a := by
  refine (Writes.packInto off 8 v).spares fun x hx => ?_
  rw [List.mem_singleton.mp hx]
  exact h

theorem Spares.get {k : Image → ByteM Unit} {a : Nat} (h : ∀ m, Spares (k m) a) :
    Spares (get >>= k) a := by
  intro m
  unfold left
  rw [exec_bind]
  exact h m m

theorem Spares.seq {c c' : ByteM Unit} {a : Nat} (h : Spares c a) (h' : Spares c' a) :
    Spares (c >>= fun _ => c') a := by
  intro m
  rcases hrun : exec c m with ⟨e | u, m'⟩
  · have hc := h m
    unfold left at hc ⊢
    rw [hrun] at hc
    rw [exec_bind, hrun]
    exact hc
  · have hc := h m
    unfold left at hc
    rw [hrun] at hc
    rw [left_seq hrun, h' m']
    exact hc

/-- Behind the commit two words of the global header are written, whether or not they fit. -/
theorem Spares.count {a : Nat} (h : a < 24 ∨ 32 ≤ a) (h' : a < 40 ∨ 48 ≤ a) :
    Spares (count sequence) a :=
  .seq (.writeU64 h) (.get fun _ => .writeU64 h')

/-- Neither a slot nor a registry entry is touched behind the commit. -/
theorem slice_count {off len : Nat} (h : 64 ≤ off) :
    (left (count sequence) m).slice off len = m.slice off len :=
  Image.slice_congr fun _ ha _ => Spares.count (by omega) (by omega) m

/-- What `publish` leaves of a slot, whether or not it raises behind the commit. -/
theorem slice_publishTo (hp : Packable call arr sequence consumers) {off len : Nat}
    (h : 64 ≤ off) :
    (left (publishTo call slot L.slotCapacity arr code sequence consumers) m).slice off len =
      ((m.write (.word (Protocol.slotBase slot L.slotCapacity + sState) 4
        Protocol.stateWriting)).writes
          (fillWrites slot L.slotCapacity call arr code sequence consumers)).slice off len := by
  rw [publishTo, left_seq ((writes_fill ..).done hp m)]
  exact slice_count h

/-- What has been written to the slot can be read back. -/
theorem word_publishTo (hp : Packable call arr sequence consumers) {w : Write}
    (hw : w ∈ .word sState 4 Protocol.stateCommitted ::
      fillWords call arr code sequence consumers) :
    (left (publishTo call slot L.slotCapacity arr code sequence consumers) m).slice
      (Protocol.slotBase slot L.slotCapacity + w.off) w.bytes.length = w.bytes := by
  have hbase : globalHeaderSize ≤ Protocol.slotBase slot L.slotCapacity := Nat.le_add_right _ _
  have hmem : w.shifted (Protocol.slotBase slot L.slotCapacity) ∈
      fillWrites slot L.slotCapacity call arr code sequence consumers := by
    rcases List.mem_cons.mp hw with rfl | hw
    · exact List.mem_append_right _ (.tail _ (.head _))
    · exact List.mem_append_left _ (List.mem_map_of_mem hw)
  rw [slice_publishTo hp (by unfold globalHeaderSize at hbase; omega)]
  exact Image.slice_writes hmem (fillWrites_apart slot L.slotCapacity)

theorem load_publishTo (hp : Packable call arr sequence consumers) {off w v : Nat}
    (hw : .word off w v ∈ .word sState 4 Protocol.stateCommitted ::
      fillWords call arr code sequence consumers) (hv : v < 256 ^ w) :
    (left (publishTo call slot L.slotCapacity arr code sequence consumers) m).load
      (Protocol.slotBase slot L.slotCapacity + off) w = v := by
  have h : (left (publishTo call slot L.slotCapacity arr code sequence consumers) m).slice
      (Protocol.slotBase slot L.slotCapacity + off) (Write.word off w v).bytes.length = le w v :=
    word_publishTo (w := .word off w v) hp hw
  rw [show (Write.word off w v).bytes.length = w from length_le w v] at h
  rw [Image.load, h, ofLe_le hv]

theorem byte_publishTo (hp : Packable call arr sequence consumers) {off : Nat} {b : UInt8}
    (hw : Write.mk off [b] ∈ fillWords call arr code sequence consumers) :
    left (publishTo call slot L.slotCapacity arr code sequence consumers) m
      (Protocol.slotBase slot L.slotCapacity + off) = b :=
  List.singleton_inj.mp (word_publishTo (m := m) hp (List.mem_cons_of_mem _ hw))

theorem payload_publishTo (hp : Packable call arr sequence consumers) :
    (left (publishTo call slot L.slotCapacity arr code sequence consumers) m).slice
      (Protocol.payloadBase slot L.slotCapacity) arr.nbytes = arr.data := by
  have hbase : globalHeaderSize ≤ Protocol.slotBase slot L.slotCapacity := Nat.le_add_right _ _
  have hmem : Write.mk (Protocol.payloadBase slot L.slotCapacity) arr.data ∈
      fillWrites slot L.slotCapacity call arr code sequence consumers :=
    List.mem_append_right _ (.head _)
  unfold globalHeaderSize at hbase
  rw [slice_publishTo hp (by unfold Protocol.payloadBase; omega)]
  exact Image.slice_mk hmem (fillWrites_apart slot L.slotCapacity)

/-- A header holds what the reference has published. -/
structure Holds (h : TensorSlotHeader) (call : Call) (arr : NdArray) (sequence consumers : Nat) :
    Prop where
  state : h.state = TenzorCore.stateCommitted
  sequence : h.sequence.toNat = sequence
  timestampNs : (h.timestampNs.toNat : Int) = call.timestampNs.getD call.timeNs
  nbytes : h.nbytes.toNat = arr.nbytes
  dtype : (DType.fromCode h.dtype).map DType.numpyName = some arr.dtype
  ndim : h.ndim.toNat = arr.shape.length
  readersRemaining : h.readersRemaining.toNat = consumers
  flags : h.flags = 0
  shape : ∀ d, (h.shape d).toNat = arr.shape.getD d 0
  strides : ∀ d, ((h.strides d).toNat : Int) = arr.strides.getD d 0
  producerPid : h.producerPid = call.pid

theorem toNat_fits {v : Int} {w : Nat} (h : 0 ≤ v ∧ v < 256 ^ w) : v.toNat < 256 ^ w := by
  rw [Int.toNat_lt h.1]
  exact_mod_cast h.2

theorem toNat_extent (l : List Nat) (d : Nat) :
    ((l.map Int.ofNat).getD d 0).toNat = l.getD d 0 := by
  rw [List.getD_eq_getElem?_getD, List.getD_eq_getElem?_getD, List.getElem?_map]
  cases l[d]? <;> rfl

/-- Both sides have the same codes. -/
theorem fromCode_dtypeToCode {dtype : String} (h : dtypeToCode dtype = some code) :
    (DType.fromCode code).map DType.numpyName = some dtype := by
  obtain ⟨l, r, hl, -⟩ := List.lookup_eq_some_iff.mp h
  have hall : ∀ p ∈ [("float32", (1 : UInt8)), ("float16", 2), ("uint8", 3), ("int8", 4),
      ("int16", 5), ("int32", 6), ("int64", 7), ("float64", 8), ("bool", 9)],
      (DType.fromCode p.2).map DType.numpyName = some p.1 := by decide
  exact hall (dtype, code) (hl ▸ List.mem_append_right l List.mem_cons_self)

/-- The transport reads what the reference has published. -/
theorem read_publishTo (hslot : slot < L.slotCount)
    (hp : Packable call arr sequence consumers) (hrank : arr.shape.length ≤ maxNdim)
    (hcode : dtypeToCode arr.dtype = some code) :
    Holds (.read (left (publishTo call slot L.slotCapacity arr code sequence consumers) m)
      (slotOff L slot).toNat) call arr sequence consumers := by
  have hword : ∀ off w v, Write.word off w v ∈ .word sState 4 Protocol.stateCommitted ::
      fillWords call arr code sequence consumers → v < 256 ^ w →
        (left (publishTo call slot L.slotCapacity arr code sequence consumers) m).load
          (Protocol.slotBase slot L.slotCapacity + off) w = v :=
    fun _ _ _ hw hv => load_publishTo hp hw hv
  have hbyte : ∀ off b, Write.mk off [b] ∈ fillWords call arr code sequence consumers →
      left (publishTo call slot L.slotCapacity arr code sequence consumers) m
        (Protocol.slotBase slot L.slotCapacity + off) = b :=
    fun _ _ hw => byte_publishTo hp hw
  rw [slotOff_toNat hslot]
  generalize left (publishTo call slot L.slotCapacity arr code sequence consumers) m = m₂ at *
  generalize Protocol.slotBase slot L.slotCapacity = base at *
  have hpid : call.pid.toNat < 256 ^ 4 := call.pid.toNat_lt
  have hu64 : ∀ off v, m₂.load (base + off) 8 = v → v < 256 ^ 8 →
      (m₂.u64 (base + off)).toNat = v := by
    rintro off v rfl hv
    exact UInt64.toNat_ofNat_of_lt' hv
  have hu32 : ∀ off v, m₂.load (base + off) 4 = v → v < 256 ^ 4 →
      (m₂.u32 (base + off)).toNat = v := by
    rintro off v rfl hv
    exact UInt32.toNat_ofNat_of_lt' hv
  have hu16 : ∀ off v, m₂.load (base + off) 2 = v → v < 256 ^ 2 →
      (m₂.u16 (base + off)).toNat = v := by
    rintro off v rfl hv
    exact UInt16.toNat_ofNat_of_lt' hv
  have hdims : ∀ off v, Write.word off 4 v ∈ fillWords call arr code sequence consumers →
      v < 256 ^ 4 → (m₂.u32 (base + off)).toNat = v :=
    fun off v hw hv => hu32 off v (hword off 4 v (.tail _ hw) hv) hv
  constructor
  · exact congrArg UInt32.ofNat (hword Protocol.sState 4 _ (.head _) (by decide))
  · exact hu64 _ _ (hword Protocol.sSequence 8 _ (by simp [fillWords]) hp.sequence) hp.sequence
  · have hstamp := toNat_fits hp.stamp
    have := hu64 _ _ (hword Protocol.sTimestampNs 8 _ (by simp [fillWords]) hstamp) hstamp
    exact (congrArg Int.ofNat this).trans (Int.toNat_of_nonneg hp.stamp.1)
  · exact hu64 _ _ (hword Protocol.sNbytes 8 _ (by simp [fillWords]) hp.nbytes) hp.nbytes
  · have hdtype : m₂ (base + sDtype) = code := hbyte Protocol.sDtype code (by simp [fillWords])
    simp only [TensorSlotHeader.read]
    rw [hdtype]
    exact fromCode_dtypeToCode hcode
  · have hndim : m₂ (base + sNdim) = UInt8.ofNat arr.shape.length :=
      hbyte Protocol.sNdim _ (by simp [fillWords])
    simp only [TensorSlotHeader.read]
    rw [hndim]
    exact UInt8.toNat_ofNat_of_lt' (lt_of_le_of_lt hrank (by decide))
  · exact hu16 _ _ (hword Protocol.sReaders 2 _ (by simp [fillWords]) hp.consumers) hp.consumers
  · exact congrArg UInt32.ofNat (hword Protocol.sFlags 4 0 (by simp [fillWords]) (by decide))
  · intro d
    have hd := toNat_fits (hp.shape d d.isLt)
    have := hdims (Protocol.sShape + d * 4) _ (List.mem_append_left _ (List.mem_append_left _
      (List.mem_append_right _ (List.mem_map_of_mem (List.mem_range.mpr d.isLt))))) hd
    exact this.trans (toNat_extent arr.shape d)
  · intro d
    have hd := toNat_fits (hp.strides d d.isLt)
    have := hdims (Protocol.sStrides + d * 4) _ (List.mem_append_left _
      (List.mem_append_right _ (List.mem_map_of_mem (List.mem_range.mpr d.isLt)))) hd
    refine (congrArg Int.ofNat this).trans ?_
    exact Int.toNat_of_nonneg (hp.strides d d.isLt).1
  · exact UInt32.toNat_inj.mp (hdims Protocol.sProducerPid _ (by simp [fillWords]) hpid)

/-- A publication touches its slot and two words of the global header, whether or not it raises. -/
theorem Spares.publishTo (hdata : arr.nbytes ≤ L.slotCapacity) {a : Nat}
    (ha : a < Protocol.slotBase slot L.slotCapacity ∨
      Protocol.slotBase slot L.slotCapacity + Protocol.slotStride L.slotCapacity ≤ a)
    (hnext : a < 24 ∨ 32 ≤ a) (hcount : a < 40 ∨ 48 ≤ a) :
    Spares (publishTo call slot L.slotCapacity arr code sequence consumers) a := by
  have hroom := slot_room L
  have hword : ∀ w ∈ Write.word sState 4 Protocol.stateCommitted ::
      fillWords call arr code sequence consumers,
      a < (w.shifted (Protocol.slotBase slot L.slotCapacity)).off ∨
        (w.shifted (Protocol.slotBase slot L.slotCapacity)).off + w.bytes.length ≤ a := by
    intro w hw
    have hin : w.off + w.bytes.length ≤ slotHeaderSize := by
      rcases List.mem_cons.mp hw with rfl | hw
      · decide
      · exact (fillWords_inside hw).2
    simp only [Write.shifted]
    omega
  refine .seq ((writes_fill ..).spares fun w hw => ?_) (.count hnext hcount)
  rcases List.mem_append.mp hw with hw | hw
  · rcases List.mem_cons.mp hw with rfl | hw
    · exact hword (.word sState 4 Protocol.stateCommitted) (.head _)
    · obtain ⟨v, hv, rfl⟩ := List.mem_map.mp hw
      exact hword v (.tail _ hv)
  · simp only [List.mem_cons, List.not_mem_nil, or_false] at hw
    rcases hw with rfl | rfl
    · have : arr.data.length ≤ L.slotCapacity := hdata
      simp only [Protocol.payloadBase]
      omega
    · exact hword (.word sState 4 Protocol.stateCommitted) (.head _)

/-- A publication that goes through had values that fit. -/
theorem packable_of_ok {u : Unit}
    (h : exec (publishTo call slot L.slotCapacity arr code sequence consumers) m = (.ok u, m₁)) :
    Packable call arr sequence consumers := by
  obtain ⟨m', hfill⟩ := exec_seq_ok h
  exact ((writes_fill ..).of_ok hfill).1

end

end Reference.ByteM

/-! ## both directions -/

open Reference ByteM

/-- The reference reads what the transport has published, the transport reads what the reference has
published, and neither of them touches another slot or the registry table. -/
theorem wire_round_trip (L : RingLayout) (slot : Nat) (hslot : slot < L.slotCount) (m : Image) :
    (∀ x : Parcel, x.data.length ≤ L.slotCapacity →
      Protocol.readSlot (Bytes.publish L slot x m) slot L.slotCapacity =
        { state := Protocol.stateCommitted
          sequence := x.sequence.toNat
          timestampNs := x.timestampNs.toNat
          nbytes := x.data.length
          dtype := some x.dtype.numpyName
          shape := x.shape.map (·.toNat)
          strides := x.strides.map (·.toNat)
          readersRemaining := countOnes x.mask
          payload := x.data } ∧
      ∀ a, Elsewhere L slot a → Bytes.publish L slot x m a = m a) ∧
    ∀ (call : Call) (arr : NdArray) (code : UInt8) (sequence consumers : Nat),
      arr.shape.length ≤ maxNdim → dtypeToCode arr.dtype = some code →
      arr.nbytes ≤ L.slotCapacity →
      (∀ m', exec (publishTo call slot L.slotCapacity arr code sequence consumers) m =
        (.ok ⟨⟩, m') → Packable call arr sequence consumers) ∧
      (Packable call arr sequence consumers →
        Holds (.read (left (publishTo call slot L.slotCapacity arr code sequence consumers) m)
          (slotOff L slot).toNat) call arr sequence consumers ∧
        (left (publishTo call slot L.slotCapacity arr code sequence consumers) m).slice
          (payloadOff L slot).toNat arr.nbytes = arr.data) ∧
      ∀ a, Elsewhere L slot a →
        left (publishTo call slot L.slotCapacity arr code sequence consumers) m a = m a := by
  constructor
  · refine fun x hdata => ⟨Bytes.readSlot_publish hslot hdata m, fun a ha => ?_⟩
    obtain ⟨hout, hlow⟩ := ha.outside
    refine Bytes.publish_outside hslot hdata hout fun s hs => .inr ?_
    have hall : ∀ s ∈ [(24, 8), (40, 8), (56, 4)], s.1 + s.2 ≤ 128 := by decide
    exact (hall s hs).trans hlow
  · refine fun call arr code sequence consumers hrank hcode hdata =>
      ⟨fun m' => packable_of_ok, fun hp => ⟨?_, ?_⟩, ?_⟩
    · exact read_publishTo hslot hp hrank hcode
    · rw [payloadOff_toNat hslot]
      exact payload_publishTo hp
    · intro a ha
      obtain ⟨hout, hlow⟩ := ha.outside
      exact Spares.publishTo hdata hout (.inr (by omega)) (.inr (by omega)) m

/-- A small ring. -/
def RingLayout.pair : RingLayout := .two

/-- Two numbers of the transport. -/
def Parcel.sample : Parcel :=
  { producerPid := 7, producerStartToken := 9, sequence := 4294967296, timestampNs := 1000,
    dtype := .i16, shape := [2], strides := [2], strides_length := rfl, rank := by decide,
    data := [1, 2, 3, 4], mask := 5 }

/-- A byte of the reference. -/
theorem packable_byte : Packable (.captured 1000) (.byte 5) 258 2 where
  sequence := by decide
  stamp := by decide
  nbytes := by decide
  consumers := by decide
  shape := by decide
  strides := by decide
  casts := rfl

/-- No bytes of the reference. -/
def Reference.NdArray.nothing : NdArray :=
  { dtype := "uint8", itemsize := 1, shape := [0], strides := [1], data := [], casts := true,
    strides_length := by decide, data_length := rfl }

theorem packable_nothing : Packable (.captured 1000) .nothing 259 2 where
  sequence := by decide
  stamp := by decide
  nbytes := by decide
  consumers := by decide
  shape := by decide
  strides := by decide
  casts := rfl

/-- Numbers of the transport, a byte of the reference and an array of it that is empty. -/
theorem wire_round_trip_pair :
    Protocol.readSlot (Bytes.publish .pair 1 .sample fun _ => 0) 1 64 =
      { state := 1, sequence := 4294967296, timestampNs := 1000, nbytes := 4,
        dtype := some "int16", shape := [2], strides := [2], readersRemaining := 2,
        payload := [1, 2, 3, 4] } ∧
    Holds (.read (left (publishTo (.captured 1000) 1 64 (.byte 5) 3 258 2) fun _ => 0)
      (slotOff .pair 1).toNat) (.captured 1000) (.byte 5) 258 2 ∧
    Holds (.read (left (publishTo (.captured 1000) 0 64 .nothing 3 259 2) fun _ => 0)
      (slotOff .pair 0).toNat) (.captured 1000) .nothing 259 2 := by
  have h := wire_round_trip .pair 1 (by decide) fun _ => 0
  have h' := wire_round_trip .pair 0 (by decide) fun _ => 0
  exact ⟨((h.1 .sample (by decide)).1).trans (by decide),
    ((h.2 (.captured 1000) (.byte 5) 3 258 2 (by decide) (by decide) (by decide)).2.1
      packable_byte).1,
    ((h'.2 (.captured 1000) .nothing 3 259 2 (by decide) (by decide) (by decide)).2.1
      packable_nothing).1⟩

end TenzorBus
