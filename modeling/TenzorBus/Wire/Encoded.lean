import TenzorBus.Wire.Places

/-!
# What the transport leaves in the mapping

* `Bytes.readSlot_publish` : the reference reads what the transport has published
* `Bytes.publish_outside` : a publication leaves alone what lies elsewhere
-/

namespace TenzorBus

open TenzorCore Reference

/-! ## what the transport writes -/

namespace Bytes

/-- Where `reserve_header` stores, relative to the slot. -/
def headerSpans : List (Nat × Nat) :=
  [(104, 4), (120, 4), (8, 8), (16, 8), (24, 8), (32, 1), (33, 1), (36, 4),
    (40, 4), (72, 4), (44, 4), (76, 4), (48, 4), (80, 4), (52, 4), (84, 4),
    (56, 4), (88, 4), (60, 4), (92, 4), (64, 4), (96, 4), (68, 4), (100, 4),
    (112, 8), (34, 2)]

theorem span_headerWords (x : Parcel) : (headerWords x).map Write.span = headerSpans := rfl

/-- The stores of the header do not touch each other, nor the magic, nor the state. -/
theorem headerWords_apart (x : Parcel) :
    (.u32 sState stateCommitted :: headerWords x).Pairwise Write.Apart := by
  refine Write.pairwise_apart ((4, 4) :: headerSpans) ?_ (by decide)
  rw [List.map_cons, span_headerWords]
  rfl

theorem headerWords_inside {x : Parcel} {w : Write} (hw : w ∈ headerWords x) :
    8 ≤ w.off ∧ w.off + w.bytes.length ≤ slotHeaderSize := by
  have hall : ∀ s ∈ headerSpans, 8 ≤ s.1 ∧ s.1 + s.2 ≤ slotHeaderSize := by decide
  exact hall _ (span_headerWords x ▸ List.mem_map_of_mem hw)

theorem shape_mem_headerWords {x : Parcel} (d : Fin maxNdim) :
    .u32 (sShape + d * 4) (padded x.shape d) ∈ headerWords x :=
  List.mem_append_left _ (List.mem_append_right _
    (List.mem_flatMap.mpr ⟨d, List.mem_finRange d, .head _⟩))

theorem strides_mem_headerWords {x : Parcel} (d : Fin maxNdim) :
    .u32 (sStrides + d * 4) (padded x.strides d) ∈ headerWords x :=
  List.mem_append_left _ (List.mem_append_right _
    (List.mem_flatMap.mpr ⟨d, List.mem_finRange d, .tail _ (.head _)⟩))

section

variable {L : RingLayout} {slot : Nat} {x : Parcel} {m : Image}

/-- All the writes of a publication but the first. -/
def publishWrites (L : RingLayout) (slot : Nat) (x : Parcel) (count : UInt64) (futex : UInt32) :
    List Write :=
  (headerWords x).map (Write.shifted (slotOff L slot).toNat) ++
    [.u64 gNextSeq (x.sequence + 1), .mk (payloadOff L slot).toNat x.data,
      .u32 ((slotOff L slot).toNat + sState) stateCommitted, .u64 gPublishCount count,
      .u32 gPublishFutex futex]

theorem publish_eq (L : RingLayout) (slot : Nat) (x : Parcel) (m : Image) :
    ∃ count futex, publish L slot x m =
      (m.write (.u32 ((slotOff L slot).toNat + sState) stateWriting)).writes
        (publishWrites L slot x count futex) := by
  let m₁ := (copyPayload L slot x (reserveHeader L slot x m)).write
    (.u32 ((slotOff L slot).toNat + sState) stateCommitted)
  let m₂ := m₁.write (.u64 gPublishCount (m₁.u64 gPublishCount + 1))
  refine ⟨m₁.u64 gPublishCount + 1, m₂.u32 gPublishFutex + 1, ?_⟩
  rw [publishWrites, Image.writes_append]
  rfl

theorem publishWrites_apart (hslot : slot < L.slotCount) (count : UInt64) (futex : UInt32) :
    (publishWrites L slot x count futex).Pairwise Write.Apart := by
  have hbase : globalHeaderSize ≤ Protocol.slotBase slot L.slotCapacity := Nat.le_add_right _ _
  have hin : ∀ w ∈ Write.u32 sState stateCommitted :: headerWords x,
      w.off + w.bytes.length ≤ slotHeaderSize := by
    intro w hw
    rcases List.mem_cons.mp hw with rfl | hw
    · decide
    · exact (headerWords_inside hw).2
  have hglobals : [Write.u64 gNextSeq (x.sequence + 1), .u64 gPublishCount count,
      .u32 gPublishFutex futex].Pairwise Write.Apart :=
    Write.pairwise_apart [(24, 8), (40, 8), (56, 4)] rfl (by decide)
  have hlow : ∀ w ∈ [Write.u64 gNextSeq (x.sequence + 1), .u64 gPublishCount count,
      .u32 gPublishFutex futex], w.off + w.bytes.length ≤ globalHeaderSize := by
    have hall : ∀ s ∈ [(24, 8), (40, 8), (56, 4)], s.1 + s.2 ≤ globalHeaderSize := by decide
    exact fun w hw => hall (Write.span w) (List.mem_map_of_mem hw)
  have hall := slot_apart hbase (headerWords_apart x) hin hglobals hlow x.data
  refine (List.Perm.pairwise_iff (fun h => h.symm) ?_).mp hall
  unfold publishWrites
  rw [slotOff_toNat hslot, payloadOff_toNat hslot]
  refine List.perm_iff_count.mpr fun w => ?_
  have hstate : Write.shifted (Protocol.slotBase slot L.slotCapacity) (.u32 sState stateCommitted) =
      .u32 (Protocol.slotBase slot L.slotCapacity + sState) stateCommitted := rfl
  simp only [List.map_cons, List.count_append, List.count_cons, List.count_nil,
    Protocol.payloadBase, hstate]
  omega

/-- What has been written to the slot can be read back. -/
theorem slice_publish (hslot : slot < L.slotCount) {w : Write} (hw : w ∈ headerWords x) :
    (publish L slot x m).slice (Protocol.slotBase slot L.slotCapacity + w.off) w.bytes.length =
      w.bytes := by
  obtain ⟨count, futex, h⟩ := publish_eq L slot x m
  have hmem : w.shifted (slotOff L slot).toNat ∈ publishWrites L slot x count futex :=
    List.mem_append_left _ (List.mem_map_of_mem hw)
  rw [h, ← slotOff_toNat hslot]
  exact Image.slice_writes hmem (publishWrites_apart hslot count futex)

theorem load_publish (hslot : slot < L.slotCount) {off w v : Nat}
    (hw : Write.word off w v ∈ headerWords x) (hv : v < 256 ^ w) :
    (publish L slot x m).load (Protocol.slotBase slot L.slotCapacity + off) w = v := by
  have h : (publish L slot x m).slice (Protocol.slotBase slot L.slotCapacity + off)
      (Write.word off w v).bytes.length = le w v := slice_publish hslot hw
  rw [show (Write.word off w v).bytes.length = w from length_le w v] at h
  rw [Image.load, h, ofLe_le hv]

theorem byte_publish (hslot : slot < L.slotCount) {off : Nat} {b : UInt8}
    (hw : Write.mk off [b] ∈ headerWords x) :
    publish L slot x m (Protocol.slotBase slot L.slotCapacity + off) = b :=
  List.singleton_inj.mp (slice_publish (m := m) hslot hw)

theorem state_publish (hslot : slot < L.slotCount) :
    (publish L slot x m).load (Protocol.slotBase slot L.slotCapacity + sState) 4 = 1 := by
  obtain ⟨count, futex, h⟩ := publish_eq L slot x m
  have hmem : Write.word ((slotOff L slot).toNat + sState) 4 stateCommitted.toNat ∈
      publishWrites L slot x count futex := by
    simp [publishWrites, Write.u32]
  rw [h, ← slotOff_toNat hslot]
  exact (Image.load_writes hmem (publishWrites_apart hslot count futex)
    (UInt32.toNat_lt _)).trans rfl

theorem payload_publish (hslot : slot < L.slotCount) :
    (publish L slot x m).slice (Protocol.payloadBase slot L.slotCapacity) x.data.length =
      x.data := by
  obtain ⟨count, futex, h⟩ := publish_eq L slot x m
  have hmem : Write.mk (payloadOff L slot).toNat x.data ∈ publishWrites L slot x count futex := by
    simp [publishWrites]
  rw [h, ← payloadOff_toNat hslot]
  exact Image.slice_mk hmem (publishWrites_apart hslot count futex)

/-- The front of a padded array. -/
theorem take_padded {l : List UInt32} (hl : l.length ≤ maxNdim) (f : Nat → Nat)
    (hf : ∀ d : Fin maxNdim, f d = (padded l d).toNat) :
    ((List.range maxNdim).map f).take l.length = l.map (·.toNat) := by
  refine List.ext_getElem (by simp [hl]) fun k hk hk' => ?_
  have hkl : k < l.length := by simpa using hk'
  have := hf ⟨k, by omega⟩
  simp only [List.getElem_take, List.getElem_map, List.getElem_range]
  rw [this, padded]
  simp [hkl]

/-- The reference reads what the transport has published. -/
theorem readSlot_publish (hslot : slot < L.slotCount) (hdata : x.data.length ≤ L.slotCapacity)
    (m : Image) :
    Protocol.readSlot (publish L slot x m) slot L.slotCapacity =
      { state := Protocol.stateCommitted
        sequence := x.sequence.toNat
        timestampNs := x.timestampNs.toNat
        nbytes := x.data.length
        dtype := some x.dtype.numpyName
        shape := x.shape.map (·.toNat)
        strides := x.strides.map (·.toNat)
        readersRemaining := countOnes x.mask
        payload := x.data } := by
  have hword : ∀ off w v, Write.word off w v ∈ headerWords x → v < 256 ^ w →
      (publish L slot x m).load (Protocol.slotBase slot L.slotCapacity + off) w = v :=
    fun _ _ _ hw hv => load_publish hslot hw hv
  have hlen : (UInt64.ofNat x.data.length).toNat = x.data.length :=
    UInt64.toNat_ofNat_of_lt' (lt_of_le_of_lt hdata L.slotCapacity_lt)
  have hnbytes := hword sNbytes 8 (UInt64.ofNat x.data.length).toNat
    (by simp [headerWords, Write.u64]) (UInt64.toNat_lt _)
  have hndim : publish L slot x m (Protocol.slotBase slot L.slotCapacity + sNdim) =
      UInt8.ofNat x.shape.length := byte_publish hslot (by simp [headerWords])
  have hrank : (UInt8.ofNat x.shape.length).toNat = x.shape.length :=
    UInt8.toNat_ofNat_of_lt' (lt_of_le_of_lt x.rank (by decide))
  have hdtype : publish L slot x m (Protocol.slotBase slot L.slotCapacity + sDtype) =
      x.dtype.code := byte_publish hslot (by simp [headerWords])
  have hname : codeToDtype x.dtype.code = some x.dtype.numpyName := by
    cases x.dtype <;> rfl
  have hdim : ∀ (base : Nat) (l : List UInt32), (∀ d : Fin maxNdim,
      Write.u32 (base + d * 4) (padded l d) ∈ headerWords x) → ∀ d : Fin maxNdim,
      (publish L slot x m).load (Protocol.slotBase slot L.slotCapacity + base + d * 4) 4 =
        (padded l d).toNat := by
    intro base l hl d
    rw [Nat.add_assoc]
    exact hword _ 4 _ (hl d) (UInt32.toNat_lt _)
  have hshape := hdim sShape x.shape shape_mem_headerWords
  have hstrides := hdim sStrides x.strides strides_mem_headerWords
  have hcount : countOnes x.mask ≤ 64 := List.countP_le_length.trans (by simp)
  have hreaders : (UInt16.ofNat (countOnes x.mask)).toNat = countOnes x.mask :=
    UInt16.toNat_ofNat_of_lt' (lt_of_le_of_lt hcount (by decide))
  have hmask := hword sReaders 2 (UInt16.ofNat (countOnes x.mask)).toNat
    (by simp [headerWords, Write.u16]) (UInt16.toNat_lt _)
  have hsequence := hword sSequence 8 x.sequence.toNat (by simp [headerWords, Write.u64])
    (UInt64.toNat_lt _)
  have hstamp := hword sTimestampNs 8 x.timestampNs.toNat (by simp [headerWords, Write.u64])
    (UInt64.toNat_lt _)
  have hstate := state_publish (x := x) (m := m) hslot
  have hpayload := payload_publish (x := x) (m := m) hslot
  rw [hlen] at hnbytes
  rw [hreaders] at hmask
  have hshape' : Protocol.readShape (publish L slot x m)
      (Protocol.slotBase slot L.slotCapacity + sShape) x.shape.length = x.shape.map (·.toNat) :=
    take_padded x.rank (fun d => (publish L slot x m).load
      (Protocol.slotBase slot L.slotCapacity + sShape + d * 4) 4) hshape
  have hstrides' : Protocol.readShape (publish L slot x m)
      (Protocol.slotBase slot L.slotCapacity + sStrides) x.shape.length =
        x.strides.map (·.toNat) := by
    rw [← x.strides_length]
    exact take_padded (x.strides_length ▸ x.rank) (fun d => (publish L slot x m).load
      (Protocol.slotBase slot L.slotCapacity + sStrides + d * 4) 4) hstrides
  exact Protocol.readSlot_eq hstate hsequence hstamp hnbytes hdtype hname (hndim ▸ hrank) hshape'
    hstrides' hmask hpayload

/-- A publication touches its slot and three words of the global header. -/
theorem publish_outside (hslot : slot < L.slotCount) (hdata : x.data.length ≤ L.slotCapacity)
    {a : Nat} (ha : a < Protocol.slotBase slot L.slotCapacity ∨
      Protocol.slotBase slot L.slotCapacity + Protocol.slotStride L.slotCapacity ≤ a)
    (hglobal : ∀ s ∈ [(24, 8), (40, 8), (56, 4)], a < s.1 ∨ s.1 + s.2 ≤ a) :
    publish L slot x m a = m a := by
  obtain ⟨count, futex, h⟩ := publish_eq L slot x m
  have hroom := slot_room L
  have hword : ∀ w ∈ Write.u32 sState stateCommitted :: headerWords x,
      a < (w.shifted (Protocol.slotBase slot L.slotCapacity)).off ∨
        (w.shifted (Protocol.slotBase slot L.slotCapacity)).off + w.bytes.length ≤ a := by
    intro w hw
    have hin : w.off + w.bytes.length ≤ slotHeaderSize := by
      rcases List.mem_cons.mp hw with rfl | hw
      · decide
      · exact (headerWords_inside hw).2
    simp only [Write.shifted]
    omega
  have hfirst : m.write (.u32 (Protocol.slotBase slot L.slotCapacity + sState) stateWriting) a =
      m a :=
    Image.write_outside (hword (.u32 sState stateCommitted) List.mem_cons_self)
  rw [h, slotOff_toNat hslot]
  refine (Image.writes_outside fun w hw => ?_).trans hfirst
  unfold publishWrites at hw
  rw [slotOff_toNat hslot, payloadOff_toNat hslot] at hw
  rcases List.mem_append.mp hw with hw | hw
  · obtain ⟨v, hv, rfl⟩ := List.mem_map.mp hw
    exact hword v (List.mem_cons_of_mem _ hv)
  · simp only [List.mem_cons, List.not_mem_nil, or_false] at hw
    rcases hw with rfl | rfl | rfl | rfl | rfl
    · exact hglobal (24, 8) (by simp)
    · simp only [Protocol.payloadBase]
      omega
    · exact hword (.u32 sState stateCommitted) List.mem_cons_self
    · exact hglobal (40, 8) (by simp)
    · exact hglobal (56, 4) (by simp)

end

end Bytes

end TenzorBus
