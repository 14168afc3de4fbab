import TenzorBus.Conc.Acts
import TenzorBus.Refine.Producer
import TenzorBus.Ring.Inner
import Mathlib.Data.List.Sigma

/-!
# What a producer publishes

The outline of `publish` once more, with what is in the slot: the header as it is written word by
word, the payload byte by byte, and in the end the publication.

* `Written` : a header has the words of a tensor
* `AsGiven` : a publication is the tensor that `publish` was called with
* `Shows` : so is what a consumer reads of it
* `publish_drafts` : the outline
-/

namespace TenzorBus

open Conc

/-- The header has the words of the tensor; of its shape and strides those of the dimensions in
`dims`. -/
structure Written (tensor : TensorView) (dims : List (Fin maxNdim)) (h : TensorHeader) : Prop where
  timestampNs : ∀ ts, tensor.timestampNs = some ts → h.timestampNs = ts
  nbytes : h.nbytes = UInt64.ofNat tensor.data.length
  dtype : h.dtype = tensor.dtype.code
  ndim : h.ndim = UInt8.ofNat tensor.ndim
  flags : h.flags = 0
  shape : ∀ d ∈ dims, h.shape d = tensor.shape d
  strides : ∀ d ∈ dims, h.strides d = tensor.strides d

/-- What has been published, and what `publish` says about it, is the tensor that it was called
with. -/
structure AsGiven {n : Nat} (tensor : TensorView) (r : PublishResult n) (pub : Publication n) :
    Prop where
  slot : pub.slot = r.slotIndex
  sequence : pub.sequence = r.sequence
  readers : r.readers = countOnes pub.mask
  nbytes : r.nbytes = tensor.data.length
  header : Written tensor (List.finRange maxNdim) pub.header
  payload : ∀ off b, tensor.data[off]? = some b → pub.payload off = b

/-- What a consumer has read is the tensor. -/
structure Shows {n : Nat} (tensor : TensorView) (m : TensorMeta n) : Prop where
  timestampNs : ∀ ts, tensor.timestampNs = some ts → m.timestampNs = ts
  nbytes : m.nbytes = tensor.data.length % 2 ^ 64
  dtype : m.dtype = tensor.dtype
  ndim : m.ndim = tensor.ndim
  shape : m.shape = tensor.shape
  strides : m.strides = tensor.strides

/-- Whoever reads a header that has been written reads the tensor. -/
theorem Written.shows {n : Nat} {tensor : TensorView} {h : TensorHeader} {m : TensorMeta n}
    (hw : Written tensor (List.finRange maxNdim) h) (hm : m.Describes h) : Shows tensor m where
  timestampNs ts hts := hm.timestampNs.trans (hw.timestampNs ts hts)
  nbytes := by rw [hm.nbytes, hw.nbytes, UInt64.toNat_ofNat']
  dtype := by
    have hd := hm.dtype
    rw [hw.dtype, DType.fromCode_code] at hd
    exact (Option.some.inj hd).symm
  ndim := by
    rw [hm.ndim, hw.ndim, UInt8.toNat_ofNat', Nat.mod_eq_of_lt]
    exact tensor.ndim_le.trans_lt (by decide)
  shape := hm.shape.trans (funext fun d => hw.shape d (List.mem_finRange d))
  strides := hm.strides.trans (funext fun d => hw.strides d (List.mem_finRange d))

namespace Refine

variable {P : Platform} {L : RingLayout} {M : Mode P L.slotCount} {t : Nat}
  {slot : Fin L.slotCount} {mask sequence : UInt64} {tensor : TensorView}

/-! ## the header -/

/-- A header that has been written is one that `read_validated` accepts. -/
theorem valid_of_written {dims : List (Fin maxNdim)} {h : TensorHeader}
    (hw : Written tensor dims h) (hcap : tensor.data.length ≤ L.slotCapacity) :
    h.Valid L.slotCapacity where
  ndim := by
    rw [hw.ndim, UInt8.toNat_ofNat']
    exact (Nat.mod_le _ _).trans tensor.ndim_le
  nbytes := by
    rw [hw.nbytes, UInt64.toNat_ofNat']
    exact (Nat.mod_le _ _).trans hcap
  dtype := by simp [hw.dtype]

/-- One more dimension. -/
theorem written_dim {h : TensorHeader} {done : List (Fin maxNdim)} {d : Fin maxNdim}
    (hw : Written tensor done h) :
    Written tensor (done ++ [d]) { h with
      shape := Function.update h.shape d (tensor.shape d)
      strides := Function.update h.strides d (tensor.strides d) } := by
  have hdims : ∀ {old new : Fin maxNdim → UInt32}, (∀ e ∈ done, old e = new e) →
      ∀ e ∈ done ++ [d], Function.update old d (new d) e = new e := fun hold e he => by
    by_cases hd : e = d
    · rw [hd, Function.update_self]
    · rw [Function.update_of_ne hd]
      exact hold e (by simpa [hd] using he)
  exact { hw with shape := hdims hw.shape, strides := hdims hw.strides }

/-- What a reservation for the tensor leaves its writer with. -/
def Headed (t : Nat) (tensor : TensorView)
    (reserved : Option (Fin L.slotCount × UInt64 × UInt64)) (v : View P L.slotCount) : Prop :=
  match reserved with
  | none => Free t v
  | some (slot, sequence, mask) => v.writer t = none ∧
    Drafted t slot mask sequence (Written tensor (List.finRange maxNdim)) (fun _ => True) v

theorem lockedReserve_drafts (hcap : tensor.data.length ≤ L.slotCapacity) :
    Keeping M (.writer t)
      (Producer.lockedReserve t tensor.dtype tensor.ndim tensor.shape tensor.strides
        tensor.data.length tensor.timestampNs)
      (Free t) (Headed t tensor) := by
  refine lockedReserve_leaves (fun reserved => ?_) (fun reserved v hv => ?_)
    (fun reserved v hv => ?_) (fun _ hv => hv) fun slot sequence mask => ?_
  · cases reserved with
    | none => exact keeps_free
    | some r => exact keeps_writer.and keeps_drafted
  · cases reserved with
    | none => exact hv
    | some r =>
      have hi := hv.2.inHand
      exact ⟨hv.1, ⟨hi.steady, hi.running, hi.reserved, hi.num⟩, hv.2.header, hv.2.payload⟩
  · cases reserved with
    | none => exact hv
    | some r => exact ⟨hv.1, hv.2.inHand⟩
  · exact writeHeader_drafts _ _ _ _ _ _ (Written tensor)
      (fun h stamp hstamp => {
        timestampNs := hstamp
        nbytes := rfl
        dtype := rfl
        ndim := rfl
        flags := rfl
        shape := fun _ hd => absurd hd List.not_mem_nil
        strides := fun _ hd => absurd hd List.not_mem_nil })
      (fun _ _ _ hw => written_dim hw) fun _ hw => valid_of_written hw hcap

/-! ## the payload -/

section

variable {Q : TensorHeader → Prop} {B C : (Nat → UInt8) → Prop} {Θ : View P L.slotCount → Prop}

theorem writeByte_drafts {off : Nat} {b : UInt8} (hB : ∀ pl, B pl → C (Function.update pl off b))
    (hΘ : Keeps M (.writer t) Θ)
    (hbody : ∀ v hd pl, Θ v → Θ { v with proto := { v.proto with header := hd, payload := pl } }) :
    Keeping M (.writer t) (Producer.writeByte slot off b)
      (fun v => Drafted t slot mask sequence Q B v ∧ Θ v)
      fun _ v => Drafted t slot mask sequence Q C v ∧ Θ v := by
  have hkeep : Keeps M (.writer t) fun v => (InHand t slot mask sequence v ∧ Θ v) ∧
      Q (v.proto.header slot) ∧ C (v.proto.payload slot) := fun v v' h hv => by
    have hd := keeps_drafted v v' h ⟨hv.1.1, hv.2.1, hv.2.2⟩
    exact ⟨⟨hd.inHand, hΘ v v' h hv.1.2⟩, hd.header, hd.payload⟩
  refine post (also (pre (writeByte_keeps off b hΘ hbody) fun v _ hv => ⟨hv.1.inHand, hv.2⟩) hkeep
    fun s g _ hv _ => ?_) fun _ v _ hv => ⟨⟨hv.1.1, hv.2.1, hv.2.2⟩, hv.1.2⟩
  have hheader := hv.1.header
  have hpayload := hB _ hv.1.payload
  simpa [view, State.proto, Ring.setSlot] using And.intro hheader hpayload

theorem copyPayload_drafts (data : List UInt8) (hΘ : Keeps M (.writer t) Θ)
    (hbody : ∀ v hd pl, Θ v → Θ { v with proto := { v.proto with header := hd, payload := pl } }) :
    Keeping M (.writer t) (Producer.copyPayload slot data)
      (fun v => Drafted t slot mask sequence Q (fun _ => True) v ∧ Θ v)
      fun _ v => Drafted t slot mask sequence Q (fun pl => ∀ off b, data[off]? = some b →
        pl off = b) v ∧ Θ v := by
  refine post (pre (each (fun done rest v => done ++ rest = data.zipIdx ∧
      Drafted t slot mask sequence Q (fun pl => ∀ x ∈ done, pl x.2 = x.1) v ∧ Θ v)
    (fun done x rest => given fun he => post (writeByte_drafts
      (C := fun pl => ∀ y ∈ done ++ [x], pl y.2 = y.1) (fun pl hpl y hy => ?_) hΘ hbody)
        fun _ _ _ hv => ⟨by simpa using he, hv⟩) _)
    fun v _ hv => ⟨rfl, ⟨hv.1.inHand, hv.1.header, fun _ hx =>
      absurd hx List.not_mem_nil⟩, hv.2⟩)
    fun _ v _ hv => ⟨⟨hv.2.1.inHand, hv.2.1.header, fun off b hb => ?_⟩, hv.2.2⟩
  · -- no place is written twice
    have hnodup := List.nodup_zipIdx_map_snd data
    rw [← he, List.map_append, List.map_cons, List.nodup_middle, List.nodup_cons] at hnodup
    rcases List.mem_append.mp hy with hy | hy
    · have hne : y.2 ≠ x.2 := fun e => hnodup.1 (by
        rw [← e]
        exact List.mem_append_left _ (List.mem_map_of_mem hy))
      rw [Function.update_of_ne hne]
      exact hpl y hy
    · rw [List.mem_singleton.mp hy, Function.update_self]
  · exact hv.2.1.payload (b, off) (List.mk_mem_zipIdx_iff_getElem?.mpr hb)

end

/-! ## the publication -/

/-- Recorded the publications from the `k`-th on there is one of which `R` holds. -/
def Recorded (k : Nat) (R : Publication L.slotCount → Prop) (v : View P L.slotCount) : Prop :=
  ∃ pub ∈ v.proto.hist.published.drop k, R pub

/-- What has been published stays published, whatever the others do. -/
theorem published_rely {G : Guards L.slotCount} {cap : Nat} {a : Actor}
    {p p' : Proto L.slotCount} (h : Rely G cap a p p') :
    p.hist.published <+: p'.hist.published := by
  rcases h.step with ⟨b, -, -, hs⟩ | hf
  · exact hs.published
  · rw [hf.eq]

theorem keeps_recorded {a : Actor} {k : Nat} {R : Publication L.slotCount → Prop} :
    Keeps M a (Recorded k R) := fun _ _ h ⟨pub, hpub, hR⟩ =>
  ⟨pub, ((published_rely h.rely).drop k).subset hpub, hR⟩

/-- The history only grows. -/
theorem keeps_atLeast {a : Actor} {k : Nat} :
    Keeps M a fun v => k ≤ v.proto.hist.published.length := fun _ _ h hv =>
  hv.trans (published_rely h.rely).length_le

theorem commitSlot_drafts {k : Nat} {Q : TensorHeader → Prop} {B : (Nat → UInt8) → Prop} :
    Keeping M (.writer t) (Producer.commitSlot t slot mask)
      (fun v => Drafted t slot mask sequence Q B v ∧ v.writer t = none ∧
        k ≤ v.proto.hist.published.length)
      fun _ v => Free t v ∧ Recorded k (fun pub => pub.slot = slot ∧ pub.sequence = sequence ∧
        pub.mask = mask ∧ Q pub.header ∧ B pub.payload) v := by
  have hkeep := keeps_free.and (keeps_recorded (M := M) (a := .writer t) (k := k)
    (R := fun pub => pub.slot = slot ∧ pub.sequence = sequence ∧ pub.mask = mask ∧
      Q pub.header ∧ B pub.payload))
  refine seq (also (pre storeCommitted_keeps fun v _ hv => ⟨hv.2.1, hv.1.inHand⟩) hkeep
    fun s g hi hv _ => ?_) fun _ => seq (silent (fun _ _ => rfl) hkeep) fun _ =>
      signal_keeps _ hkeep
  refine ⟨(s.ring.slots slot).publication slot mask, ?_, rfl, ?_, rfl, hv.1.header, hv.1.payload⟩
  · have hle : k ≤ g.published.length := hv.2.2
    simp [view, State.proto, Ghost.commit, List.drop_append, hle]
  · exact (hi.coupled.sequence slot).trans hv.1.inHand.num.symm

/-- If `publish` answers with a result, the tensor has been published, from the `k`-th place on. -/
theorem publish_drafts (policy : Backpressure) (timeout : Nat) (k : Nat) :
    Keeping M (.writer t) (Producer.publish L t tensor policy timeout)
      (fun v => Free t v ∧ k ≤ v.proto.hist.published.length)
      fun answer v => ∀ r, answer = .ok (some r) → Recorded k (AsGiven tensor r) v := by
  have hfree : Keeps M (.writer t) fun v => Free t v ∧ k ≤ v.proto.hist.published.length :=
    keeps_free.and keeps_atLeast
  unfold Producer.publish
  split
  · exact ret fun _ _ _ r hr => by cases hr
  next hcap =>
  have hanswer : ∀ answer : Except Error (Option (PublishResult L.slotCount)),
      Keeps M (.writer t) fun v => ∀ r, answer = .ok (some r) → Recorded k (AsGiven tensor r) v :=
    fun _ v v' h hv r hr => keeps_recorded v v' h (hv r hr)
  refine seq (glance hfree) fun start => loop hfree hanswer ?_
  have hreserve : Keeping M (.writer t) (Producer.lockedReserve t tensor.dtype tensor.ndim
      tensor.shape tensor.strides tensor.data.length tensor.timestampNs)
      (fun v => Free t v ∧ k ≤ v.proto.hist.published.length)
      fun reserved v => Headed t tensor reserved v ∧ k ≤ v.proto.hist.published.length :=
    Rules.Outline.frame keeps_atLeast.stable ((inner_lockedReserve ..).mono fun _ _ h hk =>
      hk.trans (congrArg List.length h.published).ge) (lockedReserve_drafts (Nat.le_of_not_lt hcap))
  refine seq hreserve fun reserved => ?_
  cases reserved with
  | none =>
    refine post (backOff_leaves policy _ hfree) fun r _ _ hv => ?_
    cases r with
    | none => exact hv.2
    | some answer => exact fun r hr => absurd (congrArg some hr) (hv.1 r)
  | some r =>
    obtain ⟨slot, sequence, mask⟩ := r
    have hrest : Keeps M (.writer t) fun v => v.writer t = none ∧
        k ≤ v.proto.hist.published.length := keeps_writer.and keeps_atLeast
    refine seq (pre (copyPayload_drafts tensor.data hrest fun _ _ _ hv => hv)
      fun v _ hv => ⟨hv.1.2, hv.1.1, hv.2⟩) fun _ => seq commitSlot_drafts fun _ => ?_
    refine ret fun v _ hv r hr => ?_
    cases hr
    obtain ⟨pub, hpub, rfl, rfl, rfl, hheader, hpayload⟩ := hv.2
    exact ⟨pub, hpub, rfl, rfl, rfl, rfl, hheader, hpayload⟩

end Refine

end TenzorBus
