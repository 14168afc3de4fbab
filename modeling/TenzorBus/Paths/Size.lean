import TenzorBus.Paths.Agreement
import TenzorBus.Sequential.Producer

/-!
# Sizes and strides of tensors

The size of a tensor and its strides in unbounded numbers, and what the code computes, modulo
`2 ^ 64` and `2 ^ 32`.

* `DType.tensorSize`, `DType.strideAt` : the exact numbers
* `SizeExact` : sizes are checked and recorded exactly
* `sizeExact_iff` : when they are
-/

namespace TenzorBus

open Conc

/-! ## exact numbers -/

/-- The product of the dimensions. -/
def extent (shape : List UInt32) : Nat := (shape.map UInt32.toNat).prod

/-- The bytes of a tensor. -/
def DType.tensorSize (dtype : DType) (shape : List UInt32) : Nat := dtype.itemsize * extent shape

/-- The C-contiguous byte stride of dimension `i`. -/
def DType.strideAt (dtype : DType) (shape : List UInt32) (i : Nat) : Nat :=
  dtype.itemsize * extent (shape.drop (i + 1))

@[simp] theorem extent_nil : extent [] = 1 := rfl

@[simp] theorem extent_cons (d : UInt32) (shape : List UInt32) :
    extent (d :: shape) = d.toNat * extent shape := by
  simp [extent]

/-! ## what the code computes -/

theorem foldl_elements (shape : List UInt32) (acc : UInt64) :
    (shape.foldl (fun acc d => acc * d.toUInt64) acc).toNat =
      acc.toNat * extent shape % 2 ^ 64 := by
  induction shape generalizing acc with
  | nil =>
    have := acc.toNat_lt
    simp [Nat.mod_eq_of_lt this]
  | cons d shape ih =>
    rw [List.foldl_cons, ih, UInt64.toNat_mul, UInt32.toNat_toUInt64, extent_cons, Nat.mod_mul_mod,
      Nat.mul_assoc]

/-- The size that a shape implies is the exact one modulo `2 ^ 64`. -/
theorem impliedBytes_eq (dtype : DType) (shape : List UInt32) :
    impliedBytes dtype shape = dtype.tensorSize shape % 2 ^ 64 := by
  have hitem : (UInt64.ofNat dtype.itemsize).toNat = dtype.itemsize := by cases dtype <;> rfl
  unfold impliedBytes elements DType.tensorSize
  rw [UInt64.toNat_mul, foldl_elements, hitem, Nat.mod_mul_mod]
  congr 1
  rw [show (1 : UInt64).toNat = 1 from rfl, Nat.one_mul, Nat.mul_comm]

/-- The round of `contiguousStrides`. -/
def strideRound (d : UInt32) (acc : UInt64 × List UInt32) : UInt64 × List UInt32 :=
  (acc.1 * d.toUInt64, acc.1.toUInt32 :: acc.2)

theorem contiguousStrides_eq (dtype : DType) (shape : List UInt32) :
    contiguousStrides dtype shape =
      (shape.foldr strideRound (UInt64.ofNat dtype.itemsize, [])).2 := rfl

theorem foldr_strideRound (dtype : DType) (shape : List UInt32) :
    (shape.foldr strideRound (UInt64.ofNat dtype.itemsize, [])).1.toNat =
      dtype.tensorSize shape % 2 ^ 64 := by
  unfold DType.tensorSize
  induction shape with
  | nil => cases dtype <;> rfl
  | cons d shape ih =>
    rw [List.foldr_cons, strideRound, UInt64.toNat_mul, ih, UInt32.toNat_toUInt64, extent_cons,
      Nat.mod_mul_mod, Nat.mul_assoc, Nat.mul_comm (extent shape)]

/-- A stride is the exact one modulo `2 ^ 32`. -/
theorem contiguousStrides_getD (dtype : DType) (shape : List UInt32) (i : Nat)
    (hi : i < shape.length) :
    ((contiguousStrides dtype shape).getD i 0).toNat = dtype.strideAt shape i % 2 ^ 32 := by
  rw [contiguousStrides_eq]
  induction shape generalizing i with
  | nil => cases hi
  | cons d shape ih =>
    rw [List.foldr_cons, strideRound]
    cases i with
    | zero =>
      rw [List.getD_cons_zero, UInt64.toNat_toUInt32, foldr_strideRound]
      exact Nat.mod_mod_of_dvd _ (by decide)
    | succ i =>
      rw [List.getD_cons_succ, ih i (by simpa using hi)]
      rfl

/-! ## what a reservation records -/

section

variable {P : Platform} {n : Nat} {m m' : State P n × Ghost n}

theorem OsStep.ring (h : Relation.ReflTransGen OsStep m m') : m'.1.ring = m.1.ring := by
  induction h with
  | refl => rfl
  | tail _ he ih =>
    obtain ⟨os, -, rfl⟩ := he
    exact ih

/-- The header of `slot` describes this tensor. -/
structure Described (r : Ring n) (slot : Fin n) (dtype : DType) (ndim : Nat)
    (shape strides : Fin maxNdim → UInt32) (nbytes : Nat) : Prop where
  nbytes : (r.slots slot).header.nbytes = UInt64.ofNat nbytes
  dtype : (r.slots slot).header.dtype = dtype.code
  ndim : (r.slots slot).header.ndim = UInt8.ofNat ndim
  shape : (r.slots slot).header.shape = shape
  strides : (r.slots slot).header.strides = strides

variable {dtype : DType} {ndim nbytes t : Nat} {shape strides : Fin maxNdim → UInt32}

theorem afterReserve_described (slot : Fin n) (sequence mask stamp : UInt64) :
    Described (afterReserve t slot sequence mask dtype ndim shape strides nbytes stamp m).1.ring
      slot dtype ndim shape strides nbytes := by
  constructor <;> simp [afterReserve, afterDescribe, onSlot, Ring.setSlot, Slot.described]

theorem lockedReserve_described {timestampNs : Option UInt64} {slot : Fin n}
    {sequence mask : UInt64}
    (h : (Producer.lockedReserve t dtype ndim shape strides nbytes timestampNs :
      RingM P n _).Outcome OsStep m (some (slot, sequence, mask)) m') :
    Described m'.1.ring slot dtype ndim shape strides nbytes := by
  replace h := h.bind (q := pure) (.ret _ m')
  rw [← Prog.bind_eq, Producer.lockedReserve_bind] at h
  obtain ⟨_, _, -, h⟩ := Prog.Outcome.bind_iff.mp h
  obtain ⟨_, _, -, h⟩ := Prog.Outcome.bind_iff.mp h
  obtain ⟨chosen, _, -, h⟩ := Prog.Outcome.bind_iff.mp h
  cases chosen with
  | none =>
    obtain ⟨_, _, -, h⟩ := Prog.Outcome.bind_iff.mp h
    cases (Prog.Outcome.ret_iff.mp h).1
  | some slot' =>
    obtain ⟨sequence', _, -, h⟩ := Prog.Outcome.bind_iff.mp h
    obtain ⟨mask', _, -, h⟩ := Prog.Outcome.bind_iff.mp h
    rw [Producer.writeHeader_eq, Prog.bind_eq, Prog.bind_eq, Prog.bind_assoc] at h
    obtain ⟨_, _, -, h⟩ := Prog.Outcome.bind_iff.mp h
    rw [Prog.bind_eq, Prog.bind_assoc] at h
    obtain ⟨stamp, m₁, -, h⟩ := Prog.Outcome.bind_iff.mp h
    obtain ⟨_, m₂, h, hlast⟩ := Prog.Outcome.bind_iff.mp h
    obtain ⟨_, _, hstamp, hdescribe⟩ := Prog.Outcome.bind_iff.mp h
    obtain ⟨_, m₃, hunlock, hret⟩ := Prog.Outcome.bind_iff.mp hlast
    obtain ⟨heq, hrest⟩ := Prog.Outcome.ret_iff.mp hret
    cases heq
    have hends := (straight_reserve t slot sequence mask dtype ndim shape strides nbytes
      stamp).ends _ _ _ |>.mp (hstamp.bind (hdescribe.bind hunlock))
    rw [OsStep.ring (hends.trans hrest)]
    exact afterReserve_described slot sequence mask stamp

/-- Whoever backs off goes on, gives up, or has waited long enough. -/
theorem backOff_outcome {α : Type} {policy : Backpressure} {deadline : Nat}
    {r : Option (Except Error (Option α))}
    (h : (Producer.backOff t policy deadline : RingM P n _).Outcome OsStep m r m') :
    r = none ∨ r = some (.ok none) ∨ r = some (.error .ringFull) := by
  unfold Producer.backOff at h
  split at h
  · obtain ⟨_, _, -, h⟩ := Prog.Outcome.bind_iff.mp h
    exact .inr (.inl (Prog.Outcome.ret_iff.mp h).1)
  · obtain ⟨time, _, -, h⟩ := Prog.Outcome.bind_iff.mp h
    split at h
    · exact .inr (.inr (Prog.Outcome.ret_iff.mp h).1)
    · obtain ⟨_, _, -, h⟩ := Prog.Outcome.bind_iff.mp h
      obtain ⟨_, _, -, h⟩ := Prog.Outcome.bind_iff.mp h
      exact .inl (Prog.Outcome.ret_iff.mp h).1

/-- What the direct path puts in hand. -/
theorem putInHand_outcome {policy : Backpressure} {deadline : Nat} {slot : Fin n}
    {sequence mask : UInt64} {r : Option (Except Error (Option (SlotWriter n)))}
    (hm : Described m.1.ring slot dtype ndim shape strides nbytes)
    (h : (Producer.putInHand t nbytes policy deadline (some (slot, sequence, mask)) :
      RingM P n _).Outcome OsStep m r m') :
    ∃ w, r = some (.ok (some w)) ∧ w.nbytes = nbytes ∧
      Described m'.1.ring w.slot dtype ndim shape strides nbytes := by
  obtain ⟨g, hpoison, hg⟩ := straight_poison (P := P) slot nbytes
  obtain ⟨_, m₁, h₁, h⟩ := Prog.Outcome.bind_iff.mp h
  obtain ⟨_, m₂, h₂, h⟩ := Prog.Outcome.bind_iff.mp h
  obtain ⟨rfl, henv⟩ := Prog.Outcome.ret_iff.mp h
  refine ⟨_, rfl, rfl, ?_⟩
  have hhand := OsStep.ring (((straight_handOver t _).ends _ _ _).mp h₂)
  have hring : m'.1.ring = (onSlot slot g m).1.ring :=
    calc m'.1.ring = m₂.1.ring := OsStep.ring henv
      _ = m₁.1.ring := hhand
      _ = (onSlot slot g m).1.ring := OsStep.ring ((hpoison.ends _ _ _).mp h₁)
  obtain ⟨p, hp, -⟩ := hg (m.1.ring.slots slot)
  rw [hring]
  constructor <;> simp only [onSlot, Ring.setSlot, Function.update_self, hp]
  · exact hm.nbytes
  · exact hm.dtype
  · exact hm.ndim
  · exact hm.shape
  · exact hm.strides

end

/-- How a reservation of a size that passes the check ends. -/
theorem reserve_outcome {P : Platform} {L : RingLayout} {t : Nat} {dtype : DType}
    {shape : List UInt32} {policy : Backpressure} {timeout : Nat}
    {m m' : State P L.slotCount × Ghost L.slotCount}
    {r : Except Error (Option (SlotWriter L.slotCount))} (hrank : shape.length ≤ maxNdim)
    (hcap : impliedBytes dtype shape ≤ L.slotCapacity)
    (h : (Producer.reserve L t dtype shape policy timeout).Outcome OsStep m r m') :
    r = .ok none ∨ r = .error .ringFull ∨ ∃ w, r = .ok (some w) ∧
      w.nbytes = impliedBytes dtype shape ∧
      Described m'.1.ring w.slot dtype shape.length (padded shape)
        (padded (contiguousStrides dtype shape)) (impliedBytes dtype shape) := by
  rw [Producer.reserve_eq, if_neg (by omega), if_neg (by omega)] at h
  obtain ⟨start, m₁, -, hloop⟩ := Prog.Outcome.bind_iff.mp h
  obtain ⟨r', m₂, hrounds, hret⟩ := outcome_iter.mp hloop
  obtain ⟨rfl, henv⟩ := Prog.Outcome.ret_iff.mp hret
  clear h hloop hret
  induction hrounds with
  | more _ _ ih => exact ih henv
  | last hround =>
    obtain ⟨reserved, m₃, h₁, h₂⟩ := Prog.Outcome.bind_iff.mp hround
    match reserved with
    | none =>
      rcases backOff_outcome h₂ with h | h | h
      · cases h
      · exact .inl (Option.some.inj h)
      · exact .inr (.inl (Option.some.inj h))
    | some (slot, sequence, mask) =>
      obtain ⟨w, hw, hn, hd⟩ := putInHand_outcome (lockedReserve_described h₁) h₂
      exact .inr (.inr ⟨w, Option.some.inj hw, hn, OsStep.ring henv ▸ hd⟩)

/-- On a fresh ring a reservation of a size that passes the check succeeds. -/
theorem reserve_fresh {P : Platform} {L : RingLayout} {dtype : DType} {shape : List UInt32}
    (hrank : shape.length ≤ maxNdim) (hcap : impliedBytes dtype shape ≤ L.slotCapacity)
    (policy : Backpressure) (timeout : Nat) (k : UInt64) (os : P.Os) :
    ∃ w s', (Producer.reserve L 0 dtype shape policy timeout :
      RingM P L.slotCount _).Yields (.init k os) (.ok (some w)) s' := by
  have hn : 0 < L.slotCount := by
    have := L.slotCount_ge
    omega
  have hset : Settled (.init k os : State P L.slotCount) (.writer 0) :=
    ⟨fun i h => (by cases h), fun j h => (by cases h)⟩
  have hround := lockedReserve_yields (s := .init k os) rfl hset dtype shape.length (padded shape)
    (padded (contiguousStrides dtype shape)) (impliedBytes dtype shape) none
  have hslot : (State.init k os : State P L.slotCount).ring.selected = some ⟨0, hn⟩ :=
    Ring.selected_format k hn
  rw [hslot, Option.map_some] at hround
  have hpoison : ∀ (slot : Fin L.slotCount) (s : State P L.slotCount), ∃ s',
      ((if P.debugAssertions then
        Producer.copyPayload slot (List.replicate (impliedBytes dtype shape) 0xA5)
          else pure ()) : RingM P L.slotCount Unit).Yields s () s' := by
    intro slot s
    split
    · exact ⟨_, .forM (fun s x => .store _ _ s) _ s⟩
    · exact ⟨s, .ret _ s⟩
  obtain ⟨s', hs'⟩ := hpoison ⟨0, hn⟩ _
  rw [Producer.reserve_eq, if_neg (by omega), if_neg (by omega)]
  exact ⟨_, _, .get (.loop (.bind hround (.bind hs' (.put (.ret _ _)))))⟩

/-! ## exact sizes -/

/-- `reserve` of such a tensor is never answered with `Error::Invalid`. -/
def Producer.Accepts (L : RingLayout) (dtype : DType) (shape : List UInt32) : Prop :=
  ∀ (P : Platform) (t : Nat) (policy : Backpressure) (timeout : Nat)
    (m m' : State P L.slotCount × Ghost L.slotCount) (message : String),
    ¬(reserve L t dtype shape policy timeout).Outcome (ringSystem P L).env m
      (.error (.invalid message)) m'

theorem Producer.accepts_iff {L : RingLayout} {dtype : DType} {shape : List UInt32}
    (hrank : shape.length ≤ maxNdim) :
    Accepts L dtype shape ↔ impliedBytes dtype shape ≤ L.slotCapacity := by
  constructor
  · intro h
    by_contra hcap
    refine h .single 0 .block 0 (.init 0 (), .init _ 0) (.init 0 (), .init _ 0)
      s!"tensor requires {impliedBytes dtype shape} bytes; slot capacity is {L.slotCapacity}" ?_
    rw [reserve_eq, if_neg (by omega), if_pos (by omega)]
    exact .ret _ _
  · intro hcap P t policy timeout m m' message h
    rcases reserve_outcome hrank hcap h with h | h | ⟨w, h, -, -⟩ <;> cases h

/-- The size is checked exactly, and size and strides are recorded exactly. -/
structure SizeExact (L : RingLayout) (dtype : DType) (shape : List UInt32) (data : List UInt8) :
    Prop where
  accepts_iff : Producer.Accepts L dtype shape ↔ dtype.tensorSize shape ≤ L.slotCapacity
  contiguous_iff : (∃ view, TensorView.contiguous dtype shape data = .ok view) ↔
    dtype.tensorSize shape = data.length
  reserved : ∀ (P : Platform) (t : Nat) (policy : Backpressure) (timeout : Nat)
    (m m' : State P L.slotCount × Ghost L.slotCount) (w : SlotWriter L.slotCount),
    (Producer.reserve L t dtype shape policy timeout).Outcome (ringSystem P L).env m
        (.ok (some w)) m' →
      w.nbytes = dtype.tensorSize shape ∧
        (m'.1.ring.slots w.slot).header.nbytes.toNat = dtype.tensorSize shape ∧
        ∀ d : Fin maxNdim, d < shape.length →
          ((m'.1.ring.slots w.slot).header.strides d).toNat = dtype.strideAt shape d
  viewed : ∀ view, TensorView.contiguous dtype shape data = .ok view →
    view.data.length = dtype.tensorSize shape ∧
      ∀ d : Fin maxNdim, d < shape.length → (view.strides d).toNat = dtype.strideAt shape d

/-- Nothing wraps in what is accepted: the size modulo `2 ^ 64` is refused on both paths, or the
size fits 64 bits and every stride fits 32 bits. -/
def SizeFits (L : RingLayout) (dtype : DType) (shape : List UInt32) (data : List UInt8) : Prop :=
  (L.slotCapacity < dtype.tensorSize shape % 2 ^ 64 ∧
      dtype.tensorSize shape % 2 ^ 64 ≠ data.length) ∨
    (dtype.tensorSize shape < 2 ^ 64 ∧
      ∀ i < shape.length, dtype.strideAt shape i < 2 ^ 32)

theorem TensorView.contiguous_iff {dtype : DType} {shape : List UInt32} {data : List UInt8}
    (hrank : shape.length ≤ maxNdim) :
    (∃ view, TensorView.contiguous dtype shape data = .ok view) ↔
      impliedBytes dtype shape = data.length := by
  constructor
  · rintro ⟨view, h⟩
    unfold contiguous TensorView.new at h
    rw [dif_pos hrank, if_neg (by simp [contiguousStrides_length])] at h
    by_contra hsize
    rw [if_pos hsize] at h
    cases h
  · exact fun h => ⟨_, contiguous_eq hrank h⟩

/-- The strides that both paths write. -/
theorem padded_strides {dtype : DType} {shape : List UInt32} (d : Fin maxNdim)
    (hd : d < shape.length) :
    (padded (contiguousStrides dtype shape) d).toNat = dtype.strideAt shape d % 2 ^ 32 :=
  contiguousStrides_getD dtype shape d hd

/-- Sizes and strides are exact in exactly those cases in which nothing wraps. -/
theorem sizeExact_iff (L : RingLayout) (dtype : DType) (shape : List UInt32)
    (hrank : shape.length ≤ maxNdim) (data : List UInt8) (hdata : data.length < 2 ^ 64) :
    SizeExact L dtype shape data ↔ SizeFits L dtype shape data := by
  have hcap := L.slotCapacity_lt
  have himplied := impliedBytes_eq dtype shape
  have haccepts : Producer.Accepts L dtype shape ↔ impliedBytes dtype shape ≤ L.slotCapacity :=
    Producer.accepts_iff hrank
  have hview : (∃ view, TensorView.contiguous dtype shape data = .ok view) ↔
      impliedBytes dtype shape = data.length := TensorView.contiguous_iff hrank
  have hlt := Nat.mod_lt (dtype.tensorSize shape) (show 2 ^ 64 > 0 by decide)
  have hstride : ∀ {i}, dtype.strideAt shape i % 2 ^ 32 = dtype.strideAt shape i →
      dtype.strideAt shape i < 2 ^ 32 := by
    intro i h
    have := Nat.mod_lt (dtype.strideAt shape i) (show 2 ^ 32 > 0 by decide)
    omega
  rw [himplied] at haccepts hview
  constructor
  · intro h
    by_cases hsmall : dtype.tensorSize shape % 2 ^ 64 ≤ L.slotCapacity
    · -- the reservation on a fresh ring shows what is recorded
      obtain ⟨w, s', hreserve⟩ := reserve_fresh (P := .single) hrank (himplied ▸ hsmall) .block 0
        0 ()
      obtain ⟨g', hout⟩ := hreserve.outcome (.init _ 0)
      obtain ⟨hn, -, hs⟩ := h.reserved .single 0 .block 0 _ _ w hout
      rcases reserve_outcome hrank (himplied ▸ hsmall) hout with h' | h' | ⟨w', h', hw, hd⟩
      · cases h'
      · cases h'
      · cases h'
        refine .inr ⟨by omega, fun i hi => hstride ?_⟩
        have := hs ⟨i, by omega⟩ hi
        rwa [hd.strides, padded_strides _ hi] at this
    · by_cases hdata' : dtype.tensorSize shape % 2 ^ 64 = data.length
      · obtain ⟨view, hv⟩ := hview.mpr hdata'
        obtain ⟨hn, hs⟩ := h.viewed view hv
        rw [TensorView.contiguous_eq hrank (himplied.trans hdata')] at hv
        cases hv
        refine .inr ⟨hn ▸ hdata, fun i hi => hstride ?_⟩
        have := hs ⟨i, by omega⟩ hi
        rwa [TensorView.ofContiguous, padded_strides _ hi] at this
      · exact .inl ⟨by omega, hdata'⟩
  · rintro (⟨hlarge, hne⟩ | ⟨hfits, hstrides⟩)
    · -- nothing is accepted
      have hsize : ¬dtype.tensorSize shape ≤ L.slotCapacity := fun h => by
        rw [Nat.mod_eq_of_lt (by omega)] at hlarge
        omega
      refine ⟨haccepts.trans (iff_of_false (by omega) hsize), hview.trans (iff_of_false hne ?_),
        fun P t policy timeout m m' w h => ?_, fun view h => absurd (hview.mp ⟨view, h⟩) hne⟩
      · intro h
        rw [Nat.mod_eq_of_lt (h ▸ hdata)] at hne
        exact hne h
      · rw [Producer.reserve_eq, if_neg (by omega), if_pos (himplied ▸ hlarge)] at h
        cases (Prog.Outcome.ret_iff.mp h).1
    · rw [Nat.mod_eq_of_lt hfits] at haccepts hview himplied
      have hexact : ∀ d : Fin maxNdim, d < shape.length →
          (padded (contiguousStrides dtype shape) d).toNat = dtype.strideAt shape d :=
        fun d hd => (padded_strides d hd).trans (Nat.mod_eq_of_lt (hstrides d hd))
      refine ⟨haccepts, hview, fun P t policy timeout m m' w h => ?_, fun view h => ?_⟩
      · have hle : impliedBytes dtype shape ≤ L.slotCapacity := by
          by_contra hgt
          rw [Producer.reserve_eq, if_neg (by omega), if_pos (by omega)] at h
          cases (Prog.Outcome.ret_iff.mp h).1
        rcases reserve_outcome hrank hle h with h' | h' | ⟨w', h', hw, hd⟩
        · cases h'
        · cases h'
        · cases h'
          refine ⟨hw.trans himplied, ?_, fun d hd' => ?_⟩
          · rw [hd.nbytes, himplied]
            exact UInt64.toNat_ofNat_of_lt' hfits
          · rw [hd.strides]
            exact hexact d hd'
      · have hdata' := hview.mp ⟨view, h⟩
        rw [TensorView.contiguous_eq hrank (himplied.trans hdata')] at h
        cases h
        exact ⟨hdata'.symm, hexact⟩

/-- Six floats, which both paths accept: 24 bytes, with strides of 12 and of 4 bytes. -/
theorem sizeExact_floats :
    SizeFits (.small 2 (by decide) (by decide)) .f32 [2, 3] (List.replicate 24 0) ∧
      SizeExact (.small 2 (by decide) (by decide)) .f32 [2, 3] (List.replicate 24 0) ∧
      Producer.Accepts (.small 2 (by decide) (by decide)) .f32 [2, 3] ∧
      ∃ view, TensorView.contiguous .f32 [2, 3] (List.replicate 24 0) = .ok view ∧
        view.data.length = 24 ∧ (view.strides ⟨0, by decide⟩).toNat = 12 ∧
          (view.strides ⟨1, by decide⟩).toNat = 4 := by
  have hfits : SizeFits (.small 2 (by decide) (by decide)) .f32 [2, 3] (List.replicate 24 0) :=
    .inr ⟨by decide, by decide⟩
  have hexact := (sizeExact_iff (.small 2 (by decide) (by decide)) .f32 [2, 3] (by decide)
    (List.replicate 24 0) (by decide)).mpr hfits
  obtain ⟨view, hview⟩ := hexact.contiguous_iff.mpr (by decide)
  obtain ⟨hlength, hstrides⟩ := hexact.viewed view hview
  exact ⟨hfits, hexact, hexact.accepts_iff.mpr (by decide), view, hview, hlength,
    hstrides _ (by decide), hstrides _ (by decide)⟩

/-- A shape of `2 ^ 64` bytes passes as an empty one. -/
theorem sizeExact_wraps : ¬SizeExact (.small 2 (by decide) (by decide)) .u8
    [2147483648, 2147483648, 4] [] := by
  intro h
  have hsize := h.accepts_iff.mp ((Producer.accepts_iff (by decide)).mpr (by
    rw [impliedBytes_eq]
    decide))
  revert hsize
  decide

end TenzorBus
