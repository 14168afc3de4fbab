import TenzorBus.Core

/-!
# Geometries that are accepted

`RingLayout::new`, `Ring::create` and `Ring::attach` as far as they look at sizes, in the `usize`
arithmetic of a release build: modulo `2 ^ 64`.

* `Usize` : the layout arithmetic as the code computes it
* `Opened.Sound` : what the ring relies on, in unbounded numbers
* `accepted_sound_iff` : which of the accepted geometries are sound
-/

namespace TenzorBus

/-! ## layout arithmetic modulo `2 ^ 64` -/

namespace Usize

/-- `usize::div_ceil`. -/
def divCeil (a b : UInt64) : UInt64 := if 0 < a % b then a / b + 1 else a / b

def alignUp (value alignment : UInt64) : UInt64 := divCeil value alignment * alignment

def slotStride (slotCapacity : UInt64) : UInt64 := alignUp (128 + slotCapacity) 64

def totalBytes (slotCount slotCapacity : UInt64) : UInt64 :=
  4096 + slotCount * slotStride slotCapacity

/-- Rounding up comes out right where it does not wrap. -/
theorem alignUp_toNat {v : UInt64} (h : TenzorBus.alignUp v.toNat 64 < 2 ^ 64) :
    (alignUp v 64).toNat = TenzorBus.alignUp v.toNat 64 := by
  have hmod : (v % 64).toNat = v.toNat % 64 := UInt64.toNat_mod v 64
  have hdiv : (v / 64).toNat = v.toNat / 64 := UInt64.toNat_div v 64
  have hv := v.toNat_lt
  have h64 : (64 : UInt64).toNat = 64 := rfl
  unfold TenzorBus.alignUp at h ⊢
  unfold alignUp divCeil
  by_cases hpos : 0 < v % 64
  · have hpos' : 0 < v.toNat % 64 := by
      rw [← hmod]
      exact UInt64.lt_iff_toNat_lt.mp hpos
    have hceil : (v.toNat + 64 - 1) / 64 = v.toNat / 64 + 1 := by omega
    have hsucc : (v / 64 + 1).toNat = v.toNat / 64 + 1 := by
      rw [UInt64.toNat_add, hdiv]
      show (v.toNat / 64 + 1) % 2 ^ 64 = _
      omega
    rw [if_pos hpos, UInt64.toNat_mul, hsucc, h64, hceil]
    rw [hceil] at h
    exact Nat.mod_eq_of_lt h
  · have hzero : v.toNat % 64 = 0 := by
      rw [← hmod]
      by_contra hne
      exact hpos (UInt64.lt_iff_toNat_lt.mpr (Nat.pos_of_ne_zero hne))
    have hceil : (v.toNat + 64 - 1) / 64 = v.toNat / 64 := by omega
    rw [if_neg hpos, UInt64.toNat_mul, hdiv, h64, hceil]
    rw [hceil] at h
    exact Nat.mod_eq_of_lt h

/-- Where the unbounded stride fits, it is the one that is computed. -/
theorem slotStride_toNat {c : UInt64} (h : TenzorBus.slotStride c.toNat < 2 ^ 64) :
    (slotStride c).toNat = TenzorBus.slotStride c.toNat := by
  have hadd : (128 + c).toNat = slotHeaderSize + c.toNat := by
    have hle := le_alignUp (slotHeaderSize + c.toNat) (a := 64) (by decide)
    rw [UInt64.toNat_add]
    exact Nat.mod_eq_of_lt (lt_of_le_of_lt hle h)
  unfold TenzorBus.slotStride at h ⊢
  rw [← hadd] at h ⊢
  exact alignUp_toNat h

theorem totalBytes_toNat {n c : UInt64} (h : TenzorBus.slotStride c.toNat < 2 ^ 64) :
    (totalBytes n c).toNat = TenzorBus.totalBytes n.toNat c.toNat % 2 ^ 64 := by
  unfold totalBytes TenzorBus.totalBytes
  rw [UInt64.toNat_add, UInt64.toNat_mul, slotStride_toNat h, Nat.add_mod_mod]
  rfl

end Usize

/-! ## what is accepted -/

/-- `RingLayout::new`. -/
def RingLayout.new (slotCount slotCapacity : UInt64) : Except String (UInt64 × UInt64) :=
  if slotCount < 2 then .error "slot_count must be >= 2"
  else if slotCapacity < 64 then .error "slot_capacity must be >= 64"
  else .ok (slotCount, slotCapacity)

/-- The geometry of a handle, the slot count in the header, and the length of the mapping. -/
structure Opened where
  slotCount : UInt64
  slotCapacity : UInt64
  slotStride : UInt64
  header : UInt32
  length : UInt64

/-- `Ring::create`, and the slot count that `format` stores. -/
def Opened.create (slotCount slotCapacity : UInt64) : Except String Opened :=
  (RingLayout.new slotCount slotCapacity).map fun layout =>
    { slotCount := layout.1, slotCapacity := layout.2,
      slotStride := Usize.slotStride layout.2, header := layout.1.toUInt32,
      length := Usize.totalBytes layout.1 layout.2 }

/-- `Ring::attach`, of a header that says this in a mapping of this length. -/
def Opened.attach (slotCount : UInt32) (slotCapacity length : UInt64) : Except String Opened :=
  if slotCount.toUInt64 < 2 ∨ slotCapacity < 64 then
    .error "degenerate ring geometry in header"
  else if length < Usize.totalBytes slotCount.toUInt64 slotCapacity then
    .error "header geometry exceeds mapping length"
  else
    .ok { slotCount := slotCount.toUInt64, slotCapacity := slotCapacity,
          slotStride := Usize.slotStride slotCapacity, header := slotCount, length := length }

/-- A geometry that is in use. -/
inductive Accepted : Opened → Prop
  | created {slotCount slotCapacity : UInt64} {o : Opened}
      (h : Opened.create slotCount slotCapacity = .ok o) : Accepted o
  | attached {slotCount : UInt32} {slotCapacity length : UInt64} {o : Opened}
      (h : Opened.attach slotCount slotCapacity length = .ok o) : Accepted o

namespace Opened

/-- Where slot `i` begins. -/
def base (o : Opened) (i : Nat) : Nat := globalHeaderSize + i * o.slotStride.toNat

/-- Where it ends. -/
def bound (o : Opened) (i : Nat) : Nat := o.base i + slotHeaderSize + o.slotCapacity.toNat

/-- The slots lie in the mapping and apart from each other, payloads are aligned, and the header
has the slot count in use. -/
structure Sound (o : Opened) : Prop where
  inside : ∀ i < o.slotCount.toNat, o.bound i ≤ o.length.toNat
  disjoint : ∀ i j, i < j → j < o.slotCount.toNat → o.bound i ≤ o.base j
  aligned : ∀ i < o.slotCount.toNat, (o.base i + slotHeaderSize) % 64 = 0
  header : o.header.toNat = o.slotCount.toNat

/-- The padding behind every payload. -/
def padding (o : Opened) : Nat :=
  TenzorBus.slotStride o.slotCapacity.toNat - (slotHeaderSize + o.slotCapacity.toNat)

/-- The slot count fits its field, and the whole ring fits the address space, or all of it but the
padding of the last slot. -/
def Fits (o : Opened) : Prop :=
  o.slotCount.toNat < 2 ^ 32 ∧
    (TenzorBus.totalBytes o.slotCount.toNat o.slotCapacity.toNat < 2 ^ 64 ∨
      TenzorBus.totalBytes o.slotCount.toNat o.slotCapacity.toNat = 2 ^ 64 ∧
        2 ^ 64 ≤ o.length.toNat + o.padding)

end Opened

/-! ## which of them are sound -/

theorem slotStride_eq (c : Nat) : slotStride c = (c + 191) / 64 * 64 := by
  unfold slotStride alignUp slotHeaderSize
  omega

/-- What both ways to open a ring have checked and stored. -/
theorem Accepted.spec {o : Opened} (h : Accepted o) :
    2 ≤ o.slotCount.toNat ∧ o.slotStride = Usize.slotStride o.slotCapacity ∧
      (Usize.totalBytes o.slotCount o.slotCapacity).toNat ≤ o.length.toNat ∧
        o.header = o.slotCount.toUInt32 := by
  cases h with
  | @created slotCount slotCapacity o h =>
    unfold Opened.create RingLayout.new at h
    split at h
    · cases h
    · split at h
      · cases h
      · next hcount _ =>
        cases h
        exact ⟨UInt64.le_iff_toNat_le.mp (UInt64.not_lt.mp hcount), rfl, le_refl _, rfl⟩
  | @attached slotCount slotCapacity length o h =>
    unfold Opened.attach at h
    split at h
    · cases h
    · next hcount =>
      split at h
      · cases h
      · next htotal =>
        cases h
        rw [not_or] at hcount
        exact ⟨UInt64.le_iff_toNat_le.mp (UInt64.not_lt.mp hcount.1), rfl,
          UInt64.le_iff_toNat_le.mp (UInt64.not_lt.mp htotal), by simp⟩

namespace Opened

variable {o : Opened}

/-- The padded ring is as long as the mapping, up to the padding of the last slot. -/
theorem bound_last {s : Nat} (hs : o.slotStride.toNat = s) (hcap : slotHeaderSize +
    o.slotCapacity.toNat + o.padding = s) {i : Nat} :
    o.bound i + o.padding = globalHeaderSize + (i + 1) * s := by
  unfold bound base
  rw [hs, Nat.add_mul, Nat.one_mul]
  omega

end Opened

/-- An accepted geometry is sound exactly if its slot count fits 32 bits and the ring fits the
address space. -/
theorem accepted_sound_iff {o : Opened} (h : Accepted o) : o.Sound ↔ o.Fits := by
  obtain ⟨hcount, hstride, htotal, hheader⟩ := h.spec
  have hlen := o.length.toNat_lt
  have heq := slotStride_eq o.slotCapacity.toNat
  have hcap : slotHeaderSize + o.slotCapacity.toNat + o.padding =
      TenzorBus.slotStride o.slotCapacity.toNat := by
    unfold Opened.padding slotHeaderSize
    omega
  have hpad : o.padding < 64 := by
    unfold Opened.padding slotHeaderSize
    omega
  have hword : o.header.toNat = o.slotCount.toNat ↔ o.slotCount.toNat < 2 ^ 32 := by
    rw [hheader, UInt64.toNat_toUInt32]
    have := o.slotCount.toUInt32.toNat_lt
    omega
  -- the last slot decides
  have hlast : o.slotStride.toNat = TenzorBus.slotStride o.slotCapacity.toNat →
      o.bound (o.slotCount.toNat - 1) + o.padding =
        TenzorBus.totalBytes o.slotCount.toNat o.slotCapacity.toNat := by
    intro hs
    rw [o.bound_last hs hcap, Nat.sub_add_cancel (by omega)]
    rfl
  constructor
  · intro hsound
    refine ⟨hword.mp hsound.header, ?_⟩
    have hin := hsound.inside (o.slotCount.toNat - 1) (by omega)
    have hfit : TenzorBus.slotStride o.slotCapacity.toNat < 2 ^ 64 := by
      unfold Opened.bound Opened.base globalHeaderSize slotHeaderSize at hin
      omega
    have hs : o.slotStride.toNat = TenzorBus.slotStride o.slotCapacity.toNat := by
      rw [hstride, Usize.slotStride_toNat hfit]
    have hl := hlast hs
    have hdvd : 64 ∣ TenzorBus.totalBytes o.slotCount.toNat o.slotCapacity.toNat := by
      unfold TenzorBus.totalBytes globalHeaderSize
      rw [heq]
      exact Nat.dvd_add (by decide) (Dvd.dvd.mul_left (Dvd.intro_left _ rfl) _)
    omega
  · rintro ⟨hcount32, hfits⟩
    have hle : TenzorBus.slotStride o.slotCapacity.toNat <
        TenzorBus.totalBytes o.slotCount.toNat o.slotCapacity.toNat := by
      unfold TenzorBus.totalBytes globalHeaderSize
      have := Nat.mul_le_mul_right (TenzorBus.slotStride o.slotCapacity.toNat) hcount
      omega
    have hfit : TenzorBus.slotStride o.slotCapacity.toNat < 2 ^ 64 := by
      rcases hfits with h | ⟨h, -⟩
      · exact hle.trans h
      · rw [← h]
        exact hle
    have hs : o.slotStride.toNat = TenzorBus.slotStride o.slotCapacity.toNat := by
      rw [hstride, Usize.slotStride_toNat hfit]
    have hl := hlast hs
    have hbound : o.bound (o.slotCount.toNat - 1) ≤ o.length.toNat := by
      rcases hfits with h | ⟨h, hpadded⟩
      · rw [Usize.totalBytes_toNat hfit, Nat.mod_eq_of_lt h] at htotal
        omega
      · omega
    have hnext : ∀ i j, i < j → o.bound i ≤ o.base j := by
      intro i j hij
      have hmul := Nat.mul_le_mul_right o.slotStride.toNat (show i + 1 ≤ j from hij)
      have hi := o.bound_last (i := i) hs hcap
      rw [← hs] at hi
      unfold Opened.base
      omega
    refine ⟨fun i hi => ?_, fun i j hij _ => hnext i j hij, fun i _ => ?_, hword.mpr hcount32⟩
    · rcases Nat.lt_or_ge i (o.slotCount.toNat - 1) with hi' | hi'
      · have hb := hnext i _ hi'
        unfold Opened.bound at hbound
        omega
      · have he : i = o.slotCount.toNat - 1 := by omega
        rw [he]
        exact hbound
    · unfold Opened.base globalHeaderSize slotHeaderSize
      rw [hs, heq, ← Nat.mul_assoc]
      omega

/-- The smallest ring. -/
theorem accepted_sound_smallest :
    ∃ o, Opened.create 2 64 = .ok o ∧ o.Sound := by
  have hcreate : Opened.create 2 64 = .ok
      { slotCount := 2, slotCapacity := 64, slotStride := 192, header := 2, length := 4480 } := by
    rfl
  refine ⟨_, hcreate, (accepted_sound_iff (.created hcreate)).mpr ⟨by decide, .inl ?_⟩⟩
  show TenzorBus.totalBytes 2 64 < 2 ^ 64
  decide

/-- A header whose slot capacity makes the stride wrap is accepted in a mapping of one page. -/
theorem accepted_unsound :
    ∃ o, Opened.attach 2 (UInt64.ofNat (2 ^ 64 - 128)) 4096 = .ok o ∧ ¬o.Sound := by
  have hattach : Opened.attach 2 (UInt64.ofNat (2 ^ 64 - 128)) 4096 = .ok
      { slotCount := 2, slotCapacity := UInt64.ofNat (2 ^ 64 - 128), slotStride := 0, header := 2,
        length := 4096 } := by
    rfl
  refine ⟨_, hattach, fun h => ?_⟩
  have hin := h.inside 0 (by decide)
  exact absurd hin (by decide)

end TenzorBus
