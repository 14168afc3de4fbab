import TenzorBus.Paths.Local
import TenzorBus.Word.Update

/-!
# What the stores of a publication add up to

The stores behind the choice of a slot read nothing, so they are one update of the memory, with the
steps of the operating system before or after it.

* `Slot.described` : a slot whose header has been written
* `straight_describe` : the stores of the header
* `straight_commitSlot` : the stores of the commit
-/

namespace TenzorBus

open Conc

variable {P : Platform} {n : Nat}

/-! ## single stores -/

/-- A store that neither reads nor changes the state of the operating system. -/
theorem straight_store {f : State P n → State P n} {g : State P n → Ghost n → Ghost n}
    (hf : ∀ s os, f { s with os := os } = { f s with os := os })
    (hos : ∀ s, (f s).os = s.os) (hg : ∀ s os h, g { s with os := os } h = g s h) :
    Straight OsStep (Prog.modifyWith f g) fun m => (f m.1, g m.1 m.2) := by
  refine .store fun m m' h => ?_
  obtain ⟨os, hstep, rfl⟩ := h
  exact ⟨os, (hos m.1).symm ▸ hstep, by rw [hf, hg]⟩

/-- What an update of slot `i` makes of the memory. -/
def onSlot (i : Fin n) (f : Slot → Slot) (m : State P n × Ghost n) : State P n × Ghost n :=
  ({ m.1 with ring := m.1.ring.setSlot i f }, m.2)

theorem onSlot_onSlot (i : Fin n) (f g : Slot → Slot) (m : State P n × Ghost n) :
    onSlot i g (onSlot i f m) = onSlot i (fun s => g (f s)) m := by
  simp [onSlot, Ring.setSlot]

theorem onSlot_self (i : Fin n) (m : State P n × Ghost n) : onSlot i (fun s => s) m = m := by
  simp [onSlot, Ring.setSlot]

theorem foldl_onSlot {α : Type} (i : Fin n) (f : α → Slot → Slot) (xs : List α)
    (m : State P n × Ghost n) :
    xs.foldl (fun m x => onSlot i (f x) m) m =
      onSlot i (fun s => xs.foldl (fun s x => f x s) s) m := by
  induction xs generalizing m with
  | nil => exact (onSlot_self i m).symm
  | cons x xs ih => rw [List.foldl_cons, ih, onSlot_onSlot]; rfl

theorem straight_storeSlot (i : Fin n) (f : Slot → Slot) :
    Straight OsStep (storeSlot i f : RingM P n Unit) (onSlot i f) :=
  straight_store (fun _ _ => rfl) (fun _ => rfl) fun _ _ _ => rfl

/-- A loop of updates of one slot. -/
theorem straight_forM {α : Type} (i : Fin n) {g : α → RingM P n PUnit} {f : α → Slot → Slot}
    (h : ∀ x, Straight OsStep (g x) (onSlot i (f x))) (xs : List α) :
    Straight OsStep (xs.forM g) (onSlot i fun s => xs.foldl (fun s x => f x s) s) := by
  have hall := Straight.forM h xs
  rwa [funext fun m => foldl_onSlot i f xs m] at hall

theorem straight_unlock : Straight OsStep (unlockRegistry : RingM P n Unit)
    fun m => ({ m.1 with lock := none }, m.2) :=
  straight_store (fun _ _ => rfl) (fun _ => rfl) fun _ _ _ => rfl

theorem straight_signal (w : FutexWord) : ∃ f, Straight OsStep (signal w : RingM P n Unit) f := by
  refine ⟨_, .seq (straight_store ?_ ?_ ?_) (straight_store ?_ ?_ ?_)⟩ <;> intros <;> rfl

/-! ## the header -/

/-- The slot with its dimensions written. -/
def Slot.dimensioned (s : Slot) (shape strides : Fin maxNdim → UInt32) : Slot :=
  { s with header.shape := shape, header.strides := strides }

theorem foldl_dimensions (shape strides : Fin maxNdim → UInt32) (s : Slot) :
    (List.finRange maxNdim).foldl (fun s d => s.dimensioned
        (Function.update s.header.shape d (shape d))
        (Function.update s.header.strides d (strides d)))
      s = s.dimensioned shape strides := by
  have hall : ∀ (l : List (Fin maxNdim)) (s : Slot),
      l.foldl (fun s d => s.dimensioned (Function.update s.header.shape d (shape d))
        (Function.update s.header.strides d (strides d))) s =
      s.dimensioned (l.foldl (fun f d => Function.update f d (shape d)) s.header.shape)
        (l.foldl (fun f d => Function.update f d (strides d)) s.header.strides) := by
    intro l
    induction l with
    | nil => intro s; rfl
    | cons d l ih => intro s; rw [List.foldl_cons, ih]; rfl
  rw [hall, foldl_update_finRange, foldl_update_finRange]

/-- The slot with the words written that follow the time stamp. -/
def Slot.described (mask : UInt64) (dtype : DType) (ndim : Nat)
    (shape strides : Fin maxNdim → UInt32) (nbytes : Nat) (s : Slot) : Slot :=
  { s with
    header :=
      { timestampNs := s.header.timestampNs, nbytes := UInt64.ofNat nbytes, dtype := dtype.code,
        ndim := UInt8.ofNat ndim, flags := 0, shape := shape, strides := strides }
    readersMask := mask
    readersRemaining := UInt16.ofNat (countOnes mask) }

/-- What the history notes of a reservation behind the number. -/
def Ghost.reserved (g : Ghost n) (t : Nat) (slot : Fin n) : Ghost n :=
  (((g.proceed t .masked).change (.writer t) slot).settle (.writer t) slot).advance t

namespace Producer

/-- The stores of `writeHeader` that follow the time stamp. -/
def describe (t : Nat) (slot : Fin n) (sequence mask : UInt64) (dtype : DType) (ndim : Nat)
    (shape strides : Fin maxNdim → UInt32) (nbytes : Nat) : RingM P n Unit := do
  storeSlot slot fun s => { s with header.nbytes := UInt64.ofNat nbytes }
  storeSlot slot fun s => { s with header.dtype := dtype.code }
  storeSlot slot fun s => { s with header.ndim := UInt8.ofNat ndim }
  storeSlot slot fun s => { s with header.flags := 0 }
  (List.finRange maxNdim).forM (writeDim slot shape strides)
  storeSlotWith slot (fun s => { s with readersMask := mask }) fun _ g =>
    (g.proceed t .masked).change (.writer t) slot
  storeReaders (.writer t) slot (countOnes mask)
  Prog.modifyWith (fun s => { s with ring.nextSeq := sequence + 1 }) fun _ h => h.advance t

/-- The stores of `writeHeader` before the time stamp. -/
def number (t : Nat) (slot : Fin n) (sequence mask : UInt64) : RingM P n Unit := do
  storeSlotWith slot (fun s => { s with state := .writing }) fun _ g => g.begin t slot mask
  storeSlot slot fun s => { s with producerPid := P.me (.writer t) }
  let token ← pidStartToken (P.me (.writer t))
  storeSlot slot fun s => { s with producerStartToken := token }
  storeSlotWith slot (fun s => { s with sequence := sequence }) fun _ g => g.number t slot

/-- Write the time stamp. -/
def stampSlot (slot : Fin n) (stamp : UInt64) : RingM P n Unit :=
  storeSlot slot fun s => { s with header.timestampNs := stamp }

theorem writeHeader_eq (t : Nat) (slot : Fin n) (sequence mask : UInt64) (dtype : DType)
    (ndim : Nat) (shape strides : Fin maxNdim → UInt32) (nbytes : Nat)
    (timestampNs : Option UInt64) :
    (writeHeader t slot sequence mask dtype ndim shape strides nbytes timestampNs :
      RingM P n Unit) =
      number t slot sequence mask >>= fun _ =>
        timestampOrNow timestampNs >>= fun stamp =>
          stampSlot slot stamp >>= fun _ =>
            describe t slot sequence mask dtype ndim shape strides nbytes :=
  rfl

end Producer

theorem inner_number (t : Nat) (slot : Fin n) (sequence mask : UInt64) :
    (Producer.number t slot sequence mask : RingM P n Unit).Acts Inner :=
  .bind (.modifyWith fun s g => { Inner.refl (s, g) with }) fun _ => .bind inner_slot fun _ =>
    .bind inner_read fun _ => .bind inner_slot fun _ =>
      .modifyWith fun s g => { Inner.refl (s, g) with }

/-- What `describe` makes of the memory. -/
def afterDescribe (t : Nat) (slot : Fin n) (sequence mask : UInt64) (dtype : DType) (ndim : Nat)
    (shape strides : Fin maxNdim → UInt32) (nbytes : Nat) (m : State P n × Ghost n) :
    State P n × Ghost n :=
  ({ m.1 with
      ring :=
        { m.1.ring.setSlot slot (Slot.described mask dtype ndim shape strides nbytes) with
          nextSeq := sequence + 1 } },
    m.2.reserved t slot)

theorem straight_describe (t : Nat) (slot : Fin n) (sequence mask : UInt64) (dtype : DType)
    (ndim : Nat) (shape strides : Fin maxNdim → UInt32) (nbytes : Nat) :
    Straight OsStep (Producer.describe t slot sequence mask dtype ndim shape strides nbytes :
      RingM P n Unit)
      (afterDescribe t slot sequence mask dtype ndim shape strides nbytes) := by
  have hdim : ∀ d : Fin maxNdim, Straight OsStep (Producer.writeDim slot shape strides d :
      RingM P n Unit) (onSlot slot fun s => s.dimensioned
        (Function.update s.header.shape d (shape d))
        (Function.update s.header.strides d (strides d))) := by
    intro d
    have := (straight_storeSlot (P := P) slot fun s => { s with
      header.shape := Function.update s.header.shape d (shape d) }).seq
      (straight_storeSlot slot fun s => { s with
        header.strides := Function.update s.header.strides d (strides d) })
    rwa [funext fun m => onSlot_onSlot slot _ _ m] at this
  have hdims : Straight OsStep ((List.finRange maxNdim).forM
      (Producer.writeDim slot shape strides) : RingM P n PUnit)
      (onSlot slot fun s => s.dimensioned shape strides) := by
    refine (straight_forM slot hdim _).congr fun m => ?_
    simp only [foldl_dimensions]
  have hall := (straight_storeSlot (P := P) slot fun s => { s with
      header.nbytes := UInt64.ofNat nbytes }).seq <|
    (straight_storeSlot slot fun s => { s with header.dtype := dtype.code }).seq <|
    (straight_storeSlot slot fun s => { s with header.ndim := UInt8.ofNat ndim }).seq <|
    (straight_storeSlot slot fun s => { s with header.flags := 0 }).seq <|
    hdims.seq <|
    (straight_store (f := fun s => { s with ring := s.ring.setSlot slot fun s =>
        { s with readersMask := mask } })
      (g := fun _ h => (h.proceed t .masked).change (.writer t) slot)
      (fun _ _ => rfl) (fun _ => rfl) fun _ _ _ => rfl).seq <|
    (straight_store (f := fun s => { s with ring := s.ring.setSlot slot fun s =>
        { s with readersRemaining := UInt16.ofNat (countOnes mask) } })
      (g := fun _ h => h.settle (.writer t) slot)
      (fun _ _ => rfl) (fun _ => rfl) fun _ _ _ => rfl).seq <|
    straight_store (f := fun s => { s with ring.nextSeq := sequence + 1 })
      (g := fun _ h => h.advance t) (fun _ _ => rfl) (fun _ => rfl) fun _ _ _ => rfl
  refine hall.congr fun m => ?_
  simp [afterDescribe, onSlot, Ring.setSlot, Slot.dimensioned, Slot.described, Ghost.reserved]

end TenzorBus
