import TenzorBus.Conc.Yields
import TenzorBus.Paths.Header

/-!
# A publication that nobody disturbs

What the operations of a producer yield when they run alone on a ring where nobody has died.

* `Settled` : there is nothing to reap
* `Ring.selected`, `Ring.activeBits` : the slot and the mask of the next publication
* `Slot.reserved`, `State.reserved` : what a reservation makes of the ring
-/

namespace TenzorBus

open Conc

variable {P : Platform} {n : Nat} {s : State P n} {a : Actor}

/-- Actor `a` finds nothing to reap. -/
structure Settled (s : State P n) (a : Actor) : Prop where
  entries : ∀ i, (s.ring.entries i).state = .active →
    (s.ring.entries i).pid = P.me a ∨
      P.pidAliveWithToken s.os (s.ring.entries i).pid 0 = true
  slots : ∀ j, (s.ring.slots j).state = .writing →
    (s.ring.slots j).producerPid = P.me a ∨
      P.pidAliveWithToken s.os (s.ring.slots j).producerPid
        (s.ring.slots j).producerStartToken = true

theorem Settled.reapEntry (h : Settled s a) (freed : Bool) (i : Fin 64) :
    (Ring.reapEntry a freed i : RingM P n Bool).Yields s freed s := by
  refine .get ?_
  split
  · exact .ret _ _
  · next hactive =>
    refine .get ?_
    split
    · exact .ret _ _
    · next hme =>
      have halive := (h.entries i (not_not.mp hactive)).resolve_left hme
      refine .bind (.act rfl) ?_
      rw [if_pos halive]
      exact .ret _ _

theorem Settled.reapSlot (h : Settled s a) (freed : Bool) (j : Fin n) :
    (Ring.reapSlot a freed j : RingM P n Bool).Yields s freed s := by
  refine .get ?_
  split
  · exact .ret _ _
  · next hwriting =>
    refine .get (.get ?_)
    split
    · exact .ret _ _
    · next hme =>
      have halive := (h.slots j (not_not.mp hwriting)).resolve_left hme
      refine .bind (.act rfl) ?_
      rw [if_pos halive]
      exact .ret _ _

theorem Settled.reapDead (h : Settled s a) : (Ring.reapDead a : RingM P n Unit).Yields s () s := by
  have hkeep : ∀ (α : Type) (xs : List α) (b : Bool), xs.foldl (fun b _ => b) b = b := by
    intro α xs b
    induction xs with
    | nil => rfl
    | cons x xs ih => exact ih
  refine .put (.bind (.foldl (fun b i => h.reapEntry b i) _ _) ?_)
  rw [hkeep]
  refine .bind (.foldl (fun b j => h.reapSlot b j) _ _) ?_
  rw [hkeep]
  exact .put (.ret _ _)

/-! ## the slot and the mask -/

/-- `selectSlot` on a ring that stays as it is. -/
def Ring.selectRound (r : Ring n) (found : Option (Fin n) × Option (UInt64 × Fin n)) (i : Fin n) :
    Option (Fin n) × Option (UInt64 × Fin n) :=
  match (r.slots i).state with
  | .free => (found.1.or (some i), found.2)
  | .committed =>
    if (r.slots i).readersMask = 0 then
      match found.2 with
      | some (best, _) =>
        if seqNewer best (r.slots i).sequence then (found.1, some ((r.slots i).sequence, i))
        else found
      | none => (found.1, some ((r.slots i).sequence, i))
    else found
  | .writing => found

/-- The slot that a publication gets. -/
def Ring.selected (r : Ring n) : Option (Fin n) :=
  let found := (List.finRange n).foldl r.selectRound (none, none)
  found.1.or (found.2.map (·.2))

/-- The bits of the active entries. -/
def Ring.activeBits (r : Ring n) : UInt64 :=
  (List.finRange 64).foldl (fun mask i =>
    if (r.entries i).state = .active then mask ||| bit i else mask) 0

theorem selectSlot_yields (found : Option (Fin n) × Option (UInt64 × Fin n)) (i : Fin n) :
    (Producer.selectSlot found i : RingM P n _).Yields s (s.ring.selectRound found i) s := by
  unfold Ring.selectRound
  refine .get ?_
  beta_reduce
  cases (s.ring.slots i).state with
  | free => exact .ret _ _
  | committed =>
    refine .get ?_
    beta_reduce
    by_cases hmask : (s.ring.slots i).readersMask = 0
    · simp only [if_pos hmask]
      refine .get ?_
      obtain ⟨free, oldest⟩ := found
      cases oldest with
      | some best =>
        dsimp only
        split <;> exact .ret _ _
      | none => exact .ret _ _
    · simp only [if_neg hmask]
      exact .ret _ _
  | writing => exact .ret _ _

theorem chooseSlot_yields :
    (Producer.chooseSlot : RingM P n _).Yields s s.ring.selected s :=
  .bind (.foldl (fun found i => selectSlot_yields found i) _ _) (.ret _ _)

theorem activeMask_yields :
    (Ring.activeMask : RingM P n UInt64).Yields s s.ring.activeBits s := by
  refine .foldl (fun mask i => ?_) _ _
  refine .get ?_
  split <;> exact .ret _ _

/-! ## the reservation -/

/-- The slot of a reservation that has been written. -/
def Slot.reserved (pid token : UInt32) (sequence mask : UInt64) (dtype : DType) (ndim : Nat)
    (shape strides : Fin maxNdim → UInt32) (nbytes : Nat) (stamp : UInt64) (s : Slot) : Slot :=
  { state := .writing, sequence := sequence
    header :=
      { timestampNs := stamp, nbytes := UInt64.ofNat nbytes, dtype := dtype.code,
        ndim := UInt8.ofNat ndim, flags := 0, shape := shape, strides := strides }
    readersRemaining := UInt16.ofNat (countOnes mask), producerPid := pid, readersMask := mask,
    producerStartToken := token, payload := s.payload }

/-- The state after a reservation of `slot`. -/
def State.reserved (s : State P n) (t : Nat) (slot : Fin n) (dtype : DType) (ndim : Nat)
    (shape strides : Fin maxNdim → UInt32) (nbytes : Nat) (timestampNs : Option UInt64) :
    State P n :=
  let f := Slot.reserved (P.me (.writer t)) (P.pidStartToken s.os (P.me (.writer t)))
    s.ring.nextSeq s.ring.activeBits dtype ndim shape strides nbytes
    (timestampNs.getD (P.nowNs s.os))
  { s with ring := { s.ring.setSlot slot f with nextSeq := s.ring.nextSeq + 1 } }

/-- An update of slot `i`. -/
def State.onSlot (s : State P n) (i : Fin n) (f : Slot → Slot) : State P n :=
  { s with ring := s.ring.setSlot i f }

@[simp] theorem State.onSlot_onSlot (s : State P n) (i : Fin n) (f g : Slot → Slot) :
    (s.onSlot i f).onSlot i g = s.onSlot i fun t => g (f t) := by
  simp [State.onSlot, Ring.setSlot]

theorem State.foldl_onSlot {α : Type} (i : Fin n) (f : α → Slot → Slot) (xs : List α)
    (s : State P n) :
    xs.foldl (fun s x => s.onSlot i (f x)) s =
      s.onSlot i fun t => xs.foldl (fun t x => f x t) t := by
  induction xs generalizing s with
  | nil => simp [State.onSlot, Ring.setSlot]
  | cons x xs ih => rw [List.foldl_cons, ih, State.onSlot_onSlot]; rfl

theorem writeDims_yields (slot : Fin n) (shape strides : Fin maxNdim → UInt32) (s : State P n) :
    ((List.finRange maxNdim).forM (Producer.writeDim slot shape strides) :
      RingM P n PUnit).Yields s ⟨⟩ (s.onSlot slot fun t => t.dimensioned shape strides) := by
  have hdim : ∀ (s : State P n) (d : Fin maxNdim),
      (Producer.writeDim slot shape strides d : RingM P n Unit).Yields s ()
        (s.onSlot slot fun t => t.dimensioned (Function.update t.header.shape d (shape d))
          (Function.update t.header.strides d (strides d))) := by
    intro s d
    exact .congr (.put (.store _ _ _)) (State.onSlot_onSlot s slot _ _)
  have hall := Prog.Yields.forM hdim (List.finRange maxNdim) s
  rw [State.foldl_onSlot] at hall
  simpa only [foldl_dimensions] using hall

/-- What the stores of a header yield. -/
theorem writeHeader_yields (t : Nat) (slot : Fin n) (mask : UInt64) (dtype : DType)
    (ndim : Nat) (shape strides : Fin maxNdim → UInt32) (nbytes : Nat)
    (timestampNs : Option UInt64) (hmask : mask = s.ring.activeBits) :
    (Producer.writeHeader t slot s.ring.nextSeq mask dtype ndim shape strides nbytes timestampNs :
      RingM P n Unit).Yields s ()
      (s.reserved t slot dtype ndim shape strides nbytes timestampNs) := by
  have hstamp : ∀ s' : State P n, s'.os = s.os →
      (Producer.timestampOrNow timestampNs : RingM P n UInt64).Yields s'
        (timestampNs.getD (P.nowNs s.os)) s' := by
    intro s' hs
    cases timestampNs with
    | none => exact hs ▸ .read _ s'
    | some ts => exact .ret ts s'
  rw [Producer.writeHeader_eq]
  refine .bind (.put (.put (.get (.put (.store _ _ _))))) (.bind (hstamp _ rfl) ?_)
  refine .congr (.put (.put (.put (.put (.put
    (.bind (writeDims_yields slot shape strides _) (.put (.put (.store _ _ _)))))))))
    ?_
  subst hmask
  simp [State.reserved, State.onSlot, Ring.setSlot, Slot.reserved, Slot.dimensioned]

/-- Actor `a` takes a lock that is free. -/
theorem lockRegistry_yields (hlock : s.lock = none) :
    (lockRegistry a : RingM P n Unit).Yields s () { s with lock := some a } := by
  refine .act ?_
  rw [if_pos (by rw [State.lockFree, hlock])]

theorem Settled.locked (h : Settled s a) : Settled { s with lock := some a } a :=
  ⟨h.entries, h.slots⟩

/-- The slot that is selected is reserved, if there is one. -/
def State.reserve (s : State P n) (t : Nat) (dtype : DType) (ndim : Nat)
    (shape strides : Fin maxNdim → UInt32) (nbytes : Nat) (timestampNs : Option UInt64) :
    State P n :=
  s.ring.selected.elim s fun slot => s.reserved t slot dtype ndim shape strides nbytes timestampNs

theorem reserveHeader_yields {t : Nat} (h : Settled s (.writer t)) (dtype : DType) (ndim : Nat)
    (shape strides : Fin maxNdim → UInt32) (nbytes : Nat) (timestampNs : Option UInt64) :
    (Producer.reserveHeader t dtype ndim shape strides nbytes timestampNs : RingM P n _).Yields s
      (s.ring.selected.map fun slot => (slot, s.ring.nextSeq, s.ring.activeBits))
      (s.reserve t dtype ndim shape strides nbytes timestampNs) := by
  refine .bind h.reapDead (.bind chooseSlot_yields ?_)
  unfold State.reserve
  cases s.ring.selected with
  | none => exact .ret _ _
  | some slot =>
    exact .get (.bind activeMask_yields (.bind (writeHeader_yields t slot _ dtype ndim shape
      strides nbytes timestampNs rfl) (.ret _ _)))

theorem lockedReserve_yields {t : Nat} (hlock : s.lock = none) (h : Settled s (.writer t))
    (dtype : DType) (ndim : Nat) (shape strides : Fin maxNdim → UInt32) (nbytes : Nat)
    (timestampNs : Option UInt64) :
    (Producer.lockedReserve t dtype ndim shape strides nbytes timestampNs : RingM P n _).Yields s
      (s.ring.selected.map fun slot => (slot, s.ring.nextSeq, s.ring.activeBits))
      (s.reserve t dtype ndim shape strides nbytes timestampNs) := by
  refine .bind (lockRegistry_yields hlock) (.bind (reserveHeader_yields h.locked dtype ndim shape
    strides nbytes timestampNs) (.bind (.store _ _ _) (.congr (.ret _ _) ?_)))
  unfold State.reserve
  show State.mk _ _ _ _ _ _ _ = _
  cases s.ring.selected with
  | none =>
    simp only [Option.elim]
    rw [← hlock]
  | some slot =>
    simp only [Option.elim, State.reserved]
    rw [← hlock]

/-- Among free slots the first one is selected. -/
theorem Ring.selectRound_free {r : Ring n} (h : ∀ i, (r.slots i).state = .free)
    (xs : List (Fin n)) (free : Option (Fin n)) (oldest : Option (UInt64 × Fin n)) :
    xs.foldl r.selectRound (free, oldest) = (free.or xs.head?, oldest) := by
  induction xs generalizing free with
  | nil => simp
  | cons i xs ih =>
    have hround : r.selectRound (free, oldest) i = (free.or (some i), oldest) := by
      unfold Ring.selectRound
      rw [h i]
    rw [List.foldl_cons, hround, ih]
    cases free <;> simp

theorem Ring.selected_format (k : UInt64) (hn : 0 < n) :
    (Ring.format n k).selected = some ⟨0, hn⟩ := by
  obtain ⟨n, rfl⟩ := Nat.exists_eq_succ_of_ne_zero hn.ne'
  unfold Ring.selected
  rw [Ring.selectRound_free fun _ => rfl, List.finRange_succ]
  rfl

end TenzorBus
