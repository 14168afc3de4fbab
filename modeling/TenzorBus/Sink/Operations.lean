import TenzorBus.Sink.Books

/-!
# What the operations of a producer make of the books

* `Books.reserved`, `Books.committed`, `Books.aborted` : the changes
* `lockedReserve_books`, `commitSlot_books`, `abort_books` : the operations that make them
* `publish_books`, `reserve_books` : the two paths
-/

namespace TenzorBus

open Conc

variable {P : Platform} {n : Nat} {L : RingLayout} {α : Type} {b : Books n}

/-! ## a reservation -/

/-- The slots that are being written have been reserved by the process of actor `a`. -/
def Books.Own (b : Books n) (a : Actor) : Prop :=
  ∀ i, b.state i = .writing → b.producerPid i = P.me a

theorem silent_reapSlot {a : Actor} (hown : b.Own (P := P) a) (freed : Bool) (j : Fin n) :
    From b (Ring.reapSlot a freed j : RingM P n Bool) fun _ b' => b' = b := by
  refine .get (fun m hm => congrFun (congrArg Books.state hm) j) ?_
  split
  · exact .ret rfl
  next hwriting =>
  refine .get (fun m hm => congrFun (congrArg Books.producerPid hm) j) ?_
  refine .skip (silent_load _) fun token => ?_
  rw [if_pos (hown j (not_not.mp hwriting))]
  exact .ret rfl

theorem silent_reapDead {a : Actor} (hown : b.Own (P := P) a) :
    From b (Ring.reapDead a : RingM P n Unit) fun _ b' => b' = b := by
  have hslots : ∀ (xs : List (Fin n)) (freed : Bool),
      From b (xs.foldlM (Ring.reapSlot a) freed : RingM P n Bool) fun _ b' => b' = b := by
    intro xs
    induction xs with
    | nil => exact fun _ => .ret rfl
    | cons j xs ih =>
      intro freed
      rw [List.foldlM_cons]
      exact .seq (silent_reapSlot hown freed j) ih
  refine .skip (.store fun _ _ => rfl) fun _ => ?_
  refine .skip (.fold (fun freed i => silent_reapEntry a freed i) _ _) fun freed => ?_
  refine .seq (hslots _ _) fun freed => ?_
  refine .skip (.store fun _ _ => rfl) fun _ => ?_
  split
  · exact silent_signal _ b
  · exact .ret rfl

theorem silent_selectSlot (found : Option (Fin n) × Option (UInt64 × Fin n)) (i : Fin n) :
    Silent (Producer.selectSlot found i : RingM P n _) := by
  refine .bind (silent_load _) fun state => ?_
  split
  · exact .ret _
  · refine .bind (silent_load _) fun mask => ?_
    split
    · refine .bind (silent_load _) fun seq => ?_
      split
      · split <;> exact .ret _
      · exact .ret _
    · exact .ret _
  · exact .ret _

theorem silent_chooseSlot : Silent (Producer.chooseSlot : RingM P n _) :=
  .bind (.fold silent_selectSlot _ _) fun _ => .ret _

/-- `slot` has been reserved under the next sequence. -/
def Books.reserved (b : Books n) (slot : Fin n) (pid : UInt32) : Books n :=
  { b with
    state := Function.update b.state slot .writing
    sequence := Function.update b.sequence slot b.next
    producerPid := Function.update b.producerPid slot pid
    next := b.next + 1 }

theorem writeHeader_books (t : Nat) (slot : Fin n) (mask : UInt64) (dtype : DType) (ndim : Nat)
    (shape strides : Fin maxNdim → UInt32) (nbytes : Nat) (timestampNs : Option UInt64) :
    From b (Producer.writeHeader t slot b.next mask dtype ndim shape strides nbytes timestampNs :
      RingM P n Unit) fun _ b' => b' = b.reserved slot (P.me (.writer t)) := by
  have hnumber : From b (Producer.number t slot b.next mask : RingM P n Unit) fun _ b' => b' =
      { b with
        state := Function.update b.state slot .writing
        sequence := Function.update b.sequence slot b.next
        producerPid := Function.update b.producerPid slot (P.me (.writer t)) } := by
    refine .seq (.slot .writing (b.sequence slot) (b.producerPid slot)
      (fun _ _ hq hp => ⟨rfl, hq, hp⟩) fun _ _ => rfl) fun _ => ?_
    refine .seq (.slot .writing (b.sequence slot) (P.me (.writer t))
      (fun t hx hq hp => ⟨?_, ?_, rfl⟩) fun _ _ => rfl) fun _ => ?_
    · simpa using hx
    · simpa using hq
    refine .skip (.read _) fun token => ?_
    refine .skip (silent_slot (fun _ => ⟨rfl, rfl, rfl⟩) fun _ _ => rfl) fun _ => ?_
    refine From.post (.slot .writing b.next (P.me (.writer t)) ?_ ?_) fun _ b' hb => ?_
    · intro t hx _ hp
      exact ⟨by simpa using hx, rfl, by simpa using hp⟩
    · exact fun _ _ => rfl
    · rw [hb]
      simp
  have hdims : Silent ((List.finRange maxNdim).forM (Producer.writeDim slot shape strides) :
      RingM P n PUnit) := by
    refine .forM (fun d => ?_) _
    refine .bind (silent_slot (fun _ => ⟨rfl, rfl, rfl⟩) fun _ _ => rfl) fun _ => ?_
    exact silent_slot (fun _ => ⟨rfl, rfl, rfl⟩) fun _ _ => rfl
  have hstamp : Silent (Producer.timestampOrNow timestampNs : RingM P n UInt64) := by
    cases timestampNs with
    | none => exact .read _
    | some ts => exact .ret ts
  rw [Producer.writeHeader_eq]
  refine .seq hnumber fun _ => .skip hstamp fun stamp => ?_
  refine .skip (silent_slot (fun _ => ⟨rfl, rfl, rfl⟩) fun _ _ => rfl) fun _ => ?_
  refine .skip (silent_slot (fun _ => ⟨rfl, rfl, rfl⟩) fun _ _ => rfl) fun _ => ?_
  refine .skip (silent_slot (fun _ => ⟨rfl, rfl, rfl⟩) fun _ _ => rfl) fun _ => ?_
  refine .skip (silent_slot (fun _ => ⟨rfl, rfl, rfl⟩) fun _ _ => rfl) fun _ => ?_
  refine .skip (silent_slot (fun _ => ⟨rfl, rfl, rfl⟩) fun _ _ => rfl) fun _ => ?_
  refine .skip hdims fun _ => ?_
  refine .skip (silent_slot (fun _ => ⟨rfl, rfl, rfl⟩) fun _ _ => rfl) fun _ => ?_
  refine .skip (silent_storeReaders _ _ _) fun _ => .store fun s g hb => ?_
  obtain ⟨hstate, hsequence, hpid, -, hpublished⟩ := Books.mk.inj hb
  exact (Books.mk.injEq ..).mpr ⟨hstate, hsequence, hpid, rfl, hpublished⟩

/-- A reservation under the next number, or none. -/
def Books.Got (b : Books n) (pid : UInt32) : Option (Fin n × UInt64 × UInt64) → Books n → Prop
  | none, b' => b' = b
  | some (slot, sequence, _), b' => sequence = b.next ∧ b' = b.reserved slot pid

theorem lockedReserve_books {t : Nat} (hown : b.Own (P := P) (.writer t)) (dtype : DType)
    (ndim : Nat) (shape strides : Fin maxNdim → UInt32) (nbytes : Nat)
    (timestampNs : Option UInt64) :
    From b (Producer.lockedReserve t dtype ndim shape strides nbytes timestampNs : RingM P n _)
      (b.Got (P.me (.writer t))) := by
  have hreserve : From b (Producer.reserveHeader t dtype ndim shape strides nbytes timestampNs :
      RingM P n _) (b.Got (P.me (.writer t))) := by
    refine .seq (silent_reapDead hown) fun _ => ?_
    refine .skip silent_chooseSlot fun chosen => ?_
    split
    · exact .ret rfl
    next slot =>
    refine .get (fun m hm => congrArg Books.next hm) ?_
    refine .skip silent_activeMask fun mask => ?_
    refine .seq (writeHeader_books t slot mask dtype ndim shape strides nbytes timestampNs)
      fun _ => ?_
    exact .ret ⟨rfl, rfl⟩
  refine .skip (silent_lock _) fun _ => .bind hreserve fun r b' hr => ?_
  exact .skip silent_unlock fun _ => .ret hr

/-- Giving up and sleeping leave the books alone, and there is no slot to return. -/
theorem backOff_books {t : Nat} {policy : Backpressure} {deadline : Nat} :
    From b (Producer.backOff t policy deadline : RingM P n (Option (Except Error (Option α))))
      fun r b' => b' = b ∧ ∀ x, r ≠ some (.ok (some x)) := by
  unfold Producer.backOff
  split
  · exact .skip (.store fun _ _ => rfl) fun _ => .ret ⟨rfl, nofun⟩
  · refine .skip (.read _) fun time => ?_
    split
    · exact .ret ⟨rfl, nofun⟩
    · refine .skip (silent_load _) fun observed => ?_
      exact .skip (silent_futexWait _ _ _) fun _ => .ret ⟨rfl, nofun⟩

/-! ## the end of a reservation -/

/-- What is in `slot` has been published. -/
def Books.committed (b : Books n) (slot : Fin n) : Books n :=
  { b with
    state := Function.update b.state slot .committed
    published := b.published ++ [(b.sequence slot, slot)] }

/-- `slot` has been given back, and its number too if it is the last one. -/
def Books.aborted (b : Books n) (slot : Fin n) (sequence : UInt64) : Books n :=
  { b with
    state := Function.update b.state slot .free
    next := if b.next = sequence + 1 then sequence else b.next }

theorem commitSlot_books (t : Nat) (slot : Fin n) (mask : UInt64) :
    From b (Producer.commitSlot t slot mask : RingM P n Unit)
      fun _ b' => b' = b.committed slot := by
  refine .seq (.store fun s g hb => ?_) fun _ => .skip (.store fun _ _ => rfl)
    fun _ => silent_signal _ _
  subst hb
  rw [books_setSlot (g := g)]
  refine (Books.mk.injEq ..).mpr ⟨rfl, ?_, ?_, rfl, ?_⟩
  · exact Function.update_eq_self _ _
  · exact Function.update_eq_self _ _
  · exact List.map_append

theorem commit_books (t : Nat) (w : SlotWriter n) :
    From b (w.commit t : RingM P n _) fun r b' =>
      r.sequence = w.sequence ∧ b' = b.committed w.slot :=
  .skip (.store fun _ _ => rfl) fun _ => .seq (commitSlot_books _ _ _) fun _ => .ret ⟨rfl, rfl⟩

theorem abort_books (t : Nat) (w : SlotWriter n) :
    From b (w.abort t : RingM P n Unit) fun _ b' => b' = b.aborted w.slot w.sequence := by
  have hgive : From b (storeSlotWith w.slot (fun s => { s with state := .free })
      (fun _ g => g.proceed t .returning) : RingM P n Unit) fun _ b' =>
      b' = { b with state := Function.update b.state w.slot .free } := by
    refine .post (.slot .free (b.sequence w.slot) (b.producerPid w.slot)
      (fun _ _ hq hp => ⟨rfl, hq, hp⟩) fun _ _ => rfl) fun _ b' hb => ?_
    rw [hb, Function.update_eq_self, Function.update_eq_self]
  refine .skip (.store fun _ _ => rfl) fun _ => .skip (silent_lock _) fun _ => ?_
  refine .skip (silent_slot (fun _ => ⟨rfl, rfl, rfl⟩) fun _ _ => rfl) fun _ => ?_
  refine .skip (silent_storeReaders _ _ _) fun _ => ?_
  refine .seq hgive fun _ => .seq (c := b.aborted w.slot w.sequence) (.act ?_) fun _ => ?_
  · intro s g handedBack s' hb hs
    obtain ⟨hstate, hsequence, hpid, hnext, hpublished⟩ := Books.mk.inj hb
    have hb' : ∀ next, books (({ s with ring.nextSeq := next } : State P n),
        g.forget t handedBack) = { books (s, g) with next := next } := fun _ => rfl
    split at hs
    · next h =>
      cases hs
      rw [hb', hb]
      exact (Books.mk.injEq ..).mpr ⟨rfl, rfl, rfl, (if_pos (hnext ▸ h)).symm, rfl⟩
    · next h =>
      cases hs
      refine (Books.mk.injEq ..).mpr ⟨hstate, hsequence, hpid, ?_, hpublished⟩
      exact hnext.trans (if_neg (hnext ▸ h)).symm
  · exact .skip silent_unlock fun _ => silent_signal _ _

theorem setTimestampNs_books (w : SlotWriter n) (timestampNs : UInt64) :
    Silent (w.setTimestampNs timestampNs : RingM P n Unit) :=
  silent_slot (fun _ => ⟨rfl, rfl, rfl⟩) fun _ _ => rfl

/-! ## the two paths -/

/-- Nothing has been published, or the next number has. -/
def Books.Published (b : Books n) (pid : UInt32) :
    Except Error (Option (PublishResult n)) → Books n → Prop
  | .ok (some r), b' =>
    r.sequence = b.next ∧ b' = (b.reserved r.slotIndex pid).committed r.slotIndex
  | _, b' => b' = b

theorem publish_books {b : Books L.slotCount} {t : Nat} (hown : b.Own (P := P) (.writer t))
    (view : TensorView) (policy : Backpressure) (timeout : Nat) :
    From b (Producer.publish L t view policy timeout : RingM P L.slotCount _)
      (b.Published (P.me (.writer t))) := by
  rw [Producer.publish_eq]
  split
  · exact .ret rfl
  refine .skip (.read _) fun start => .loop (.bind (lockedReserve_books hown _ _ _ _ _ _) ?_)
  rintro (_ | ⟨slot, sequence, mask⟩) b' hgot
  · rw [show b' = b from hgot]
    refine .post backOff_books ?_
    rintro (_ | _ | _ | r) b' ⟨hb, hr⟩
    · exact hb
    · exact hb
    · exact hb
    · exact absurd rfl (hr r)
  · obtain ⟨hsequence, hb⟩ := hgot
    rw [hb]
    refine .skip (silent_copyPayload _ _) fun _ => .seq (commitSlot_books _ _ _) fun _ => ?_
    exact .ret ⟨hsequence, rfl⟩

/-- No slot is in hand, or one that has got the next number. -/
def Books.InHand (b : Books n) (pid : UInt32) :
    Except Error (Option (SlotWriter n)) → Books n → Prop
  | .ok (some w), b' => w.sequence = b.next ∧ b' = b.reserved w.slot pid
  | _, b' => b' = b

theorem reserve_books {b : Books L.slotCount} {t : Nat} (hown : b.Own (P := P) (.writer t))
    (dtype : DType) (shape : List UInt32) (policy : Backpressure) (timeout : Nat) :
    From b (Producer.reserve L t dtype shape policy timeout : RingM P L.slotCount _)
      (b.InHand (P.me (.writer t))) := by
  rw [Producer.reserve_eq]
  split
  · exact .ret rfl
  split
  · exact .ret rfl
  refine .skip (.read _) fun start => .loop (.bind (lockedReserve_books hown _ _ _ _ _ _) ?_)
  rintro (_ | ⟨slot, sequence, mask⟩) b' hgot
  · rw [show b' = b from hgot]
    refine .post backOff_books ?_
    rintro (_ | _ | _ | w) b' ⟨hb, hr⟩
    · exact hb
    · exact hb
    · exact hb
    · exact absurd rfl (hr w)
  · obtain ⟨hsequence, hb⟩ := hgot
    rw [hb]
    have hpoison : Silent ((if P.debugAssertions then Producer.copyPayload slot
        (List.replicate (impliedBytes dtype shape) 0xA5) else pure ()) :
          RingM P L.slotCount Unit) := by
      split
      · exact silent_copyPayload _ _
      · exact .ret _
    refine .skip hpoison fun _ => .skip (.store fun _ _ => rfl) fun _ => ?_
    exact .ret ⟨hsequence, rfl⟩

end TenzorBus
