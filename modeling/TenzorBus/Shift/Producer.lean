import TenzorBus.Shift.Registry

/-!
# Publications on a shifted ring

A reservation chooses the same slot, captures the same mask and takes the shifted number; the
publication that follows has the shifted number.
-/

namespace TenzorBus

open Conc

variable {P : Platform} {n : Nat} {k : UInt64} {w : Known n} {s s' : State P n}

/-! ## numbers of slots -/

/-- The counter goes on by one on both sides. -/
theorem shift_succ (a k : UInt64) : a + k + 1 = a + 1 + k := by
  rw [UInt64.add_assoc, UInt64.add_comm k, ← UInt64.add_assoc]

/-- A slot that is seen as committed has a number. -/
theorem state_lockstep (i : Fin n) :
    Lockstep (Shifted k) w (loadSlot i (·.state) : RingM P n SlotState) (loadSlot i (·.state))
      fun v b b' => b' = b ∧ (b = .committed → i ∈ v.slots) :=
  .read fun v s s' _ h => ⟨by rw [h.eq]; rfl, h.committed i⟩

/-- The number of a slot that has one. -/
theorem sequence_lockstep {i : Fin n} (hi : i ∈ w.slots) :
    Lockstep (Shifted k) w (loadSlot i (·.sequence) : RingM P n UInt64) (loadSlot i (·.sequence))
      (Mapped (· + k)) :=
  .read fun v s s' hv h => by
    rw [h.eq]
    simp [Mapped, State.shift, Ring.shift, Slot.shift, hv.1 hi]

/-- The counter itself. -/
theorem nextSeq_lockstep :
    Lockstep (Shifted k) w (load (·.nextSeq) : RingM P n UInt64) (load (·.nextSeq))
      (Mapped (· + k)) :=
  .read fun v s s' _ h => by
    rw [h.eq]
    rfl

namespace Producer

/-- The slots found so far, with the number of the oldest one shifted. -/
def shiftFound (k : UInt64) (found : Option (Fin n) × Option (UInt64 × Fin n)) :
    Option (Fin n) × Option (UInt64 × Fin n) :=
  (found.1, found.2.map fun x => (x.1 + k, x.2))

/-- One round of the selection: the same slots are found. -/
theorem selectSlot_lockstep (found : Option (Fin n) × Option (UInt64 × Fin n)) (i : Fin n) :
    Lockstep (Shifted k) w (selectSlot found i : RingM P n _) (selectSlot (shiftFound k found) i)
      (Mapped (shiftFound k)) := by
  refine (state_lockstep i).seq fun v b b' _ hb => ?_
  obtain ⟨rfl, hi⟩ := hb
  cases b' with
  | free => exact .ret rfl
  | writing => exact .ret rfl
  | committed =>
    refine (unmoved_load fun _ _ => rfl).seq fun v' mask hv' => ?_
    split
    · refine (sequence_lockstep (hv'.1 (hi rfl))).seq fun v'' seq seq' _ hseq => ?_
      cases hseq
      obtain ⟨free, oldest⟩ := found
      cases oldest with
      | none => exact .ret rfl
      | some best =>
        simp only [shiftFound, Option.map_some, seqNewer_shift]
        split <;> exact .ret rfl
    · exact .ret rfl

/-- The same slot is chosen. -/
theorem unmoved_chooseSlot : Unmoved (Shifted k) (chooseSlot : RingM P n (Option (Fin n))) := by
  intro w
  refine (Lockstep.foldlM (Q := Mapped (shiftFound k)) (fun v d d' i _ hd => ?_) _ le_rfl rfl).seq
    fun v found found' _ hfound => ?_
  · cases hd
    exact selectSlot_lockstep d i
  · cases hfound
    exact .ret (by simp [Equal, shiftFound, Option.map_map, Function.comp_def])

theorem unmoved_timestampOrNow (timestampNs : Option UInt64) :
    Unmoved (Shifted k) (timestampOrNow timestampNs : RingM P n UInt64) := by
  cases timestampNs with
  | none => exact unmoved_os fun _ _ => rfl
  | some ts => exact .ret ts

theorem unmoved_writeDim (slot : Fin n) (shape strides : Fin maxNdim → UInt32) (d : Fin maxNdim) :
    Unmoved (Shifted k) (writeDim slot shape strides d : RingM P n Unit) :=
  .bind (unmoved_storeSlot slot _ (fun _ _ => rfl) fun _ h => h) fun _ =>
    unmoved_storeSlot slot _ (fun _ _ => rfl) fun _ h => h

/-- The store of a number. From here on the slot has one. -/
theorem number_lockstep (t : Nat) (slot : Fin n) (sequence : UInt64) :
    Lockstep (Shifted k) w
      (storeSlotWith slot (fun s => { s with sequence := sequence }) fun _ g => g.number t slot :
        RingM P n Unit)
      (storeSlotWith slot (fun s => { s with sequence := sequence + k }) fun _ g =>
        g.number t slot)
      fun v _ _ => slot ∈ v.slots := by
  refine .store fun v s s' _ h => ?_
  refine ⟨{ v with slots := insert slot v.slots },
    ⟨Finset.subset_insert _ _, subset_rfl, subset_rfl⟩, ?_, Finset.mem_insert_self _ _⟩
  have hsub : v.slots ⊆ insert slot v.slots := Finset.subset_insert _ _
  constructor
  · rw [h.eq]
    unfold State.shift Ring.shift Ring.setSlot
    congr 2
    funext i
    by_cases hi : i = slot
    · subst hi
      simp [Slot.shift]
    · simp [hi]
  · intro i hi
    by_cases his : i = slot
    · exact his ▸ Finset.mem_insert_self _ _
    · exact hsub (h.committed i (by simpa [Ring.setSlot, his] using hi))
  · exact h.active
  · exact fun c m hm => hsub (h.leases c m hm)
  · exact fun t x hx => hsub (h.writers t x hx)
  · exact h.handles

/-- The header is the same but for the number, and from here on the slot has one. -/
theorem writeHeader_lockstep (t : Nat) (slot : Fin n) (sequence mask : UInt64) (dtype : DType)
    (ndim : Nat) (shape strides : Fin maxNdim → UInt32) (nbytes : Nat)
    (timestampNs : Option UInt64) :
    Lockstep (Shifted k) w
      (writeHeader t slot sequence mask dtype ndim shape strides nbytes timestampNs :
        RingM P n Unit)
      (writeHeader t slot (sequence + k) mask dtype ndim shape strides nbytes timestampNs)
      fun v _ _ => slot ∈ v.slots := by
  refine Unmoved.seq (unmoved_storeSlotWith slot _ _ (fun _ _ => rfl) fun _ h => (by cases h))
    fun _ _ _ => ?_
  refine Unmoved.seq (unmoved_storeSlot slot _ (fun _ _ => rfl) fun _ h => h) fun _ _ _ => ?_
  refine (unmoved_os fun _ _ => rfl).seq fun _ token _ => ?_
  refine Unmoved.seq (unmoved_storeSlot slot _ (fun _ _ => rfl) fun _ h => h) fun _ _ _ => ?_
  refine (number_lockstep t slot sequence).seq fun v₀ _ _ _ hslot => ?_
  refine (unmoved_timestampOrNow timestampNs).seq fun v₁ stamp h₁ => ?_
  refine Unmoved.seq (unmoved_storeSlot slot _ (fun _ _ => rfl) fun _ h => h) fun v₂ _ h₂ => ?_
  refine Unmoved.seq (unmoved_storeSlot slot _ (fun _ _ => rfl) fun _ h => h) fun v₃ _ h₃ => ?_
  refine Unmoved.seq (unmoved_storeSlot slot _ (fun _ _ => rfl) fun _ h => h) fun v₄ _ h₄ => ?_
  refine Unmoved.seq (unmoved_storeSlot slot _ (fun _ _ => rfl) fun _ h => h) fun v₅ _ h₅ => ?_
  refine Unmoved.seq (unmoved_storeSlot slot _ (fun _ _ => rfl) fun _ h => h) fun v₆ _ h₆ => ?_
  refine (Unmoved.forM (unmoved_writeDim slot shape strides) _).seq fun v₇ _ h₇ => ?_
  refine Unmoved.seq (unmoved_storeSlotWith slot _ _ (fun _ _ => rfl) fun _ h => h)
    fun v₈ _ h₈ => ?_
  refine (unmoved_storeReaders _ _ _).seq fun v₉ _ h₉ => ?_
  have hknown : v₀ ≤ v₉ :=
    h₁.trans <| h₂.trans <| h₃.trans <| h₄.trans <| h₅.trans <| h₆.trans <| h₇.trans <| h₈.trans h₉
  refine .store fun v s s' hv h => ⟨v, le_rfl, ?_, hv.1 (hknown.1 hslot)⟩
  refine ⟨?_, h.committed, h.active, h.leases, h.writers, h.handles⟩
  rw [h.eq]
  simp only [State.shift, Ring.shift]
  rw [shift_succ]

/-- A reservation on both sides: the same slot and mask, the number shifted. -/
def Reserved (k : UInt64) (v : Known n) (r r' : Option (Fin n × UInt64 × UInt64)) : Prop :=
  r' = r.map (fun x => (x.1, x.2.1 + k, x.2.2)) ∧ ∀ x ∈ r, x.1 ∈ v.slots

/-- A reservation chooses the same slot and captures the same mask. -/
theorem reserveHeader_lockstep (t : Nat) (dtype : DType) (ndim : Nat)
    (shape strides : Fin maxNdim → UInt32) (nbytes : Nat) (timestampNs : Option UInt64) :
    Lockstep (Shifted k) w
      (reserveHeader t dtype ndim shape strides nbytes timestampNs : RingM P n _)
      (reserveHeader t dtype ndim shape strides nbytes timestampNs) (Reserved k) := by
  refine (unmoved_reapDead _).seq fun v _ _ => ?_
  refine unmoved_chooseSlot.seq fun v chosen _ => ?_
  cases chosen with
  | none => exact .ret ⟨rfl, nofun⟩
  | some slot =>
    refine nextSeq_lockstep.seq fun v₁ sequence sequence' _ hseq => ?_
    cases hseq
    refine unmoved_activeMask.seq fun v₂ mask _ => ?_
    refine (writeHeader_lockstep t slot sequence mask dtype ndim shape strides nbytes
      timestampNs).seq fun v₃ _ _ _ hknown => .ret ⟨rfl, ?_⟩
    intro x hx
    cases hx
    exact hknown

theorem lockedReserve_lockstep (t : Nat) (dtype : DType) (ndim : Nat)
    (shape strides : Fin maxNdim → UInt32) (nbytes : Nat) (timestampNs : Option UInt64) :
    Lockstep (Shifted k) w
      (lockedReserve t dtype ndim shape strides nbytes timestampNs : RingM P n _)
      (lockedReserve t dtype ndim shape strides nbytes timestampNs) (Reserved k) := by
  refine (unmoved_lockRegistry _).seq fun v _ _ => ?_
  refine (reserveHeader_lockstep t dtype ndim shape strides nbytes timestampNs).seq
    fun v₁ r r' _ hr => ?_
  obtain ⟨hr, hknown⟩ := hr
  exact Unmoved.seq unmoved_unlockRegistry fun v₂ _ hv => .ret ⟨hr, fun x hx => hv.1 (hknown x hx)⟩

theorem unmoved_writeByte (slot : Fin n) (off : Nat) (b : UInt8) :
    Unmoved (Shifted k) (writeByte slot off b : RingM P n Unit) :=
  unmoved_storeSlot slot _ (fun _ _ => rfl) fun _ h => h

theorem unmoved_copyPayload (slot : Fin n) (data : List UInt8) :
    Unmoved (Shifted k) (copyPayload slot data : RingM P n Unit) :=
  .forM (fun x : UInt8 × Nat => unmoved_writeByte slot x.2 x.1) _

/-- A slot that has a number is committed. -/
theorem commitSlot_lockstep (t : Nat) {slot : Fin n} (hslot : slot ∈ w.slots) (mask : UInt64) :
    Lockstep (Shifted k) w (commitSlot t slot mask : RingM P n Unit) (commitSlot t slot mask)
      Equal := by
  refine Lockstep.seq (.stay fun v s s' hv h => ?_) fun v _ _ _ _ => ?_
  · have hring : (s.ring.setSlot slot fun t => { t with state := .committed }).shift k v =
        (s.ring.shift k v).setSlot slot fun t => { t with state := .committed } :=
      setSlot_shift (g := fun t => { t with state := .committed }) (fun _ => rfl) s.ring
    refine ⟨?_, fun i hi => ?_, h.active, h.leases, h.writers, h.handles⟩
    · rw [h.eq]
      simp only [State.shift, hring]
    · by_cases his : i = slot
      · exact his ▸ hv.1 hslot
      · exact h.committed i (by simpa [Ring.setSlot, his] using hi)
  · exact Unmoved.seq unmoved_counter
      fun v _ _ => unmoved_signal .publish v

/-- The answer of `publish`, shifted. -/
def shiftPublished (k : UInt64) (r : Except Error (Option (PublishResult n))) :
    Except Error (Option (PublishResult n)) :=
  r.map (·.map (PublishResult.shift k))

/-- The answer of `reserve`, shifted. -/
def shiftReserved (k : UInt64) (r : Except Error (Option (SlotWriter n))) :
    Except Error (Option (SlotWriter n)) :=
  r.map (·.map (SlotWriter.shift k))

/-- Whoever backs off answers without a number. -/
theorem backOff_lockstep {α : Type} (f : Except Error (Option α) → Except Error (Option α))
    (herror : ∀ e, f (.error e) = .error e) (hnone : f (.ok none) = .ok none) (t : Nat)
    (policy : Backpressure) (deadline : Nat) :
    Lockstep (Shifted k) w (backOff t policy deadline : RingM P n _) (backOff t policy deadline)
      (Answers (Mapped f)) := by
  unfold backOff
  split
  · exact Unmoved.seq unmoved_counter
      fun _ _ _ => .ret (.some hnone.symm)
  · refine Unmoved.seq (unmoved_os fun _ _ => rfl) fun _ time _ => ?_
    split
    · exact .ret (.some (herror _).symm)
    · refine Unmoved.seq (unmoved_load fun _ _ => rfl) fun _ observed _ => ?_
      exact (unmoved_futexWait _ _ _).seq fun _ _ _ => .ret .none

/-- `publish` answers with the shifted number. -/
theorem publish_lockstep {L : RingLayout} {w : Known L.slotCount} (t : Nat) (view : TensorView)
    (policy : Backpressure) (timeout : Nat) :
    Lockstep (Shifted k) w (publish L t view policy timeout : RingM P L.slotCount _)
      (publish L t view policy timeout) (Mapped (shiftPublished k)) := by
  unfold publish
  split
  · exact .ret rfl
  · refine Unmoved.seq (unmoved_os fun _ _ => rfl) fun _ start _ => .loop fun v _ => ?_
    refine (lockedReserve_lockstep ..).seq fun v₁ r r' _ hr => ?_
    obtain ⟨rfl, hknown⟩ := hr
    match r with
    | none => exact backOff_lockstep _ (fun _ => rfl) rfl t policy _
    | some (slot, sequence, mask) =>
      refine (unmoved_copyPayload slot view.data).seq fun v₂ _ h₂ => ?_
      exact (commitSlot_lockstep t (h₂.1 (hknown _ rfl)) mask).seq fun _ _ _ _ _ =>
        .ret (.some rfl)

end Producer

/-! ## slots in hand -/

/-- A slot that has a number is put in hand. -/
theorem handOver_shifted {t : Nat} {x : Option (SlotWriter n)}
    (hx : ∀ y ∈ x, y.slot ∈ w.slots) (h : Shifted k w s s') :
    Shifted k w { s with writer := Function.update s.writer t x }
      { s' with writer := Function.update s'.writer t (x.map (SlotWriter.shift k)) } := by
  refine ⟨?_, h.committed, h.active, h.leases, fun u y hy => ?_, h.handles⟩
  · rw [h.eq]
    unfold State.shift
    congr 1
    funext u
    by_cases hu : u = t
    · subst hu
      simp
    · simp [hu]
  · by_cases hu : u = t
    · subst hu
      exact hx y (by simpa using hy)
    · exact h.writers u y (by simpa [hu] using hy)

/-- `reserve` answers with the shifted number. -/
theorem Producer.reserve_lockstep {L : RingLayout} {w : Known L.slotCount} (t : Nat)
    (dtype : DType) (shape : List UInt32) (policy : Backpressure) (timeout : Nat) :
    Lockstep (Shifted k) w (reserve L t dtype shape policy timeout : RingM P L.slotCount _)
      (reserve L t dtype shape policy timeout) (Mapped (shiftReserved k)) := by
  unfold reserve
  split
  · exact .ret rfl
  simp only
  split
  · exact .ret rfl
  refine Unmoved.seq (unmoved_os fun _ _ => rfl) fun _ start _ => .loop fun v _ => ?_
  refine (lockedReserve_lockstep ..).seq fun v₁ r r' _ hr => ?_
  obtain ⟨rfl, hknown⟩ := hr
  match r with
  | none => exact backOff_lockstep _ (fun _ => rfl) rfl t policy _
  | some (slot, sequence, mask) =>
    have hslot : slot ∈ v₁.slots := hknown _ rfl
    have hhand : ∀ v₂, v₁ ≤ v₂ → Lockstep (Shifted k) v₂ (Prog.modify (fun s =>
        { s with writer := Function.update s.writer t (some (SlotWriter.mk slot sequence mask
          (impliedBytes dtype shape))) }) : RingM P L.slotCount Unit)
        (Prog.modify fun s => { s with writer := Function.update s.writer t (some (SlotWriter.mk
          slot (sequence + k) mask (impliedBytes dtype shape))) }) Equal := by
      intro v₂ h₂
      refine .stay fun v₃ s s' h₃ h => handOver_shifted (fun y hy => ?_) h
      cases hy
      exact h₃.1 (h₂.1 hslot)
    simp only [Option.map_some]
    split
    · refine (unmoved_copyPayload slot _).seq fun v₂ _ h₂ => ?_
      exact (hhand v₂ h₂).seq fun _ _ _ _ _ => .ret (.some rfl)
    · exact (hhand v₁ le_rfl).seq fun _ _ _ _ _ => .ret (.some rfl)

namespace SlotWriter

theorem consume_lockstep (t : Nat) :
    Unmoved (Shifted k) (consume t : RingM P n Unit) :=
  .store fun _ _ _ h => handOver_shifted (fun _ hy => by cases hy) h

theorem unmoved_setTimestampNs (self : SlotWriter n) (timestampNs : UInt64) :
    Unmoved (Shifted k) (self.setTimestampNs timestampNs : RingM P n Unit) :=
  unmoved_storeSlot self.slot _ (fun _ _ => rfl) fun _ h => h

/-- `SlotWriter::commit` answers with the shifted number. -/
theorem commit_lockstep (t : Nat) {self : SlotWriter n} (hslot : self.slot ∈ w.slots) :
    Lockstep (Shifted k) w (self.commit t : RingM P n _) ((self.shift k).commit t)
      (Mapped (PublishResult.shift k)) := by
  refine (consume_lockstep t).seq fun v _ hv => ?_
  exact (Producer.commitSlot_lockstep t (hv.1 hslot) self.mask).seq fun _ _ _ _ _ => .ret rfl

/-- The compare-exchange of the counter succeeds on both sides or on neither. -/
theorem releaseSlot_lockstep (t : Nat) (self : SlotWriter n) :
    Lockstep (Shifted k) w (self.releaseSlot t : RingM P n Unit) ((self.shift k).releaseSlot t)
      Equal := by
  refine (unmoved_lockRegistry _).seq fun _ _ _ => ?_
  refine Unmoved.seq (unmoved_storeSlotWith self.slot _ _ (fun _ _ => rfl) fun _ h => h)
    fun _ _ _ => ?_
  refine (unmoved_storeReaders _ _ _).seq fun _ _ _ => ?_
  refine Unmoved.seq (unmoved_storeSlotWith self.slot _ _ (fun _ _ => rfl) fun _ h => (by cases h))
    fun _ _ _ => ?_
  refine (Lockstep.atomic (Q := Equal) fun v s s' _ h => ?_).seq fun _ _ _ _ _ => ?_
  · have hnext : s'.ring.nextSeq = (self.shift k).sequence + 1 ↔
        s.ring.nextSeq = self.sequence + 1 := by
      rw [h.eq]
      show s.ring.nextSeq + k = self.sequence + k + 1 ↔ _
      rw [shift_succ]
      exact ⟨fun h => UInt64.add_right_inj _ |>.mp (by rwa [UInt64.add_comm k, UInt64.add_comm k]),
        fun h => by rw [h]⟩
    simp only [hnext]
    split
    · refine .moved v le_rfl ?_ rfl
      refine ⟨?_, h.committed, h.active, h.leases, h.writers, h.handles⟩
      rw [h.eq]
      rfl
    · exact .moved v le_rfl h rfl
  · exact unmoved_unlockRegistry.seq fun v _ _ => unmoved_signal .reclaim v

theorem abort_lockstep (t : Nat) (self : SlotWriter n) :
    Lockstep (Shifted k) w (self.abort t : RingM P n Unit) ((self.shift k).abort t) Equal :=
  (consume_lockstep t).seq fun _ _ _ => releaseSlot_lockstep t self

end SlotWriter

end TenzorBus
