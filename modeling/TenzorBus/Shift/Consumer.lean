import TenzorBus.Shift.Producer

/-!
# Consumers on a shifted ring

A scan finds the same slot, a delivery has the shifted number, a release is refused on both sides
or on none.
-/

namespace TenzorBus

open Conc

variable {P : Platform} {n : Nat} {k : UInt64} {w : Known n} {s s' : State P n}

/-- The store of a number to a registry entry. From here on the entry has been used. -/
theorem entrySequence_lockstep (index : Fin 64) (sequence : UInt64) :
    Lockstep (Shifted k) w
      (storeEntry index fun e => { e with lastSequence := sequence } : RingM P n Unit)
      (storeEntry index fun e => { e with lastSequence := sequence + k })
      fun v _ _ => index ∈ v.entries := by
  refine .store fun v s s' _ h => ?_
  have hring : (s.ring.setEntry index fun e => { e with lastSequence := sequence }).shift k
      { v with entries := insert index v.entries } =
        (s.ring.shift k v).setEntry index fun e => { e with lastSequence := sequence + k } := by
    unfold Ring.shift Ring.setEntry
    congr 1
    funext i
    by_cases hi : i = index
    · subst hi
      simp [ConsumerEntry.shift]
    · simp [hi]
  refine ⟨{ v with entries := insert index v.entries },
    ⟨subset_rfl, Finset.subset_insert _ _, subset_rfl⟩, ?_, Finset.mem_insert_self _ _⟩
  refine ⟨?_, h.committed, fun i hi => Finset.mem_insert.mpr ?_, h.leases, h.writers, h.handles⟩
  · rw [h.eq]
    exact congrArg (fun r => { (s.shift k v) with ring := r }) hring.symm
  · by_cases hi' : i = index
    · exact .inl hi'
    · exact .inr (h.active i (by simpa [Ring.setEntry, hi'] using hi))

namespace Consumer

theorem unmoved_heartbeat (self : Consumer) :
    Unmoved (Shifted k) (heartbeat self : RingM P n Unit) :=
  .bind (unmoved_os fun _ _ => rfl) fun _ =>
    unmoved_storeEntry self.index _ (fun _ _ => rfl) fun _ h => h

theorem getLastSequence_lockstep {c : Nat} (hc : c ∈ w.handles) :
    Lockstep (Shifted k) w (getLastSequence c : RingM P n UInt64) (getLastSequence c)
      (Mapped (· + k)) :=
  .read fun v s s' hv h => by
    obtain ⟨x, hx⟩ := Option.isSome_iff_exists.mp (h.handles c (hv.2.2 hc))
    rw [h.eq]
    simp [Mapped, State.shift, Consumer.shift, hx]

/-! ## the scan -/

/-- The oldest publication found so far, shifted. -/
def shiftBest (k : UInt64) (best : Option (UInt64 × Fin n)) : Option (UInt64 × Fin n) :=
  best.map fun x => (x.1 + k, x.2)

/-- One round of the scan: the same slot is the oldest. -/
theorem scanSlot_lockstep (self : Consumer) (last : UInt64) (best : Option (UInt64 × Fin n))
    (i : Fin n) :
    Lockstep (Shifted k) w (scanSlot self last best i : RingM P n _)
      (scanSlot (self.shift k) (last + k) (shiftBest k best) i) (Mapped (shiftBest k)) := by
  refine (state_lockstep i).seq fun v state state' _ hstate => ?_
  obtain ⟨rfl, hi⟩ := hstate
  split
  · exact .ret rfl
  · next hcommitted =>
    refine Unmoved.seq (unmoved_load fun _ _ => rfl) fun v' mask hv' => ?_
    show Lockstep _ _ (if mask &&& bit self.index = 0 then _ else _)
      (if mask &&& bit self.index = 0 then _ else _) _
    split
    · exact .ret rfl
    · have hnumbered := hv'.1 (hi (not_not.mp hcommitted))
      refine (sequence_lockstep hnumbered).seq fun _ seq seq' _ hseq => ?_
      cases hseq
      rw [seqNewer_shift]
      split
      · exact .ret rfl
      · cases best with
        | none => exact .ret rfl
        | some best =>
          simp only [shiftBest, Option.map_some, seqNewer_shift]
          split <;> exact .ret rfl

/-- The scan finds the same slot. -/
theorem scanOldest_lockstep {c : Nat} (hc : c ∈ w.handles) (self : Consumer) :
    Lockstep (Shifted k) w (scanOldest c self : RingM P n _) (scanOldest c (self.shift k))
      (Mapped (shiftBest k)) := by
  refine (getLastSequence_lockstep hc).seq fun v last last' _ hlast => ?_
  cases hlast
  refine Lockstep.foldlM (Q := Mapped (shiftBest k)) (fun v d d' i _ hd => ?_) _ le_rfl rfl
  cases hd
  exact scanSlot_lockstep self last d i

theorem rescan_lockstep {c : Nat} (self : Consumer) (rounds : Nat) :
    ∀ {w : Known n} (best : UInt64 × Fin n), c ∈ w.handles →
      Lockstep (Shifted k) w (rescan c self rounds best : RingM P n _)
        (rescan c (self.shift k) rounds (best.1 + k, best.2))
        (Mapped fun x => (x.1 + k, x.2)) := by
  induction rounds with
  | zero => exact fun best _ => .ret rfl
  | succ rounds ih =>
    intro w best hc
    refine (scanOldest_lockstep hc self).seq fun v found found' hv hfound => ?_
    cases hfound
    cases found with
    | none => exact .ret rfl
    | some next =>
      simp only [shiftBest, Option.map_some, seqNewer_shift]
      split
      · exact ih next (hv.2.2 hc)
      · exact .ret rfl

/-! ## taking -/

/-- What is handed out on both sides, the number shifted. Its slot has a number. -/
def Taken (k : UInt64) (v : Known n) (r r' : Option (TensorMeta n)) : Prop :=
  r' = r.map (TensorMeta.shift k) ∧ ∀ m ∈ r, m.slotIndex ∈ v.slots

theorem taken_none (v : Known n) : Taken k v none none := ⟨rfl, nofun⟩

theorem readDim_lockstep (slot : Fin n) (dims : (Fin maxNdim → UInt32) × (Fin maxNdim → UInt32))
    (d : Fin maxNdim) : Unmoved (Shifted k) (readDim slot dims d : RingM P n _) :=
  .bind (unmoved_load fun _ _ => rfl) fun _ => .bind (unmoved_load fun _ _ => rfl) fun _ => .ret _

/-- What is read is the same but for the number, or is discarded on both sides. -/
theorem readValidated_lockstep (slotCapacity c : Nat) (self : Consumer) (slot : Fin n)
    (expected : UInt64) :
    Lockstep (Shifted k) w (readValidated slotCapacity c self slot expected : RingM P n _)
      (readValidated slotCapacity c (self.shift k) slot (expected + k)) (Taken k) := by
  have hseq : ∀ x : UInt64, x + k ≠ expected + k ↔ x ≠ expected := fun x =>
    not_congr ⟨fun h => by
      have := congrArg (· - k) h
      simpa using this, fun h => by rw [h]⟩
  refine (state_lockstep slot).seq fun v state state' _ hstate => ?_
  obtain ⟨rfl, hi⟩ := hstate
  split
  · exact .ret (taken_none v)
  next hcommitted =>
  have hslot : slot ∈ v.slots := hi (not_not.mp hcommitted)
  refine (sequence_lockstep hslot).seq fun v₁ seq seq' h₁ hs => ?_
  cases hs
  simp only [hseq]
  split
  · exact .ret (taken_none _)
  refine Unmoved.seq (unmoved_load fun _ _ => rfl) fun v₂ ndim h₂ => ?_
  refine Unmoved.seq (unmoved_load fun _ _ => rfl) fun v₃ dtypeCode h₃ => ?_
  refine Unmoved.seq (unmoved_load fun _ _ => rfl) fun v₄ nbytes h₄ => ?_
  refine Unmoved.seq (unmoved_load fun _ _ => rfl) fun v₅ timestampNs h₅ => ?_
  refine Unmoved.seq (.foldlM (readDim_lockstep slot) _ _) fun v₆ dims h₆ => ?_
  refine Unmoved.seq (unmoved_load fun _ _ => rfl) fun v₇ mask h₇ => ?_
  refine Unmoved.seq (unmoved_load fun _ _ => rfl) fun v₈ state h₈ => ?_
  have h₈' : v₁ ≤ v₈ := h₂.trans <| h₃.trans <| h₄.trans <| h₅.trans <| h₆.trans <| h₇.trans h₈
  split
  · exact .ret (taken_none _)
  refine (sequence_lockstep ((h₁.trans h₈').1 hslot)).seq fun v₉ seq seq' h₉ hs => ?_
  cases hs
  simp only [hseq]
  split
  · exact .ret (taken_none _)
  show Lockstep _ _ (if mask &&& bit self.index = 0 then _ else _)
    (if mask &&& bit self.index = 0 then _ else _) _
  split
  · exact .ret (taken_none _)
  refine Unmoved.seq (unmoved_load fun _ _ => rfl) fun v₁₀ again h₁₀ => ?_
  show Lockstep _ _ (if again &&& bit self.index = 0 then _ else _)
    (if again &&& bit self.index = 0 then _ else _) _
  split
  · exact .ret (taken_none _)
  split
  · exact .ret (taken_none _)
  cases DType.fromCode dtypeCode with
  | none => exact .ret (taken_none _)
  | some dtype =>
    refine Lockstep.seq (Q := Equal) (.stay fun v s s' _ h => h) fun v₁₁ _ _ h₁₁ _ =>
      .ret ⟨rfl, fun m hm => ?_⟩
    cases hm
    exact (h₁.trans <| h₈'.trans <| h₉.trans <| h₁₀.trans h₁₁).1 hslot

/-- `try_take` hands out the same slot. -/
theorem tryTake_lockstep (slotCapacity : Nat) {c : Nat} (hc : c ∈ w.handles) (self : Consumer) :
    Lockstep (Shifted k) w (tryTake slotCapacity c self : RingM P n _)
      (tryTake slotCapacity c (self.shift k)) (Taken k) := by
  refine (unmoved_record _).seq fun v₀ _ h₀ => ?_
  refine (scanOldest_lockstep (h₀.2.2 hc) self).seq fun v₁ found found' h₁ hfound => ?_
  cases hfound
  have hend : ∀ {v : Known n} {r r' : Option (TensorMeta n)}, Taken k v r r' →
      Lockstep (Shifted k) v (Prog.record (fun _ g => g.endTry c r) >>= fun _ => pure r :
        RingM P n _) (Prog.record (fun _ g => g.endTry c r') >>= fun _ => pure r') (Taken k) := by
    intro v r r' hr
    exact Lockstep.seq (Q := Equal) (.stay fun v s s' _ h => h) fun v₄ _ _ h₄ _ =>
      .ret ⟨hr.1, fun m hm => h₄.1 (hr.2 m hm)⟩
  cases found with
  | none => exact hend (taken_none _)
  | some first =>
    refine (rescan_lockstep self n first ((h₀.trans h₁).2.2 hc)).seq fun v₂ best best' _ hb => ?_
    cases hb
    exact (readValidated_lockstep slotCapacity c self best.2 best.1).seq fun v₃ r r' _ hr => hend hr

/-- What has been handed out becomes a lease. -/
theorem take_lockstep (c : Nat) {m : TensorMeta n} (hm : m.slotIndex ∈ w.slots) :
    Lockstep (Shifted k) w (take c m : RingM P n Unit) (take c (m.shift k)) Equal := by
  refine .stay fun v s s' hv h =>
    ⟨?_, h.committed, h.active, fun d x hx => ?_, h.writers, fun d hd => ?_⟩
  · rw [h.eq]
    unfold State.shift
    congr 1
    · funext d
      by_cases hd : d = c
      · subst hd
        simp only [Function.update_self, Option.map_map]
        rfl
      · simp [hd]
    · funext d
      by_cases hd : d = c
      · subst hd
        simp
      · simp [hd]
  · by_cases hd : d = c
    · subst hd
      rcases List.mem_cons.mp (by simpa using hx) with rfl | hx
      · exact hv.1 hm
      · exact h.leases d x hx
    · exact h.leases d x (by simpa [hd] using hx)
  · by_cases hdc : d = c
    · subst hdc
      simpa using h.handles d hd
    · simpa [hdc] using h.handles d hd

/-- The answer of `next`, shifted. The slot of what is handed over has a number. -/
def Delivered (k : UInt64) (v : Known n) (r r' : Except Error (TensorMeta n)) : Prop :=
  r' = r.map (TensorMeta.shift k) ∧ ∀ m, r = .ok m → m.slotIndex ∈ v.slots

/-- `next_raw` answers with the shifted number. -/
theorem nextRaw_lockstep (slotCapacity : Nat) {c : Nat} (hc : c ∈ w.handles) (self : Consumer)
    (timeout : Nat) :
    Lockstep (Shifted k) w (nextRaw slotCapacity c self timeout : RingM P n _)
      (nextRaw slotCapacity c (self.shift k) timeout) (Delivered k) := by
  refine Unmoved.seq (unmoved_os fun _ _ => rfl) fun v₀ start h₀ => .loop fun v₁ h₁ => ?_
  refine Unmoved.seq (unmoved_load fun _ _ => rfl) fun v₂ observed h₂ => ?_
  refine (tryTake_lockstep slotCapacity ((h₀.trans <| h₁.trans h₂).2.2 hc) self).seq
    fun v₃ r r' _ hr => ?_
  obtain ⟨rfl, hknown⟩ := hr
  cases r with
  | none =>
    refine Unmoved.seq (unmoved_os fun _ _ => rfl) fun _ time _ => ?_
    split
    · exact .ret (.some ⟨rfl, fun m hm => by cases hm⟩)
    · exact (unmoved_futexWait _ _ _).seq fun _ _ _ => .ret .none
  | some m =>
    refine (take_lockstep c (hknown m rfl)).seq fun _ _ _ h₄ _ => ?_
    refine (entrySequence_lockstep self.index m.sequence).seq fun _ _ _ h₅ _ => ?_
    refine (unmoved_heartbeat self).seq fun _ _ h₆ => .ret (.some ⟨rfl, fun x hx => ?_⟩)
    cases hx
    exact (h₄.trans (h₅.trans h₆)).1 (hknown m rfl)

/-! ## releasing -/

/-- A lease is dropped from the list of both sides. -/
theorem dropLease_shifted {c : Nat} {m : TensorMeta n} (h : Shifted k w s s') :
    Shifted k w (dropLease c m s) (dropLease c (m.shift k) s') := by
  refine ⟨?_, h.committed, h.active, fun d x hx => ?_, h.writers, h.handles⟩
  · rw [h.eq]
    unfold State.shift dropLease
    congr 1
    funext d
    by_cases hd : d = c
    · subst hd
      simp [List.map_erase TensorMeta.shift_injective]
    · simp [hd]
  · by_cases hd : d = c
    · subst hd
      exact h.leases d x (List.mem_of_mem_erase (by simpa [dropLease] using hx))
    · exact h.leases d x (by simpa [dropLease, hd] using hx)

/-- The answer to a lease whose slot has been used again. -/
def recycled (slot : Fin n) (sequence : UInt64) : Error :=
  .leaseViolation
    s!"slot {slot.val} was recycled while sequence {sequence.toNat} was still leased"

/-- Answers of `release` on both sides: the same, but for the number in the text. -/
inductive ReleaseShifted (k : UInt64) : Except Error Unit → Except Error Unit → Prop
  | same (r : Except Error Unit) : ReleaseShifted k r r
  | recycled {n : Nat} (slot : Fin n) (sequence : UInt64) :
      ReleaseShifted k (.error (Consumer.recycled slot sequence))
        (.error (Consumer.recycled slot (sequence + k)))

/-- `release` answers the same, but for the number in a text. -/
theorem release_lockstep (c : Nat) (self : Consumer) {m : TensorMeta n}
    (hm : m.slotIndex ∈ w.slots) :
    Lockstep (Shifted k) w (release c self m : RingM P n _) (release c (self.shift k) (m.shift k))
      fun _ => ReleaseShifted k := by
  refine (sequence_lockstep hm).seq fun v seq seq' _ hs => ?_
  cases hs
  have hseq : seq + k ≠ m.sequence + k ↔ seq ≠ m.sequence :=
    not_congr ⟨fun h => by
      have := congrArg (· - k) h
      simpa using this, fun h => by rw [h]⟩
  show Lockstep _ _ (if seq ≠ m.sequence then _ else _)
    (if seq + k ≠ m.sequence + k then _ else _) _
  simp only [hseq]
  split
  · exact Lockstep.seq (.stay fun v s s' _ h => dropLease_shifted h) fun _ _ _ _ _ =>
      .ret (.recycled m.slotIndex m.sequence)
  · refine Lockstep.seq (Q := Equal) (.atomic fun v s s' _ h => ?_) fun _ previous _ _ hp => ?_
    · have hplain : Plain k fun s : State P n =>
          { s with ring := s.ring.setSlot m.slotIndex fun t =>
            { t with readersMask := t.readersMask &&& ~~~bit self.index } } :=
        plain_setSlot _ (fun _ _ => rfl) fun _ h => h
      refine .moved v le_rfl (dropLease_shifted (hplain.stored h)) ?_
      rw [h.eq]
      rfl
    · cases hp
      show Lockstep _ _ (if previous &&& bit self.index = 0 then _ else _)
        (if previous &&& bit self.index = 0 then _ else _) _
      split
      · exact .ret (.same _)
      · refine (unmoved_storeReaders _ _ _).seq fun _ _ _ => ?_
        refine (unmoved_heartbeat self).seq fun _ _ _ => ?_
        show Lockstep _ _ (if previous &&& ~~~bit self.index = 0 then _ else _)
          (if previous &&& ~~~bit self.index = 0 then _ else _) _
        split
        · exact (unmoved_signal .reclaim).seq fun _ _ _ => .ret (.same _)
        · exact .ret (.same _)

/-- `close`, also of a handle that has been closed before. -/
theorem close_lockstep (c : Nat) (self : Consumer) :
    Lockstep (Shifted k) w (close c self : RingM P n Unit) (close c (self.shift k)) Equal := by
  refine Lockstep.seq (Q := Equal) (.atomic fun v s s' _ h => ?_) fun _ closed _ _ hc => ?_
  · refine .moved v le_rfl ⟨?_, h.committed, h.active, h.leases, h.writers, fun d hd => ?_⟩ ?_
    · rw [h.eq]
      unfold State.shift
      congr 1
      funext d
      by_cases hd : d = c
      · subst hd
        simp [Option.map_map, Function.comp_def, Consumer.shift]
      · simp [hd]
    · by_cases hdc : d = c
      · subst hdc
        simpa using h.handles d hd
      · simpa [hdc] using h.handles d hd
    · rw [h.eq]
      simp only [Equal, State.shift]
      cases s.consumer c <;> rfl
  · cases hc
    split
    · exact .ret rfl
    · refine (unmoved_lockRegistry _).seq fun _ _ _ => ?_
      refine (unmoved_dropConsumerBit _ self.index).seq fun _ freed _ => ?_
      have hend : Unmoved (Shifted k) (Ring.freeEntry (.consumer c) self.index >>= fun _ =>
          store (fun r => { r with registryEpoch := r.registryEpoch + 1 }) >>= fun _ =>
            unlockRegistry : RingM P n Unit) :=
        .bind (unmoved_freeEntry _ _) fun _ => .bind unmoved_counter fun _ =>
          unmoved_unlockRegistry
      split
      · exact (unmoved_signal .reclaim).seq fun v _ _ => hend v
      · exact hend _

end Consumer

/-! ## registering -/

namespace Ring

/-- A consumer gets a handle. From here on it has one. -/
theorem handle_lockstep (c : Nat) (self : Consumer) :
    Lockstep (Shifted k) w
      (Prog.modify (fun s =>
        { s with consumer := Function.update s.consumer c (some self) }) : RingM P n Unit)
      (Prog.modify fun s =>
        { s with consumer := Function.update s.consumer c (some (self.shift k)) }) Equal := by
  refine .store fun v s s' _ h => ?_
  refine ⟨{ v with handles := insert c v.handles },
    ⟨subset_rfl, subset_rfl, Finset.subset_insert _ _⟩, ?_, rfl⟩
  refine ⟨?_, h.committed, h.active, h.leases, h.writers, fun d hd => ?_⟩
  · rw [h.eq]
    unfold State.shift
    congr 1
    funext d
    by_cases hd : d = c
    · subst hd
      simp
    · simp [hd]
  · by_cases hdc : d = c
    · subst hdc
      simp
    · simpa [hdc] using h.handles d ((Finset.mem_insert.mp hd).resolve_left hdc)

/-- An entry that has been used becomes active. -/
theorem activate_lockstep {index : Fin 64} (hindex : index ∈ w.entries)
    (aux : State P n → Ghost n → Ghost n) :
    Lockstep (Shifted k) w
      (Prog.modifyWith (fun s => { s with ring := s.ring.setEntry index fun e =>
        { e with state := .active } }) aux : RingM P n Unit)
      (Prog.modifyWith (fun s => { s with ring := s.ring.setEntry index fun e =>
        { e with state := .active } }) aux) Equal := by
  refine .stay fun v s s' hv h => ?_
  have hring : (s.ring.setEntry index fun e => { e with state := .active }).shift k v =
      (s.ring.shift k v).setEntry index fun e => { e with state := .active } :=
    setEntry_shift (g := fun e => { e with state := .active }) (fun _ => rfl) s.ring
  refine ⟨?_, h.committed, fun i hi => ?_, h.leases, h.writers, h.handles⟩
  · rw [h.eq]
    simp only [State.shift, hring]
  · by_cases hi' : i = index
    · exact hi' ▸ hv.2.1 hindex
    · exact h.active i (by simpa [Ring.setEntry, hi'] using hi)

/-- A consumer begins behind the last number of both sides. -/
theorem subscribe_lockstep (a : Actor) (c : Nat) (index : Fin 64) :
    Lockstep (Shifted k) w (subscribe a c index : RingM P n Unit) (subscribe a c index) Equal := by
  refine nextSeq_lockstep.seq fun _ next next' _ hnext => ?_
  cases hnext
  have hlast : next + k - 1 = next - 1 + k := by
    apply UInt64.toBitVec_inj.mp
    simp only [UInt64.toBitVec_sub, UInt64.toBitVec_add]
    bv_omega
  refine Unmoved.seq (.atomic fun v s s' h => ?_) fun _ generation _ => ?_
  · have hplain : Plain k fun s : State P n =>
        { s with ring := s.ring.setEntry index fun e =>
          { e with generation := e.generation + 1 } } :=
      plain_setEntry index (fun _ _ => rfl) fun _ h => h
    refine .moved v le_rfl (hplain.stored h) ?_
    rw [h.eq]
    rfl
  refine Unmoved.seq (unmoved_storeEntry index _ (fun _ _ => rfl) fun _ h => h) fun _ _ _ => ?_
  refine Unmoved.seq (unmoved_os fun _ _ => rfl) fun _ token _ => ?_
  refine Unmoved.seq (unmoved_storeEntry index _ (fun _ _ => rfl) fun _ h => h) fun _ _ _ => ?_
  refine Unmoved.seq (unmoved_os fun _ _ => rfl) fun _ stamp _ => ?_
  refine Unmoved.seq (unmoved_storeEntry index _ (fun _ _ => rfl) fun _ h => h) fun _ _ _ => ?_
  show Lockstep _ _ (storeEntry index (fun e => { e with lastSequence := next - 1 }) >>= _)
    (storeEntry index (fun e => { e with lastSequence := next + k - 1 }) >>= _) _
  rw [hlast]
  refine (entrySequence_lockstep index (next - 1)).seq fun _ _ _ _ hindex => ?_
  refine (activate_lockstep hindex _).seq fun _ _ _ _ _ => ?_
  refine Unmoved.seq (unmoved_load fun _ _ => rfl) fun _ count _ => ?_
  refine Unmoved.seq unmoved_counter fun _ _ _ => Unmoved.seq unmoved_counter fun _ _ _ => ?_
  refine unmoved_unlockRegistry.seq fun v _ _ => ?_
  exact handle_lockstep c (.mk index (generation + 1) (next - 1) false)

theorem consumer_lockstep (a : Actor) (c : Nat) :
    Lockstep (Shifted k) w (consumer a c : RingM P n _) (consumer a c) Equal := by
  refine (unmoved_lockRegistry _).seq fun _ _ _ => ?_
  refine (unmoved_reapDead _).seq fun _ _ _ => ?_
  refine (unmoved_firstFree _).seq fun _ chosen _ => ?_
  cases chosen with
  | none =>
    refine (unmoved_record _).seq fun _ _ _ => ?_
    exact unmoved_unlockRegistry.seq fun _ _ _ => .ret rfl
  | some index => exact (subscribe_lockstep a c index).seq fun _ _ _ _ _ => .ret rfl

end Ring

end TenzorBus
