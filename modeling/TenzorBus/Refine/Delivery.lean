import TenzorBus.Refine.Soundness

/-!
# Deliveries

`try_take` as the uses of the ring see it.

* `beginTry_keeps`, `endTry_keeps` : the notes at its ends
* `Sighting.plain` : a pass that has to find nothing in particular
* `delivers_plain` : what a use of the ring shows that puts no condition on deliveries
* `delivers_careless` : what one shows in which a sweep may take back what has been committed
-/

namespace TenzorBus.Refine

open Conc

variable {P : Platform} {L : RingLayout} {M : Mode P L.slotCount} {c : Nat} {con : Consumer}
  {k : Registration} {Φ Ψ : View P L.slotCount → Prop}

theorem beginTry_keeps (hΨ : Keeps M (.consumer c) Ψ)
    (h : ∀ v, M.Inv L.slotCapacity v → v.proto.alive (.consumer c) → Φ v →
      Ψ { v with proto := { v.proto with hist := v.proto.hist.beginTry c } }) :
    Keeping M (.consumer c) (Prog.record fun _ g => g.beginTry c) Φ fun _ => Ψ :=
  put (fun v => { v with proto := { v.proto with hist := v.proto.hist.beginTry c } })
    (fun _ _ => rfl) hΨ fun v hi hl hs => ⟨⟨hl, .beginTry c _, { hi.coupled with },
      {}⟩, fun _ => h v hi hl hs⟩

theorem endTry_keeps (result : Option (TensorMeta L.slotCount)) (hΨ : Keeps M (.consumer c) Ψ)
    (hanswer : ∀ v, M.Inv L.slotCapacity v → Φ v → M.guards.answer v.proto c result)
    (h : ∀ v, Φ v →
      Ψ { v with proto := { v.proto with hist := v.proto.hist.endTry c result } }) :
    Keeping M (.consumer c) (Prog.record fun _ g => g.endTry c result) Φ fun _ => Ψ :=
  put (fun v => { v with proto := { v.proto with hist := v.proto.hist.endTry c result } })
    (fun _ _ => rfl) hΨ fun v hi hl hs => ⟨⟨hl, .endTry c _ result (hanswer v hi hs),
      { hi.coupled with }, {}⟩, fun _ => h v hs⟩

/-! ## deliveries under no condition -/

/-- Nothing is due; a candidate is addressed to the consumer and new to it. -/
def Sighting.plain (M : Mode P L.slotCount) (hG : ¬M.guards.careless) (c : Nat) (con : Consumer)
    (k : Registration) (hf : Fits con k) : Sighting M c con k where
  Base := Opened c con k
  Mark j v := v.proto.Addressed k.index j
  Good q j v := v.proto.Addressed k.index j ∧ seqNewer q (seqWord k.last) = true
  Due _ := False
  Below _ _ := False
  opened _ h := h
  keepsBase := keeps_opened
  keepsMark := keeps_addressed hG hf
  keepsGood _ j v v' h hv :=
    have hk := keeps_addressed hG hf j v v' h ⟨hv.1, hv.2.1⟩
    ⟨hk.1, hk.2, hv.2.2⟩
  mark _ _ hi _ _ hb := hi.proto.addressed hb
  good _ _ _ _ _ hm hn := ⟨hm, hn⟩
  due _ _ _ _ _ h := h.elim
  older _ _ _ _ _ _ _ _ _ _ _ h := h
  newer _ _ _ _ _ _ _ _ _ _ _ h := h

/-- What the consumer may take when there is no condition on it. -/
def Takeable (c : Nat) (con : Consumer) (k : Registration) (m : TensorMeta L.slotCount)
    (v : View P L.slotCount) : Prop :=
  Validated c con k m v ∧ seqNewer m.sequence (seqWord k.last) = true

theorem keeps_takeable (hG : ¬M.guards.careless) (hf : Fits con k) (m : TensorMeta L.slotCount) :
    Keeps M (.consumer c) (Takeable c con k m) :=
  (keeps_validated hG hf m).and (Keeps.const _)

theorem tryTake_plain (hG : ¬M.guards.careless) (hf : Fits con k)
    (hanswer : ∀ (v : View P L.slotCount) r, Opened c con k v → M.guards.answer v.proto c r) :
    Keeping M (.consumer c) (Consumer.tryTake L.slotCapacity c con) (Opened c con k) fun r v =>
      Opened c con k v ∧ ∀ m, r = some m → Takeable c con k m v := by
  let S := Sighting.plain M hG c con k hf
  -- the end: an answer of which all is known
  have hend : ∀ r : Option (TensorMeta L.slotCount), Keeping M (.consumer c)
      (do Prog.record fun _ g => g.endTry c r; return r)
      (fun v => Opened c con k v ∧ ∀ m, r = some m → Takeable c con k m v)
      fun r v => Opened c con k v ∧ ∀ m, r = some m → Takeable c con k m v := fun r =>
    seq (endTry_keeps r (fun v v' h hv => ⟨keeps_opened v v' h hv.1, fun m hm =>
        keeps_takeable hG hf m v v' h (hv.2 m hm)⟩) (fun v _ hv => hanswer v r hv.1)
      fun v hv => ⟨⟨hv.1.steady, hv.1.handle, hv.1.registration⟩, fun m hm =>
        have ht := hv.2 m hm
        ⟨⟨⟨hv.1.steady, hv.1.handle, hv.1.registration⟩, ht.1.pinned, ht.1.good.1, ht.1.good.2,
          ht.1.good.3⟩, ht.2⟩⟩)
      fun _ => ret fun _ _ hv => hv
  refine seq (X := fun _ => Opened c con k) (beginTry_keeps keeps_opened fun v _ _ hv =>
    ⟨hv.steady, hv.handle, hv.registration⟩) fun _ => seq (S.scanOldest_keeps hG hf) fun found => ?_
  cases found with
  | none => exact pre (hend none) fun v _ hv => ⟨hv.base, nofun⟩
  | some first =>
    refine seq (S.rescan_keeps hG hf _ first) fun best => seq ?_ hend
    obtain ⟨q, j⟩ := best
    -- whatever is validated has the candidate's sequence
    refine pre (given (φ := seqNewer q (seqWord k.last) = true) fun hq =>
      post (readValidated_keeps hG hf (φ := False)) fun r v _ hv => ⟨hv.1, fun m hm => ?_⟩)
      fun v _ hv => ⟨(hv.good q j rfl).2, ⟨hv.base, (hv.good q j rfl).1⟩, fun h => h.elim⟩
    obtain ⟨-, hseq, hval⟩ := hv.2.2 m hm
    exact ⟨hval, hseq ▸ hq⟩

/-- A publication that was validated and is new may be taken, if the mode lets it. -/
theorem Takeable.deliverable {m : TensorMeta L.slotCount} {v : View P L.slotCount}
    (h : Takeable c con k m v) (htake : M.guards.take v.proto c m) : Deliverable M c con k m v :=
  ⟨h.1.opened, fun _ => { good := h.1.good, reader := h.1.pinned.2, newer := h.2, take := htake }⟩

theorem Deliverable.takeable {m : TensorMeta L.slotCount} {v : View P L.slotCount}
    (hG : ¬M.guards.careless) (h : Deliverable M c con k m v) : Takeable c con k m v :=
  have hg := h.grants hG
  ⟨⟨h.opened, ⟨hg.good.committed, hg.reader⟩, hg.good⟩, hg.newer⟩

theorem delivers_plain (hG : ¬M.guards.careless) (htake : ∀ p c m, M.guards.take p c m)
    (hanswer : ∀ p c r, M.guards.answer p c r)
    (hloose : ∀ v c k m, M.Inv L.slotCapacity v → v.proto.alive (.consumer c) →
      v.proto.client c k → m ∈ v.proto.leases c →
        ¬(seqWord (v.proto.hist.num m.slotIndex) = m.sequence ∧
          k.index ∈ v.proto.mask m.slotIndex) → M.guards.loose k) :
    Delivers M where
  keeps hf v v' h hv :=
    (keeps_takeable hG hf _ v v' h (hv.takeable hG)).deliverable (htake _ _ _)
  tryTake hf := post (tryTake_plain hG hf fun _ _ _ => hanswer _ _ _) fun r v _ hv => by
    cases r with
    | none => exact hv.1
    | some m => exact (hv.2 m rfl).deliverable (htake _ _ _)
  loose := hloose

/-! ## deliveries without care -/

theorem scanOldest_careless : Keeping M (.consumer c) (Consumer.scanOldest c con) (Opened c con k)
    fun _ => Opened c con k := by
  refine seq (glance keeps_opened) fun last =>
    fold (fun _ _ _ => Opened c con k) (fun _ i _ best => ?_) _ _
  refine seq (glance keeps_opened) fun state => ?_
  split
  · exact ret fun _ _ hv => hv
  refine seq (glance keeps_opened) fun mask => ?_
  split
  · exact ret fun _ _ hv => hv
  refine seq (glance keeps_opened) fun q => ?_
  split
  · exact ret fun _ _ hv => hv
  split
  · split <;> exact ret fun _ _ hv => hv
  · exact ret fun _ _ hv => hv

theorem rescan_careless (fuel : Nat) (best : UInt64 × Fin L.slotCount) :
    Keeping M (.consumer c) (Consumer.rescan c con fuel best) (Opened c con k)
      fun _ => Opened c con k := by
  induction fuel generalizing best with
  | zero => exact ret fun _ _ hv => hv
  | succ fuel ih =>
    refine seq scanOldest_careless fun found => ?_
    split
    · split
      · exact ih _
      · exact ret fun _ _ hv => hv
    · exact ret fun _ _ hv => hv

theorem readValidated_careless (hG : M.guards.careless) (hf : Fits con k) (slot : Fin L.slotCount)
    (expected : UInt64) :
    Keeping M (.consumer c) (Consumer.readValidated L.slotCapacity c con slot expected)
      (Opened c con k) fun _ => Opened c con k := by
  have hnone : Keeping M (.consumer c) (pure none) (Opened c con k)
      fun (_ : Option (TensorMeta L.slotCount)) => Opened c con k := ret fun _ _ hv => hv
  refine seq (glance keeps_opened) fun state => ?_
  split
  · exact hnone
  refine seq (glance keeps_opened) fun q => ?_
  split
  · exact hnone
  refine seq (glance keeps_opened) fun ndim => seq (glance keeps_opened) fun dtypeCode =>
    seq (glance keeps_opened) fun nbytes => seq (glance keeps_opened) fun timestampNs => ?_
  refine seq (fold (fun _ _ _ => Opened c con k) (fun _ d _ dims => seq (glance keeps_opened)
    fun extent => seq (glance keeps_opened) fun stride => ret fun _ _ hv => hv) _ _) fun dims => ?_
  refine seq (glance keeps_opened) fun mask => seq (glance keeps_opened) fun state' => ?_
  split
  · exact hnone
  refine seq (glance keeps_opened) fun q' => ?_
  split
  · exact hnone
  split
  · exact hnone
  refine seq (glance keeps_opened) fun again => ?_
  split
  · exact hnone
  split
  · exact hnone
  split
  · exact hnone
  refine seq (put (fun v => { v with proto := { v.proto with
      hist := v.proto.hist.validate c _ (v.proto.payload slot) } }) (fun _ _ => rfl) keeps_opened
    fun v hi hl hs => ⟨⟨hl, .validate c _ k _ (hs.client hf) fun h => absurd hG h,
      { hi.coupled with }, {}⟩, fun _ => ⟨hs.steady, hs.handle, hs.registration⟩⟩)
    fun _ => ret fun _ _ hv => hv

theorem tryTake_careless (hG : M.guards.careless) (hf : Fits con k)
    (hanswer : ∀ p c r, M.guards.answer p c r) :
    Keeping M (.consumer c) (Consumer.tryTake L.slotCapacity c con) (Opened c con k)
      fun _ => Opened c con k := by
  have hend : ∀ r : Option (TensorMeta L.slotCount), Keeping M (.consumer c)
      (do Prog.record fun _ g => g.endTry c r; return r) (Opened c con k)
      fun _ => Opened c con k := fun r =>
    seq (endTry_keeps r keeps_opened (fun _ _ _ => hanswer _ _ _)
      fun v hv => ⟨hv.steady, hv.handle, hv.registration⟩) fun _ => ret fun _ _ hv => hv
  refine seq (X := fun _ => Opened c con k) (beginTry_keeps keeps_opened fun v _ _ hv =>
    ⟨hv.steady, hv.handle, hv.registration⟩) fun _ => seq scanOldest_careless fun found => ?_
  cases found with
  | none => exact hend none
  | some first =>
    exact seq (rescan_careless _ first) fun best => seq (readValidated_careless hG hf _ _) hend

/-- Where sweeps may take back what has been committed, consumers rely on nothing. -/
theorem delivers_careless (hG : M.guards.careless) (hanswer : ∀ p c r, M.guards.answer p c r)
    (hloose : ∀ k, M.guards.loose k) : Delivers M where
  keeps _ v v' h hv := ⟨keeps_opened v v' h hv.opened, fun hn => absurd hG hn⟩
  tryTake hf := post (tryTake_careless hG hf hanswer) fun r v _ hv => by
    cases r with
    | none => exact hv
    | some m => exact ⟨hv, fun hn => absurd hG hn⟩
  loose _ _ k _ _ _ _ _ _ := hloose k

/-! ## any run at all -/

theorem delivers_lax {careless : Prop} (hG : M.guards = .lax L.slotCount careless) :
    Delivers M := by
  by_cases h : careless
  · exact delivers_careless (by rw [hG]; exact h) (by rw [hG]; exact fun _ _ _ => trivial)
      (by rw [hG]; exact fun _ => trivial)
  · exact delivers_plain (by rw [hG]; exact h) (by rw [hG]; exact fun _ _ _ => trivial)
      (by rw [hG]; exact fun _ _ _ => trivial) (by rw [hG]; exact fun _ _ _ _ _ _ _ _ _ => trivial)

/-- The use of the ring that asks for nothing. -/
def plainMode (P : Platform) (n : Nat) : Mode P n where
  guards := .lax n False
  inv _ := True
  ok _ _ := True

theorem plainMode_lawful (P : Platform) (L : RingLayout) (k : UInt64) (start : P.Os → Prop) :
    (plainMode P L.slotCount).Lawful (L := L) k start where
  initial _ _ := trivial
  delivers := delivers_lax rfl
  step _ _ _ _ _ _ _ _ := trivial
  env _ _ _ _ _ := trivial

/-- The same, where sweeps may take back what has been committed. -/
def carelessMode (P : Platform) (n : Nat) : Mode P n where
  guards := .lax n True
  inv _ := True
  ok _ _ := True

theorem carelessMode_lawful (P : Platform) (L : RingLayout) (k : UInt64) (start : P.Os → Prop) :
    (carelessMode P L.slotCount).Lawful (L := L) k start where
  initial _ _ := trivial
  delivers := delivers_lax rfl
  step _ _ _ _ _ _ _ _ := trivial
  env _ _ _ _ _ := trivial

end TenzorBus.Refine
