import TenzorBus.Refine.Registry

/-!
# The consumer refines the protocol

Proof outlines of the operations of `TenzorBus.Ring.Consumer`.

* `Sighting` : what a pass over the slots is expected to see
* `scanOldest_keeps` : a pass returns something that is older than everything it had to see
* `readValidated_keeps` : what is validated is pinned, and what is pinned is validated
* `nextRaw_keeps`, `release_keeps`, `close_keeps` : the operations
-/

namespace TenzorBus.Refine

open Conc

variable {P : Platform} {L : RingLayout} {M : Mode P L.slotCount} {c : Nat} {con : Consumer}
  {k : Registration}

/-! ## handles -/

/-- A handle that has not been closed is in step with its registration. -/
structure Fits (con : Consumer) (k : Registration) : Prop where
  isOpen : con.closed = false
  closing : k.closing = false
  index : con.index = k.index

/-- The handle and the registration of consumer `c` in the middle of its own operation. -/
structure Opened (c : Nat) (con : Consumer) (k : Registration) (v : View P L.slotCount) :
    Prop where
  steady : Steady (.consumer c) v
  handle : v.consumer c = some con
  registration : v.proto.hist.registration c = some k

theorem keeps_opened : Keeps M (.consumer c) (Opened c con k) := fun v v' h hv =>
  ⟨keeps_steady v v' h hv.steady, (h.consumer c rfl).trans hv.handle,
    h.rely.consumer.1.trans hv.registration⟩

theorem Opened.client {v : View P L.slotCount} (h : Opened c con k v) (hf : Fits con k) :
    v.proto.client c k := ⟨h.registration, hf.closing⟩

/-- Whoever starts an operation on a handle that is not closed has a registration that fits. -/
theorem opened_of_handle {v : View P L.slotCount} (hc : Coupled M.guards v)
    (hs : Steady (.consumer c) v) (h : v.consumer c = some con) (ho : con.closed = false) :
    ∃ k, Fits con k ∧ Opened c con k v := by
  obtain ⟨k, hk, hi, hcl⟩ := hc.consumer c con h
  exact ⟨k, ⟨ho, hcl ▸ ho, hi⟩, hs, h, hk⟩

/-- A committed slot that carries the consumer's bit. -/
def Pinned (k : Registration) (j : Fin L.slotCount) (v : View P L.slotCount) : Prop :=
  v.proto.state j = .committed ∧ k.index ∈ v.proto.mask j

theorem keeps_pinned (hG : ¬M.guards.careless) (hf : Fits con k) (j : Fin L.slotCount) {u : Int}
    {h₀ : TensorHeader} :
    Keeps M (.consumer c) fun v => Opened c con k v ∧ Pinned k j v ∧
      v.proto.hist.num j = u ∧ v.proto.header j = h₀ := fun v v' h ⟨ho, hp, hu, hh⟩ => by
  obtain ⟨hun, hb⟩ := h.rely.pinned hG (ho.client hf) hp.1 hp.2
  exact ⟨keeps_opened v v' h ho, ⟨hun.state.trans hp.1, hb⟩, hun.num.trans hu,
    hun.header.trans hh⟩

theorem keeps_addressed (hG : ¬M.guards.careless) (hf : Fits con k) (j : Fin L.slotCount) :
    Keeps M (.consumer c) fun v => Opened c con k v ∧ v.proto.Addressed k.index j :=
  fun v v' h hv => ⟨keeps_opened v v' h hv.1, h.rely.addressed hG (hv.1.client hf) hv.2⟩

theorem heartbeat_keeps {Θ : View P L.slotCount → Prop} (hΘ : Keeps M (.consumer c) Θ) :
    Keeping M (.consumer c) (Consumer.heartbeat con) Θ fun _ => Θ :=
  seq (glance hΘ) fun _ =>
    silent (fun s g => view_entry s g con.index _ (fun _ => rfl) (fun _ => rfl) (fun _ => rfl)
      fun _ => rfl) hΘ

/-! ## a pass over the slots -/

/-- What a pass over the slots knows (`Base`), what it learns from a reader bit (`Mark`) and from a
sequence that is new to the consumer (`Good`), and the slots that it cannot miss (`Due`). -/
structure Sighting (M : Mode P L.slotCount) (c : Nat) (con : Consumer) (k : Registration) where
  Base : View P L.slotCount → Prop
  Mark : Fin L.slotCount → View P L.slotCount → Prop
  Good : UInt64 → Fin L.slotCount → View P L.slotCount → Prop
  Due : Fin L.slotCount → Prop
  Below : UInt64 → Fin L.slotCount → Prop
  opened : ∀ v, Base v → Opened c con k v
  keepsBase : Keeps M (.consumer c) Base
  keepsMark : ∀ j, Keeps M (.consumer c) fun v => Base v ∧ Mark j v
  keepsGood : ∀ q j, Keeps M (.consumer c) fun v => Base v ∧ Good q j v
  mark : ∀ v j, M.Inv L.slotCapacity v → v.proto.alive (.consumer c) → Base v →
    k.index ∈ v.proto.mask j → Mark j v
  good : ∀ v j, M.Inv L.slotCapacity v → v.proto.alive (.consumer c) → Base v → Mark j v →
    seqNewer (seqWord (v.proto.hist.num j)) (seqWord k.last) = true →
      Good (seqWord (v.proto.hist.num j)) j v
  due : ∀ v j, M.Inv L.slotCapacity v → v.proto.alive (.consumer c) → Base v → Due j →
    Pinned k j v ∧ seqNewer (seqWord (v.proto.hist.num j)) (seqWord k.last) = true ∧
      Below (seqWord (v.proto.hist.num j)) j
  older : ∀ v b i e i' j, M.Inv L.slotCapacity v → Base v → Good b i v → Good e i' v →
    seqNewer b e = true → Below b j → Below e j
  newer : ∀ v b i e i' j, M.Inv L.slotCapacity v → Base v → Good b i v → Good e i' v →
    seqNewer b e = false → Below e j → Below b j

namespace Sighting

variable (S : Sighting M c con k)

/-- The best candidate after the slots `done`. -/
structure Best (done : List (Fin L.slotCount)) (best : Option (UInt64 × Fin L.slotCount))
    (v : View P L.slotCount) : Prop where
  base : S.Base v
  good : ∀ q j, best = some (q, j) → S.Good q j v
  due : ∀ j ∈ done, S.Due j → ∃ q i, best = some (q, i) ∧ S.Below q j

theorem keeps_best (done : List (Fin L.slotCount)) (best : Option (UInt64 × Fin L.slotCount)) :
    Keeps M (.consumer c) (S.Best done best) := fun v v' h hv =>
  ⟨S.keepsBase v v' h hv.base, fun q j hj => (S.keepsGood q j v v' h ⟨hv.base, hv.good q j hj⟩).2,
    hv.due⟩

/-- A slot that does not count. -/
theorem Best.skip {done : List (Fin L.slotCount)} {best : Option (UInt64 × Fin L.slotCount)}
    {v : View P L.slotCount} {i : Fin L.slotCount} (h : S.Best done best v) (hi : ¬S.Due i) :
    S.Best (done ++ [i]) best v :=
  { h with
    due := fun j hj hd => by
      rcases List.mem_append.mp hj with hj | hj
      · exact h.due j hj hd
      · rw [List.mem_singleton.mp hj] at hd
        exact absurd hd hi }

theorem scanSlot_keeps (hf : Fits con k) (done : List (Fin L.slotCount))
    (best : Option (UInt64 × Fin L.slotCount)) (i : Fin L.slotCount) :
    Keeping M (.consumer c) (Consumer.scanSlot con (seqWord k.last) best i) (S.Best done best)
      (S.Best (done ++ [i])) := by
  refine seq (X := fun st v => S.Best done best v ∧ (S.Due i → st = SlotState.committed)) ?_
    fun st => ?_
  · exact look (fun v => v.proto.state i) (fun _ _ => rfl)
      (fun st => (S.keeps_best done best).and (Keeps.const _))
      fun v hi hl hs => ⟨hs, fun hd => (S.due v i hi hl hs.base hd).1.1⟩
  split
  · next hst => exact ret fun v _ hv => hv.1.skip S fun hd => hst (hv.2 hd)
  refine pre (Φ := S.Best done best) ?_ fun v _ hv => hv.1
  refine seq (X := fun (m : UInt64) v => S.Best done best v ∧
    (S.Due i → m &&& bit con.index ≠ 0) ∧ (m &&& bit con.index ≠ 0 → S.Mark i v)) ?_ fun m => ?_
  · refine watch (fun m v v' h hv => ⟨S.keeps_best done best v v' h hv.1, hv.2.1, fun hm =>
      (S.keepsMark i v v' h ⟨hv.1.base, hv.2.2 hm⟩).2⟩) fun s g hi hl hs => ⟨hs, fun hd => ?_,
        fun hm => S.mark _ i hi hl hs.base ?_⟩
    · rw [Ne, and_bit_eq_zero, not_not, hf.index]
      exact (S.due _ i hi hl hs.base hd).1.2
    · rw [Ne, and_bit_eq_zero, not_not, hf.index] at hm
      exact hm
  split
  · next hm => exact ret fun v _ hv => hv.1.skip S fun hd => hv.2.1 hd hm
  next hm =>
  refine pre (Φ := fun v => S.Best done best v ∧ S.Mark i v) ?_ fun v _ hv => ⟨hv.1, hv.2.2 hm⟩
  refine seq (X := fun q v => S.Best done best v ∧
    (seqNewer q (seqWord k.last) = true → S.Good q i v) ∧
      (S.Due i → seqNewer q (seqWord k.last) = true ∧ S.Below q i)) ?_ fun q => ?_
  · refine look (fun v => v.sequence i) (fun _ _ => rfl) (fun q v v' h hv =>
      ⟨S.keeps_best done best v v' h hv.1, fun hq =>
        (S.keepsGood q i v v' h ⟨hv.1.base, hv.2.1 hq⟩).2, hv.2.2⟩) fun v hi hl hs => ?_
    rw [hi.coupled.sequence i]
    exact ⟨hs.1, S.good _ i hi hl hs.1.base hs.2, fun hd => (S.due _ i hi hl hs.1.base hd).2⟩
  by_cases hq : seqNewer q (seqWord k.last) = true
  · refine pre (Φ := fun v => S.Best done best v ∧ S.Good q i v ∧ (S.Due i → S.Below q i)) ?_
      fun v _ hv => ⟨hv.1, hv.2.1 hq, fun hd => (hv.2.2 hd).2⟩
    -- the new candidate is better than the one so far
    have hnew : (∀ b i', best = some (b, i') → seqNewer b q = true) →
        Keeping M (.consumer c) (pure (some (q, i)))
          (fun v => S.Best done best v ∧ S.Good q i v ∧ (S.Due i → S.Below q i))
          (S.Best (done ++ [i])) := fun hb => ret fun v hi hv => {
      base := hv.1.base
      good := fun q' j hj => by cases hj; exact hv.2.1
      due := fun j hj hd => by
        refine ⟨q, i, rfl, ?_⟩
        rcases List.mem_append.mp hj with hj | hj
        · obtain ⟨b, i', hbest, hbelow⟩ := hv.1.due j hj hd
          exact S.older v b i' q i j hi hv.1.base (hv.1.good b i' hbest) hv.2.1
            (hb b i' hbest) hbelow
        · rw [List.mem_singleton.mp hj] at hd ⊢
          exact hv.2.2 hd }
    rw [if_neg (by simp [hq])]
    cases best with
    | none => exact hnew nofun
    | some b =>
      obtain ⟨b, i'⟩ := b
      by_cases hb : seqNewer b q = true
      · simp only [hb, ↓reduceIte]
        exact hnew fun b' _ h => by cases h; exact hb
      · simp only [hb]
        refine ret fun v hi hv => { hv.1 with due := fun j hj hd => ?_ }
        rcases List.mem_append.mp hj with hj | hj
        · exact hv.1.due j hj hd
        · rw [List.mem_singleton.mp hj] at hd ⊢
          exact ⟨b, i', rfl, S.newer v b i' q i i hi hv.1.base (hv.1.good b i' rfl) hv.2.1
            (by simpa using hb) (hv.2.2 hd)⟩
  · rw [if_pos (by simp [hq])]
    exact ret fun v _ hv => hv.1.skip S fun hd => hq (hv.2.2 hd).1

/-- A pass finds everything that is due. -/
theorem scanOldest_keeps (hG : ¬M.guards.careless) (hf : Fits con k) :
    Keeping M (.consumer c) (Consumer.scanOldest c con) S.Base fun found v =>
      S.Best (List.finRange L.slotCount) found v := by
  refine seq (X := fun last v => last = seqWord k.last ∧ S.Base v) ?_ fun last => ?_
  · refine look (fun v => (v.consumer c).elim 0 (·.lastSequence)) (fun _ _ => rfl)
      (fun _ => (Keeps.const _).and S.keepsBase) fun v hi _ hs => ⟨?_, hs⟩
    have ho := S.opened v hs
    rw [ho.handle]
    exact hi.coupled.last hG c con k ho.handle ho.registration
  refine given fun hlast => ?_
  subst hlast
  exact pre (fold (fun done _ => S.Best done) (fun done i _ best => S.scanSlot_keeps hf done best i)
    _ _) fun v _ hv => ⟨hv, nofun, by simp⟩

/-- The same pass, knowing something else besides. -/
def also (F : View P L.slotCount → Prop) (hF : Keeps M (.consumer c) fun v => S.Base v ∧ F v) :
    Sighting M c con k where
  Base v := S.Base v ∧ F v
  Mark := S.Mark
  Good := S.Good
  Due := S.Due
  Below := S.Below
  opened v h := S.opened v h.1
  keepsBase := hF
  keepsMark j v v' h hv := ⟨hF v v' h hv.1, (S.keepsMark j v v' h ⟨hv.1.1, hv.2⟩).2⟩
  keepsGood q j v v' h hv := ⟨hF v v' h hv.1, (S.keepsGood q j v v' h ⟨hv.1.1, hv.2⟩).2⟩
  mark v j hi hl hb := S.mark v j hi hl hb.1
  good v j hi hl hb := S.good v j hi hl hb.1
  due v j hi hl hb := S.due v j hi hl hb.1
  older v b i e i' j hi hb := S.older v b i e i' j hi hb.1
  newer v b i e i' j hi hb := S.newer v b i e i' j hi hb.1

/-- Any number of further passes leaves a candidate that is as good. -/
theorem rescan_keeps (hG : ¬M.guards.careless) (hf : Fits con k) (fuel : Nat)
    (best : UInt64 × Fin L.slotCount) :
    Keeping M (.consumer c) (Consumer.rescan c con fuel best)
      (S.Best (List.finRange L.slotCount) (some best)) fun r =>
        S.Best (List.finRange L.slotCount) (some r) := by
  induction fuel generalizing best with
  | zero => exact ret fun _ _ hv => hv
  | succ fuel ih =>
    let S' := S.also (S.Best (List.finRange L.slotCount) (some best)) fun v v' h hv =>
      ⟨S.keepsBase v v' h hv.1, S.keeps_best _ _ v v' h hv.2⟩
    refine pre (Φ := S'.Base) (seq (S'.scanOldest_keeps hG hf) fun found => ?_)
      fun v _ hv => ⟨hv.base, hv⟩
    cases found with
    | none => exact ret fun v _ hv => hv.base.2
    | some next =>
      dsimp only
      split
      · exact pre (ih next) fun v _ hv => ⟨hv.base.1, hv.good, hv.due⟩
      · exact ret fun v _ hv => hv.base.2

end Sighting

/-! ## the validated read -/

/-- A publication that the consumer has read and may take. -/
structure Validated (c : Nat) (con : Consumer) (k : Registration) (m : TensorMeta L.slotCount)
    (v : View P L.slotCount) : Prop where
  opened : Opened c con k v
  pinned : Pinned k m.slotIndex v
  good : v.proto.Matches m

theorem keeps_validated (hG : ¬M.guards.careless) (hf : Fits con k) (m : TensorMeta L.slotCount) :
    Keeps M (.consumer c) (Validated c con k m) := fun v v' h hv => by
  obtain ⟨hun, hb⟩ := h.rely.pinned hG (hv.opened.client hf) hv.pinned.1 hv.pinned.2
  have hc := hun.state.trans hv.pinned.1
  exact ⟨keeps_opened v v' h hv.opened, ⟨hc, hb⟩, hc,
    hv.good.sequence.trans (by rw [hun.num]), by rw [hun.header]; exact hv.good.header⟩

section

variable {slot : Fin L.slotCount} {expected : UInt64} {u : Int} {h₀ : TensorHeader}

/-- In the middle of a validated read that has found the slot committed. -/
abbrev Reading (c : Nat) (con : Consumer) (k : Registration) (slot : Fin L.slotCount) (u : Int)
    (h₀ : TensorHeader) (v : View P L.slotCount) : Prop :=
  Opened c con k v ∧ Pinned k slot v ∧ v.proto.hist.num slot = u ∧ v.proto.header slot = h₀

/-- A load of which the slot's pin tells the result. -/
theorem read_keeps {β : Type} (hG : ¬M.guards.careless) (hf : Fits con k)
    {f : State P L.slotCount → β} (x : β)
    (h : ∀ s g, M.Inv L.slotCapacity (view (s, g)) → Reading c con k slot u h₀ (view (s, g)) →
      f s = x) :
    Keeping M (.consumer c) (Prog.read f) (Reading c con k slot u h₀)
      fun b v => b = x ∧ Reading c con k slot u h₀ v :=
  watch (fun _ => (Keeps.const _).and (keeps_pinned hG hf slot)) fun s g hi _ hs =>
    ⟨h s g hi hs, hs⟩

theorem readDims_keeps (hG : ¬M.guards.careless) (hf : Fits con k) :
    Keeping M (.consumer c)
      ((List.finRange maxNdim).foldlM (Consumer.readDim slot) (fun _ => 0, fun _ => 0))
      (Reading c con k slot u h₀)
      fun dims v => dims = (h₀.shape, h₀.strides) ∧ Reading c con k slot u h₀ v := by
  refine pre (post (fold (fun done _ dims v =>
    (∀ d ∈ done, dims.1 d = h₀.shape d ∧ dims.2 d = h₀.strides d) ∧
      Reading c con k slot u h₀ v) (fun done d _ dims => given fun hd => ?_) _ _)
    fun dims v _ hv => ⟨Prod.ext (funext fun d => (hv.1 d (List.mem_finRange d)).1)
      (funext fun d => (hv.1 d (List.mem_finRange d)).2), hv.2⟩) fun v _ hv => ⟨by simp, hv⟩
  refine seq (read_keeps hG hf (h₀.shape d) fun s g _ hs => by rw [← hs.2.2.2]; rfl) fun extent =>
    given fun he => seq (read_keeps hG hf (h₀.strides d) fun s g _ hs => by rw [← hs.2.2.2]; rfl)
      fun stride => given fun hs => ret fun v _ hv => ⟨fun d' hd' => ?_, hv⟩
  by_cases h : d' = d
  · subst h; simp [he, hs]
  · simpa [h] using hd d' (by simpa [h] using hd')

/-- What is validated is pinned, and what is pinned (`φ`) is validated. -/
theorem readValidated_keeps (hG : ¬M.guards.careless) (hf : Fits con k) {φ : Prop} :
    Keeping M (.consumer c) (Consumer.readValidated L.slotCapacity c con slot expected)
      (fun v => (Opened c con k v ∧ v.proto.Addressed k.index slot) ∧
        (φ → v.proto.state slot = .committed ∧ seqWord (v.proto.hist.num slot) = expected))
      fun r v => Opened c con k v ∧ (r = none → ¬φ) ∧ ∀ m, r = some m →
        m.slotIndex = slot ∧ m.sequence = expected ∧ Validated c con k m v := by
  have hout : ¬φ → Keeping M (.consumer c) (pure none) (Opened c con k)
      fun (r : Option (TensorMeta L.slotCount)) v => Opened c con k v ∧ (r = none → ¬φ) ∧
        ∀ m, r = some m → m.slotIndex = slot ∧ m.sequence = expected ∧ Validated c con k m v :=
    fun hφ => ret fun v _ hv => ⟨hv, fun _ => hφ, nofun⟩
  -- once the slot is seen committed it is pinned, and everything else is decided
  refine seq (X := fun st v => Opened c con k v ∧ (st ≠ SlotState.committed → ¬φ) ∧
    (st = SlotState.committed → ∃ u h₀, (φ → seqWord u = expected) ∧
      Reading c con k slot u h₀ v)) ?_ fun st => ?_
  · refine look (fun v => v.proto.state slot) (fun _ _ => rfl) (fun st v v' h hv =>
      ⟨keeps_opened v v' h hv.1, hv.2.1, fun hst => ?_⟩) fun v _ _ hs =>
        ⟨hs.1.1, fun hst hφ => hst (hs.2 hφ).1, fun hst =>
          ⟨_, _, fun hφ => (hs.2 hφ).2, hs.1.1, ⟨hst, hs.1.2.1 hst⟩, rfl, rfl⟩⟩
    obtain ⟨u, h₀, hφ, hr⟩ := hv.2.2 hst
    exact ⟨u, h₀, hφ, keeps_pinned hG hf slot v v' h hr⟩
  split
  · next hst => exact pre (given hout) fun v _ hv => ⟨hv.2.1 hst, hv.1⟩
  next hst =>
  refine pre (name fun u => name fun h₀ => given fun hφ => ?_)
    fun v _ hv => hv.2.2 (not_not.mp hst)
  refine seq (read_keeps hG hf (seqWord u) fun s g hi hs => by
    rw [← hs.2.2.1]; exact hi.coupled.sequence slot) fun q => given fun hq => ?_
  split
  · next hne => exact pre (hout fun h => hne (hq.trans (hφ h))) fun v _ hv => hv.1
  next heq =>
  have heq : seqWord u = expected := hq.symm.trans (not_not.mp heq)
  refine seq (read_keeps hG hf h₀.ndim fun s g _ hs => by rw [← hs.2.2.2]; rfl) fun ndim =>
    given fun hnd => seq (read_keeps hG hf h₀.dtype fun s g _ hs => by rw [← hs.2.2.2]; rfl)
      fun dtypeCode => given fun hdt => ?_
  refine seq (read_keeps hG hf h₀.nbytes fun s g _ hs => by rw [← hs.2.2.2]; rfl) fun nbytes =>
    given fun hnb => seq (read_keeps hG hf h₀.timestampNs fun s g _ hs => by rw [← hs.2.2.2]; rfl)
      fun timestampNs => given fun hts => seq (readDims_keeps hG hf) fun dims =>
        given fun hdims => ?_
  -- the bit is there at every load of the mask
  have hmask : Keeping M (.consumer c) (loadSlot slot (·.readersMask))
      (Reading c con k slot u h₀) fun (m : UInt64) v =>
        m &&& bit con.index ≠ 0 ∧ Reading c con k slot u h₀ v :=
    watch (fun _ => (Keeps.const _).and (keeps_pinned hG hf slot)) fun s g _ _ hs =>
      ⟨by rw [Ne, and_bit_eq_zero, not_not, hf.index]; exact hs.2.1.2, hs⟩
  refine seq hmask fun mask => given fun hm => ?_
  refine seq (read_keeps hG hf SlotState.committed fun s g _ hs => hs.2.1.1) fun st' =>
    given fun hst' => ?_
  rw [if_neg (not_not.mpr hst')]
  refine seq (read_keeps hG hf (seqWord u) fun s g hi hs => by
    rw [← hs.2.2.1]; exact hi.coupled.sequence slot) fun q' => given fun hq' => ?_
  rw [if_neg (not_not.mpr (hq'.trans heq)), if_neg hm]
  refine seq hmask fun again => given fun hagain => ?_
  rw [if_neg hagain]
  refine pre (Φ := fun v => h₀.Valid L.slotCapacity ∧ Reading c con k slot u h₀ v)
    (given fun hvalid => ?_) fun v hi hv =>
      ⟨by rw [← hv.2.2.2]; exact hi.proto.valid slot hv.2.1.1, hv⟩
  rw [if_neg (by
    have := hvalid.ndim
    have := hvalid.nbytes
    simp only [hnd, hnb, Bool.or_eq_true, decide_eq_true_eq]
    omega)]
  obtain ⟨dtype, hdtype⟩ := Option.isSome_iff_exists.mp hvalid.dtype
  rw [hdt, hdtype]
  dsimp only
  generalize hm₀ : TensorMeta.mk expected timestampNs nbytes.toNat dtype ndim.toNat dims.1 dims.2
    slot (countOnes mask) = m
  have hslot : m.slotIndex = slot := hm₀ ▸ rfl
  have hseq : m.sequence = expected := hm₀ ▸ rfl
  have hdesc : m.Describes h₀ := by
    subst hm₀
    exact ⟨hts, by rw [hnb], hdtype, by rw [hnd], by rw [hdims], by rw [hdims]⟩
  refine seq (X := fun _ => Validated c con k m) (put (fun v => { v with
      proto := { v.proto with hist := v.proto.hist.validate c m (v.proto.payload slot) } })
      (fun _ _ => rfl) (keeps_validated hG hf m) fun v hi hl ⟨ho, hp, hu, hh⟩ => ?_) fun _ =>
    ret fun v _ hv => ⟨hv.opened, nofun, fun m' hm' => by cases hm'; exact ⟨hslot, hseq, hv⟩⟩
  subst hslot
  have hgood : v.proto.Matches m := ⟨hp.1, hseq.trans (by rw [hu, heq]), by rw [hh]; exact hdesc⟩
  exact ⟨⟨hl, .validate c _ k m (ho.client hf) fun _ => ⟨hgood, hp.2⟩, { hi.coupled with },
    {}⟩, fun _ => ⟨⟨ho.steady, ho.handle, ho.registration⟩, hp,
      hgood.committed, hgood.sequence, hgood.header⟩⟩

end

/-! ## deliveries -/

/-- A publication that the guards of the mode let the consumer take. -/
structure Deliverable (M : Mode P L.slotCount) (c : Nat) (con : Consumer) (k : Registration)
    (m : TensorMeta L.slotCount) (v : View P L.slotCount) : Prop where
  opened : Opened c con k v
  grants : ¬M.guards.careless → v.proto.Grants M.guards c k m

/-- What a use of the ring has to show about its deliveries: `try_take` answers with what may be
taken, and a lease that is found violated is one that the guards admit. -/
structure Delivers (M : Mode P L.slotCount) : Prop where
  keeps : ∀ {c con k m}, Fits con k → Keeps M (.consumer c) (Deliverable M c con k m)
  tryTake : ∀ {c con k}, Fits con k →
    Keeping M (.consumer c) (Consumer.tryTake L.slotCapacity c con) (Opened c con k) fun r v =>
      match r with
      | none => Opened c con k v
      | some m => Deliverable M c con k m v
  loose : ∀ v c k m, M.Inv L.slotCapacity v → v.proto.alive (.consumer c) → v.proto.client c k →
    m ∈ v.proto.leases c → ¬(seqWord (v.proto.hist.num m.slotIndex) = m.sequence ∧
      k.index ∈ v.proto.mask m.slotIndex) → M.guards.loose k

/-- The consumer has a handle. -/
def Handled (c : Nat) (v : View P L.slotCount) : Prop := ∃ h, v.consumer c = some h

theorem keeps_handled : Keeps M (.consumer c) (Handled c) := Keeps.exists fun _ => keeps_handle

theorem Handled.rest {v : View P L.slotCount} (h : Handled c v) (hs : Steady (.consumer c) v) :
    rest (.consumer c) v := by
  obtain ⟨x, hx⟩ := h
  exact ⟨hs, fun hn => by rw [hx] at hn; cases hn⟩

/-- Between two operations on a handle. -/
abbrev Done (c : Nat) (v : View P L.slotCount) : Prop := Handled c v ∧ Steady (.consumer c) v

theorem keeps_done : Keeps M (.consumer c) (Done c) := keeps_handled.and keeps_steady

theorem take_keeps (hf : Fits con k) (m : TensorMeta L.slotCount) :
    Keeping M (.consumer c) (Consumer.take c m) (Deliverable M c con k m) fun _ => Done c := by
  refine put (fun v => { v with
      proto := { v.proto with
        leases := Function.update v.proto.leases c (m :: v.proto.leases c)
        hist := v.proto.hist.hand c m }
      consumer := Function.update v.consumer c
        ((v.consumer c).map fun h => { h with lastSequence := m.sequence }) }) (fun _ _ => rfl)
    keeps_done fun v hi hl hs => ?_
  have hk := hs.opened.registration
  have hh := hs.opened.handle
  refine ⟨⟨hl, .take c _ k m (hs.opened.client hf) hs.grants, ?_, {
    consumer := fun c' hc' => by
      have : c' ≠ c := fun e => hc' (by rw [e])
      simp [this] }⟩, fun _ => ⟨⟨{ con with lastSequence := m.sequence }, by simp [hh]⟩,
        hs.opened.steady⟩⟩
  exact { hi.coupled with
    consumer := fun c' h hc' => by
      by_cases he : c' = c
      · subst he
        simp only [Function.update_self, hh, Option.map_some, Option.some.injEq] at hc'
        subst hc'
        exact ⟨{ k with last := v.proto.hist.num m.slotIndex }, by simp [Ghost.hand, hk],
          hf.index, by simp [hf.isOpen, hf.closing]⟩
      · simpa [Ghost.hand, he] using hi.coupled.consumer c' h (by simpa [he] using hc')
    last := fun hG c' h k' hc' hk' => by
      by_cases he : c' = c
      · subst he
        simp only [Function.update_self, hh, Option.map_some, Option.some.injEq] at hc'
        simp only [Ghost.hand, Function.update_self, hk, Option.map_some, Option.some.injEq] at hk'
        subst hc' hk'
        exact (hs.grants hG).good.sequence
      · exact hi.coupled.last hG c' h k' (by simpa [he] using hc')
          (by simpa [Ghost.hand, he] using hk') }

theorem nextRaw_keeps (hM : Delivers M) (hf : Fits con k) (timeout : Nat) :
    Keeping M (.consumer c) (void (Consumer.nextRaw L.slotCapacity c con timeout))
      (Opened c con k) fun _ => rest (.consumer c) := by
  refine seq (seq (glance keeps_opened) fun start =>
    loop keeps_opened (fun _ => keeps_done) ?_) fun _ => ret fun _ _ hv => hv.1.rest hv.2
  refine seq (glance keeps_opened) fun observed => seq (hM.tryTake hf) fun taken => ?_
  cases taken with
  | none =>
    refine seq (glance keeps_opened) fun time => ?_
    split
    · exact ret fun v _ hv => ⟨⟨con, hv.handle⟩, hv.steady⟩
    · exact seq (futexWait_keeps _ _ keeps_opened) fun _ => ret fun _ _ hv => hv
  | some m =>
    exact seq (take_keeps hf m) fun _ =>
      seq (silent (fun s g => view_entry s g con.index _ (fun _ => rfl) (fun _ => rfl)
        (fun _ => rfl) fun _ => rfl) keeps_done) fun _ => seq (heartbeat_keeps keeps_done) fun _ =>
          ret fun _ _ hv => hv

/-! ## release and close -/

/-- The bit of a lease is cleared, if it is there. -/
theorem clear_keeps (hM : Delivers M) (hf : Fits con k) (m : TensorMeta L.slotCount) :
    Keeping M (.consumer c)
      (fetchAndMask m.slotIndex (bit con.index) (Consumer.dropLease c m) fun previous g =>
        if previous &&& bit con.index = 0 then g.violate c else g.change (.consumer c) m.slotIndex)
      (fun v => Opened c con k v ∧ m ∈ v.proto.leases c)
      fun previous v => if previous &&& bit con.index = 0 then Done c v else
        Changing (.consumer c) m.slotIndex (countOnes (previous &&& ~~~bit con.index)) v ∧
          v.proto.counted (.consumer c) ∧ Handled c v := by
  refine change (fun previous v => { v with proto := { v.proto with
      mask := Function.update v.proto.mask m.slotIndex
        ((v.proto.mask m.slotIndex).erase con.index)
      leases := Function.update v.proto.leases c ((v.proto.leases c).erase m)
      hist := if previous &&& bit con.index = 0 then v.proto.hist.violate c
        else v.proto.hist.change (.consumer c) m.slotIndex } })
    (fun s g b t ht => ?_) (fun b => ?_) fun s g b t ht hi hl hs => ?_
  · cases Option.some.inj ht
    have hview := view_mask s g m.slotIndex fun t => t.readersMask &&& ~~~bit con.index
    rw [readers_clear] at hview
    exact congrArg (fun v : View P L.slotCount => { v with proto := { v.proto with
      leases := Function.update s.leases c ((s.leases c).erase m)
      hist := if (s.ring.slots m.slotIndex).readersMask &&& bit con.index = 0 then g.violate c
        else g.change (.consumer c) m.slotIndex } }) hview
  · split
    · exact keeps_done
    · exact keeps_changing.and (keeps_counted.and keeps_handled)
  cases Option.some.inj ht
  have hbit : (s.ring.slots m.slotIndex).readersMask &&& bit con.index = 0 ↔
      k.index ∉ (view (s, g)).proto.mask m.slotIndex := by rw [and_bit_eq_zero, hf.index]; rfl
  have hopen := hs.1.client hf
  by_cases hb : (s.ring.slots m.slotIndex).readersMask &&& bit con.index = 0
  · simp only [if_pos hb]
    have hno := hbit.mp hb
    have hsame : Function.update (view (s, g)).proto.mask m.slotIndex
        (((view (s, g)).proto.mask m.slotIndex).erase con.index) = (view (s, g)).proto.mask := by
      rw [hf.index, Finset.erase_eq_of_notMem hno, Function.update_eq_self]
    rw [hsame]
    exact ⟨⟨hl, .dropLease c _ k m hopen hs.2
      (hM.loose _ c k m hi hl hopen hs.2 fun h => hno h.2), { hi.coupled with }, {}⟩,
        fun _ _ => ⟨⟨con, hs.1.handle⟩, hs.1.steady⟩⟩
  · simp only [if_neg hb]
    have hyes : k.index ∈ (view (s, g)).proto.mask m.slotIndex :=
      not_not.mp fun h => hb (hbit.mpr h)
    refine ⟨⟨hl, ?_, { hi.coupled with },
      { readers := fun _ => .inl ⟨rfl, fun _ => by simp [Ghost.change]⟩ }⟩, fun _ _ =>
        ⟨⟨by simp [Ghost.change], fun _ => ?_⟩, hs.1.steady.1, con, hs.1.handle⟩⟩
    · rw [hf.index]
      exact .release c _ k m hopen hs.2 hyes hs.1.steady.2
    · rw [countOnes_eq, readers_clear]; simp; rfl

theorem release_keeps (hM : Delivers M) (hf : Fits con k) (m : TensorMeta L.slotCount) :
    Keeping M (.consumer c) (void (Consumer.release c con m))
      (fun v => Opened c con k v ∧ m ∈ v.proto.leases c) fun _ => rest (.consumer c) := by
  have hheld : Keeps M (.consumer c) fun v => Opened c con k v ∧ m ∈ v.proto.leases c :=
    fun v v' h hv => ⟨keeps_opened v v' h hv.1, by rw [h.rely.consumer.2.1]; exact hv.2⟩
  refine seq (X := fun _ => Done c) ?_ fun _ => ret fun _ _ hv => hv.1.rest hv.2
  refine seq (X := fun q v => (q ≠ m.sequence → M.guards.loose k) ∧
    Opened c con k v ∧ m ∈ v.proto.leases c) ?_ fun q => given fun hq => ?_
  · refine look (fun v => v.sequence m.slotIndex) (fun _ _ => rfl)
      (fun _ => (Keeps.const _).and hheld) fun v hi hl hs => ⟨fun hne => ?_, hs⟩
    exact hM.loose v c k m hi hl (hs.1.client hf) hs.2 fun h => hne
      ((hi.coupled.sequence _).trans h.1)
  split
  · next hne =>
    refine seq (put (fun v => { v with proto := { v.proto with
        leases := Function.update v.proto.leases c ((v.proto.leases c).erase m)
        hist := v.proto.hist.violate c } })
      (fun _ _ => rfl) keeps_done fun v hi hl hs => ⟨⟨hl, .dropLease c _ k m (hs.1.client hf) hs.2
        (hq hne), { hi.coupled with }, {}⟩, fun _ => ⟨⟨con, hs.1.handle⟩, hs.1.steady⟩⟩)
      fun _ => ret fun _ _ hv => hv
  refine seq (clear_keeps hM hf m) fun previous => ?_
  by_cases hb : previous &&& bit con.index = 0
  · simp only [if_pos hb]
    exact ret fun _ _ hv => hv
  · simp only [if_neg hb]
    have hkeep : Keeps M (.consumer c) fun v =>
        v.proto.settled (.consumer c) ∧ v.proto.counted (.consumer c) ∧ Handled c v :=
      keeps_settled.and (keeps_counted.and keeps_handled)
    refine seq (storeReaders_keeps (keeps_counted.and keeps_handled) fun _ _ _ _ hv => hv)
      fun _ => seq (heartbeat_keeps hkeep) fun _ => ?_
    split
    · exact seq (signal_keeps _ hkeep) fun _ => ret fun _ _ hv => ⟨hv.2.2, hv.2.1, hv.1⟩
    · exact ret fun _ _ hv => ⟨hv.2.2, hv.2.1, hv.1⟩

theorem close_keeps (hf : Fits con k) :
    Keeping M (.consumer c) (Consumer.close c con) (Opened c con k)
      fun _ => rest (.consumer c) := by
  -- from `closing` on the entry is the consumer's own until it frees it
  have hclosing : Keeps M (.consumer c) fun v => Done c v ∧
      v.proto.hist.registration c = some { k with closing := true } ∧
        v.proto.hist.holder con.index = some c :=
    keeps_done.and (keeps_registration.and keeps_holder)
  refine seq (X := fun closed v => closed = false ∧ Done c v ∧
      v.proto.hist.registration c = some { k with closing := true } ∧
        v.proto.hist.holder con.index = some c) ?_ fun closed => given fun hcl => ?_
  · refine change (fun _ v => { v with
        proto := { v.proto with hist := v.proto.hist.closing c }
        consumer := Function.update v.consumer c
          ((v.consumer c).map fun h => { h with closed := true }) })
      (fun s g b t ht => by cases Option.some.inj ht; rfl)
      (fun _ => (Keeps.const _).and hclosing) fun s g b t ht hi hl hs => ⟨⟨hl, .closing c _, ?_, {
        consumer := fun c' hc' => by
          have : c' ≠ c := fun e => hc' (by rw [e])
          simp [this] }⟩, fun _ _ => ⟨?_, ⟨⟨{ con with closed := true }, by simp [hs.handle]⟩,
            hs.steady⟩, ?_, ?_⟩⟩
    · exact { hi.coupled with
        consumer := fun c' h hc' => by
          by_cases he : c' = c
          · subst he
            simp only [Function.update_self, hs.handle, Option.map_some, Option.some.injEq] at hc'
            subst hc'
            exact ⟨{ k with closing := true }, by simp [Ghost.closing, hs.registration], hf.index,
              rfl⟩
          · simpa [Ghost.closing, he] using hi.coupled.consumer c' h (by simpa [he] using hc')
        last := fun hG c' h k' hc' hk' => by
          by_cases he : c' = c
          · subst he
            simp only [Function.update_self, hs.handle, Option.map_some, Option.some.injEq] at hc'
            simp only [Ghost.closing, Function.update_self, hs.registration, Option.map_some,
              Option.some.injEq] at hk'
            subst hc' hk'
            exact hi.coupled.last hG c' con k hs.handle hs.registration
          · exact hi.coupled.last hG c' h k' (by simpa [he] using hc')
              (by simpa [Ghost.closing, he] using hk') }
    · cases Option.some.inj ht
      have hh : s.consumer c = some con := hs.handle
      rw [hh]
      exact hf.isOpen
    · simp [Ghost.closing, hs.registration]
    · rw [hf.index]
      exact hi.proto.active c k (hs.client hf) hl
  rw [if_neg (by simp [hcl])]
  refine seq (lockRegistry_keeps hclosing fun _ hv => hv) fun _ => ?_
  have hcounted : Keeps M (.consumer c) fun v =>
      v.proto.lock = some (.consumer c) ∧ v.proto.counted (.consumer c) ∧ Handled c v :=
    keeps_lock.and (keeps_counted.and keeps_handled)
  refine pre (Φ := fun v => v.proto.settled (.consumer c) ∧
    Parting (fun v => v.proto.counted (.consumer c) ∧ Handled c v) (.consumer c) c con.index v) ?_
    fun v _ hv => ⟨hv.2.1.2.2, hv.1, hv.2.2.2, .inl ⟨rfl, _, hv.2.2.1, rfl⟩, hv.2.1.2.1, hv.2.1.1⟩
  refine seq (dropConsumerBit_keeps hcounted fun _ _ _ _ _ hv => hv) fun freed => ?_
  have hgone : Keeps M (.consumer c) fun v => v.proto.settled (.consumer c) ∧
      Parting (fun v => v.proto.counted (.consumer c) ∧ Handled c v) (.consumer c) c con.index v ∧
        ∀ j, con.index ∉ v.proto.mask j := fun v v' h hv =>
    ⟨keeps_settled v v' h hv.1, keeps_parting hcounted c con.index v v' h hv.2.1,
      fun j hj => hv.2.2 j ((h.rely.locked hv.2.1.1).mask j hj)⟩
  have hsettled : Keeps M (.consumer c) fun v =>
      v.proto.lock = some (.consumer c) ∧ v.proto.settled (.consumer c) ∧ Handled c v :=
    keeps_lock.and (keeps_settled.and keeps_handled)
  have hfree : Keeping M (.consumer c) (do
      Ring.freeEntry (.consumer c) con.index
      store fun r => { r with registryEpoch := r.registryEpoch + 1 }
      unlockRegistry : RingM P L.slotCount Unit)
      (fun v => v.proto.settled (.consumer c) ∧
        Parting (fun v => v.proto.counted (.consumer c) ∧ Handled c v) (.consumer c) c con.index v ∧
          ∀ j, con.index ∉ v.proto.mask j) fun _ => rest (.consumer c) := by
    refine seq (X := fun _ v => v.proto.lock = some (.consumer c) ∧ Done c v)
      (post (pre (freeEntry_keeps (c := c) hsettled (fun _ _ _ h => absurd h (by simp))
        fun _ _ _ _ _ _ hv => hv) fun v _ hv => ?_)
        fun _ v _ hv => ⟨hv.1, hv.2.2.2.2, hv.2.1, hv.2.2.2.1⟩)
      fun _ => seq (silent (fun _ _ => rfl) (keeps_lock.and keeps_done)) fun _ =>
        post (unlockRegistry_keeps keeps_done (fun _ hv => hv) (fun _ _ _ _ h => absurd h (by simp))
          fun _ hv => hv.2.1) fun _ _ _ hv => hv.1.rest hv.2
    obtain ⟨hset, ⟨hl, hh, hp, hco, hhan⟩, hm⟩ := hv
    exact ⟨⟨hco, hl, hh, hp, hset, hhan⟩, hm⟩
  split
  · exact seq (signal_keeps _ hgone) fun _ => hfree
  · exact hfree

end TenzorBus.Refine
