import TenzorBus.Refine.Rules

/-!
# The registry refines the protocol

Proof outlines for the parts of the operations of `TenzorBus.Ring.Registry`.

* `lockRegistry_keeps`, `unlockRegistry_keeps` : the lock
* `storeReaders_keeps` : the number of readers that goes with a mask
* `activeMask_keeps` : under the lock the mask is that of the entries that are held
* `dropConsumerBit_keeps`, `freeEntry_keeps` : a registration goes
-/

namespace TenzorBus.Refine

open Conc

variable {P : Platform} {L : RingLayout} {M : Mode P L.slotCount} {a : Actor}
  {Θ : View P L.slotCount → Prop}

/-! ## the lock -/

theorem lockRegistry_keeps (hΘ : Keeps M a Θ)
    (hlock : ∀ v, Θ v → Θ { v with proto := { v.proto with lock := some a } }) :
    Keeping M a (lockRegistry a) Θ fun _ v => v.proto.lock = some a ∧ Θ v := by
  refine change (fun _ v => { v with proto := { v.proto with lock := some a } })
    (fun s g b t ht => ?_) (fun _ => keeps_lock.and hΘ) fun s g b t ht hi hl hs =>
      ⟨⟨hl, ?_, { hi.coupled with }, {}⟩, fun _ _ => ⟨rfl, hlock _ hs⟩⟩
  · obtain ⟨-, ht⟩ := Option.ite_none_right_eq_some.mp ht
    cases ht
    rfl
  · refine .acquire _ _ ?_
    obtain ⟨hfree, -⟩ := Option.ite_none_right_eq_some.mp ht
    unfold State.lockFree at hfree
    split at hfree
    · next h => exact .inl h
    · next b h => exact .inr ⟨b, h, by simpa [view, State.proto, State.aliveActor] using hfree⟩

theorem unlockRegistry_keeps (hΘ : Keeps M a Θ)
    (hunlock : ∀ v, Θ v → Θ { v with proto := { v.proto with lock := none } })
    (done : ∀ v, Θ v → ∀ t r, a = .writer t → v.proto.hist.reservation t = some r →
      r.phase = .inHand) (counted : ∀ v, Θ v → v.proto.counted a) :
    Keeping M a unlockRegistry (fun v => v.proto.lock = some a ∧ Θ v) fun _ => Θ :=
  put (fun v => { v with proto := { v.proto with lock := none } }) (fun _ _ => rfl) hΘ
    fun v hi hl hs => ⟨⟨hl, .unlock _ _ hs.1 (done v hs.2) (counted v hs.2),
      { hi.coupled with }, {}⟩, fun _ => hunlock v hs.2⟩

/-! ## signals and waits -/

theorem signal_keeps (w : FutexWord) (hΘ : Keeps M a Θ) :
    Keeping M a (signal w) Θ fun _ => Θ := by
  refine seq (silent (fun s g => ?_) hΘ) fun _ => silent (fun _ _ => rfl) hΘ
  cases w <;> rfl

theorem futexWait_keeps (w : FutexWord) (expected : UInt32) (hΘ : Keeps M a Θ) :
    Keeping M a (futexWait a w expected) Θ fun _ => Θ := by
  refine seq (silent (fun s g => ?_) hΘ) fun _ => silent (fun _ _ => rfl) hΘ
  split <;> rfl

/-! ## the number of readers -/

/-- Actor `a` has changed the mask of slot `j`; `count` is the number of its readers, unless
somebody else has changed it since. -/
def Changing (a : Actor) (j : Fin L.slotCount) (count : Nat) (v : View P L.slotCount) : Prop :=
  v.proto.hist.changing a = some j ∧
    (v.proto.hist.latest j = some a → count = (v.proto.mask j).card)

theorem keeps_changing {j : Fin L.slotCount} {count : Nat} : Keeps M a (Changing a j count) :=
  fun _ _ h hv => ⟨h.rely.notes.2.trans hv.1, fun hl => by
    obtain ⟨hl, hm⟩ := h.rely.latest hl
    rw [hm]; exact hv.2 hl⟩

theorem keeps_settled : Keeps M a fun v => v.proto.settled a :=
  fun _ _ h hv => h.rely.notes.2.trans hv

theorem keeps_counted : Keeps M a fun v => v.proto.counted a := fun _ _ h hv => h.rely.counted hv

theorem storeReaders_keeps {j : Fin L.slotCount} {count : Nat} (hΘ : Keeps M a Θ)
    (hset : ∀ v r ch la, Θ v → Θ { v with
      readersRemaining := r
      proto := { v.proto with hist := { v.proto.hist with changing := ch, latest := la } } }) :
    Keeping M a (storeReaders a j count) (fun v => Changing a j count v ∧ Θ v)
      fun _ v => v.proto.settled a ∧ Θ v :=
  put (fun v => { v with
      readersRemaining := Function.update v.readersRemaining j (UInt16.ofNat count)
      proto := { v.proto with hist := v.proto.hist.settle a j } })
    (fun s g => view_hist (view_readers s g j _)) (keeps_settled.and hΘ)
    fun v hi hl hs => ⟨⟨hl, .settle _ _ j hs.1.1, { hi.coupled with }, {
      readers := fun i => by
        by_cases hij : i = j
        · subst hij
          exact .inr ⟨hs.1.1, by simp [Ghost.settle], fun hl => by simp [hs.1.2 hl]⟩
        · exact .inl ⟨by simp [hij],
            fun hc => absurd (Option.some.inj (hc.symm.trans hs.1.1)) hij⟩ }⟩,
      fun _ => ⟨by simp [Proto.settled, Ghost.settle], hset v _ _ _ hs.2⟩⟩

/-! ## the active entries -/

theorem activeMask_keeps (hΘ : Keeps M a fun v => v.proto.lock = some a ∧ Θ v) :
    Keeping M a Ring.activeMask (fun v => v.proto.lock = some a ∧ Θ v) fun mask v =>
      (v.proto.lock = some a ∧ Θ v) ∧ ∀ i, i ∈ readers mask ↔ v.proto.hist.holder i ≠ none := by
  -- what has been seen of the entries so far
  have hseen : ∀ (done : List (Fin 64)) (mask : UInt64), Keeps M a fun v =>
      (v.proto.lock = some a ∧ Θ v) ∧
        ∀ i, i ∈ readers mask ↔ i ∈ done ∧ v.proto.hist.holder i ≠ none :=
    fun done mask v v' h hv => ⟨hΘ v v' h hv.1, by
      rw [(h.rely.locked hv.1.1).holder]; exact hv.2⟩
  refine pre (post (fold (fun done _ mask v => (v.proto.lock = some a ∧ Θ v) ∧
      ∀ i, i ∈ readers mask ↔ i ∈ done ∧ v.proto.hist.holder i ≠ none)
      (fun done i rest mask => ?_) (List.finRange 64) 0) fun mask v _ hv => ?_)
      fun v _ hv => ⟨hv, by simp⟩
  · refine seq (X := fun st v => ((v.proto.lock = some a ∧ Θ v) ∧
        ∀ i, i ∈ readers mask ↔ i ∈ done ∧ v.proto.hist.holder i ≠ none) ∧
          (st = RegistryState.active ↔ v.proto.hist.holder i ≠ none)) ?_ fun st => ?_
    · refine look (fun v => v.entryState i) (fun _ _ => rfl) (fun st v v' h hv => ?_)
        fun v hi _ hs => ⟨hs, hi.coupled.entryState i⟩
      exact ⟨hseen done mask v v' h hv.1, by rw [(h.rely.locked hv.1.1.1).holder]; exact hv.2⟩
    · by_cases hst : st = .active
      · rw [if_pos hst]
        refine ret fun v _ hv => ⟨hv.1.1, fun j => ?_⟩
        have hi := hv.2.mp hst
        by_cases hj : j = i
        · subst hj; simpa using hi
        · simp [hj, hv.1.2 j]
      · rw [if_neg hst]
        refine ret fun v _ hv => ⟨hv.1.1, fun j => ?_⟩
        have hi : ¬v.proto.hist.holder i ≠ none := fun h => hst (hv.2.mpr h)
        by_cases hj : j = i
        · subst hj; simp [hv.1.2 j, hi]
        · simp [hj, hv.1.2 j]
  · exact ⟨hv.1, fun i => by simpa using hv.2 i⟩

/-! ## a registration goes -/

/-- Under the lock, the registration of `c` in entry `i` is about to go. -/
def Parting (Θ : View P L.slotCount → Prop) (a : Actor) (c : Nat) (i : Fin 64)
    (v : View P L.slotCount) : Prop :=
  v.proto.lock = some a ∧ v.proto.hist.holder i = some c ∧ v.proto.leaving a c ∧ Θ v

theorem keeps_parting (hΘ : Keeps M a fun v => v.proto.lock = some a ∧ Θ v) (c : Nat)
    (i : Fin 64) : Keeps M a (Parting Θ a c i) := by
  intro v v' h ⟨hl, hh, hp, hv⟩
  refine ⟨h.rely.lock hl, by rw [(h.rely.locked hl).holder]; exact hh, ?_,
    (hΘ v v' h ⟨hl, hv⟩).2⟩
  rcases hp with ⟨rfl, hk⟩ | hd
  · exact .inl ⟨rfl, by rw [h.rely.consumer.1]; exact hk⟩
  · exact .inr fun hl => hd (h.rely.alive_of hl)

/-- Readers leave, one slot after the other. -/
theorem keeps_cleared {c : Nat} {i : Fin 64} (hΘ : Keeps M a fun v => v.proto.lock = some a ∧ Θ v)
    (done : List (Fin L.slotCount)) :
    Keeps M a fun v => Parting Θ a c i v ∧ ∀ j ∈ done, i ∉ v.proto.mask j :=
  fun v v' h hv => ⟨keeps_parting hΘ c i v v' h hv.1, fun j hj hi =>
    hv.2 j hj ((h.rely.locked hv.1.1).mask j hi)⟩

/-- An assertion that does not speak of the readers of the slots. -/
def Readerless (Θ : View P L.slotCount → Prop) : Prop :=
  ∀ v r m ch la, Θ v → Θ { v with
    readersRemaining := r
    proto := { v.proto with
      mask := m
      hist := { v.proto.hist with changing := ch, latest := la } } }

theorem dropBitAt_keeps {c : Nat} {i : Fin 64} (hΘ : Keeps M a fun v => v.proto.lock = some a ∧ Θ v)
    (hread : Readerless Θ) (done : List (Fin L.slotCount)) (freed : Bool) (j : Fin L.slotCount) :
    Keeping M a (Ring.dropBitAt a i freed j)
      (fun v => v.proto.settled a ∧ Parting Θ a c i v ∧ ∀ j' ∈ done, i ∉ v.proto.mask j')
      fun _ v => v.proto.settled a ∧ Parting Θ a c i v ∧
        ∀ j' ∈ done ++ [j], i ∉ v.proto.mask j' := by
  have hkeep := keeps_cleared (c := c) (i := i) hΘ (done ++ [j])
  refine seq (X := fun previous v =>
    (if previous &&& bit i ≠ 0 then Changing a j (countOnes (previous &&& ~~~bit i)) v
      else v.proto.settled a) ∧ Parting Θ a c i v ∧ ∀ j' ∈ done ++ [j], i ∉ v.proto.mask j') ?_
    fun previous => ?_
  · refine change (fun previous v => { v with proto := { v.proto with
      mask := Function.update v.proto.mask j ((v.proto.mask j).erase i)
      hist := if previous &&& bit i ≠ 0 then v.proto.hist.change a j else v.proto.hist } })
      (fun s g b t ht => ?_) (fun b => ?_) fun s g b t ht hi hl hs => ?_
    · cases Option.some.inj ht
      have hview := view_mask s g j fun t => t.readersMask &&& ~~~bit i
      rw [readers_clear] at hview
      exact view_hist hview
    · refine Keeps.and ?_ hkeep
      split
      · exact keeps_changing
      · exact keeps_settled
    · cases Option.some.inj ht
      have hbit : (s.ring.slots j).readersMask &&& bit i ≠ 0 ↔ i ∈ (view (s, g)).proto.mask j := by
        rw [Ne, and_bit_eq_zero, not_not]; rfl
      have hcleared : ∀ j' ∈ done ++ [j],
          i ∉ Function.update (view (s, g)).proto.mask j
            (((view (s, g)).proto.mask j).erase i) j' :=
        fun j' hj' => by
          by_cases he : j' = j
          · subst he; simp
          · simpa [he] using hs.2.2 j' (by simpa [he] using hj')
      by_cases hb : (s.ring.slots j).readersMask &&& bit i ≠ 0
      · simp only [if_pos hb]
        refine ⟨⟨hl, .dropBit _ _ c i j hs.2.1.1 hs.2.1.2.1 hs.2.1.2.2.1 (hbit.mp hb) hs.1,
          { hi.coupled with }, ?_⟩, fun _ _ => ⟨⟨by simp [Ghost.change], fun _ => ?_⟩,
            ⟨hs.2.1.1, hs.2.1.2.1, hs.2.1.2.2.1, hread _ _ _ _ _ hs.2.1.2.2.2⟩, hcleared⟩⟩
        · exact { readers := fun _ => .inl ⟨rfl, fun _ => by simp [Ghost.change]⟩ }
        · rw [countOnes_eq, readers_clear]; simp; rfl
      · simp only [if_neg hb]
        have hsame : Function.update (view (s, g)).proto.mask j
            (((view (s, g)).proto.mask j).erase i) = (view (s, g)).proto.mask := by
          rw [Finset.erase_eq_of_notMem fun h => hb (hbit.mpr h), Function.update_eq_self]
        rw [hsame] at hcleared ⊢
        exact ⟨⟨hl, .idle _ _, hi.coupled, {}⟩, fun _ _ => ⟨hs.1, hs.2.1, hcleared⟩⟩
  · dsimp only
    split
    · exact seq (storeReaders_keeps hkeep fun v r ch la hv =>
        ⟨⟨hv.1.1, hv.1.2.1, hv.1.2.2.1, hread v r _ ch la hv.1.2.2.2⟩, hv.2⟩) fun _ =>
          ret fun _ _ hv => hv
    · exact ret fun _ _ hv => hv

theorem dropConsumerBit_keeps {c : Nat} {i : Fin 64}
    (hΘ : Keeps M a fun v => v.proto.lock = some a ∧ Θ v) (hread : Readerless Θ) :
    Keeping M a (Ring.dropConsumerBit a i) (fun v => v.proto.settled a ∧ Parting Θ a c i v)
      fun _ v => v.proto.settled a ∧ Parting Θ a c i v ∧ ∀ j, i ∉ v.proto.mask j :=
  pre (post (fold (fun done _ _ v => v.proto.settled a ∧ Parting Θ a c i v ∧
      ∀ j ∈ done, i ∉ v.proto.mask j)
    (fun done j _ freed => dropBitAt_keeps hΘ hread done freed j) (List.finRange _) false)
    fun _ v _ hv => ⟨hv.1, hv.2.1, fun j => hv.2.2 j (List.mem_finRange j)⟩)
    fun v _ hv => ⟨hv.1, hv.2, by simp⟩

/-- `G_CONSUMERS` is read and stored, one up or one down. -/
theorem count_keeps {α : Type} (b : Bool) (f : UInt32 → UInt32) (hf : ∀ n, f n = countConsumers b n)
    {k : RingM P L.slotCount α} {Ψ : α → View P L.slotCount → Prop}
    (hΘ : Keeps M a fun v => v.proto.lock = some a ∧ Θ v)
    (hcount : ∀ v n, Θ v → Θ { v with
      consumers := n, proto := { v.proto with hist := { v.proto.hist with counting := none } } })
    (hk : Keeping M a k (fun v => v.proto.lock = some a ∧ v.proto.counted a ∧ Θ v) Ψ) :
    Keeping M a (do
      let previous ← load (·.consumers)
      Ring.storeConsumers (f previous)
      k) (fun v => (v.proto.lock = some a ∧ Θ v) ∧ v.proto.hist.counting = some (a, b)) Ψ := by
  have hown : ∀ x, Keeps M a fun v =>
      ((v.proto.lock = some a ∧ Θ v) ∧ v.proto.hist.counting = some (a, b)) ∧ v.consumers = x :=
    fun x v v' h hv => ⟨⟨hΘ v v' h hv.1.1, by rw [(h.rely.locked hv.1.1.1).counting]; exact hv.1.2⟩,
      (h.consumers b hv.1.2).trans hv.2⟩
  have hdone : Keeps M a fun v => v.proto.lock = some a ∧ v.proto.counted a ∧ Θ v :=
    fun v v' h hv => ⟨h.rely.lock hv.1, h.rely.counted hv.2.1, (hΘ v v' h ⟨hv.1, hv.2.2⟩).2⟩
  refine seq (X := fun x v => ((v.proto.lock = some a ∧ Θ v) ∧
    v.proto.hist.counting = some (a, b)) ∧ v.consumers = x) ?_ fun x => seq ?_ fun _ => hk
  · exact look (fun v => v.consumers) (fun _ _ => rfl) hown fun v _ _ hs => ⟨hs, rfl⟩
  · refine put (fun v => { v with
        consumers := f x, proto := { v.proto with hist := v.proto.hist.count } })
      (fun _ _ => rfl) hdone fun v hi hl hs => ⟨⟨hl, .count _ _ b hs.1.1.1 hs.1.2,
        { hi.coupled with }, { consumers := .inr ⟨b, hs.1.2, rfl, ?_⟩ }⟩,
          fun _ => ⟨hs.1.1.1, nofun, hcount v _ hs.1.1.2⟩⟩
    rw [hs.2]; exact hf x

/-- The entry of a registration that has no bits left becomes free. -/
theorem freeEntry_keeps {c : Nat} {i : Fin 64}
    (hΘ : Keeps M a fun v => v.proto.lock = some a ∧ Θ v)
    (idle : ∀ v, Θ v → ∀ t, a = .writer t → v.proto.hist.reservation t = none)
    (hfree : ∀ v n e h x, (∀ i', e i' = RegistryState.active → v.entryState i' = .active) → Θ v →
      Θ { v with
        consumers := n, entryState := e
        proto := { v.proto with hist := { v.proto.hist with holder := h, counting := x } } }) :
    Keeping M a (Ring.freeEntry a i)
      (fun v => (v.proto.counted a ∧ Parting Θ a c i v) ∧ ∀ j, i ∉ v.proto.mask j)
      fun _ v => v.proto.lock = some a ∧ v.proto.counted a ∧ v.entryState i ≠ .active ∧ Θ v := by
  have hkeep : Keeps M a fun v => v.proto.lock = some a ∧ v.entryState i ≠ .active ∧ Θ v :=
    fun v v' h hv => by
      obtain ⟨hl, hΘ'⟩ := hΘ v v' h ⟨hv.1, hv.2.2⟩
      refine ⟨hl, fun ha => hv.2.1 ?_, hΘ'⟩
      rw [h.inv.coupled.entryState, ← (h.rely.locked hv.1).holder]
      exact (h.inv'.coupled.entryState i).mp ha
  refine seq (X := fun _ v => (v.proto.lock = some a ∧ v.entryState i ≠ .active ∧ Θ v) ∧
    v.proto.hist.counting = some (a, false)) ?_ fun _ => ?_
  · refine put (fun v => { v with
      proto := { v.proto with hist := v.proto.hist.deregister a i }
      entryState := Function.update v.entryState i .free })
      (fun s g => view_hist (view_entryState s g i _)) (fun v v' h hv =>
        ⟨hkeep v v' h hv.1, by rw [(h.rely.locked hv.1.1).counting]; exact hv.2⟩)
      fun v hi hl ⟨⟨hc, hlock, hh, hp, hs⟩, hb⟩ => ⟨⟨hl, .deregister _ _ c i hlock hh hp hb
        (idle v hs) hc, ?_, { consumers := .inl ⟨rfl, nofun⟩ }⟩,
        fun _ => ⟨⟨hlock, by simp, hfree v _ _ _ _ (fun i' hi' => ?_) hs⟩, rfl⟩⟩
    · exact { hi.coupled with
        entryState := fun e => by
          by_cases he : e = i
          · subst he; simp [Ghost.deregister]
          · simpa [Ghost.deregister, he] using hi.coupled.entryState e
        entryPid := fun e c' hc' => by
          have he : e ≠ i := fun h => by simp [Ghost.deregister, h] at hc'
          exact hi.coupled.entryPid e c' (by simpa [Ghost.deregister, he] using hc')
        holding := fun e c' hc' => by
          have he : e ≠ i := fun h => by simp [Ghost.deregister, h] at hc'
          exact hi.coupled.holding e c' (by simpa [Ghost.deregister, he] using hc') }
    · by_cases he : i' = i
      · simp [he] at hi'
      · simpa [he] using hi'
  · exact count_keeps (k := pure ()) false
      (fun previous => if previous = 0 then 0 else previous - 1) (fun _ => rfl) hkeep
      (fun v n hv => ⟨hv.1, hfree v n _ _ _ (fun _ => id) hv.2⟩)
      (ret fun _ _ hv => hv)

end TenzorBus.Refine
