import TenzorBus.Reference.World

/-!
# Reader accounting of the reference ring

The count in a slot is that of all consumers at the time of publication, and only a release makes it
smaller. It stays right as long as nobody closes with something left to release.

* `exec_init`, `exec_look`, `exec_release`, `exec_close` : what the operations of a consumer do
* `World.Inv` : the invariant, `World.Inv.run` : one operation keeps it
* `reader_accounting` : all runs
-/

namespace TenzorBus.Reference

open SharedTensorRing

variable {n : Nat} {b : Buf n} {j : Fin n}

/-! ## what the operations do -/

theorem exec_init_full (h : b.maxConsumers ≤ b.consumers) :
    exec TensorConsumer.init b =
      (.error (.ring "maximum consumer count reached"), b) := by
  unfold TensorConsumer.init
  rw [exec_bind_ok (exec_get b), if_pos h]
  rfl

theorem exec_init (h : ¬b.maxConsumers ≤ b.consumers) :
    exec TensorConsumer.init b = (.ok (b.nextSeq.toNat - 1),
      { b with consumers := UInt32.ofNat (b.consumers.toNat + 1) }) := by
  have hlt := UInt32.lt_iff_toNat_lt.mp (UInt32.not_le.mp h)
  have hpacks : Packs 32 ((b.consumers.toNat : Int) + 1) := by
    have := b.maxConsumers.toNat_lt
    exact .ofNat (v := b.consumers.toNat + 1) (by omega)
  unfold TensorConsumer.init
  rw [exec_bind_ok (exec_get b), if_neg h, exec_bind_ok (exec_writeGlobal32 hpacks _)]
  rfl

theorem exec_close : exec TensorConsumer.close b = (.ok ⟨⟩,
    { b with consumers := UInt32.ofNat (b.consumers.toNat - 1) }) := by
  have hmax : max 0 ((b.consumers.toNat : Int) - 1) = ((b.consumers.toNat - 1 : Nat) : Int) := by
    omega
  have hpacks : Packs 32 ((b.consumers.toNat - 1 : Nat) : Int) := by
    have := b.consumers.toNat_lt
    exact .ofNat (by omega)
  unfold TensorConsumer.close
  rw [exec_bind_ok (exec_get b), hmax, exec_writeGlobal32 hpacks]
  rfl

/-- One reader less in slot `i`. -/
def Buf.decrement (b : Buf n) (i : Fin n) : Buf n :=
  b.setSlot i fun s =>
    { s with readersRemaining := UInt16.ofNat (s.readersRemaining.toNat - 1) }

theorem exec_release {m : TensorMeta n} (hseq : (b.slots m.slotIndex).sequence.toNat = m.sequence)
    (hreaders : (b.slots m.slotIndex).readersRemaining ≠ 0) :
    exec (TensorConsumer.release m) b = (.ok ⟨⟩, b.decrement m.slotIndex) := by
  have hpos : 0 < (b.slots m.slotIndex).readersRemaining.toNat := by
    rw [Nat.pos_iff_ne_zero]
    intro h
    exact hreaders (UInt16.toNat_inj.mp h)
  have hpacks : Packs 16 (((b.slots m.slotIndex).readersRemaining.toNat : Int) - 1) := by
    have := (b.slots m.slotIndex).readersRemaining.toNat_lt
    unfold Packs
    omega
  have hpred : (((b.slots m.slotIndex).readersRemaining.toNat : Int) - 1).toNat =
      (b.slots m.slotIndex).readersRemaining.toNat - 1 := by
    omega
  unfold TensorConsumer.release
  rw [exec_bind_ok (exec_get b), if_neg (not_not.mpr hseq), if_neg hreaders]
  unfold writeU16
  rw [exec_pack hpacks, hpred]
  rfl

/-- A candidate is a committed slot that is newer than the last one taken. -/
theorem mem_candidates {last : Int} {x : Nat ×ₗ Fin n}
    (h : x ∈ TensorConsumer.candidates b last) :
    (b.slots (ofLex x).2).state = .committed ∧
      (b.slots (ofLex x).2).sequence.toNat = (ofLex x).1 ∧ last < (ofLex x).1 := by
  obtain ⟨i, -, hi⟩ := List.mem_filterMap.mp h
  obtain ⟨hc, hi⟩ := Option.ite_none_right_eq_some.mp hi
  cases hi
  exact ⟨hc.1, rfl, hc.2⟩

theorem exec_look (b : Buf n) (last : Int) :
    ∃ r, exec (TensorConsumer.look last) b = (r, b) ∧
      (∀ m, r = .ok (.lease m) → (b.slots m.slotIndex).state = .committed ∧
        (b.slots m.slotIndex).sequence.toNat = m.sequence ∧ last < m.sequence) ∧
      ∀ seq, r = .ok (.skip seq) → ∃ j, (b.slots j).state = .committed ∧
        (b.slots j).readersRemaining = 0 ∧ last < (b.slots j).sequence.toNat := by
  unfold TensorConsumer.look
  rw [exec_bind_ok (exec_get b)]
  cases hmin : (TensorConsumer.candidates b last).min? with
  | none => exact ⟨_, rfl, nofun, nofun⟩
  | some x =>
    obtain ⟨hstate, hseq, hlast⟩ := mem_candidates (List.min?_mem hmin)
    by_cases hreaders : (b.slots (ofLex x).2).readersRemaining = 0
    · simp only [if_pos hreaders]
      refine ⟨_, rfl, nofun, fun seq _ => ⟨_, hstate, hreaders, ?_⟩⟩
      rw [hseq]
      exact hlast
    · simp only [if_neg hreaders]
      cases codeToDtype (b.slots (ofLex x).2).header.dtype with
      | none => exact ⟨_, rfl, nofun, nofun⟩
      | some dtype =>
        refine ⟨_, rfl, fun m hm => ?_, nofun⟩
        cases hm
        exact ⟨hstate, hseq, hlast⟩

/-! ## the invariant -/

namespace World

/-- What holds between two operations. -/
structure Inv (w : World n) : Prop where
  opened : ∀ c, c ∈ w.opened ↔ ∃ h, w.handles c = some h ∧ h.closed = false
  consumers : w.buf.consumers.toNat = w.opened.card
  maxConsumers : w.buf.maxConsumers = 64
  few : w.opened.card ≤ 64
  settled : ∀ j, (w.buf.slots j).state ≠ .writing
  older : ∀ j, (w.buf.slots j).state = .committed →
    (w.buf.slots j).sequence.toNat < w.buf.nextSeq.toNat
  /-- Nobody is in the audience who has not registered. -/
  known : ∀ j, (w.buf.slots j).state = .committed → ∀ c ∈ w.audience j, w.handles c ≠ none
  /-- What is newer than the last one taken is for the consumer, and not yet released. -/
  newer : ∀ j, (w.buf.slots j).state = .committed → ∀ c h, w.handles c = some h →
    h.closed = false → h.lastSequence < (w.buf.slots j).sequence.toNat → c ∈ w.pending j
  /-- A lease is one of a publication that has still to be released. -/
  lease : ∀ c h, w.handles c = some h → ∀ m ∈ h.leases,
    (w.buf.slots m.slotIndex).state = .committed ∧
      (w.buf.slots m.slotIndex).sequence.toNat = m.sequence ∧
        (m.sequence : Int) ≤ h.lastSequence ∧ c ∈ w.pending m.slotIndex
  /-- A consumer has at most one lease of a slot. -/
  single : ∀ c h, w.handles c = some h → (h.leases.map (·.slotIndex)).Nodup
  accounted : w.Accounted

variable {w w' : World n}

theorem Inv.create : (World.create n).Inv where
  opened c := by simp [World.create]
  consumers := rfl
  maxConsumers := rfl
  few := by simp [World.create]
  settled _ := nofun
  older _ h := nomatch h
  known _ h := nomatch h
  newer _ h := nomatch h
  lease _ _ h := nomatch h
  single _ _ h := nomatch h
  accounted _ h := nomatch h

/-- Whoever is pending is counted. -/
theorem Inv.readers_ne (hi : w.Inv) (hj : (w.buf.slots j).state = .committed) {c : Nat}
    (hc : c ∈ w.pending j) : (w.buf.slots j).readersRemaining ≠ 0 := by
  intro h
  have hcard := hi.accounted j hj
  rw [h] at hcard
  exact absurd (Finset.card_eq_zero.mp hcard.symm) (Finset.ne_empty_of_mem hc)

/-! ## one operation -/

theorem Inv.register (hi : w.Inv) {c : Nat} (fresh : w.handles c = none) :
    (w.register c).Inv := by
  unfold World.register
  by_cases hfull : w.buf.maxConsumers ≤ w.buf.consumers
  · rw [exec_init_full hfull]
    exact hi
  · rw [exec_init hfull]
    have hnew : c ∉ w.opened := by
      intro h
      obtain ⟨h', hh, -⟩ := (hi.opened c).mp h
      rw [fresh] at hh
      cases hh
    have hroom : w.opened.card < 64 := by
      have hlt := UInt32.lt_iff_toNat_lt.mp (UInt32.not_le.mp hfull)
      rw [hi.maxConsumers, hi.consumers] at hlt
      exact hlt
    -- the new consumer is in no audience
    have hpending : ∀ j, (w.buf.slots j).state = .committed →
        (w.audience j ∩ insert c w.opened) \ w.released j = w.pending j := by
      intro j hj
      have hout : c ∉ w.audience j := fun h => hi.known j hj c h fresh
      unfold World.pending
      rw [Finset.inter_insert_of_notMem hout]
    refine {
      opened := fun c' => ?_
      consumers := ?_
      maxConsumers := hi.maxConsumers
      few := ?_
      settled := hi.settled
      older := hi.older
      known := fun j hj c' hc' => ?_
      newer := fun j hj c' h hh ho hlt => ?_
      lease := fun c' h hh m hm => ?_
      single := fun c' h hh => ?_
      accounted := fun j hj => ?_ }
    · by_cases hc : c' = c
      · subst hc
        simp
      · simp [hc, hi.opened c']
    · show (UInt32.ofNat (w.buf.consumers.toNat + 1)).toNat = (insert c w.opened).card
      rw [Finset.card_insert_of_notMem hnew, hi.consumers, UInt32.toNat_ofNat_of_lt']
      show w.opened.card + 1 < 2 ^ 32
      omega
    · show (insert c w.opened).card ≤ 64
      rw [Finset.card_insert_of_notMem hnew]
      omega
    · show Function.update w.handles c _ c' ≠ none
      by_cases hc : c' = c
      · subst hc
        simp
      · simpa [hc] using hi.known j hj c' hc'
    · show c' ∈ (w.audience j ∩ insert c w.opened) \ w.released j
      have hh : Function.update w.handles c _ c' = some h := hh
      rw [hpending j hj]
      by_cases hc : c' = c
      · subst hc
        rw [Function.update_self] at hh
        cases hh
        have := hi.older j hj
        have hlt : (w.buf.nextSeq.toNat : Int) - 1 < (w.buf.slots j).sequence.toNat := hlt
        omega
      · rw [Function.update_of_ne hc] at hh
        exact hi.newer j hj c' h hh ho hlt
    · have hh : Function.update w.handles c _ c' = some h := hh
      by_cases hc : c' = c
      · subst hc
        rw [Function.update_self] at hh
        cases hh
        cases hm
      · rw [Function.update_of_ne hc] at hh
        obtain ⟨hs, hq, hl, hp⟩ := hi.lease c' h hh m hm
        refine ⟨hs, hq, hl, ?_⟩
        show c' ∈ (w.audience m.slotIndex ∩ insert c w.opened) \ w.released m.slotIndex
        rw [hpending _ hs]
        exact hp
    · have hh : Function.update w.handles c _ c' = some h := hh
      by_cases hc : c' = c
      · subst hc
        rw [Function.update_self] at hh
        cases hh
        exact List.nodup_nil
      · rw [Function.update_of_ne hc] at hh
        exact hi.single c' h hh
    · show _ = ((w.audience j ∩ insert c w.opened) \ w.released j).card
      rw [hpending j hj]
      exact hi.accounted j hj

/-- The count of drops does not matter. -/
theorem Inv.of_same (hi : w.Inv) {b : Buf n} (hb : b = { w.buf with dropCount := b.dropCount }) :
    Inv { w with buf := b } := by
  rw [hb]
  exact ⟨hi.opened, hi.consumers, hi.maxConsumers, hi.few, hi.settled, hi.older, hi.known, hi.newer,
    hi.lease, hi.single, hi.accounted⟩

/-- A slot that is selected has nobody pending, so nobody has a lease of it. -/
theorem Inv.pending_selected (hi : w.Inv) {slot : Fin n} (hs : selectSlot w.buf = some slot)
    (hc : (w.buf.slots slot).state = .committed) : w.pending slot = ∅ := by
  rcases selectSlot_spec hs with h | ⟨-, h⟩
  · rw [h] at hc
    cases hc
  · have hcard := hi.accounted slot hc
    rw [h] at hcard
    exact Finset.card_eq_zero.mp hcard.symm

theorem Inv.publish (hi : w.Inv) {call : Call} {arr : NdArray} {code : UInt8}
    (hc : w.Careful (.publish call arr code)) : (w.publish call arr code).Inv := by
  unfold World.publish
  cases hs : selectSlot w.buf with
  | none => exact hi.of_same (exec_tryPublish_same hs call arr code)
  | some slot =>
    obtain ⟨hf, hcounts⟩ := hc slot hs
    simp only [exec_tryPublish_done hs code hf hcounts]
    have hnext : (UInt64.ofNat (w.buf.nextSeq.toNat + 1)).toNat = w.buf.nextSeq.toNat + 1 :=
      UInt64.toNat_ofNat_of_lt' hcounts.1
    have hreaders : (UInt16.ofNat w.buf.consumers.toNat).toNat = w.opened.card := by
      rw [UInt16.toNat_ofNat_of_lt', hi.consumers]
      have := hi.few
      rw [hi.consumers]
      show w.opened.card < 2 ^ 16
      omega
    -- the slot that is filled, and the others
    have hself : (w.buf.setSlot slot (published call arr code w.buf.nextSeq
        w.buf.consumers)).slots slot = published call arr code w.buf.nextSeq w.buf.consumers
          (w.buf.slots slot) := w.buf.setSlot_slots_self slot _
    have hother : ∀ j, j ≠ slot → (w.buf.setSlot slot (published call arr code w.buf.nextSeq
        w.buf.consumers)).slots j = w.buf.slots j :=
      fun j hj => w.buf.setSlot_slots_ne _ hj
    have hpending : (Function.update w.audience slot w.opened slot ∩ w.opened) \
        Function.update w.released slot ∅ slot = w.opened := by
      simp
    have hpending' : ∀ j, j ≠ slot → (Function.update w.audience slot w.opened j ∩ w.opened) \
        Function.update w.released slot ∅ j = w.pending j := by
      intro j hj
      rw [Function.update_of_ne hj, Function.update_of_ne hj]
      rfl
    refine {
      opened := hi.opened
      consumers := hi.consumers
      maxConsumers := hi.maxConsumers
      few := hi.few
      settled := fun j => ?_
      older := fun j hj => ?_
      known := fun j hj c hm => ?_
      newer := fun j hj c h hh ho hlt => ?_
      lease := fun c h hh m hm => ?_
      single := hi.single
      accounted := fun j hj => ?_ }
    · show ((w.buf.setSlot slot _).slots j).state ≠ .writing
      by_cases hjs : j = slot
      · rw [hjs, hself]
        nofun
      · rw [hother j hjs]
        exact hi.settled j
    · show ((w.buf.setSlot slot _).slots j).sequence.toNat <
        (UInt64.ofNat (w.buf.nextSeq.toNat + 1)).toNat
      rw [hnext]
      by_cases hjs : j = slot
      · rw [hjs, hself]
        exact Nat.lt_succ_self _
      · have hj : ((w.buf.setSlot slot _).slots j).state = .committed := hj
        rw [hother j hjs] at hj ⊢
        exact (hi.older j hj).trans (Nat.lt_succ_self _)
    · have hm : c ∈ Function.update w.audience slot w.opened j := hm
      by_cases hjs : j = slot
      · rw [hjs, Function.update_self] at hm
        obtain ⟨h, hh, -⟩ := (hi.opened c).mp hm
        show w.handles c ≠ none
        rw [hh]
        nofun
      · have hj : ((w.buf.setSlot slot _).slots j).state = .committed := hj
        rw [hother j hjs] at hj
        rw [Function.update_of_ne hjs] at hm
        exact hi.known j hj c hm
    · show c ∈ (Function.update w.audience slot w.opened j ∩ w.opened) \ _
      by_cases hjs : j = slot
      · rw [hjs, hpending]
        exact (hi.opened c).mpr ⟨h, hh, ho⟩
      · have hj : ((w.buf.setSlot slot _).slots j).state = .committed := hj
        have hlt : h.lastSequence < ((w.buf.setSlot slot _).slots j).sequence.toNat := hlt
        rw [hother j hjs] at hj hlt
        rw [hpending' j hjs]
        exact hi.newer j hj c h hh ho hlt
    · obtain ⟨hstate, hseq, hlast, hp⟩ := hi.lease c h hh m hm
      have hjs : m.slotIndex ≠ slot := by
        intro he
        rw [he] at hstate hp
        rw [hi.pending_selected hs hstate] at hp
        exact absurd hp (Finset.notMem_empty c)
      refine ⟨?_, ?_, hlast, ?_⟩
      · show ((w.buf.setSlot slot _).slots m.slotIndex).state = .committed
        rw [hother _ hjs]
        exact hstate
      · show ((w.buf.setSlot slot _).slots m.slotIndex).sequence.toNat = m.sequence
        rw [hother _ hjs]
        exact hseq
      · show c ∈ (Function.update w.audience slot w.opened m.slotIndex ∩ w.opened) \ _
        rw [hpending' _ hjs]
        exact hp
    · show ((w.buf.setSlot slot _).slots j).readersRemaining.toNat =
        ((Function.update w.audience slot w.opened j ∩ w.opened) \ _).card
      by_cases hjs : j = slot
      · rw [hjs, hself, hpending]
        exact hreaders
      · have hj : ((w.buf.setSlot slot _).slots j).state = .committed := hj
        rw [hother j hjs] at hj ⊢
        rw [hpending' j hjs]
        exact hi.accounted j hj

/-- Only a handle changes: what it has taken last, and its leases. -/
theorem Inv.setHandle (hi : w.Inv) {c : Nat} {h h' : Handle n} (hh : w.handles c = some h)
    (hclosed : h'.closed = h.closed) (hlast : h.lastSequence ≤ h'.lastSequence)
    (hlease : ∀ m ∈ h'.leases, (w.buf.slots m.slotIndex).state = .committed ∧
      (w.buf.slots m.slotIndex).sequence.toNat = m.sequence ∧
        (m.sequence : Int) ≤ h'.lastSequence ∧ c ∈ w.pending m.slotIndex)
    (hsingle : (h'.leases.map (·.slotIndex)).Nodup) : (w.setHandle c h').Inv := by
  have hother : ∀ {c' k}, Function.update w.handles c (some h') c' = some k →
      c' = c ∧ k = h' ∨ c' ≠ c ∧ w.handles c' = some k := by
    intro c' k hk
    by_cases hc : c' = c
    · subst hc
      rw [Function.update_self] at hk
      exact .inl ⟨rfl, (Option.some.inj hk).symm⟩
    · rw [Function.update_of_ne hc] at hk
      exact .inr ⟨hc, hk⟩
  refine {
    opened := fun c' => ?_
    consumers := hi.consumers
    maxConsumers := hi.maxConsumers
    few := hi.few
    settled := hi.settled
    older := hi.older
    known := fun j hj c' hc' => ?_
    newer := fun j hj c' k hk ho hlt => ?_
    lease := fun c' k hk m hm => ?_
    single := fun c' k hk => ?_
    accounted := hi.accounted }
  · show c' ∈ w.opened ↔ ∃ k, Function.update w.handles c (some h') c' = some k ∧ _
    rw [hi.opened c']
    by_cases hc : c' = c
    · subst hc
      simp [hh, hclosed]
    · simp [hc]
  · show Function.update w.handles c (some h') c' ≠ none
    by_cases hc : c' = c
    · subst hc
      simp
    · simpa [hc] using hi.known j hj c' hc'
  · rcases hother hk with ⟨rfl, rfl⟩ | ⟨-, hk⟩
    · exact hi.newer j hj c' h hh (hclosed ▸ ho) (lt_of_le_of_lt hlast hlt)
    · exact hi.newer j hj c' k hk ho hlt
  · rcases hother hk with ⟨rfl, rfl⟩ | ⟨-, hk⟩
    · exact hlease m hm
    · exact hi.lease c' k hk m hm
  · rcases hother hk with ⟨rfl, rfl⟩ | ⟨-, hk⟩
    · exact hsingle
    · exact hi.single c' k hk

theorem Inv.next (hi : w.Inv) {c : Nat} {h : Handle n} (hh : w.handles c = some h)
    (hc : w.Careful (.next c)) : (w.next c h).Inv := by
  obtain ⟨r, hr, hlease, hskip⟩ := exec_look w.buf h.lastSequence
  -- whatever is newer is for the consumer
  have hpending : ∀ j, (w.buf.slots j).state = .committed →
      h.lastSequence < (w.buf.slots j).sequence.toNat → c ∈ w.pending j := by
    intro j hj hlt
    cases ho : h.closed with
    | false => exact hi.newer j hj c h hh ho hlt
    | true => exact absurd hlt (not_lt.mpr (hc h hh ho j hj))
  unfold World.next
  rw [hr]
  match r, hlease, hskip with
  | .ok (.lease m), hlease, _ =>
    obtain ⟨hstate, hseq, hlt⟩ := hlease m rfl
    have hm := hpending m.slotIndex hstate (by rw [hseq]; exact hlt)
    refine hi.setHandle hh rfl hlt.le (fun m' hm' => ?_) ?_
    · rcases List.mem_cons.mp hm' with rfl | hm'
      · exact ⟨hstate, hseq, le_refl _, hm⟩
      · obtain ⟨hs, hq, hl, hp⟩ := hi.lease c h hh m' hm'
        exact ⟨hs, hq, hl.trans hlt.le, hp⟩
    · rw [List.map_cons, List.nodup_cons]
      refine ⟨fun hmem => ?_, hi.single c h hh⟩
      -- the other leases are older
      obtain ⟨m', hm', he⟩ := List.mem_map.mp hmem
      obtain ⟨-, hq, hl, -⟩ := hi.lease c h hh m' hm'
      rw [he, hseq] at hq
      omega
  | .ok (.skip seq), _, hskip =>
    obtain ⟨j, hstate, hzero, hlt⟩ := hskip seq rfl
    exact absurd hzero (hi.readers_ne hstate (hpending j hstate hlt))
  | .ok .nothing, _, _ => exact hi
  | .error e, _, _ => exact hi

/-- A consumer that has no lease of a slot any more is not counted there any more. -/
theorem Inv.settle (hi : w.Inv) {c : Nat} {slot : Fin n}
    (hstate : (w.buf.slots slot).state = .committed) (hp : c ∈ w.pending slot) {h : Handle n}
    (hh : w.handles c = some h)
    (htaken : ((w.buf.slots slot).sequence.toNat : Int) ≤ h.lastSequence)
    (hnone : ∀ m ∈ h.leases, m.slotIndex ≠ slot) :
    Inv
      { w with
        buf := w.buf.decrement slot
        released := Function.update w.released slot (insert c (w.released slot)) } := by
  have hself : (w.buf.decrement slot).slots slot = { w.buf.slots slot with
      readersRemaining := UInt16.ofNat ((w.buf.slots slot).readersRemaining.toNat - 1) } :=
    w.buf.setSlot_slots_self slot _
  have hother : ∀ j, j ≠ slot → (w.buf.decrement slot).slots j = w.buf.slots j :=
    fun j hj => w.buf.setSlot_slots_ne _ hj
  have hslots : ∀ j, ((w.buf.decrement slot).slots j).state = (w.buf.slots j).state ∧
      ((w.buf.decrement slot).slots j).sequence = (w.buf.slots j).sequence := by
    intro j
    by_cases hj : j = slot
    · rw [hj, hself]
      exact ⟨rfl, rfl⟩
    · rw [hother j hj]
      exact ⟨rfl, rfl⟩
  have hpending : (w.audience slot ∩ w.opened) \
      Function.update w.released slot (insert c (w.released slot)) slot =
        (w.pending slot).erase c := by
    rw [Function.update_self, Finset.sdiff_insert]
    rfl
  have hpending' : ∀ j, j ≠ slot → (w.audience j ∩ w.opened) \
      Function.update w.released slot (insert c (w.released slot)) j = w.pending j := by
    intro j hj
    rw [Function.update_of_ne hj]
    rfl
  refine {
    opened := hi.opened
    consumers := hi.consumers
    maxConsumers := hi.maxConsumers
    few := hi.few
    settled := fun j => ?_
    older := fun j hj => ?_
    known := fun j hj => ?_
    newer := fun j hj c' k hk ho hlt => ?_
    lease := fun c' k hk m hm => ?_
    single := hi.single
    accounted := fun j hj => ?_ }
  · rw [(hslots j).1]
    exact hi.settled j
  · rw [(hslots j).1] at hj
    rw [(hslots j).2]
    exact hi.older j hj
  · rw [(hslots j).1] at hj
    exact hi.known j hj
  · rw [(hslots j).1] at hj
    rw [(hslots j).2] at hlt
    have hp' := hi.newer j hj c' k hk ho hlt
    show c' ∈ (w.audience j ∩ w.opened) \ Function.update w.released slot _ j
    by_cases hjs : j = slot
    · subst hjs
      rw [hpending, Finset.mem_erase]
      refine ⟨?_, hp'⟩
      rintro rfl
      cases hh.symm.trans hk
      omega
    · rw [hpending' j hjs]
      exact hp'
  · obtain ⟨hs, hq, hl, hp'⟩ := hi.lease c' k hk m hm
    rw [(hslots m.slotIndex).1, (hslots m.slotIndex).2]
    refine ⟨hs, hq, hl, ?_⟩
    show c' ∈ (w.audience m.slotIndex ∩ w.opened) \ Function.update w.released slot _ m.slotIndex
    by_cases hjs : m.slotIndex = slot
    · rw [hjs, hpending, Finset.mem_erase]
      refine ⟨?_, hjs ▸ hp'⟩
      rintro rfl
      cases hh.symm.trans hk
      exact hnone m hm hjs
    · rw [hpending' _ hjs]
      exact hp'
  · rw [(hslots j).1] at hj
    show _ = ((w.audience j ∩ w.opened) \ Function.update w.released slot _ j).card
    by_cases hjs : j = slot
    · subst hjs
      rw [hpending, Finset.card_erase_of_mem hp, hself, ← hi.accounted j hj]
      have hlt := (w.buf.slots j).readersRemaining.toNat_lt
      exact UInt16.toNat_ofNat_of_lt' (by show _ < 2 ^ 16; omega)
    · rw [hpending' j hjs, hother j hjs]
      exact hi.accounted j hj

theorem Inv.release (hi : w.Inv) {c : Nat} {h : Handle n} (hh : w.handles c = some h)
    {m : TensorMeta n} (hm : m ∈ h.leases) : (w.release c h m).Inv := by
  obtain ⟨hstate, hseq, hlast, hp⟩ := hi.lease c h hh m hm
  have hsub : ∀ m' ∈ h.leases.erase m, m' ∈ h.leases := fun m' hm' => List.mem_of_mem_erase hm'
  have hsingle := hi.single c h hh
  -- the other leases are of other slots
  have hnone : ∀ m' ∈ h.leases.erase m, m'.slotIndex ≠ m.slotIndex := by
    intro m' hm' he
    have hne := (hsingle.of_map _).mem_erase_iff.mp hm'
    exact hne.1 (List.inj_on_of_nodup_map hsingle hne.2 hm he)
  have hset : (w.setHandle c { h with leases := h.leases.erase m }).Inv := by
    refine hi.setHandle hh rfl (le_refl _) (fun m' hm' => hi.lease c h hh m' (hsub m' hm')) ?_
    exact hsingle.sublist (List.erase_sublist.map _)
  unfold World.release
  simp only
  rw [show (w.setHandle c { h with leases := h.leases.erase m }).buf = w.buf from rfl,
    exec_release hseq (hi.readers_ne hstate hp)]
  have htaken : ((w.buf.slots m.slotIndex).sequence.toNat : Int) ≤ h.lastSequence := by
    rw [hseq]
    exact hlast
  exact hset.settle hstate hp (Function.update_self _ _ _) htaken hnone

theorem Inv.close (hi : w.Inv) {c : Nat} {h : Handle n} (hh : w.handles c = some h)
    (hc : w.Careful (.close c)) : (w.close c h).Inv := by
  unfold World.close
  cases ho : h.closed with
  | true => exact hi
  | false =>
    rw [if_neg (by nofun), exec_close]
    have hmem : c ∈ w.opened := (hi.opened c).mpr ⟨h, hh, ho⟩
    have hout : ∀ j, (w.buf.slots j).state = .committed → c ∉ w.pending j := by
      intro j hj hp
      obtain ⟨haudience, hreleased⟩ := Finset.mem_sdiff.mp hp
      exact hreleased (hc j hj (Finset.mem_inter.mp haudience).1 hmem)
    have hpending : ∀ j, (w.buf.slots j).state = .committed →
        (w.audience j ∩ w.opened.erase c) \ w.released j = w.pending j := by
      intro j hj
      rw [Finset.inter_erase, Finset.erase_sdiff_comm]
      exact Finset.erase_eq_of_notMem (hout j hj)
    have hother : ∀ {c' k}, Function.update w.handles c (some { h with closed := true }) c' =
        some k → c' = c ∧ k = { h with closed := true } ∨ c' ≠ c ∧ w.handles c' = some k := by
      intro c' k hk
      by_cases hcc : c' = c
      · subst hcc
        rw [Function.update_self] at hk
        exact .inl ⟨rfl, (Option.some.inj hk).symm⟩
      · rw [Function.update_of_ne hcc] at hk
        exact .inr ⟨hcc, hk⟩
    refine {
      opened := fun c' => ?_
      consumers := ?_
      maxConsumers := hi.maxConsumers
      few := ?_
      settled := hi.settled
      older := hi.older
      known := fun j hj c' hc' => ?_
      newer := fun j hj c' k hk ho' hlt => ?_
      lease := fun c' k hk m hm => ?_
      single := fun c' k hk => ?_
      accounted := fun j hj => ?_ }
    · show c' ∈ w.opened.erase c ↔ ∃ k, Function.update w.handles c _ c' = some k ∧ _
      by_cases hcc : c' = c
      · subst hcc
        simp
      · simp [hcc, hi.opened c']
    · show (UInt32.ofNat (w.buf.consumers.toNat - 1)).toNat = (w.opened.erase c).card
      have hlt := w.buf.consumers.toNat_lt
      rw [UInt32.toNat_ofNat_of_lt' (by show _ < 2 ^ 32; omega), Finset.card_erase_of_mem hmem,
        hi.consumers]
    · show (w.opened.erase c).card ≤ 64
      have := hi.few
      rw [Finset.card_erase_of_mem hmem]
      omega
    · show Function.update w.handles c _ c' ≠ none
      by_cases hcc : c' = c
      · subst hcc
        simp
      · simpa [hcc] using hi.known j hj c' hc'
    · show c' ∈ (w.audience j ∩ w.opened.erase c) \ w.released j
      rw [hpending j hj]
      rcases hother hk with ⟨rfl, rfl⟩ | ⟨-, hk⟩
      · cases ho'
      · exact hi.newer j hj c' k hk ho' hlt
    · rcases hother hk with ⟨rfl, rfl⟩ | ⟨-, hk⟩
      · obtain ⟨hs, -, -, hp⟩ := hi.lease c' h hh m hm
        exact absurd hp (hout _ hs)
      · obtain ⟨hs, hq, hl, hp⟩ := hi.lease c' k hk m hm
        refine ⟨hs, hq, hl, ?_⟩
        show c' ∈ (w.audience m.slotIndex ∩ w.opened.erase c) \ w.released m.slotIndex
        rw [hpending _ hs]
        exact hp
    · rcases hother hk with ⟨rfl, rfl⟩ | ⟨-, hk⟩
      · exact hi.single c' h hh
      · exact hi.single c' k hk
    · show _ = ((w.audience j ∩ w.opened.erase c) \ w.released j).card
      rw [hpending j hj]
      exact hi.accounted j hj

/-! ## runs -/

theorem Inv.run (hi : w.Inv) {op : Op n} (hrun : w.Run op w') (hc : w.Careful op) : w'.Inv := by
  cases hrun with
  | register c fresh => exact hi.register fresh
  | publish call arr code => exact hi.publish hc
  | next c h hh => exact hi.next hh hc
  | release c h hh m hm => exact hi.release hh hm
  | close c h hh => exact hi.close hh hc

theorem Reach.inv (h : Reach World.Careful w) : w.Inv := by
  induction h with
  | create => exact .create
  | run _ hrun hc ih => exact ih.run hrun hc

/-- If nobody closes with something left to release, no closed handle takes anything and what is
published fits, every committed slot counts those who have still to release it, and when everybody
has closed all slots are free or reclaimable. -/
theorem reader_accounting (h : Reach World.Careful w) : w.Accounted ∧ w.Reclaimable := by
  have hi := h.inv
  refine ⟨hi.accounted, fun hclosed j => ?_⟩
  have hnobody : w.opened = ∅ := by
    rw [Finset.eq_empty_iff_forall_notMem]
    intro c hc
    obtain ⟨k, hk, ho⟩ := (hi.opened c).mp hc
    rw [hclosed c k hk] at ho
    cases ho
  cases hs : (w.buf.slots j).state with
  | free => exact .inl rfl
  | writing => exact absurd hs (hi.settled j)
  | committed =>
    refine .inr ⟨rfl, UInt16.toNat_inj.mp ?_⟩
    have hempty : w.pending j = ∅ := by
      unfold World.pending
      rw [hnobody, Finset.inter_empty, Finset.empty_sdiff]
    rw [hi.accounted j hs, hempty]
    rfl

/-- One consumer, and one byte that has been published for it. -/
def byteFor (n : Nat) : World n :=
  ((World.create n).register 0).publish (.captured 0) (.byte 5) 3

theorem reach_byteFor : Reach World.Careful (byteFor 2) := by
  refine .run (.run .create (.register 0 rfl) trivial) (.publish _ _ _) fun slot _ => ?_
  refine ⟨⟨by decide, by decide, by decide, by decide, by decide, by decide⟩, ?_⟩
  exact ⟨by decide, by decide⟩

/-- The lease on it. -/
def byteLease : TensorMeta 2 :=
  { sequence := 1, timestampNs := 0, nbytes := 1, dtype := "uint8", shape := [1], strides := [1],
    slotIndex := ⟨0, Nat.two_pos⟩, readersRemaining := 1 }

/-- The handle of the consumer before it has taken the byte, as long as it has it, and then. -/
def byteHandles : Handle 2 × Handle 2 × Handle 2 :=
  (⟨0, false, []⟩, ⟨1, false, [byteLease]⟩, ⟨1, false, []⟩)

/-- The consumer takes the byte and releases it. -/
def byteReleased : World 2 :=
  ((byteFor 2).next 0 byteHandles.1).release 0 byteHandles.2.1 byteLease

theorem reach_byteReleased : Reach World.Careful byteReleased := by
  refine .run (.run reach_byteFor (.next 0 _ rfl) fun h hh hclosed => ?_)
    (.release 0 _ rfl _ (by decide)) trivial
  cases hh
  cases hclosed

/-- A consumer registers, takes a byte, releases it and closes. -/
theorem reader_accounting_byte : (byteReleased.buf.slots 0).state = .committed ∧
    byteReleased.Accounted ∧ (byteFor 2).pending 0 = {0} ∧ byteReleased.pending 0 = ∅ ∧
      (byteReleased.close 0 byteHandles.2.2).Reclaimable := by
  have hclose : Reach World.Careful (byteReleased.close 0 byteHandles.2.2) :=
    .run reach_byteReleased (.close 0 _ rfl) (by unfold Careful; decide)
  exact ⟨by decide, (reader_accounting reach_byteReleased).1, by decide, by decide,
    (reader_accounting hclose).2⟩

/-- The consumer closes without having taken what was published for it. -/
theorem miscounted_after_close :
    ∃ w : World 2, Reach (fun _ _ => True) w ∧ ¬w.Accounted ∧ ¬w.Reclaimable := by
  have hhandle : (byteFor 2).handles 0 =
      some { lastSequence := 0, closed := false, leases := [] } :=
    rfl
  have hreach : Reach (fun _ _ => True) ((byteFor 2).close 0
      { lastSequence := 0, closed := false, leases := [] }) :=
    .run (.run (.run .create (.register 0 rfl) trivial) (.publish _ _ _) trivial)
      (.close 0 _ hhandle) trivial
  refine ⟨_, hreach, fun h => ?_, fun h => ?_⟩
  · exact absurd (h 0 (by decide)) (by decide)
  · refine absurd (h (fun c k hk => ?_) 0) (by decide)
    by_cases hc : c = 0
    · subst hc
      cases hk
      rfl
    · have hk : Function.update (byteFor 2).handles 0 _ c = some k := hk
      rw [Function.update_of_ne hc] at hk
      have hk : Function.update (World.create 2).handles 0 _ c = some k := hk
      rw [Function.update_of_ne hc] at hk
      cases hk

end World

end TenzorBus.Reference
