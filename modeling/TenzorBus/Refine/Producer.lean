import TenzorBus.Refine.Sweep

/-!
# The producer refines the protocol

Proof outlines of the operations of `TenzorBus.Ring.Producer`.

* `chooseSlot_keeps` : the slot chosen is free, or committed and read by nobody
* `writeHeader_keeps` : from `STATE_WRITING` to the slot in hand
* `lockedReserve_keeps` : a reservation
* `publish_keeps`, `reserve_keeps` : the two paths
* `releaseSlot_keeps` : an abort
-/

namespace TenzorBus.Refine

open Conc

variable {P : Platform} {L : RingLayout} {M : Mode P L.slotCount} {t : Nat}

/-! ## the choice of a slot -/

/-- The slot is free, or committed and read by nobody. -/
def Avail (v : View P L.slotCount) (j : Fin L.slotCount) : Prop :=
  v.proto.state j = .free ∨ v.proto.state j = .committed ∧ v.proto.mask j = ∅

theorem Avail.kept {v v' : View P L.slotCount} {j : Fin L.slotCount}
    (h : Locked v.proto v'.proto) (hv : Avail v j) : Avail v' j := by
  rcases hv with hf | ⟨hc, hm⟩
  · exact .inl ((h.state j (by rw [hf]; nofun)).trans hf)
  · exact .inr ⟨(h.state j (by rw [hc]; nofun)).trans hc,
      Finset.subset_empty.mp (hm ▸ h.mask j)⟩

/-- What `reserve_header` has found is available. -/
def Found (t : Nat) (found : Option (Fin L.slotCount) × Option (UInt64 × Fin L.slotCount))
    (v : View P L.slotCount) : Prop :=
  Alone (.writer t) v ∧ (∀ j, found.1 = some j → Avail v j) ∧
    ∀ q j, found.2 = some (q, j) → Avail v j

theorem keeps_found
    (found : Option (Fin L.slotCount) × Option (UInt64 × Fin L.slotCount)) :
    Keeps M (.writer t) (Found t found) := fun v v' h hv =>
  have hL := h.rely.locked hv.1.1
  ⟨keeps_alone v v' h hv.1, fun j hj => (hv.2.1 j hj).kept hL,
    fun q j hj => (hv.2.2 q j hj).kept hL⟩

theorem selectSlot_keeps (found : Option (Fin L.slotCount) × Option (UInt64 × Fin L.slotCount))
    (i : Fin L.slotCount) :
    Keeping M (.writer t) (Producer.selectSlot found i) (Found t found) (Found t) := by
  have hstate : ∀ st : SlotState, Keeps M (.writer t) fun v =>
      Found t found v ∧ (st ≠ .writing → v.proto.state i = st) := fun st v v' h hv =>
    ⟨keeps_found found v v' h hv.1, fun hst => by
      have hs := hv.2 hst
      rw [(h.rely.locked hv.1.1.1).state i (by rwa [hs]), hs]⟩
  refine seq (X := fun st v => Found t found v ∧ (st ≠ SlotState.writing → v.proto.state i = st))
    ?_ fun st => ?_
  · exact look (fun v => v.proto.state i) (fun _ _ => rfl) hstate fun v _ _ hs =>
      ⟨hs, fun _ => rfl⟩
  cases st with
  | writing => exact ret fun v _ hv => hv.1
  | free =>
    refine ret fun v _ hv => ⟨hv.1.1, fun j hj => ?_, hv.1.2.2⟩
    rcases Option.or_eq_some_iff.mp hj with hj | ⟨-, hj⟩
    · exact hv.1.2.1 j hj
    · cases hj; exact .inl (hv.2 nofun)
  | committed =>
    have hmask : ∀ mask : UInt64, Keeps M (.writer t) fun v =>
        Found t found v ∧ (mask = 0 → Avail v i) := fun mask v v' h hv =>
      ⟨keeps_found found v v' h hv.1, fun hm => (hv.2 hm).kept (h.rely.locked hv.1.1.1)⟩
    refine seq (X := fun mask v => Found t found v ∧ (mask = 0 → Avail v i)) ?_ fun mask => ?_
    · refine watch hmask fun s g _ _ hs => ⟨hs.1, fun hm => .inr ⟨hs.2 nofun, ?_⟩⟩
      exact readers_eq_empty.mpr hm
    by_cases hm : mask = 0
    · rw [if_pos hm]
      have havail : Keeps M (.writer t) fun v => Found t found v ∧ Avail v i := fun v v' h hv =>
        ⟨keeps_found found v v' h hv.1, hv.2.kept (h.rely.locked hv.1.1.1)⟩
      refine pre (seq (glance havail) fun q => ?_) fun v _ hv => ⟨hv.1, hv.2 hm⟩
      -- the slot joins what has been found, or what has been found is older
      have hjoin : Keeping M (.writer t) (pure (found.1, some (q, i)))
          (fun v => Found t found v ∧ Avail v i) (Found t) :=
        ret fun v _ hv => ⟨hv.1.1, hv.1.2.1, fun q' j hj => by cases hj; exact hv.2⟩
      split
      · split
        · exact hjoin
        · exact ret fun v _ hv => hv.1
      · exact hjoin
    · rw [if_neg hm]
      exact ret fun v _ hv => hv.1

/-- The slot that is chosen is available. -/
theorem chooseSlot_keeps :
    Keeping M (.writer t) Producer.chooseSlot (Alone (.writer t)) fun chosen v =>
      Alone (.writer t) v ∧ ∀ j, chosen = some j → Avail v j := by
  refine seq (pre (fold (fun _ _ => Found t) (fun _ i _ found => selectSlot_keeps found i) _ _)
    fun v _ hv => ⟨hv, nofun, nofun⟩) fun found => ?_
  refine ret fun v _ hv => ⟨hv.1, fun j hj => ?_⟩
  rcases Option.or_eq_some_iff.mp hj with h | ⟨-, h⟩
  · exact hv.2.1 j h
  · obtain ⟨⟨q, i⟩, hi, rfl⟩ := Option.map_eq_some_iff.mp h
    exact hv.2.2 q i hi

/-! ## the header of a reservation -/

/-- A reservation of `slot` in phase `ph`. -/
def Reserved (t : Nat) (slot : Fin L.slotCount) (mask : UInt64) (ph : Phase)
    (v : View P L.slotCount) : Prop :=
  ∃ owners, v.proto.hist.reservation t = some
    { slot := slot, mask := mask, owners := owners, phase := ph }

/-- Under the lock, `slot` is `STATE_WRITING` and gets the number `sequence`; its header is as far
as `Q` says. -/
structure Writing (t : Nat) (slot : Fin L.slotCount) (mask sequence : UInt64) (ph : Phase)
    (Q : TensorHeader → Prop) (v : View P L.slotCount) : Prop where
  lock : v.proto.lock = some (.writer t)
  running : v.running (.writer t)
  counted : v.proto.counted (.writer t)
  settled : ph ≠ .masked → v.proto.settled (.writer t)
  writer : v.writer t = none
  reserved : Reserved t slot mask ph v
  next : sequence = seqWord v.proto.hist.next
  num : ph ≠ .header → sequence = seqWord (v.proto.hist.num slot)
  header : Q (v.proto.header slot)

variable {slot : Fin L.slotCount} {mask sequence : UInt64} {Q : TensorHeader → Prop}

theorem keeps_writing {ph : Phase} (hph : ph ≠ .returning) :
    Keeps M (.writer t) (Writing t slot mask sequence ph Q) := fun v v' h hv => by
  have hL := h.rely.locked hv.lock
  obtain ⟨owners, hr⟩ := hv.reserved
  have hown := (h.rely.own hr hph).1
  exact {
    lock := h.rely.lock hv.lock
    running := keeps_running v v' h hv.running
    counted := h.rely.counted hv.counted
    settled := fun hp => h.rely.notes.2.trans (hv.settled hp)
    writer := (h.writer t rfl).trans hv.writer
    reserved := ⟨owners, h.rely.reservation.trans hr⟩
    next := hv.next.trans (by rw [hL.next])
    num := fun hp => (hv.num hp).trans (by rw [hL.num])
    header := by rw [hown.header]; exact hv.header }

/-- While the slot is in the header phase its pid and token are the writer's own. -/
theorem keeps_writing_pid {pid : UInt32} {Θ : UInt32 → Prop} :
    Keeps M (.writer t) fun v => Writing t slot mask sequence .header Q v ∧
      v.slotPid slot = pid ∧ Θ (v.slotToken slot) := fun v v' h hv => by
  refine ⟨keeps_writing (by nofun) v v' h hv.1, ?_⟩
  obtain ⟨owners, hr⟩ := hv.1.reserved
  obtain ⟨hpid, htoken⟩ := h.slotPid slot fun t' r ht hr' hp hl he => ht (by
    rw [h.rely.inv.unique t t' _ r hr hr' nofun (by rw [hp]; nofun) he.symm])
  rw [hpid, htoken]
  exact hv.2

/-- A store to the words of the slot's header. -/
theorem storeHeader_keeps {R : TensorHeader → Prop} (f : TensorHeader → TensorHeader)
    (hf : ∀ h, Q h → R (f h)) :
    Keeping M (.writer t) (storeSlot slot fun s => { s with header := f s.header })
      (Writing t slot mask sequence .numbered Q)
      fun _ => Writing t slot mask sequence .numbered R := by
  refine put (u := fun _ g => g) (fun v => { v with proto := { v.proto with
    header := Function.update v.proto.header slot (f (v.proto.header slot)) } })
    (fun s g => view_header s g slot _) (keeps_writing nofun) fun v hi hl hs => ⟨⟨hl, ?_,
      { hi.coupled with }, {}⟩, fun _ =>
      { hs with header := by simpa using hf _ hs.header }⟩
  obtain ⟨owners, hr⟩ := hs.reserved
  have : Step M.guards L.slotCapacity _ _ _ :=
    .body t v.proto _ (f (v.proto.header slot)) (v.proto.payload slot) hr nofun nofun
  simpa using this

/-- The slot becomes `STATE_WRITING`. -/
theorem begin_keeps (hcap : ∀ v : View P L.slotCount, Q (v.proto.header slot)) :
    Keeping M (.writer t)
      (storeSlotWith slot (fun s => { s with state := .writing }) fun _ g => g.begin t slot mask)
      (fun v => Alone (.writer t) v ∧ Avail v slot ∧ sequence = seqWord v.proto.hist.next ∧
        ∀ i, i ∈ readers mask ↔ v.proto.hist.holder i ≠ none)
      fun _ => Writing t slot mask sequence .header Q := by
  refine put (fun v => { v with proto := { v.proto with
      state := Function.update v.proto.state slot .writing
      hist := v.proto.hist.begin t slot mask } })
    (fun s g => view_hist (view_state s g slot _)) (keeps_writing nofun)
    fun v hi hl ⟨⟨hlock, ⟨hrun, hw, hr⟩, hco, hset⟩, hav, hn, hm⟩ =>
      ⟨⟨hl, .begin t _ slot mask hlock hr hav hm, ?_, {}⟩,
        fun _ => ⟨hlock, hrun, hco, fun _ => hset, hw,
          ⟨v.proto.hist.holder, by simp [Ghost.begin]⟩, hn, fun hp => absurd rfl hp, hcap v⟩⟩
  exact { hi.coupled with
    stamped := fun t' r hr' hp hp' => by
      rcases Inv.begin_reservation.mp hr' with ⟨-, rfl⟩ | ⟨-, hr'⟩
      · exact absurd rfl hp
      · exact hi.coupled.stamped t' r hr' hp hp'
    reserving := fun t' r hr' => by
      rcases Inv.begin_reservation.mp hr' with ⟨rfl, -⟩ | ⟨-, hr'⟩
      · exact fun _ => hrun
      · exact hi.coupled.reserving t' r hr'
    writer := fun t' w hw' hl' => by
      obtain ⟨r, hr', hrest⟩ := hi.coupled.writer t' w hw' hl'
      refine ⟨r, Inv.begin_reservation.mpr (.inr ⟨fun e => ?_, hr'⟩), hrest⟩
      rw [e, hr] at hr'
      cases hr' }

/-- The pid of the producer. -/
theorem storePid_keeps :
    Keeping M (.writer t) (storeSlot slot fun s => { s with producerPid := P.me (.writer t) })
      (Writing t slot mask sequence .header Q)
      fun _ v => Writing t slot mask sequence .header Q v ∧
        v.slotPid slot = P.me (.writer t) ∧ True := by
  refine put (u := fun _ g => g) (fun v => { v with
    slotPid := Function.update v.slotPid slot (P.me (.writer t)) })
    (fun s g => view_slotPid s g slot _) (keeps_writing_pid (Θ := fun _ => True))
    fun v hi hl hs => ⟨⟨hl, .idle _ _, ?_, ?_⟩, fun _ => ⟨{ hs with }, by simp⟩⟩
  all_goals obtain ⟨owners, hr⟩ := hs.reserved
  · exact { hi.coupled with
      stamped := fun t' r hr' hp hp' => by
        have hne : r.slot ≠ slot := fun e => hp (by
          have ht := hi.proto.unique t' t r _ hr' hr hp' (by simp) e
          rw [ht, hr] at hr'
          cases hr'
          rfl)
        simpa [View.Stamped, hne] using hi.coupled.stamped t' r hr' hp hp' }
  · exact {
      slotPid := fun j hj => by
        have : j ≠ slot := fun e => hj t _ rfl hr rfl e.symm
        simp [this] }

/-- Its start token. -/
theorem storeToken_keeps {os : P.Os} (hos : P.running os (P.proc (.writer t)) = true) :
    Keeping M (.writer t)
      (storeSlot slot fun s =>
        { s with producerStartToken := P.pidStartToken os (P.me (.writer t)) })
      (fun v => Writing t slot mask sequence .header Q v ∧
        v.slotPid slot = P.me (.writer t) ∧ True)
      fun _ v => Writing t slot mask sequence .header Q v ∧ v.Stamped slot t := by
  refine put (u := fun _ g => g) (fun v => { v with
    slotToken := Function.update v.slotToken slot (P.pidStartToken os (P.me (.writer t))) })
    (fun s g => view_slotToken s g slot _) (keeps_writing_pid (Θ := fun token =>
      ∃ os, P.running os (P.proc (.writer t)) = true ∧
        token = P.pidStartToken os (P.me (.writer t))))
    fun v hi hl hs => ⟨⟨hl, .idle _ _, ?_, ?_⟩, fun _ => ⟨{ hs.1 with }, hs.2.1, os, hos, by simp⟩⟩
  all_goals obtain ⟨owners, hr⟩ := hs.1.reserved
  · exact { hi.coupled with
      stamped := fun t' r hr' hp hp' => by
        have hne : r.slot ≠ slot := fun e => hp (by
          have ht := hi.proto.unique t' t r _ hr' hr hp' (by simp) e
          rw [ht, hr] at hr'
          cases hr'
          rfl)
        simpa [View.Stamped, hne] using hi.coupled.stamped t' r hr' hp hp' }
  · exact {
      slotPid := fun j hj => by
        have : j ≠ slot := fun e => hj t _ rfl hr rfl e.symm
        simp [this] }

section

variable {v : View P L.slotCount} {ph : Phase} {r₀ : Reservation L.slotCount}

/-- A reservation that moves on keeps the stamp of its slot, and its writer keeps running. -/
theorem stamped_proceed (hc : Coupled M.guards v) (hr : v.proto.hist.reservation t = some r₀)
    (h₁ : r₀.phase ≠ .header) (h₂ : r₀.phase ≠ .returning) :
    ∀ t' r, (v.proto.hist.proceed t ph).reservation t' = some r → r.phase ≠ .header →
      r.phase ≠ .returning → v.Stamped r.slot t' := fun t' r hr' hp hp' => by
  rcases (Inv.proceed_reservation hr).mp hr' with ⟨rfl, rfl⟩ | ⟨-, hr'⟩
  · exact hc.stamped t' r₀ hr h₁ h₂
  · exact hc.stamped t' r hr' hp hp'

theorem reserving_proceed (hc : Coupled M.guards v) (hr : v.proto.hist.reservation t = some r₀) :
    ∀ t' r, (v.proto.hist.proceed t ph).reservation t' = some r → v.proto.alive (.writer t') →
      v.running (.writer t') := fun t' r hr' => by
  rcases (Inv.proceed_reservation hr).mp hr' with ⟨rfl, rfl⟩ | ⟨-, hr'⟩
  · exact hc.reserving t' r₀ hr
  · exact hc.reserving t' r hr'

end

/-- The slot gets its number. -/
theorem number_keeps :
    Keeping M (.writer t)
      (storeSlotWith slot (fun s => { s with sequence := sequence }) fun _ g => g.number t slot)
      (fun v => Writing t slot mask sequence .header Q v ∧ v.Stamped slot t)
      fun _ => Writing t slot mask sequence .numbered Q := by
  refine put (fun v => { v with
      proto := { v.proto with hist := v.proto.hist.number t slot }
      sequence := Function.update v.sequence slot sequence })
    (fun s g => view_hist (view_sequence s g slot _)) (keeps_writing (by simp))
    fun v hi hl hs => ?_
  obtain ⟨owners, hr⟩ := hs.1.reserved
  refine ⟨⟨hl, .number t _ _ hs.1.lock hr rfl, ?_, {}⟩,
    fun _ => ⟨hs.1.lock, hs.1.running, hs.1.counted, fun _ => hs.1.settled (by simp), hs.1.writer,
      ⟨owners, by simp [Ghost.number, Ghost.proceed, hr]⟩, hs.1.next,
      fun _ => by simpa [Ghost.number] using hs.1.next, hs.1.header⟩⟩
  exact { hi.coupled with
    sequence := fun j => by
      by_cases hj : j = slot
      · subst hj; simpa [Ghost.number] using hs.1.next
      · simpa [Ghost.number, hj] using hi.coupled.sequence j
    stamped := fun t' r hr' hp hp' => by
      rcases (Inv.proceed_reservation hr).mp hr' with ⟨rfl, rfl⟩ | ⟨-, hr'⟩
      · exact hs.2
      · exact hi.coupled.stamped t' r hr' hp hp'
    reserving := reserving_proceed hi.coupled hr
    writer := fun t' w hw hl' => by
      obtain ⟨r, hr', hp, hws, hm, hq⟩ := hi.coupled.writer t' w hw hl'
      have ht : t' ≠ t := fun e => by rw [e, hr] at hr'; cases hr'; cases hp
      have hne : w.slot ≠ slot := fun e => ht
        (hi.proto.unique t' t r _ hr' hr (by simp [hp]) (by simp) (hws.trans e))
      exact ⟨r, (Inv.proceed_reservation hr).mpr (.inr ⟨ht, hr'⟩), hp, hws, hm, by
        simpa [Ghost.number, hne] using hq⟩ }

/-- The reader mask is stored. -/
theorem setMask_keeps :
    Keeping M (.writer t)
      (storeSlotWith slot (fun s => { s with readersMask := mask }) fun _ g =>
        (g.proceed t .masked).change (.writer t) slot)
      (Writing t slot mask sequence .numbered Q)
      fun _ v => Changing (.writer t) slot (countOnes mask) v ∧
        Writing t slot mask sequence .masked Q v := by
  refine put (fun v => { v with proto := { v.proto with
      mask := Function.update v.proto.mask slot (readers mask)
      hist := (v.proto.hist.proceed t .masked).change (.writer t) slot } })
    (fun s g => view_hist (view_mask s g slot _)) (keeps_changing.and (keeps_writing (by simp)))
    fun v hi hl hs => ?_
  obtain ⟨owners, hr⟩ := hs.reserved
  refine ⟨⟨hl, .setMask t _ _ hs.lock hr rfl (hs.settled (by simp)), ?_,
    { readers := fun _ => .inl ⟨rfl, fun _ => by simp [Ghost.change]⟩ }⟩,
    fun _ => ⟨⟨by simp [Ghost.change], fun _ => by simp [countOnes_eq]⟩, hs.lock, hs.running,
      hs.counted, fun h => absurd rfl h, hs.writer,
      ⟨owners, by simp [Ghost.change, Ghost.proceed, hr]⟩, hs.next, fun _ => hs.num (by simp),
      hs.header⟩⟩
  exact { hi.coupled with
    stamped := stamped_proceed hi.coupled hr (by simp) (by simp)
    reserving := reserving_proceed hi.coupled hr
    writer := fun t' w hw' hl' => by
      obtain ⟨r, hr', hp, hrest⟩ := hi.coupled.writer t' w hw' hl'
      have ht : t' ≠ t := fun e => by rw [e, hr] at hr'; cases hr'; cases hp
      exact ⟨r, (Inv.proceed_reservation hr).mpr (.inr ⟨ht, hr'⟩), hp, hrest⟩ }

/-- A slot in hand. -/
structure InHand (t : Nat) (slot : Fin L.slotCount) (mask sequence : UInt64)
    (v : View P L.slotCount) : Prop where
  steady : Steady (.writer t) v
  running : v.running (.writer t)
  reserved : Reserved t slot mask .inHand v
  num : sequence = seqWord (v.proto.hist.num slot)

theorem keeps_inHand : Keeps M (.writer t) (InHand t slot mask sequence) := fun v v' h hv => by
  obtain ⟨owners, hr⟩ := hv.reserved
  exact ⟨keeps_steady v v' h hv.steady, keeps_running v v' h hv.running,
    ⟨owners, h.rely.reservation.trans hr⟩,
    hv.num.trans (by rw [(h.rely.own hr (by nofun)).1.num])⟩

/-- The counter is advanced. -/
theorem advance_keeps (hQ : ∀ h, Q h → h.Valid L.slotCapacity) :
    Keeping M (.writer t)
      (Prog.modifyWith (fun s => { s with ring.nextSeq := sequence + 1 }) fun _ g => g.advance t)
      (fun v => v.proto.settled (.writer t) ∧ Writing t slot mask sequence .masked Q v)
      fun _ v => v.proto.lock = some (.writer t) ∧ v.writer t = none ∧
        InHand t slot mask sequence v := by
  refine put (fun v => { v with
      proto := { v.proto with hist := v.proto.hist.advance t }, nextSeq := sequence + 1 })
    (fun _ _ => rfl) (keeps_lock.and (keeps_writer.and keeps_inHand)) fun v hi hl hs => ?_
  obtain ⟨hset, hs⟩ := hs
  obtain ⟨owners, hr⟩ := hs.reserved
  refine ⟨⟨hl, .advance t _ _ hs.lock hr rfl (hQ _ hs.header), ?_, {}⟩,
    fun _ => ⟨hs.lock, hs.writer, ⟨hs.counted, hset⟩, hs.running,
      ⟨owners, by simp [Ghost.advance, Ghost.proceed, hr]⟩, hs.num (by simp)⟩⟩
  exact { hi.coupled with
    nextSeq := by rw [hs.next, seqWord_add_one]; rfl
    stamped := stamped_proceed hi.coupled hr (by simp) (by simp)
    reserving := reserving_proceed hi.coupled hr
    writer := fun t' w hw hl' => by
      obtain ⟨r, hr', hp, hrest⟩ := hi.coupled.writer t' w hw hl'
      have ht : t' ≠ t := fun e => by rw [e, hr] at hr'; cases hr'; cases hp
      exact ⟨r, (Inv.proceed_reservation hr).mpr (.inr ⟨ht, hr'⟩), hp, hrest⟩ }

/-- A slot in hand whose header satisfies `Q` and whose payload satisfies `B`. -/
structure Drafted (t : Nat) (slot : Fin L.slotCount) (mask sequence : UInt64)
    (Q : TensorHeader → Prop) (B : (Nat → UInt8) → Prop) (v : View P L.slotCount) : Prop where
  inHand : InHand t slot mask sequence v
  header : Q (v.proto.header slot)
  payload : B (v.proto.payload slot)

theorem keeps_drafted {B : (Nat → UInt8) → Prop} :
    Keeps M (.writer t) (Drafted t slot mask sequence Q B) := fun v v' h hv => by
  obtain ⟨owners, hr⟩ := hv.inHand.reserved
  have hown := (h.rely.own hr nofun).1
  exact {
    inHand := keeps_inHand v v' h hv.inHand
    header := by rw [hown.header]; exact hv.header
    payload := by rw [hown.payload]; exact hv.payload }

theorem advance_drafts (hQ : ∀ h, Q h → h.Valid L.slotCapacity) :
    Keeping M (.writer t)
      (Prog.modifyWith (fun s => { s with ring.nextSeq := sequence + 1 }) fun _ g => g.advance t)
      (fun v => v.proto.settled (.writer t) ∧ Writing t slot mask sequence .masked Q v)
      fun _ v => v.proto.lock = some (.writer t) ∧ v.writer t = none ∧
        Drafted t slot mask sequence Q (fun _ => True) v := by
  have hkeep : Keeps M (.writer t) fun v => (v.proto.lock = some (.writer t) ∧
      v.writer t = none ∧ InHand t slot mask sequence v) ∧ Q (v.proto.header slot) :=
    fun v v' h hv => by
      have hd : Drafted t slot mask sequence Q (fun _ => True) v := ⟨hv.1.2.2, hv.2, trivial⟩
      exact ⟨(keeps_lock.and (keeps_writer.and keeps_inHand)) v v' h hv.1,
        (keeps_drafted v v' h hd).header⟩
  exact post (also (advance_keeps hQ) hkeep fun _ _ _ hs _ => hs.2.header) fun _ _ _ hv =>
    ⟨hv.1.1, hv.1.2.1, hv.1.2.2, hv.2, trivial⟩

/-- From `STATE_WRITING` to the slot in hand. `J` is what holds of the header when it has been
written up to these dimensions. -/
theorem writeHeader_drafts (dtype : DType) (ndim : Nat) (shape strides : Fin maxNdim → UInt32)
    (nbytes : Nat) (timestampNs : Option UInt64) (J : List (Fin maxNdim) → TensorHeader → Prop)
    (hstart : ∀ (h : TensorHeader) (stamp : UInt64), (∀ ts, timestampNs = some ts → stamp = ts) →
      J [] { h with timestampNs := stamp, nbytes := UInt64.ofNat nbytes, dtype := dtype.code,
                    ndim := UInt8.ofNat ndim, flags := 0 })
    (hdim : ∀ (h : TensorHeader) (done : List (Fin maxNdim)) (d : Fin maxNdim), J done h →
      J (done ++ [d]) { h with shape := Function.update h.shape d (shape d),
                               strides := Function.update h.strides d (strides d) })
    (hvalid : ∀ h, J (List.finRange maxNdim) h → h.Valid L.slotCapacity) :
    Keeping M (.writer t)
      (Producer.writeHeader t slot sequence mask dtype ndim shape strides nbytes timestampNs)
      (fun v => Alone (.writer t) v ∧ Avail v slot ∧ sequence = seqWord v.proto.hist.next ∧
        ∀ i, i ∈ readers mask ↔ v.proto.hist.holder i ≠ none)
      fun _ v => v.proto.lock = some (.writer t) ∧ v.writer t = none ∧
        Drafted t slot mask sequence (J (List.finRange maxNdim)) (fun _ => True) v := by
  refine seq (begin_keeps (Q := fun _ => True) fun _ => trivial) fun _ =>
    seq storePid_keeps fun _ => seq (X := fun token v =>
      (∃ os, P.running os (P.proc (.writer t)) = true ∧
        token = P.pidStartToken os (P.me (.writer t))) ∧
      Writing t slot mask sequence .header (fun _ => True) v ∧
        v.slotPid slot = P.me (.writer t) ∧ True) ?_ fun token => given fun htoken => ?_
  · exact watch (fun _ => (Keeps.const _).and (keeps_writing_pid (Θ := fun _ => True)))
      fun s g _ _ hs => ⟨⟨s.os, hs.1.running, rfl⟩, hs⟩
  obtain ⟨os, hos, rfl⟩ := htoken
  refine seq (storeToken_keeps hos) fun _ => seq number_keeps fun _ => ?_
  have hkeep : ∀ {Q : TensorHeader → Prop},
      Keeps M (.writer t) (Writing t slot mask sequence .numbered Q) := keeps_writing nofun
  refine seq (X := fun stamp v => (∀ ts, timestampNs = some ts → stamp = ts) ∧
    Writing t slot mask sequence .numbered (fun _ => True) v) ?_ fun stamp => given fun hstamp => ?_
  · cases timestampNs with
    | none => exact post (glance hkeep) fun _ _ _ hv => ⟨nofun, hv⟩
    | some ts => exact ret fun _ _ hv => ⟨fun _ he => Option.some.inj he, hv⟩
  refine seq (storeHeader_keeps (R := fun h => J [] { h with
        nbytes := UInt64.ofNat nbytes, dtype := dtype.code, ndim := UInt8.ofNat ndim, flags := 0 })
      (fun h => { h with timestampNs := stamp }) fun h _ => hstart h stamp hstamp) fun _ =>
    seq (storeHeader_keeps (R := fun h => J [] { h with
        dtype := dtype.code, ndim := UInt8.ofNat ndim, flags := 0 })
      (fun h => { h with nbytes := UInt64.ofNat nbytes }) fun _ hj => hj) fun _ =>
    seq (storeHeader_keeps (R := fun h => J [] { h with ndim := UInt8.ofNat ndim, flags := 0 })
      (fun h => { h with dtype := dtype.code }) fun _ hj => hj) fun _ =>
    seq (storeHeader_keeps (R := fun h => J [] { h with flags := 0 })
      (fun h => { h with ndim := UInt8.ofNat ndim }) fun _ hj => hj) fun _ =>
    seq (storeHeader_keeps (R := J []) (fun h => { h with flags := 0 }) fun _ hj => hj) fun _ =>
    seq (each (fun done _ => Writing t slot mask sequence .numbered (J done))
      (fun done d _ => seq (storeHeader_keeps (R := fun h => J (done ++ [d])
          { h with strides := Function.update h.strides d (strides d) })
        (fun h => { h with shape := Function.update h.shape d (shape d) })
        fun h hj => hdim h done d hj) fun _ => storeHeader_keeps
          (fun h => { h with strides := Function.update h.strides d (strides d) })
          fun _ hj => hj) _) fun _ =>
    seq setMask_keeps fun _ => seq (storeReaders_keeps (keeps_writing nofun) fun v r ch la hv =>
      { hv with settled := fun h => absurd rfl h }) fun _ => advance_drafts hvalid

/-- From `STATE_WRITING` to the slot in hand, with a header that `read_validated` accepts. -/
theorem writeHeader_keeps (dtype : DType) (ndim : Nat) (shape strides : Fin maxNdim → UInt32)
    (nbytes : Nat) (timestampNs : Option UInt64) (hndim : ndim ≤ maxNdim)
    (hnbytes : nbytes ≤ L.slotCapacity) :
    Keeping M (.writer t)
      (Producer.writeHeader t slot sequence mask dtype ndim shape strides nbytes timestampNs)
      (fun v => Alone (.writer t) v ∧ Avail v slot ∧ sequence = seqWord v.proto.hist.next ∧
        ∀ i, i ∈ readers mask ↔ v.proto.hist.holder i ≠ none)
      fun _ v => v.proto.lock = some (.writer t) ∧ v.writer t = none ∧
        InHand t slot mask sequence v := by
  refine post (writeHeader_drafts dtype ndim shape strides nbytes timestampNs
    (fun _ h => h.Valid L.slotCapacity) (fun h stamp _ => ⟨?_, ?_, by simp⟩)
    (fun h _ _ hv => ⟨hv.1, hv.2, hv.3⟩) fun _ hv => hv) fun _ _ _ hv =>
      ⟨hv.1, hv.2.1, hv.2.2.inHand⟩
  · simp only [UInt8.toNat_ofNat']
    exact (Nat.mod_le _ _).trans hndim
  · simp only [UInt64.toNat_ofNat']
    exact (Nat.mod_le _ _).trans hnbytes

/-! ## reservations -/

/-- What a reservation that was attempted has left its writer with. -/
def Attempted (t : Nat) (reserved : Option (Fin L.slotCount × UInt64 × UInt64))
    (v : View P L.slotCount) : Prop :=
  match reserved with
  | none => Unused (.writer t) v ∧ Steady (.writer t) v
  | some (slot, sequence, mask) => v.writer t = none ∧ InHand t slot mask sequence v

theorem keeps_attempted (reserved : Option (Fin L.slotCount × UInt64 × UInt64)) :
    Keeps M (.writer t) (Attempted t reserved) := by
  cases reserved with
  | none => exact keeps_unused.and keeps_steady
  | some r => exact keeps_writer.and keeps_inHand

section

variable {dtype : DType} {ndim : Nat} {shape strides : Fin maxNdim → UInt32} {nbytes : Nat}
  {timestampNs : Option UInt64}
  {Ψ : Option (Fin L.slotCount × UInt64 × UInt64) → View P L.slotCount → Prop}

/-- A reservation leaves its writer with what the stores to the header lead to. -/
theorem reserveHeader_leaves
    (hnone : ∀ v, Unused (.writer t) v ∧ Steady (.writer t) v → Ψ none v)
    (hwrite : ∀ slot sequence mask, Keeping M (.writer t)
      (Producer.writeHeader t slot sequence mask dtype ndim shape strides nbytes timestampNs)
      (fun v => Alone (.writer t) v ∧ Avail v slot ∧ sequence = seqWord v.proto.hist.next ∧
        ∀ i, i ∈ readers mask ↔ v.proto.hist.holder i ≠ none)
      fun _ v => v.proto.lock = some (.writer t) ∧ Ψ (some (slot, sequence, mask)) v) :
    Keeping M (.writer t)
      (Producer.reserveHeader t dtype ndim shape strides nbytes timestampNs) (Alone (.writer t))
      fun reserved v => v.proto.lock = some (.writer t) ∧ Ψ reserved v := by
  refine seq reapDead_keeps fun _ => ?_
  refine seq chooseSlot_keeps fun chosen => ?_
  cases chosen with
  | none => exact ret fun v _ hv => ⟨hv.1.1, hnone v hv.1.2⟩
  | some slot =>
    have hnext : ∀ sequence, Keeps M (.writer t) fun v => v.proto.lock = some (.writer t) ∧
        (Unused (.writer t) v ∧ Steady (.writer t) v) ∧ Avail v slot ∧
          sequence = seqWord v.proto.hist.next :=
      fun sequence => Keeps.locked fun v v' h hL hl hv =>
        ⟨(keeps_unused.and keeps_steady) v v' h hv.1, hv.2.1.kept hL, by rw [hL.next]; exact hv.2.2⟩
    refine pre (seq (X := fun sequence v => v.proto.lock = some (.writer t) ∧
      (Unused (.writer t) v ∧ Steady (.writer t) v) ∧ Avail v slot ∧
        sequence = seqWord v.proto.hist.next) ?_
      fun sequence => seq (activeMask_keeps (hnext sequence)) fun mask => ?_)
      fun v _ hv => show Alone (.writer t) v ∧ Avail v slot from ⟨hv.1, hv.2 slot rfl⟩
    · exact look (fun v => v.nextSeq) (fun _ _ => rfl) hnext fun v hi _ hs =>
        ⟨hs.1.1, hs.1.2, hs.2, hi.coupled.nextSeq⟩
    · refine pre (seq (hwrite slot sequence mask) fun _ => ret fun v _ hv => hv) fun v _ hv =>
        ⟨⟨hv.1.1, hv.1.2.1⟩, hv.1.2.2.1, hv.1.2.2.2, hv.2⟩

theorem lockedReserve_leaves (hΨ : ∀ reserved, Keeps M (.writer t) (Ψ reserved))
    (hunlock : ∀ reserved v, Ψ reserved v →
      Ψ reserved { v with proto := { v.proto with lock := none } })
    (hattempted : ∀ reserved v, Ψ reserved v → Attempted t reserved v)
    (hnone : ∀ v, Unused (.writer t) v ∧ Steady (.writer t) v → Ψ none v)
    (hwrite : ∀ slot sequence mask, Keeping M (.writer t)
      (Producer.writeHeader t slot sequence mask dtype ndim shape strides nbytes timestampNs)
      (fun v => Alone (.writer t) v ∧ Avail v slot ∧ sequence = seqWord v.proto.hist.next ∧
        ∀ i, i ∈ readers mask ↔ v.proto.hist.holder i ≠ none)
      fun _ v => v.proto.lock = some (.writer t) ∧ Ψ (some (slot, sequence, mask)) v) :
    Keeping M (.writer t)
      (Producer.lockedReserve t dtype ndim shape strides nbytes timestampNs)
      (fun v => Unused (.writer t) v ∧ Steady (.writer t) v) Ψ := by
  refine seq (lockRegistry_keeps (keeps_unused.and keeps_steady) fun _ hv => hv) fun _ =>
    seq (reserveHeader_leaves hnone hwrite) fun reserved =>
      seq (unlockRegistry_keeps (hΨ reserved) (hunlock reserved) (fun v hv t' r ht hr => ?_)
        fun v hv => ?_) fun _ => ret fun _ _ hv => hv
  · cases ht
    have hv := hattempted reserved v hv
    cases reserved with
    | none => rw [hv.1.2.2] at hr; cases hr
    | some r =>
      obtain ⟨owners, ho⟩ := hv.2.reserved
      rw [ho] at hr
      cases hr
      rfl
  · have hv := hattempted reserved v hv
    cases reserved with
    | none => exact hv.2.1
    | some r => exact hv.2.steady.1

end

theorem lockedReserve_keeps (dtype : DType) (ndim : Nat) (shape strides : Fin maxNdim → UInt32)
    (nbytes : Nat) (timestampNs : Option UInt64) (hndim : ndim ≤ maxNdim)
    (hnbytes : nbytes ≤ L.slotCapacity) :
    Keeping M (.writer t)
      (Producer.lockedReserve t dtype ndim shape strides nbytes timestampNs)
      (fun v => Unused (.writer t) v ∧ Steady (.writer t) v) (Attempted t) := by
  refine lockedReserve_leaves keeps_attempted (fun reserved v hv => ?_) (fun _ _ hv => hv)
    (fun _ hv => hv)
    fun slot sequence mask =>
      writeHeader_keeps dtype ndim shape strides nbytes timestampNs hndim hnbytes
  cases reserved with
  | none => exact hv
  | some r => exact ⟨hv.1, hv.2.steady, hv.2.running, hv.2.reserved, hv.2.num⟩

/-- Whoever gives up has not got anything. -/
theorem backOff_leaves {α : Type} (policy : Backpressure) (deadline : Nat)
    {Θ : View P L.slotCount → Prop} (hΘ : Keeps M (.writer t) Θ) :
    Keeping M (.writer t)
      (Producer.backOff t policy deadline : RingM P L.slotCount (Option (Except Error (Option α))))
      Θ fun r v => (∀ x, r ≠ some (.ok (some x))) ∧ Θ v := by
  have hrest : Keeping M (.writer t) (do
      let time ← now
      if deadline ≤ time then return some (.error .ringFull)
      let observed ← load (·.reclaimFutex)
      futexWait (.writer t) .reclaim observed
      return none : RingM P L.slotCount (Option (Except Error (Option α))))
      Θ fun r v => (∀ x, r ≠ some (.ok (some x))) ∧ Θ v := by
    refine seq (glance hΘ) fun time => ?_
    split
    · exact ret fun _ _ hv => ⟨by simp, hv⟩
    · exact seq (glance hΘ) fun observed => seq (futexWait_keeps _ _ hΘ) fun _ =>
        ret fun _ _ hv => ⟨by simp, hv⟩
  unfold Producer.backOff
  split
  · exact seq (silent (fun _ _ => rfl) hΘ) fun _ => ret fun _ _ hv => ⟨by simp, hv⟩
  · exact hrest

theorem backOff_keeps {α : Type} (policy : Backpressure) (deadline : Nat)
    {Θ : View P L.slotCount → Prop} (hΘ : Keeps M (.writer t) Θ) :
    Keeping M (.writer t)
      (Producer.backOff t policy deadline : RingM P L.slotCount (Option (Except Error (Option α))))
      Θ fun _ => Θ :=
  post (backOff_leaves policy deadline hΘ) fun _ _ _ hv => hv.2

/-! ## the slot in hand -/

/-- A store to the payload or to the header of the slot in hand. -/
theorem body_keeps {f : Slot → Slot} {Θ : View P L.slotCount → Prop}
    (header : View P L.slotCount → TensorHeader) (payload : View P L.slotCount → Nat → UInt8)
    (hview : ∀ s g, view ({ s with ring := s.ring.setSlot slot f }, g) =
      { view (s, g) with proto := { (view (s, g)).proto with
        header := Function.update (view (s, g)).proto.header slot (header (view (s, g)))
        payload := Function.update (view (s, g)).proto.payload slot (payload (view (s, g))) } })
    (hvalid : ∀ v, (v.proto.header slot).Valid L.slotCapacity →
      (header v).Valid L.slotCapacity)
    (hΘ : Keeps M (.writer t) Θ)
    (hbody : ∀ v hd pl, Θ v → Θ { v with proto := { v.proto with header := hd, payload := pl } }) :
    Keeping M (.writer t) (storeSlot slot f) (fun v => InHand t slot mask sequence v ∧ Θ v)
      fun _ v => InHand t slot mask sequence v ∧ Θ v := by
  refine put (u := fun _ g => g) (fun v => { v with proto := { v.proto with
      header := Function.update v.proto.header slot (header v)
      payload := Function.update v.proto.payload slot (payload v) } }) hview
    (keeps_inHand.and hΘ) fun v hi hl hs => ?_
  obtain ⟨owners, hr⟩ := hs.1.reserved
  exact ⟨⟨hl, .body t _ _ _ _ hr nofun fun _ => hvalid v (hi.proto.validInHand t _ hr rfl),
    { hi.coupled with }, {}⟩,
    fun _ => ⟨⟨hs.1.steady, hs.1.running, ⟨owners, hr⟩, hs.1.num⟩, hbody _ _ _ hs.2⟩⟩

theorem writeByte_keeps (off : Nat) (b : UInt8) {Θ : View P L.slotCount → Prop}
    (hΘ : Keeps M (.writer t) Θ)
    (hbody : ∀ v hd pl, Θ v → Θ { v with proto := { v.proto with header := hd, payload := pl } }) :
    Keeping M (.writer t) (Producer.writeByte slot off b)
      (fun v => InHand t slot mask sequence v ∧ Θ v)
      fun _ v => InHand t slot mask sequence v ∧ Θ v :=
  body_keeps (fun v => v.proto.header slot)
    (fun v => Function.update (v.proto.payload slot) off b)
    (fun s g => (view_payload s g slot _).trans (by rw [Function.update_eq_self]; rfl))
    (fun _ h => h) hΘ hbody

theorem copyPayload_keeps (data : List UInt8) {Θ : View P L.slotCount → Prop}
    (hΘ : Keeps M (.writer t) Θ)
    (hbody : ∀ v hd pl, Θ v → Θ { v with proto := { v.proto with header := hd, payload := pl } }) :
    Keeping M (.writer t) (Producer.copyPayload slot data)
      (fun v => InHand t slot mask sequence v ∧ Θ v)
      fun _ v => InHand t slot mask sequence v ∧ Θ v :=
  each (fun _ _ v => InHand t slot mask sequence v ∧ Θ v)
    (fun _ x _ => writeByte_keeps x.2 x.1 hΘ hbody) _

theorem setTimestampNs_keeps (self : SlotWriter L.slotCount) (timestampNs : UInt64)
    {Θ : View P L.slotCount → Prop} (hΘ : Keeps M (.writer t) Θ)
    (hbody : ∀ v hd pl, Θ v → Θ { v with proto := { v.proto with header := hd, payload := pl } }) :
    Keeping M (.writer t) (self.setTimestampNs timestampNs)
      (fun v => InHand t self.slot mask sequence v ∧ Θ v)
      fun _ v => InHand t self.slot mask sequence v ∧ Θ v :=
  body_keeps (fun v => { v.proto.header self.slot with timestampNs := timestampNs })
    (fun v => v.proto.payload self.slot)
    (fun s g => (view_header s g self.slot _).trans (by rw [Function.update_eq_self]; rfl))
    (fun _ h => ⟨h.1, h.2, h.3⟩) hΘ hbody

/-- Writer `t` is running and has nothing, and nothing left to count. -/
abbrev Free (t : Nat) (v : View P L.slotCount) : Prop :=
  Unused (.writer t) v ∧ Steady (.writer t) v

theorem keeps_free : Keeps M (.writer t) (Free t) := keeps_unused.and keeps_steady

/-- The store that makes the slot visible: what is in it is published. -/
theorem storeCommitted_keeps :
    Keeping M (.writer t)
      (storeSlotWith slot (fun s => { s with state := .committed })
        fun s g => g.commit t ((s.ring.slots slot).publication slot mask))
      (fun v => v.writer t = none ∧ InHand t slot mask sequence v) fun _ => Free t := by
  refine put (fun v => { v with proto := { v.proto with
      state := Function.update v.proto.state slot .committed
      hist := v.proto.hist.commit t
        { slot := slot, sequence := v.sequence slot, header := v.proto.header slot,
          payload := v.proto.payload slot, mask := mask } } })
    (fun s g => view_hist (view_state s g slot _)) keeps_free fun v hi hl hs => ?_
  obtain ⟨owners, hr⟩ := hs.2.reserved
  refine ⟨⟨hl, ?_, ?_, {}⟩, fun _ => ⟨⟨hs.2.running, hs.1, by simp [Ghost.commit]⟩, hs.2.steady⟩⟩
  · rw [hi.coupled.sequence slot]
    exact .commit t _ _ hr rfl
  · exact { hi.coupled with
      stamped := fun t' r hr' => hi.coupled.stamped t' r (Inv.drop_reservation.mp hr').2
      reserving := fun t' r hr' => hi.coupled.reserving t' r (Inv.drop_reservation.mp hr').2
      writer := fun t' w hw hl' => by
        obtain ⟨r, hr', hrest⟩ := hi.coupled.writer t' w hw hl'
        have ht : t' ≠ t := fun e => by
          have : v.writer t = some w := e ▸ hw
          rw [hs.1] at this
          cases this
        exact ⟨r, Inv.drop_reservation.mpr ⟨ht, hr'⟩, hrest⟩ }

/-- The commit. -/
theorem commitSlot_keeps :
    Keeping M (.writer t) (Producer.commitSlot t slot mask)
      (fun v => v.writer t = none ∧ InHand t slot mask sequence v) fun _ => Free t :=
  seq storeCommitted_keeps fun _ =>
    seq (silent (fun _ _ => rfl) keeps_free) fun _ => signal_keeps _ keeps_free

theorem publish_keeps (view : TensorView) (policy : Backpressure) (timeout : Nat) :
    Keeping M (.writer t) (void (Producer.publish L t view policy timeout)) (Free t)
      fun _ => rest (.writer t) := by
  refine seq (X := fun _ => Free t) ?_ fun _ => ret fun _ _ hv => hv.1.rest hv.2
  unfold Producer.publish
  split
  · exact ret fun _ _ hv => hv
  next hcap =>
  refine seq (glance keeps_free) fun start => loop keeps_free (fun _ => keeps_free) ?_
  refine seq (lockedReserve_keeps _ _ _ _ _ _ view.ndim_le (Nat.le_of_not_lt hcap))
    fun reserved => ?_
  cases reserved with
  | none => exact post (backOff_keeps policy _ keeps_free) fun r _ _ hv => by cases r <;> exact hv
  | some r =>
    refine seq (pre (copyPayload_keeps _ (Θ := fun v => v.writer t = none) keeps_writer
      fun _ _ _ hv => hv) fun v _ hv => ⟨hv.2, hv.1⟩) fun _ => ?_
    exact seq (pre commitSlot_keeps fun v _ hv => ⟨hv.2, hv.1⟩) fun _ => ret fun _ _ hv => hv

theorem reserve_keeps (dtype : DType) (shape : List UInt32) (policy : Backpressure)
    (timeout : Nat) :
    Keeping M (.writer t) (void (Producer.reserve L t dtype shape policy timeout)) (Free t)
      fun _ => rest (.writer t) := by
  refine seq (X := fun _ => rest (.writer t)) ?_ fun _ => ret fun _ _ hv => hv
  unfold Producer.reserve
  split
  · exact ret fun _ _ hv => hv.1.rest hv.2
  next hndim =>
  dsimp only
  split
  · exact ret fun _ _ hv => hv.1.rest hv.2
  next hcap =>
  refine seq (glance keeps_free) fun start => loop keeps_free (fun _ => keeps_rest) ?_
  refine seq (lockedReserve_keeps _ _ _ _ _ _ (Nat.le_of_not_lt hndim) (Nat.le_of_not_lt hcap))
    fun reserved => ?_
  cases reserved with
  | none =>
    exact post (backOff_keeps policy _ keeps_free) fun r _ _ hv => by
      cases r with
      | none => exact hv
      | some b => exact Unused.rest (a := .writer t) hv.1 hv.2
  | some r =>
    obtain ⟨slot, sequence, mask⟩ := r
    -- the writer is handed out
    have hout : Keeping M (.writer t) (do
        let w : SlotWriter L.slotCount :=
          { slot := slot, sequence := sequence, mask := mask, nbytes := impliedBytes dtype shape }
        Prog.modify fun s => { s with writer := Function.update s.writer t (some w) }
        return some (.ok (some w)))
        (fun v => InHand t slot mask sequence v ∧ v.writer t = none)
        fun (r : Option (Except Error (Option (SlotWriter L.slotCount)))) v => match r with
          | none => Free t v
          | some _ => rest (.writer t) v := by
      refine seq (put (u := fun _ g => g) (fun v => { v with
        writer := Function.update v.writer t (some
          { slot := slot, sequence := sequence, mask := mask,
            nbytes := impliedBytes dtype shape }) }) (fun _ _ => rfl) keeps_rest
        fun v hi hl hs => ⟨⟨hl, .idle _ _, ?_, ?_⟩,
          fun _ => ⟨hs.1.steady, fun hn => by simp at hn⟩⟩)
          fun _ => ret fun _ _ hv => hv
      · obtain ⟨owners, hr⟩ := hs.1.reserved
        exact { hi.coupled with
          writer := fun t' w hw hl' => by
            by_cases ht : t' = t
            · subst ht
              simp only [Function.update_self, Option.some.injEq] at hw
              subst hw
              exact ⟨_, hr, rfl, rfl, rfl, hs.1.num⟩
            · exact hi.coupled.writer t' w (by simpa [ht] using hw) hl' }
      · exact {
          writer := fun t' ht' => by
            have : t' ≠ t := fun e => ht' (by rw [e])
            simp [this] }
    refine pre (Φ := fun v => InHand t slot mask sequence v ∧ v.writer t = none) ?_
      fun v _ hv => ⟨hv.2, hv.1⟩
    dsimp only
    split
    · exact seq (copyPayload_keeps _ keeps_writer fun _ _ _ hv => hv) fun _ => hout
    · exact hout

/-- A writer that has a handle has the slot of it in hand. -/
theorem inHand_of_writer {v : View P L.slotCount} {w : SlotWriter L.slotCount}
    (hc : Coupled M.guards v) (hl : v.proto.alive (.writer t)) (hs : Steady (.writer t) v)
    (hw : v.writer t = some w) : InHand t w.slot w.mask w.sequence v := by
  obtain ⟨r, hr, hp, hws, hm, hq⟩ := hc.writer t w hw hl
  refine ⟨hs, hc.reserving t r hr hl, ⟨r.owners, ?_⟩, hq⟩
  rw [hr, ← hws, ← hm, ← hp]

/-- The handle is used up. -/
theorem consume_keeps :
    Keeping M (.writer t) (SlotWriter.consume t) (InHand t slot mask sequence)
      fun _ v => v.writer t = none ∧ InHand t slot mask sequence v := by
  refine put (u := fun _ g => g) (fun v => { v with writer := Function.update v.writer t none })
    (fun _ _ => rfl) (keeps_writer.and keeps_inHand) fun v hi hl hs => ⟨⟨hl, .idle _ _, ?_, ?_⟩,
      fun _ => ⟨by simp, hs.steady, hs.running, hs.reserved, hs.num⟩⟩
  · exact { hi.coupled with
      writer := fun t' w hw hl' => by
        have ht : t' ≠ t := fun e => by simp [e] at hw
        exact hi.coupled.writer t' w (by simpa [ht] using hw) hl' }
  · exact {
      writer := fun t' ht' => by
        have : t' ≠ t := fun e => ht' (by rw [e])
        simp [this] }

theorem commit_keeps (w : SlotWriter L.slotCount) :
    Keeping M (.writer t) (void (w.commit t)) (InHand t w.slot w.mask w.sequence)
      fun _ => rest (.writer t) :=
  seq (X := fun _ => Free t) (seq consume_keeps fun _ =>
    seq commitSlot_keeps fun _ => ret fun _ _ hv => hv) fun _ =>
      ret fun _ _ hv => hv.1.rest hv.2

/-! ## aborts -/

/-- Under the lock, a slot in hand on its way back. -/
structure Returning (t : Nat) (slot : Fin L.slotCount) (mask sequence : UInt64) (ph : Phase)
    (v : View P L.slotCount) : Prop where
  lock : v.proto.lock = some (.writer t)
  running : v.running (.writer t)
  counted : v.proto.counted (.writer t)
  settled : ph ≠ .aborting → v.proto.settled (.writer t)
  writer : v.writer t = none
  reserved : Reserved t slot mask ph v
  num : sequence = seqWord (v.proto.hist.num slot)

theorem keeps_returning {ph : Phase} :
    Keeps M (.writer t) (Returning t slot mask sequence ph) := fun v v' h hv => by
  obtain ⟨owners, hr⟩ := hv.reserved
  exact ⟨h.rely.lock hv.lock, keeps_running v v' h hv.running, h.rely.counted hv.counted,
    fun hp => h.rely.notes.2.trans (hv.settled hp), (h.writer t rfl).trans hv.writer,
    ⟨owners, h.rely.reservation.trans hr⟩, hv.num.trans (by rw [(h.rely.locked hv.lock).num])⟩

/-- The handles of the other writers are not concerned when a writer without a handle moves its
reservation on. -/
theorem writer_proceed {v : View P L.slotCount} {ph : Phase} {r : Reservation L.slotCount}
    (hc : Coupled M.guards v) (hw : v.writer t = none) (hr : v.proto.hist.reservation t = some r) :
    ∀ t' w, v.writer t' = some w → v.proto.alive (.writer t') →
      ∃ r, (v.proto.hist.proceed t ph).reservation t' = some r ∧ r.phase = .inHand ∧
        r.slot = w.slot ∧ r.mask = w.mask ∧ w.sequence = seqWord (v.proto.hist.num w.slot) :=
  fun t' w hw' hl' => by
    obtain ⟨r', hr', hrest⟩ := hc.writer t' w hw' hl'
    have ht : t' ≠ t := fun e => by rw [e, hw] at hw'; cases hw'
    exact ⟨r', (Inv.proceed_reservation hr).mpr (.inr ⟨ht, hr'⟩), hrest⟩

theorem cancel_keeps :
    Keeping M (.writer t)
      (storeSlotWith slot (fun s => { s with readersMask := 0 }) fun _ g =>
        (g.proceed t .aborting).change (.writer t) slot)
      (Returning t slot mask sequence .inHand)
      fun _ v => Changing (.writer t) slot 0 v ∧ Returning t slot mask sequence .aborting v := by
  refine put (fun v => { v with proto := { v.proto with
      mask := Function.update v.proto.mask slot ∅
      hist := (v.proto.hist.proceed t .aborting).change (.writer t) slot } })
    (fun s g => view_hist (view_noReaders s g slot)) (keeps_changing.and keeps_returning)
    fun v hi hl hs => ?_
  obtain ⟨owners, hr⟩ := hs.reserved
  refine ⟨⟨hl, .cancel t _ _ hs.lock hr rfl (hs.settled (by simp)), ?_,
    { readers := fun _ => .inl ⟨rfl, fun _ => by simp [Ghost.change]⟩ }⟩,
    fun _ => ⟨⟨by simp [Ghost.change], fun _ => by simp⟩, hs.lock, hs.running, hs.counted,
      fun h => absurd rfl h, hs.writer, ⟨owners, by simp [Ghost.change, Ghost.proceed, hr]⟩,
      hs.num⟩⟩
  exact { hi.coupled with
    stamped := stamped_proceed hi.coupled hr (by simp) (by simp)
    reserving := reserving_proceed hi.coupled hr
    writer := writer_proceed hi.coupled hs.writer hr }

theorem free_keeps :
    Keeping M (.writer t)
      (storeSlotWith slot (fun s => { s with state := .free }) fun _ g => g.proceed t .returning)
      (fun v => v.proto.settled (.writer t) ∧ Returning t slot mask sequence .aborting v)
      fun _ => Returning t slot mask sequence .returning := by
  refine put (fun v => { v with proto := { v.proto with
      state := Function.update v.proto.state slot .free
      hist := v.proto.hist.proceed t .returning } })
    (fun s g => view_hist (view_state s g slot _)) keeps_returning fun v hi hl ⟨hset, hs⟩ => ?_
  obtain ⟨owners, hr⟩ := hs.reserved
  refine ⟨⟨hl, .free t _ _ hs.lock hr rfl, ?_, {}⟩, fun _ => ⟨hs.lock, hs.running, hs.counted,
    fun _ => hset, hs.writer, ⟨owners, by simp [Ghost.proceed, hr]⟩, hs.num⟩⟩
  exact { hi.coupled with
    stamped := stamped_proceed hi.coupled hr (by simp) (by simp)
    reserving := reserving_proceed hi.coupled hr
    writer := writer_proceed hi.coupled hs.writer hr }

/-- The exchange that gives the number back to the counter, if it is the last one assigned. -/
theorem exchange_keeps :
    Keeping M (.writer t)
      (Prog.atomicWith
        (fun s => some (if s.ring.nextSeq = sequence + 1
          then (true, { s with ring.nextSeq := sequence }) else (false, s)))
        fun handedBack _ g => g.forget t handedBack)
      (Returning t slot mask sequence .returning)
      fun _ v => v.proto.lock = some (.writer t) ∧ Free t v := by
  refine change (fun handedBack v => { v with
      proto := { v.proto with hist := v.proto.hist.forget t handedBack }
      nextSeq := if handedBack then sequence else v.nextSeq }) (fun s g b m hm => ?_)
    (fun _ => keeps_lock.and keeps_free) fun s g b m hm hi hl hs => ?_
  · have hm := Option.some.inj hm
    split at hm <;> cases hm <;> rfl
  obtain ⟨owners, hr⟩ := hs.reserved
  have hnum : sequence + 1 = seqWord (g.num slot + 1) := by
    rw [← seqWord_add_one, hs.num]; rfl
  have hex : b = true ↔ seqWord g.next = seqWord (g.num slot + 1) := by
    rw [← hnum, ← show s.ring.nextSeq = seqWord g.next from hi.coupled.nextSeq]
    have hm := Option.some.inj hm
    split at hm <;> cases hm <;> simpa
  refine ⟨⟨hl, .forget t _ _ b hs.lock hr rfl hex, ?_, {}⟩,
    fun _ _ => ⟨hs.lock, ⟨hs.running, hs.writer, by simp [Ghost.forget]⟩, hs.counted,
      hs.settled nofun⟩⟩
  exact { hi.coupled with
    nextSeq := by
      cases b with
      | false => exact hi.coupled.nextSeq
      | true =>
        have hback := congrArg (· - 1) (hex.mp rfl)
        simp only [seqWord_sub_one, add_sub_cancel_right] at hback
        exact hs.num.trans hback.symm
    stamped := fun t' r hr' => hi.coupled.stamped t' r (Inv.drop_reservation.mp hr').2
    reserving := fun t' r hr' => hi.coupled.reserving t' r (Inv.drop_reservation.mp hr').2
    writer := fun t' w hw hl' => by
      obtain ⟨r, hr', hrest⟩ := hi.coupled.writer t' w hw hl'
      have ht : t' ≠ t := fun e => by
        have : (view (s, g)).writer t = some w := e ▸ hw
        rw [hs.writer] at this
        cases this
      exact ⟨r, Inv.drop_reservation.mpr ⟨ht, hr'⟩, hrest⟩ }

theorem abort_keeps (w : SlotWriter L.slotCount) :
    Keeping M (.writer t) (w.abort t) (InHand t w.slot w.mask w.sequence)
      fun _ => rest (.writer t) := by
  refine seq consume_keeps fun _ => ?_
  refine seq (lockRegistry_keeps (keeps_writer.and keeps_inHand)
    fun v hv => ⟨hv.1, hv.2.steady, hv.2.running, hv.2.reserved, hv.2.num⟩) fun _ => ?_
  refine pre (Φ := Returning t w.slot w.mask w.sequence .inHand) ?_ fun v _ hv =>
    ⟨hv.1, hv.2.2.running, hv.2.2.steady.1, fun _ => hv.2.2.steady.2, hv.2.1, hv.2.2.reserved,
      hv.2.2.num⟩
  refine seq cancel_keeps fun _ => seq (storeReaders_keeps keeps_returning fun v r ch la hv =>
    { hv with settled := fun h => absurd rfl h }) fun _ =>
    seq free_keeps fun _ => seq exchange_keeps fun _ => ?_
  refine post (seq (unlockRegistry_keeps keeps_free (fun _ hv => hv) (fun v hv t' r ht hr => ?_)
    fun v hv => hv.2.1) fun _ => signal_keeps _ keeps_free) fun _ _ _ hv => hv.1.rest hv.2
  cases ht
  rw [hv.1.2.2] at hr
  cases hr

end TenzorBus.Refine
