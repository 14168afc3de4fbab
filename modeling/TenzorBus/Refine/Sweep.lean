import TenzorBus.Refine.Registry

/-!
# Sweeps refine the protocol

Proof outlines for `reap_dead`.

* `Sweeping` : how far a sweep has come
* `reapEntry_keeps`, `reapSlot_keeps` : one registry entry, one slot
* `reapDead_keeps` : a sweep takes only what the dead have left
-/

namespace TenzorBus.Refine

open Conc

variable {P : Platform} {L : RingLayout} {M : Mode P L.slotCount} {a : Actor}

/-- The liveness check, asked under the lock about what is recorded. -/
theorem verdict_keeps {s : Subject L.slotCount} {pid token : UInt32} {x : Sweep L.slotCount}
    {Θ : View P L.slotCount → Prop} (hΘ : Keeps M a fun v => v.proto.lock = some a ∧ Θ v)
    (idle : ∀ v, Θ v → ∀ t, a = .writer t → v.proto.hist.reservation t = none)
    (hword : ∀ v, Θ v → P.pidAliveWithToken v.os pid token = v.check s)
    (howner : ∀ v, Θ v → ∀ j, s = .slot j → ∃ t, v.Marked j t)
    (hbefore : ∀ v, Θ v → x.before <:+ v.proto.hist.verdicts)
    (hhist : ∀ v y, Θ v → Θ { v with proto := { v.proto with
      hist := { v.proto.hist with verdicts := y :: v.proto.hist.verdicts } } }) :
    Keeping M a (pidAliveWithToken s pid token) (fun v => v.proto.lock = some a ∧ Θ v) fun b v =>
      (v.proto.lock = some a ∧ Θ v) ∧ (b = true → v.proto.Spared x s) ∧
        (b = false → v.proto.gone M.guards s) := by
  refine change (fun b v => { v with proto := { v.proto with hist := { v.proto.hist with
      verdicts := { subject := s, alive := b } :: v.proto.hist.verdicts } } })
    (fun s g b t ht => by cases Option.some.inj ht; rfl) (fun b v v' h hv => ?_)
    fun s' g b t ht hi hl hs => ⟨⟨hl, .verdict _ _ _ hs.1 (idle _ hs.2), { hi.coupled with },
      { verdict := fun y hy => ?_ }⟩,
        fun _ hok => ⟨⟨hs.1, hhist _ _ hs.2⟩, fun hb => ?_, fun hb => ?_⟩⟩
  · exact ⟨hΘ v v' h hv.1, fun hb => (hv.2.1 hb).mono h.rely.verdicts,
      fun hb => h.rely.gone hv.1.1 (hv.2.2 hb)⟩
  · cases List.head_eq_of_cons_eq hy
    cases Option.some.inj ht
    exact ⟨hword _ hs.2, howner _ hs.2⟩
  · obtain ⟨new, hnew⟩ := hbefore _ hs.2
    exact ⟨{ subject := s, alive := b } :: new, by simp [← hnew], _, List.mem_cons_self, rfl, hb⟩
  · have hd := hok _ rfl hb
    cases s <;> exact hd

/-- Under the lock, with nothing of its own. -/
def Alone (a : Actor) (v : View P L.slotCount) : Prop :=
  v.proto.lock = some a ∧ Unused a v ∧ Steady a v

theorem keeps_alone : Keeps M a (Alone a) := keeps_lock.and (keeps_unused.and keeps_steady)

/-- In the middle of the sweep `x`, when it has been through these entries and slots. -/
structure Sweeping (a : Actor) (x : Sweep L.slotCount) (entries : List (Fin 64))
    (slots : List (Fin L.slotCount)) (v : View P L.slotCount) : Prop where
  unused : Unused a v
  sweep : v.proto.hist.sweeping a = some x
  before : x.before <:+ v.proto.hist.verdicts
  entry : ∀ i ∈ entries, v.entryState i = .active →
    v.entryPid i = P.me a ∨ v.proto.Spared x (.entry i)
  slot : ∀ j ∈ slots, v.proto.state j = .writing →
    v.slotPid j = P.me a ∨ v.proto.Spared x (.slot j)

variable {x : Sweep L.slotCount} {entries : List (Fin 64)} {slots : List (Fin L.slotCount)}

/-- Nobody else is in the header of a reservation, so pid and token stay what they are. -/
theorem stays (v v' : View P L.slotCount) (h : Relies M a v v') (hl : v.proto.lock = some a)
    (j : Fin L.slotCount) : v'.slotPid j = v.slotPid j ∧ v'.slotToken j = v.slotToken j :=
  h.slotPid j fun t r ht hr hp hlive => by
    have hlock := h.rely.inv.locked t r hr (by rw [hp]; nofun) hlive
    exact absurd (Option.some.inj (hl.symm.trans hlock)) ht

theorem marked (v v' : View P L.slotCount) (h : Relies M a v v') (hl : v.proto.lock = some a)
    {j : Fin L.slotCount} {t : Nat} (ht : v.Marked j t) : v'.Marked j t := by
  intro hlive
  obtain ⟨hpid, htoken⟩ := stays v v' h hl j
  obtain ⟨hstamped, hrun⟩ := ht (h.rely.alive_of hlive)
  refine ⟨?_, h.running _ hlive hrun⟩
  rw [View.Stamped, hpid, htoken]
  exact hstamped

theorem keeps_notWriting {j : Fin L.slotCount} :
    Keeps M a fun v => v.proto.lock = some a ∧ v.proto.state j ≠ .writing := fun _ _ h hv =>
  ⟨h.rely.lock hv.1, by rw [(h.rely.locked hv.1).state j hv.2]; exact hv.2⟩

theorem keeps_notActive {i : Fin 64} :
    Keeps M a fun v => v.proto.lock = some a ∧ v.entryState i ≠ .active := fun _ _ h hv =>
  ⟨h.rely.lock hv.1, fun ha => hv.2 <| by
    rw [h.inv.coupled.entryState, ← (h.rely.locked hv.1).holder]
    exact (h.inv'.coupled.entryState i).mp ha⟩

theorem keeps_sweep :
    Keeps M a fun v => v.proto.lock = some a ∧ Sweeping a x entries slots v := by
  intro v v' h ⟨hl, hv⟩
  refine ⟨h.rely.lock hl, keeps_unused v v' h hv.unused, keeps_sweeping v v' h hv.sweep,
    hv.before.trans h.rely.verdicts, fun i hi ha => ?_, fun j hj hw => ?_⟩
  · have ha : v.entryState i = .active := by_contra fun hn => (keeps_notActive v v' h ⟨hl, hn⟩).2 ha
    exact (hv.entry i hi ha).imp (fun hp => by rw [h.entryPid hl]; exact hp)
      fun hs => hs.mono h.rely.verdicts
  · have hw : v.proto.state j = .writing :=
      by_contra fun hn => (keeps_notWriting v v' h ⟨hl, hn⟩).2 hw
    exact (hv.slot j hj hw).imp (fun hp => (stays v v' h hl j).1.trans hp)
      fun hs => hs.mono h.rely.verdicts

theorem Sweeping.counting {v : View P L.slotCount} (h : Sweeping a x entries slots v) (n : UInt32)
    (e : Fin 64 → RegistryState) (ho : Fin 64 → Option Nat) (co : Option (Actor × Bool))
    (he : ∀ i, e i = .active → v.entryState i = .active) :
    Sweeping a x entries slots { v with
      consumers := n, entryState := e
      proto := { v.proto with hist := { v.proto.hist with holder := ho, counting := co } } } where
  unused := by cases a <;> exact h.unused
  sweep := h.sweep
  before := h.before
  entry i hi ha := h.entry i hi (he i ha)
  slot := h.slot

theorem Sweeping.readerless : Readerless (Sweeping (P := P) a x entries slots) :=
  fun _ _ _ _ _ h => ⟨by cases a <;> exact h.unused, h.sweep, h.before, h.entry, h.slot⟩

theorem Sweeping.verdict {v : View P L.slotCount} (h : Sweeping a x entries slots v)
    (y : Verdict L.slotCount) :
    Sweeping a x entries slots { v with proto := { v.proto with
      hist := { v.proto.hist with verdicts := y :: v.proto.hist.verdicts } } } where
  unused := by cases a <;> exact h.unused
  sweep := h.sweep
  before := h.before.trans (List.suffix_cons _ _)
  entry i hi ha := (h.entry i hi ha).imp_right fun hs => hs.mono (List.suffix_cons _ _)
  slot j hj hw := (h.slot j hj hw).imp_right fun hs => hs.mono (List.suffix_cons _ _)

/-- One more entry that is as it should be. -/
theorem Sweeping.next {v : View P L.slotCount} (h : Sweeping a x entries slots v) {i : Fin 64}
    (hi : v.entryState i = .active → v.entryPid i = P.me a ∨ v.proto.Spared x (.entry i)) :
    Sweeping a x (entries ++ [i]) slots v :=
  { h with
    entry := fun i' hi' => by
      rcases List.mem_append.mp hi' with hi' | hi'
      · exact h.entry i' hi'
      · rw [List.mem_singleton.mp hi']; exact hi }

/-- One more slot that is as it should be. -/
theorem Sweeping.nextSlot {v : View P L.slotCount} (h : Sweeping a x entries slots v)
    {j : Fin L.slotCount}
    (hj : v.proto.state j = .writing → v.slotPid j = P.me a ∨ v.proto.Spared x (.slot j)) :
    Sweeping a x entries (slots ++ [j]) v :=
  { h with
    slot := fun j' hj' => by
      rcases List.mem_append.mp hj' with hj' | hj'
      · exact h.slot j' hj'
      · rw [List.mem_singleton.mp hj']; exact hj }

/-- A registration whose process is gone. -/
theorem reapEntry_keeps (freed : Bool) (i : Fin 64) :
    Keeping M a (Ring.reapEntry a freed i)
      (fun v => (v.proto.lock = some a ∧ Sweeping a x entries slots v) ∧ Steady a v) fun _ v =>
        (v.proto.lock = some a ∧ Sweeping a x (entries ++ [i]) slots v) ∧ Steady a v := by
  refine seq (X := fun st v => ((v.proto.lock = some a ∧ Sweeping a x entries slots v) ∧
    Steady a v) ∧ (v.proto.lock = some a ∧ (st ≠ RegistryState.active → v.entryState i ≠ .active)) ∧
      (st = RegistryState.active → ∃ c, v.proto.hist.holder i = some c)) ?_ fun st => ?_
  · refine look (fun v => v.entryState i) (fun _ _ => rfl) (fun st v v' h hv => ?_)
      fun v hi _ hs => ⟨hs, ⟨hs.1.1, id⟩, fun hst => Option.ne_none_iff_exists'.mp
        ((hi.coupled.entryState i).mp hst)⟩
    refine ⟨(keeps_sweep.and keeps_steady) v v' h hv.1, ⟨h.rely.lock hv.1.1.1, fun hst =>
      (keeps_notActive v v' h ⟨hv.1.1.1, hv.2.1.2 hst⟩).2⟩, ?_⟩
    rw [(h.rely.locked hv.1.1.1).holder]
    exact hv.2.2
  split
  · next hst =>
    exact ret fun v _ hv => ⟨⟨hv.1.1.1, hv.1.1.2.next fun ha => absurd ha (hv.2.1.2 hst)⟩, hv.1.2⟩
  next hst =>
  have hst : st = .active := not_not.mp hst
  refine pre (name (Φ := fun c v => ((v.proto.lock = some a ∧ Sweeping a x entries slots v) ∧
    Steady a v) ∧ v.proto.hist.holder i = some c) fun c => ?_)
    fun v _ hv => (hv.2.2 hst).imp fun c hc => ⟨hv.1, hc⟩
  -- the pid that is recorded stays what it is
  have hpid : ∀ pid, Keeps M a fun v => v.proto.lock = some a ∧ (Sweeping a x entries slots v ∧
      Steady a v ∧ v.proto.hist.holder i = some c) ∧ v.entryPid i = pid := fun pid v v' h hv => by
    have hk := (keeps_sweep.and keeps_steady) v v' h ⟨⟨hv.1, hv.2.1.1⟩, hv.2.1.2.1⟩
    refine ⟨hk.1.1, ⟨hk.1.2, hk.2, ?_⟩, by rw [h.entryPid hv.1]; exact hv.2.2⟩
    rw [(h.rely.locked hv.1).holder]
    exact hv.2.1.2.2
  refine seq (X := fun pid v => v.proto.lock = some a ∧ (Sweeping a x entries slots v ∧
    Steady a v ∧ v.proto.hist.holder i = some c) ∧ v.entryPid i = pid) ?_ fun pid => ?_
  · exact look (fun v => v.entryPid i) (fun _ _ => rfl) hpid fun v _ _ hs =>
      ⟨hs.1.1.1, ⟨hs.1.1.2, hs.1.2, hs.2⟩, rfl⟩
  split
  · next hme =>
    exact ret fun v _ hv => ⟨⟨hv.1, hv.2.1.1.next fun _ => .inl (hv.2.2.trans hme)⟩, hv.2.1.2.1⟩
  refine seq (verdict_keeps (s := .entry i) (x := x) (hpid pid) (fun v hv => hv.1.1.unused.idle)
    (fun v hv => by simp only [View.check, hv.2]) (fun _ _ _ h => nomatch h)
    (fun v hv => hv.1.1.before) fun v y hv => ⟨⟨hv.1.1.verdict y, hv.1.2⟩, hv.2⟩) fun alive => ?_
  split
  · next halive =>
    exact ret fun v _ hv => ⟨⟨hv.1.1, hv.1.2.1.1.next fun _ => .inr (hv.2.1 halive)⟩,
      hv.1.2.1.2.1⟩
  next halive =>
  refine pre (Φ := fun v => v.proto.settled a ∧
    Parting (fun v => v.proto.counted a ∧ Sweeping a x entries slots v) a c i v) ?_
    fun v _ hv => ⟨hv.1.2.1.2.1.2, hv.1.1, hv.1.2.1.2.2,
      .inr (hv.2.2 (by simpa using halive) c hv.1.2.1.2.2), hv.1.2.1.2.1.1, hv.1.2.1.1⟩
  have hkeep : Keeps M a fun v => v.proto.lock = some a ∧ v.proto.counted a ∧
      Sweeping a x entries slots v := fun v v' h hv =>
    have hk := keeps_sweep v v' h ⟨hv.1, hv.2.2⟩
    ⟨hk.1, h.rely.counted hv.2.1, hk.2⟩
  refine seq (dropConsumerBit_keeps hkeep fun v r m ch la hv =>
    ⟨hv.1, Sweeping.readerless v r m ch la hv.2⟩) fun dropped => ?_
  refine seq (relabel (i := i) (fun s g b t ht => ?_)
    (fun v v' h hv => ⟨h.rely.notes.2.trans hv.1, keeps_parting hkeep c i v v' h hv.2.1,
      fun j hj => hv.2.2 j ((h.rely.locked hv.2.1.1).mask j hj)⟩) (fun v hv c' hc' => ?_)
    fun v w hv => ?_) fun _ => ?_
  · cases Option.some.inj ht
    exact ⟨_, view_entryIdentity s g i _ (fun _ => rfl) fun _ => rfl⟩
  · cases Option.some.inj (hv.2.1.2.1.symm.trans hc')
    exact hv.2.1.2.2.1
  · exact ⟨hv.1, ⟨hv.2.1.1, hv.2.1.2.1, hv.2.1.2.2.1, hv.2.1.2.2.2.1, { hv.2.1.2.2.2.2 with }⟩,
      hv.2.2⟩
  have hsettled : Keeps M a fun v => v.proto.lock = some a ∧ v.proto.settled a ∧
      Sweeping a x entries slots v := fun v v' h hv =>
    have hk := keeps_sweep v v' h ⟨hv.1, hv.2.2⟩
    ⟨hk.1, h.rely.notes.2.trans hv.2.1, hk.2⟩
  refine seq (pre (freeEntry_keeps hsettled (fun v hv => hv.2.unused.idle)
    fun v n e ho co he hv => ⟨hv.1, hv.2.counting n e ho co he⟩) fun v _ hv =>
      ⟨⟨hv.2.1.2.2.2.1, hv.2.1.1, hv.2.1.2.1, hv.2.1.2.2.1, hv.1, hv.2.1.2.2.2.2⟩, hv.2.2⟩)
    fun _ => ?_
  have hdone : Keeps M a fun v => (v.proto.lock = some a ∧ Sweeping a x (entries ++ [i]) slots v) ∧
      Steady a v := keeps_sweep.and keeps_steady
  exact pre (seq (silent (fun _ _ => rfl) hdone) fun _ => seq (silent (fun _ _ => rfl) hdone)
    fun _ => ret fun _ _ hv => hv) fun v _ hv =>
      ⟨⟨hv.1, hv.2.2.2.2.next fun ha => absurd ha hv.2.2.1⟩, hv.2.1, hv.2.2.2.1⟩

/-- A slot that a dead producer has left in `STATE_WRITING`. -/
theorem reapSlot_keeps (freed : Bool) (j : Fin L.slotCount) :
    Keeping M a (Ring.reapSlot a freed j)
      (fun v => (v.proto.lock = some a ∧ Sweeping a x entries slots v) ∧ Steady a v) fun _ v =>
        (v.proto.lock = some a ∧ Sweeping a x entries (slots ++ [j]) v) ∧ Steady a v := by
  have hkeep : Keeps M a fun v => (v.proto.lock = some a ∧ Sweeping a x entries slots v) ∧
      Steady a v := keeps_sweep.and keeps_steady
  -- whoever has the slot in `STATE_WRITING` has stamped it, or is dead
  refine seq (X := fun st v => ((v.proto.lock = some a ∧ Sweeping a x entries slots v) ∧
    Steady a v) ∧ (st ≠ SlotState.writing → v.proto.state j ≠ .writing) ∧
      (st = SlotState.writing → ∃ t, v.Marked j t)) ?_ fun st => ?_
  · refine look (fun v => v.proto.state j) (fun _ _ => rfl) (fun st v v' h hv =>
      ⟨hkeep v v' h hv.1, fun hst => (keeps_notWriting v v' h ⟨hv.1.1.1, hv.2.1 hst⟩).2,
        fun hst => ?_⟩) fun v hi _ hs => ⟨hs, id, fun hst => ?_⟩
    · exact (hv.2.2 hst).imp fun t ht => marked v v' h hv.1.1.1 ht
    · obtain ⟨t, r, hr, hp, rfl⟩ := hi.proto.owned j hst
      refine ⟨t, fun hl => ⟨hi.coupled.stamped t r hr (fun hh => ?_) hp,
        hi.coupled.reserving t r hr hl⟩⟩
      have hlock := hi.proto.locked t r hr (by simp [hh]) hl
      have := hs.1.2.unused.idle t (Option.some.inj (hs.1.1.symm.trans hlock))
      rw [hr] at this
      cases this
  split
  · next hst =>
    exact ret fun v _ hv => ⟨⟨hv.1.1.1, hv.1.1.2.nextSlot fun hw => absurd hw (hv.2.1 hst)⟩, hv.1.2⟩
  next hst =>
  refine pre (name (Φ := fun t v => ((v.proto.lock = some a ∧ Sweeping a x entries slots v) ∧
    Steady a v) ∧ v.Marked j t) fun t => ?_)
    fun v _ hv => (hv.2.2 (not_not.mp hst)).imp fun t ht => ⟨hv.1, ht⟩
  have hword : ∀ pid token, Keeps M a fun v => v.proto.lock = some a ∧
      (Sweeping a x entries slots v ∧ Steady a v ∧ v.Marked j t) ∧
        v.slotPid j = pid ∧ (∀ w, token = some w → v.slotToken j = w) := by
    intro pid token v v' h hv
    have hk := hkeep v v' h ⟨⟨hv.1, hv.2.1.1⟩, hv.2.1.2.1⟩
    obtain ⟨hpid, htoken⟩ := stays v v' h hv.1 j
    exact ⟨hk.1.1, ⟨hk.1.2, hk.2, marked v v' h hv.1 hv.2.1.2.2⟩, hpid.trans hv.2.2.1, fun w hw =>
      htoken.trans (hv.2.2.2 w hw)⟩
  refine seq (X := fun pid v => v.proto.lock = some a ∧ (Sweeping a x entries slots v ∧
    Steady a v ∧ v.Marked j t) ∧ v.slotPid j = pid ∧
      ∀ w, (none : Option UInt32) = some w → v.slotToken j = w) ?_ fun pid => ?_
  · exact look (fun v => v.slotPid j) (fun _ _ => rfl) (fun pid => hword pid none)
      fun v _ _ hs => ⟨hs.1.1.1, ⟨hs.1.1.2, hs.1.2, hs.2⟩, rfl, by simp⟩
  refine seq (X := fun token v => v.proto.lock = some a ∧ (Sweeping a x entries slots v ∧
    Steady a v ∧ v.Marked j t) ∧ v.slotPid j = pid ∧
      ∀ w, some token = some w → v.slotToken j = w) ?_ fun token => ?_
  · exact look (fun v => v.slotToken j) (fun _ _ => rfl) (fun token => hword pid (some token))
      fun v _ _ hs => ⟨hs.1, hs.2.1, hs.2.2.1, fun w hw => Option.some.inj hw⟩
  split
  · next hme =>
    exact ret fun v _ hv => ⟨⟨hv.1, hv.2.1.1.nextSlot fun _ => .inl (hv.2.2.1.trans hme)⟩,
      hv.2.1.2.1⟩
  refine seq (verdict_keeps (s := .slot j) (x := x) (hword pid (some token))
    (fun v hv => hv.1.1.unused.idle) (fun v hv => by
      simp only [View.check, hv.2.1, hv.2.2 token rfl])
    (fun v hv j' hj' => by cases hj'; exact ⟨t, hv.1.2.2⟩) (fun v hv => hv.1.1.before)
    fun v y hv => ⟨⟨hv.1.1.verdict y, hv.1.2⟩, hv.2⟩) fun alive => ?_
  split
  · next halive =>
    exact ret fun v _ hv => ⟨⟨hv.1.1, hv.1.2.1.1.nextSlot fun _ => .inr (hv.2.1 halive)⟩,
      hv.1.2.1.2.1⟩
  next halive =>
  -- nobody touches the mask of an abandoned slot
  have hdead : Keeps M a fun v => v.proto.lock = some a ∧ v.proto.counted a ∧
      v.proto.gone M.guards (.slot j) ∧ v.proto.mask j = ∅ ∧ Sweeping a x entries slots v :=
    fun v v' h hv => by
      have hk := keeps_sweep v v' h ⟨hv.1, hv.2.2.2.2⟩
      exact ⟨hk.1, h.rely.counted hv.2.1, h.rely.gone hv.1 hv.2.2.1,
        Finset.subset_empty.mp (hv.2.2.2.1 ▸ (h.rely.locked hv.1).mask j), hk.2⟩
  refine pre (Φ := fun v => v.proto.settled a ∧ v.proto.lock = some a ∧ v.proto.counted a ∧
    v.proto.gone M.guards (.slot j) ∧ Sweeping a x entries slots v) ?_ fun v _ hv =>
      ⟨hv.1.2.1.2.1.2, hv.1.1, hv.1.2.1.2.1.1, hv.2.2 (by simpa using halive), hv.1.2.1.1⟩
  refine seq (X := fun _ v => Changing a j 0 v ∧ v.proto.lock = some a ∧ v.proto.counted a ∧
      v.proto.gone M.guards (.slot j) ∧ v.proto.mask j = ∅ ∧ Sweeping a x entries slots v) ?_
    fun _ => seq (storeReaders_keeps hdead fun v r ch la hv => ⟨hv.1, hv.2.1, hv.2.2.1, hv.2.2.2.1,
      Sweeping.readerless v r v.proto.mask ch la hv.2.2.2.2⟩) fun _ =>
      seq (X := fun _ v => (v.proto.lock = some a ∧ Sweeping a x entries (slots ++ [j]) v) ∧
        Steady a v) ?_ fun _ => ret fun _ _ hv => hv
  · refine put (fun v => { v with proto := { v.proto with
      mask := Function.update v.proto.mask j ∅, hist := v.proto.hist.change a j } })
      (fun s g => view_hist (view_noReaders s g j)) (keeps_changing.and hdead)
      fun v hi hl hs => ⟨⟨hl, .abandonMask _ _ j hs.2.1 hs.2.2.2.1 hs.1, { hi.coupled with },
        { readers := fun _ => .inl ⟨rfl, fun _ => by simp [Ghost.change]⟩ }⟩,
        fun _ => ⟨⟨by simp [Ghost.change], fun _ => by simp⟩, hs.2.1, hs.2.2.1, ?_, by simp,
          Sweeping.readerless v _ _ _ _ hs.2.2.2.2⟩⟩
    exact hs.2.2.2.1
  · refine put (fun v => { v with proto := { v.proto with
      state := Function.update v.proto.state j .free, hist := v.proto.hist.abandon j } })
      (fun s g => view_hist (view_state s g j _)) (keeps_sweep.and keeps_steady)
      fun v hi hl hv => ?_
    obtain ⟨hset, hlock, hc, hgone, hm, hs⟩ := hv
    refine ⟨⟨hl, .abandon _ _ j hlock hgone hm, ?_, {}⟩, fun _ => ⟨⟨hlock, ?_⟩, hc, hset⟩⟩
    · exact { hi.coupled with
        stamped := fun t r hr => hi.coupled.stamped t r (Inv.abandon_reservation.mp hr).1
        reserving := fun t r hr => hi.coupled.reserving t r (Inv.abandon_reservation.mp hr).1
        writer := fun t w hw hl => by
          obtain ⟨r, hr, hp, hs', hm, hq⟩ := hi.coupled.writer t w hw hl
          have hj : r.slot ≠ j := fun e => hgone.1 t r hr e (by simp [hp]) hl
          exact ⟨r, Inv.abandon_reservation.mpr ⟨hr, hj⟩, hp, hs', hm, hq⟩ }
    · refine { hs with unused := ?_, slot := fun j' hj' hw => ?_ }
      · obtain ⟨hrun, hun⟩ := hs.unused
        refine ⟨hrun, ?_⟩
        cases a with
        | writer t => exact ⟨hun.1, by simp [Ghost.abandon, hun.2]⟩
        | consumer c => exact hun
        | sweeper k => trivial
      · have hjj : j' ≠ j := fun e => by simp [e] at hw
        exact hs.slot j' (by simpa [hjj] using hj') (by simpa [hjj] using hw)

theorem reapDead_keeps : Keeping M a (Ring.reapDead a) (Alone a) fun _ => Alone a := by
  refine seq (X := fun _ v => ∃ x, (v.proto.lock = some a ∧ Sweeping a x [] [] v) ∧ Steady a v) ?_
    fun _ => name fun x => ?_
  · refine put (fun v => { v with proto := { v.proto with
        hist := v.proto.hist.beginSweep a fun b => P.alive v.os (P.proc b) } }) (fun _ _ => rfl)
      (Keeps.exists fun x => keeps_sweep.and keeps_steady) fun v hi hl hs => ⟨⟨hl,
        .beginSweep _ _ _ hs.1 fun b => (hi.coupled.alive b).symm, { hi.coupled with },
        { swept := fun _ _ h => ?_ }⟩,
        fun _ => ⟨{ alive := fun b => P.alive v.os (P.proc b), before := v.proto.hist.verdicts },
          ⟨hs.1, ?_, by simp [Ghost.beginSweep], List.suffix_rfl, by simp, by simp⟩, hs.2.2⟩⟩
    · simp [Ghost.beginSweep] at h
    · cases a <;> exact hs.2.1
  refine seq (fold (fun done _ _ v => (v.proto.lock = some a ∧ Sweeping a x done [] v) ∧ Steady a v)
    (fun done i _ freed => reapEntry_keeps freed i) _ _) fun freed =>
    seq (fold (fun done _ _ v => (v.proto.lock = some a ∧
      Sweeping a x (List.finRange 64) done v) ∧ Steady a v)
      (fun done j _ freed => reapSlot_keeps freed j) _ _) fun freed =>
      seq (X := fun _ => Alone a) ?_ fun _ => ?_
  · refine put (fun v => { v with proto := { v.proto with hist := v.proto.hist.endSweep a } })
      (fun _ _ => rfl) keeps_alone fun v hi hl hs => ⟨⟨hl, .endSweep _ _ hs.1.1 hs.2.1,
        { hi.coupled with }, { swept := fun x' hx' _ => ?_ }⟩, fun _ => ⟨hs.1.1, ?_, hs.2⟩⟩
    · cases hx'.symm.trans hs.1.2.sweep
      exact ⟨fun i => hs.1.2.entry i (List.mem_finRange i),
        fun j => hs.1.2.slot j (List.mem_finRange j)⟩
    · have := hs.1.2.unused
      cases a <;> exact this
  · split
    · exact signal_keeps _ keeps_alone
    · exact ret fun _ _ hv => hv

theorem sweep_keeps {k : Nat} :
    Keeping M (.sweeper k) (Ring.sweep (.sweeper k))
      (fun v => v.running (.sweeper k) ∧ rest (.sweeper k) v) fun _ => rest (.sweeper k) := by
  have hkeep : Keeps M (.sweeper k) fun v => Unused (.sweeper k) v ∧ Steady (.sweeper k) v :=
    keeps_unused.and keeps_steady
  refine post (pre (seq (lockRegistry_keeps hkeep fun _ hv => hv) fun _ =>
    seq (pre reapDead_keeps fun v _ hv => hv) fun _ =>
      unlockRegistry_keeps hkeep (fun _ hv => hv) (fun _ _ t r ht => nomatch ht)
        fun _ hv => hv.2.1) fun v _ hv => ⟨⟨hv.1, trivial⟩, hv.2.1⟩)
    fun _ v _ hv => hv.1.rest hv.2

end TenzorBus.Refine
