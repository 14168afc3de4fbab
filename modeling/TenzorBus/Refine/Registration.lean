import TenzorBus.Refine.Sweep

/-!
# A registration refines the protocol

Proof outlines for `Ring::consumer`.

* `firstFree_keeps` : the entry that is found is held by nobody; if none is found, all are held
* `subscribe_keeps` : the entry becomes active
* `consumer_keeps` : the whole call
-/

namespace TenzorBus.Refine

open Conc

variable {P : Platform} {L : RingLayout} {M : Mode P L.slotCount} {a : Actor}

/-- Under the lock the entries are held by whom they are held by. -/
theorem keeps_held {h : Fin 64 → Option Nat} {Θ : View P L.slotCount → Prop}
    (hΘ : Keeps M a fun v => v.proto.lock = some a ∧ Θ v) :
    Keeps M a fun v => (v.proto.lock = some a ∧ Θ v) ∧ v.proto.hist.holder = h :=
  fun v v' hr hv => ⟨hΘ v v' hr hv.1, (hr.rely.locked hv.1.1).holder.trans hv.2⟩

theorem firstFree_keeps (h : Fin 64 → Option Nat) (entries : List (Fin 64)) :
    Keeping M a (Ring.firstFree entries) (fun v => Alone a v ∧ v.proto.hist.holder = h)
      fun found v => (Alone a v ∧ v.proto.hist.holder = h) ∧
        (∀ i, found = some i → h i = none) ∧ (found = none → ∀ i ∈ entries, h i ≠ none) := by
  have hkeep : Keeps M a fun v => Alone a v ∧ v.proto.hist.holder = h := keeps_held keeps_alone
  induction entries with
  | nil => exact ret fun v _ hv => ⟨hv, nofun, by simp⟩
  | cons i entries ih =>
    refine seq (X := fun st v => (st = RegistryState.free ↔ h i = none) ∧
      Alone a v ∧ v.proto.hist.holder = h) ?_ fun st => given fun hst => ?_
    · refine look (fun v => v.entryState i) (fun _ _ => rfl)
        (fun _ => (Keeps.const _).and hkeep) fun v hi _ hs => ⟨?_, hs⟩
      have hact := hi.coupled.entryState i
      rw [hs.2] at hact
      cases hst : v.entryState i with
      | free => simpa [hst] using hact
      | active => simpa [hst] using hact
    · split
      · next hfree =>
        exact ret fun v _ hv => ⟨hv, fun i' hi' => by cases hi'; exact hst.mp hfree, nofun⟩
      · next hfree =>
        refine post ih fun found v _ hv => ⟨hv.1, hv.2.1, fun hn => ?_⟩
        exact List.forall_mem_cons.mpr ⟨fun hi => hfree (hst.mpr hi), hv.2.2 hn⟩

/-- A consumer whose entry is active and which has no handle yet. -/
def Registered (c : Nat) (i : Fin 64) (last : UInt64) (v : View P L.slotCount) : Prop :=
  v.proto.settled (.consumer c) ∧ v.consumer c = none ∧
    ∃ k, v.proto.hist.registration c = some k ∧ k.index = i ∧ k.closing = false ∧
      seqWord k.last = last

theorem keeps_registered {c : Nat} {i : Fin 64} {last : UInt64} :
    Keeps M (.consumer c) (Registered c i last) :=
  keeps_settled.and (keeps_handle.and
    (Keeps.exists fun _ => keeps_registration.and (Keeps.const _)))

theorem subscribe_keeps (c : Nat) (i : Fin 64) :
    Keeping M (.consumer c) (Ring.subscribe (.consumer c) c i)
      (fun v => Alone (.consumer c) v ∧ v.proto.hist.holder i = none)
      fun _ => rest (.consumer c) := by
  -- the counter and the entry stay what they are under the lock
  have hnext : ∀ next, Keeps M (.consumer c) fun v =>
      (Alone (.consumer c) v ∧ v.proto.hist.holder i = none) ∧
        next = seqWord v.proto.hist.next := fun next v v' h hv => by
    have hL := h.rely.locked hv.1.1.1
    exact ⟨⟨keeps_alone v v' h hv.1.1, by rw [hL.holder]; exact hv.1.2⟩, by
      rw [hL.next]; exact hv.2⟩
  have hpid : ∀ next, Keeps M (.consumer c) fun v =>
      ((Alone (.consumer c) v ∧ v.proto.hist.holder i = none) ∧
        next = seqWord v.proto.hist.next) ∧ v.entryPid i = P.me (.consumer c) :=
    fun next v v' h hv => ⟨hnext next v v' h hv.1, by rw [h.entryPid hv.1.1.1.1]; exact hv.2⟩
  refine seq (X := fun next v => (Alone (.consumer c) v ∧ v.proto.hist.holder i = none) ∧
    next = seqWord v.proto.hist.next) ?_ fun next => ?_
  · exact look (fun v => v.nextSeq) (fun _ _ => rfl) hnext fun v hi _ hs => ⟨hs, hi.coupled.nextSeq⟩
  refine seq (relabel (i := i) (fun s g b t ht => ?_) (hnext next)
    (fun v hv c' hc' => ?_) fun v w hv => hv) fun generation => ?_
  · cases Option.some.inj ht
    exact ⟨_, view_entryIdentity s g i _ (fun _ => rfl) fun _ => rfl⟩
  · rw [hv.1.2] at hc'
    cases hc'
  refine seq (X := fun _ v => ((Alone (.consumer c) v ∧ v.proto.hist.holder i = none) ∧
    next = seqWord v.proto.hist.next) ∧ v.entryPid i = P.me (.consumer c)) ?_ fun _ => ?_
  · refine put (u := fun _ g => g) (fun v => { v with
      entryPid := Function.update v.entryPid i (P.me (.consumer c)) })
      (fun s g => view_entryPid s g i _) (hpid next) fun v hi hl hs => ⟨⟨hl, .idle _ _, ?_,
        { entryPid := fun hne => absurd hs.1.1.1 hne }⟩, fun _ => ⟨hs, by simp⟩⟩
    exact { hi.coupled with
      entryPid := fun e c' hc' => by
        have he : e ≠ i := fun h => by
          have : v.proto.hist.holder i = some c' := h ▸ hc'
          rw [hs.1.2] at this
          cases this
        simpa [he] using hi.coupled.entryPid e c' hc' }
  refine seq (glance (hpid next)) fun token => ?_
  refine seq (relabel (i := i) (fun s g b t ht => ?_) (hpid next)
    (fun v hv c' hc' => ?_) fun v w hv => hv) fun _ => seq (glance (hpid next)) fun stamp => ?_
  · cases Option.some.inj ht
    exact ⟨_, view_entryIdentity s g i _ (fun _ => rfl) fun _ => rfl⟩
  · rw [hv.1.1.2] at hc'
    cases hc'
  refine seq (silent (fun s g => view_entry s g i _ (fun _ => rfl) (fun _ => rfl) (fun _ => rfl)
    fun _ => rfl) (hpid next)) fun _ => ?_
  refine seq (silent (fun s g => view_entry s g i _ (fun _ => rfl) (fun _ => rfl) (fun _ => rfl)
    fun _ => rfl) (hpid next)) fun _ => ?_
  have hreg : Keeps M (.consumer c) fun v =>
      v.proto.lock = some (.consumer c) ∧ Registered c i (next - 1) v :=
    keeps_lock.and keeps_registered
  refine seq (X := fun _ v => (v.proto.lock = some (.consumer c) ∧ Registered c i (next - 1) v) ∧
    v.proto.hist.counting = some (.consumer c, true)) ?_ fun _ => ?_
  · refine put (fun v => { v with
        proto := { v.proto with hist := v.proto.hist.register c i }
        entryState := Function.update v.entryState i .active })
      (fun s g => view_hist (view_entryState s g i _)) (fun v v' h hv => ⟨hreg v v' h hv.1, by
        rw [(h.rely.locked hv.1.1).counting]; exact hv.2⟩)
      fun v hi hl hv => ?_
    obtain ⟨⟨⟨⟨hlock, ⟨hrun, hc, hk⟩, hco, hset⟩, hh⟩, hn⟩, hp⟩ := hv
    refine ⟨⟨hl, .register c _ i hlock hh hk hco, ?_,
        { consumers := .inl ⟨rfl, by simp [Ghost.register]⟩ }⟩,
      fun _ => ⟨⟨hlock, hset, hc, v.proto.hist.registrationNow i, by simp [Ghost.register], rfl,
        rfl, by rw [hn, seqWord_sub_one]; rfl⟩, rfl⟩⟩
    exact { hi.coupled with
      entryState := fun e => by
        by_cases he : e = i
        · subst he; simp [Ghost.register]
        · simpa [Ghost.register, he] using hi.coupled.entryState e
      entryPid := fun e c' hc' => by
        by_cases he : e = i
        · subst he
          have : c = c' := by simpa [Ghost.register] using hc'
          exact this ▸ hp
        · exact hi.coupled.entryPid e c' (by simpa [Ghost.register, he] using hc')
      holding := fun e c' hc' => by
        by_cases he : e = i
        · subst he
          have : c = c' := by simpa [Ghost.register] using hc'
          exact fun _ => this ▸ hrun
        · exact hi.coupled.holding e c' (by simpa [Ghost.register, he] using hc')
      consumer := fun c' h' hc' => by
        have hne : c' ≠ c := fun e => by rw [e, hc] at hc'; cases hc'
        simpa [Ghost.register, hne] using hi.coupled.consumer c' h' hc'
      last := fun hG c' h' k hc' hk' => by
        have hne : c' ≠ c := fun e => by rw [e, hc] at hc'; cases hc'
        exact hi.coupled.last hG c' h' k hc' (by simpa [Ghost.register, hne] using hk') }
  have hend : Keeps M (.consumer c) fun v =>
      v.proto.counted (.consumer c) ∧ Registered c i (next - 1) v :=
    keeps_counted.and keeps_registered
  refine count_keeps true (fun count => count + 1) (fun _ => rfl) hreg (fun _ _ hv => hv) ?_
  refine seq (silent (fun _ _ => rfl) (keeps_lock.and hend)) fun _ =>
    seq (unlockRegistry_keeps hend (fun _ hv => hv) (fun _ _ _ _ h => absurd h (by simp))
      fun _ hv => hv.1) fun _ => ?_
  refine put (u := fun _ g => g) (fun v => { v with
      consumer := Function.update v.consumer c
        (some { index := i, generation := generation + 1, lastSequence := next - 1,
                closed := false }) }) (fun _ _ => rfl) keeps_rest
    fun v hi hl hv => ?_
  obtain ⟨hco, hset, hc, k, hk, hki, hko, hkl⟩ := hv
  refine ⟨⟨hl, .idle _ _, ?_, {
    consumer := fun c' hc' => by
      have : c' ≠ c := fun e => hc' (by rw [e])
      simp [this] }⟩, fun _ => ⟨⟨hco, hset⟩, fun hn => ?_⟩⟩
  · exact { hi.coupled with
      consumer := fun c' h' hc' => by
        by_cases he : c' = c
        · subst he
          simp only [Function.update_self, Option.some.injEq] at hc'
          subst hc'
          exact ⟨k, hk, hki.symm, hko.symm⟩
        · exact hi.coupled.consumer c' h' (by simpa [he] using hc')
      last := fun hG c' h' k' hc' hk' => by
        by_cases he : c' = c
        · subst he
          simp only [Function.update_self, Option.some.injEq] at hc'
          subst hc'
          rw [hk] at hk'
          cases hk'
          exact hkl.symm
        · exact hi.coupled.last hG c' h' k' (by simpa [he] using hc') hk' }
  · simp at hn

theorem consumer_keeps (c : Nat) :
    Keeping M (.consumer c) (void (Ring.consumer (.consumer c) c))
      (fun v => v.running (.consumer c) ∧ rest (.consumer c) v ∧ v.consumer c = none)
      fun _ => rest (.consumer c) := by
  have hkeep : Keeps M (.consumer c) fun v => Unused (.consumer c) v ∧ Steady (.consumer c) v :=
    keeps_unused.and keeps_steady
  refine seq (seq (X := fun _ => Alone (.consumer c)) ?_ fun _ => seq reapDead_keeps fun _ => ?_)
    fun _ => ret fun _ _ hv => hv
  · exact pre (lockRegistry_keeps hkeep fun _ hv => hv) fun v _ hv =>
      ⟨⟨hv.1, hv.2.2, hv.2.1.2 hv.2.2⟩, hv.2.1.1⟩
  refine pre (name fun h => seq (firstFree_keeps h _) fun chosen => ?_)
    fun v _ hv => ⟨v.proto.hist.holder, hv, rfl⟩
  cases chosen with
  | none =>
    refine seq (X := fun _ => Alone (.consumer c)) ?_ fun _ =>
      pre (seq (unlockRegistry_keeps hkeep (fun _ hv => hv) (fun _ _ _ _ h => absurd h (by simp))
        fun _ hv => hv.2.1) fun _ => ret fun _ _ hv => hv.1.rest hv.2) fun v _ hv => hv
    refine put (fun v => { v with proto := { v.proto with hist := v.proto.hist.refuse c } })
      (fun _ _ => rfl) keeps_alone fun v hi hl hs => ⟨⟨hl, .refuse c _ hs.1.1.1 fun i => ?_,
        { hi.coupled with }, {}⟩, fun _ => hs.1.1⟩
    rw [hs.1.2]
    exact hs.2.2 rfl i (List.mem_finRange i)
  | some i =>
    refine pre (seq (subscribe_keeps c i) fun _ => ret fun _ _ hv => hv)
      fun v _ hv => ⟨hv.1.1, ?_⟩
    rw [hv.1.2]
    exact hv.2.1 i rfl

end TenzorBus.Refine
