import TenzorBus.Ring.Session
import TenzorBus.Shift.Consumer
import TenzorBus.Ring.Script

/-!
# Where the counter starts does not matter

A run of a session on a ring whose sequence counter began elsewhere: the same events, the same
replies, every number shifted.

* `ReplyShifted` : replies that differ in the numbers only
* `program_lockstep` : a request on both rings
* `Session.Shifted` : sessions that differ in the numbers only
* `run_shifted` : the same run on a ring that began elsewhere
* `Session.Shifted.sequences` : the numbers that the replies name
-/

namespace TenzorBus

open Conc

variable {P : Platform} {L : RingLayout} {n : Nat} {k : UInt64}

/-- Replies on both rings: the same, every number shifted. -/
inductive ReplyShifted (k : UInt64) : Reply n → Reply n → Prop
  | registered (r : Except Error Unit) : ReplyShifted k (.registered r) (.registered r)
  | delivered (r : Except Error (TensorMeta n)) :
      ReplyShifted k (.delivered r) (.delivered (r.map (TensorMeta.shift k)))
  | released {r r' : Except Error Unit} (h : Consumer.ReleaseShifted k r r') :
      ReplyShifted k (.released r) (.released r')
  | published (r : Except Error (Option (PublishResult n))) :
      ReplyShifted k (.published r) (.published (r.map (·.map (PublishResult.shift k))))
  | reserved (r : Except Error (Option (SlotWriter n))) :
      ReplyShifted k (.reserved r) (.reserved (r.map (·.map (SlotWriter.shift k))))
  | committed (r : PublishResult n) : ReplyShifted k (.committed r) (.committed (r.shift k))
  | done : ReplyShifted k .done .done

/-- A reply that hands over nothing but what is in a slot that has had a number. -/
def Reply.Numbered (w : Known n) (r : Reply n) : Prop :=
  ∀ m, r.delivery? = some m → m.slotIndex ∈ w.slots

/-- Two programs that reply, in lockstep. -/
abbrev Replying (k : UInt64) (w : Known n) (p p' : RingM P n (Reply n)) : Prop :=
  Lockstep (Shifted k) w p p' fun v r r' => ReplyShifted k r r' ∧ r.Numbered v

/-- The reply is made from the results of two programs in lockstep. -/
theorem replying_lockstep {α : Type} {w : Known n} {p p' : RingM P n α} {f : α → Reply n}
    {Q : Known n → α → α → Prop} (h : Lockstep (Shifted k) w p p' Q)
    (hf : ∀ v a a', Q v a a' → ReplyShifted k (f a) (f a') ∧ (f a).Numbered v) :
    Replying k w (replying f p) (replying f p') :=
  h.seq fun v a a' _ ha => .ret (hf v a a' ha)

/-- Most replies hand over nothing. -/
theorem Reply.numbered {w : Known n} {r : Reply n} (h : r.delivery? = none) : r.Numbered w := by
  intro m hm
  rw [h] at hm
  cases hm

theorem done_shifted {w : Known n} :
    ReplyShifted k (Reply.done : Reply n) .done ∧ (Reply.done : Reply n).Numbered w :=
  ⟨.done, Reply.numbered rfl⟩

theorem numbered_delivered {w : Known n} {r : Except Error (TensorMeta n)}
    (h : ∀ m, r = .ok m → m.slotIndex ∈ w.slots) : (Reply.delivered r).Numbered w := by
  intro m hm
  cases r with
  | error e => cases hm
  | ok x => exact h m (congrArg Except.ok (Option.some.inj hm))

/-! ## requests -/

/-- A handle that is used is known. -/
theorem Shifted.know {w : Known n} {s s' : State P n} (h : Shifted k w s s') {c : Nat}
    (hc : (s.consumer c).isSome = true) :
    ∃ v, w ≤ v ∧ Shifted k v s s' ∧ c ∈ v.handles := by
  refine ⟨{ w with handles := insert c w.handles },
    ⟨subset_rfl, subset_rfl, Finset.subset_insert _ _⟩,
    ⟨h.eq, h.committed, h.active, h.leases, h.writers, fun d hd => ?_⟩,
    Finset.mem_insert_self _ _⟩
  rcases Finset.mem_insert.mp hd with rfl | hd
  · exact hc
  · exact h.handles d hd

/-- The handle on the other ring. -/
theorem Shifted.consumer {w : Known n} {s s' : State P n} (h : Shifted k w s s') {c : Nat}
    {self : Consumer} (hself : s.consumer c = some self) : s'.consumer c = some (self.shift k) := by
  rw [h.eq]
  exact congrArg (Option.map (Consumer.shift k)) hself

theorem releasing_lockstep {w : Known n} (c : Nat) (self : Consumer) {m : TensorMeta n}
    (hm : m.slotIndex ∈ w.slots) :
    Replying (P := P) k w (replying .released (Consumer.release c self m))
      (replying .released (Consumer.release c (self.shift k) (m.shift k))) :=
  replying_lockstep (Consumer.release_lockstep c self hm) fun _ _ _ ha =>
    ⟨.released ha, Reply.numbered rfl⟩

/-- A request that is made on one ring can be made on the other, and the two programs are in
lockstep. -/
theorem program_lockstep {w : Known L.slotCount} {s s' : State P L.slotCount} (h : Shifted k w s s')
    {r : Request} {p : RingM P L.slotCount (Reply L.slotCount)} (hp : r.program L s = some p) :
    ∃ v p', w ≤ v ∧ Shifted k v s s' ∧ r.program L s' = some p' ∧ Replying k v p p' := by
  have hwriter : ∀ t, (s'.writer t) = (s.writer t).map (SlotWriter.shift k) := fun t => by
    rw [h.eq]
    rfl
  cases r with
  | register c =>
    obtain ⟨hc, hp⟩ := Option.ite_none_right_eq_some.mp hp
    cases hp
    have hc' : (s'.consumer c).isNone = true := by
      rw [h.eq]
      simpa [State.shift] using hc
    exact ⟨w, _, le_rfl, h, if_pos hc', replying_lockstep (Ring.consumer_lockstep _ c)
      fun _ _ _ ha => ⟨ha ▸ .registered _, Reply.numbered rfl⟩⟩
  | next c timeout =>
    obtain ⟨self, hself, rfl⟩ := Option.map_eq_some_iff.mp hp
    obtain ⟨v, hv, hs, hknown⟩ := h.know (c := c) (by rw [hself]; rfl)
    refine ⟨v, _, hv, hs, Option.map_eq_some_iff.mpr ⟨_, h.consumer hself, rfl⟩, ?_⟩
    exact replying_lockstep (Consumer.nextRaw_lockstep L.slotCapacity hknown self timeout)
      fun _ r _ ha => ⟨ha.1 ▸ .delivered _, numbered_delivered ha.2⟩
  | release c lease =>
    obtain ⟨self, hself, hp⟩ := Option.bind_eq_some_iff.mp hp
    obtain ⟨m, hm, rfl⟩ := Option.map_eq_some_iff.mp hp
    have hm' : (s'.leases c)[lease]? = some (m.shift k) := by
      rw [h.eq]
      simp [State.shift, hm]
    refine ⟨w, _, le_rfl, h, Option.bind_eq_some_iff.mpr ⟨_, h.consumer hself,
      Option.map_eq_some_iff.mpr ⟨_, hm', rfl⟩⟩, ?_⟩
    exact releasing_lockstep c self (h.leases c m (List.mem_of_getElem? hm))
  | close c =>
    obtain ⟨self, hself, rfl⟩ := Option.map_eq_some_iff.mp hp
    refine ⟨w, _, le_rfl, h, Option.map_eq_some_iff.mpr ⟨_, h.consumer hself, rfl⟩, ?_⟩
    exact replying_lockstep (Consumer.close_lockstep c self) fun _ _ _ _ => done_shifted
  | publish t view policy timeout =>
    obtain ⟨hw, hp⟩ := Option.ite_none_right_eq_some.mp hp
    cases hp
    refine ⟨w, _, le_rfl, h, if_pos (by simpa [hwriter] using hw), ?_⟩
    exact replying_lockstep (Producer.publish_lockstep t view policy timeout)
      fun _ _ _ ha => ⟨ha ▸ .published _, Reply.numbered rfl⟩
  | reserve t dtype shape policy timeout =>
    obtain ⟨hw, hp⟩ := Option.ite_none_right_eq_some.mp hp
    cases hp
    refine ⟨w, _, le_rfl, h, if_pos (by simpa [hwriter] using hw), ?_⟩
    exact replying_lockstep (Producer.reserve_lockstep t dtype shape policy timeout)
      fun _ _ _ ha => ⟨ha ▸ .reserved _, Reply.numbered rfl⟩
  | payload t off b =>
    obtain ⟨x, hx, hp⟩ := Option.bind_eq_some_iff.mp hp
    obtain ⟨hoff, hp⟩ := Option.ite_none_right_eq_some.mp hp
    cases hp
    refine ⟨w, _, le_rfl, h, Option.bind_eq_some_iff.mpr
      ⟨x.shift k, by rw [hwriter, hx]; rfl, if_pos hoff⟩, ?_⟩
    exact replying_lockstep (Producer.unmoved_writeByte x.slot off b w) fun _ _ _ _ => done_shifted
  | setTimestampNs t ts =>
    obtain ⟨x, hx, rfl⟩ := Option.map_eq_some_iff.mp hp
    refine ⟨w, _, le_rfl, h, Option.map_eq_some_iff.mpr ⟨_, by rw [hwriter, hx]; rfl, rfl⟩, ?_⟩
    exact replying_lockstep (SlotWriter.unmoved_setTimestampNs x ts w) fun _ _ _ _ => done_shifted
  | commit t =>
    obtain ⟨x, hx, rfl⟩ := Option.map_eq_some_iff.mp hp
    refine ⟨w, _, le_rfl, h, Option.map_eq_some_iff.mpr ⟨_, by rw [hwriter, hx]; rfl, rfl⟩, ?_⟩
    exact replying_lockstep (SlotWriter.commit_lockstep t (h.writers t x hx))
      fun _ _ _ ha => ⟨ha ▸ .committed _, Reply.numbered rfl⟩
  | abort t =>
    obtain ⟨x, hx, rfl⟩ := Option.map_eq_some_iff.mp hp
    refine ⟨w, _, le_rfl, h, Option.map_eq_some_iff.mpr ⟨_, by rw [hwriter, hx]; rfl, rfl⟩, ?_⟩
    exact replying_lockstep (SlotWriter.abort_lockstep t x) fun _ _ _ _ => done_shifted
  | sweep j =>
    cases hp
    exact ⟨w, _, le_rfl, h, rfl, replying_lockstep (unmoved_sweep _ w) fun _ _ _ _ => done_shifted⟩

theorem ReplyShifted.delivery? {r r' : Reply n} (h : ReplyShifted k r r') :
    r'.delivery? = r.delivery?.map (TensorMeta.shift k) := by
  cases h with
  | delivered r => cases r <;> rfl
  | _ => rfl

/-! ## runs -/

namespace Session

/-- What is left to do on both rings: nothing, or programs in lockstep. -/
inductive Matched (k : UInt64) (w : Known n) :
    Option (RingM P n (Reply n)) → Option (RingM P n (Reply n)) → Prop
  | idle : Matched k w none none
  | busy {p p' : RingM P n (Reply n)} (h : Replying k w p p') : Matched k w (some p) (some p')

theorem Matched.later {w v : Known n} {x x' : Option (RingM P n (Reply n))}
    (h : Matched k w x x') (hv : w ≤ v) : Matched k v x x' := by
  cases h with
  | idle => exact .idle
  | busy h => exact .busy (h.later (fun _ _ _ _ hv h => ⟨h.1, fun m hm => hv.1 (h.2 m hm)⟩) hv)

/-- Sessions that differ in the numbers only: the memory, the replies, who is at work. What has been
handed over is in slots that have had a number. -/
structure Shifted (k : UInt64) (x x' : Session P L) : Prop where
  mem : ∃ w, TenzorBus.Shifted k w x.mem.1 x'.mem.1 ∧
    (∀ a, Matched k w (x.pool a) (x'.pool a)) ∧ ∀ e ∈ x.log, e.2.Numbered w
  log : List.Forall₂ (fun e e' => e'.1 = e.1 ∧ ReplyShifted k e.2 e'.2) x.log x'.log

theorem matched_update {w v : Known n} {pool pool' : Actor → Option (RingM P n (Reply n))}
    (h : ∀ a, Matched k w (pool a) (pool' a)) (hv : w ≤ v) {a : Actor}
    {x x' : Option (RingM P n (Reply n))} (hx : Matched k v x x') (b : Actor) :
    Matched k v (Function.update pool a x b) (Function.update pool' a x' b) := by
  by_cases hb : b = a
  · subst hb
    simpa using hx
  · simpa [hb] using (h b).later hv

/-- Nothing has been numbered yet. -/
theorem fresh_shifted (start : UInt64) (os : P.Os) :
    Shifted k (fresh L start os) (fresh L (start + k) os) := by
  refine ⟨⟨{ slots := ∅, entries := ∅, handles := ∅ }, ?_, fun _ => .idle,
    fun _ he => absurd he List.not_mem_nil⟩, .nil⟩
  constructor
  · simp [fresh, State.init, State.shift, Ring.shift, Ring.format, Slot.shift,
      ConsumerEntry.shift]
  · intro i hi
    cases hi
  · intro i hi
    cases hi
  · intro c m hm
    cases hm
  · intro t x hx
    cases hx
  · intro c hc
    simp at hc

/-- What is picked from the replies is picked from the shifted ones, shifted. -/
theorem Shifted.filterMap {x x' : Session P L} (h : x.Shifted k x') {β : Type}
    {f : Actor × Reply L.slotCount → Option β} {g : β → β}
    (hf : ∀ a r r', ReplyShifted k r r' → f (a, r') = (f (a, r)).map g) :
    x'.log.filterMap f = (x.log.filterMap f).map g := by
  have hlog := h.log
  generalize x.log = log at hlog ⊢
  generalize x'.log = log' at hlog ⊢
  induction hlog with
  | nil => rfl
  | @cons e e' log log' he _ ih =>
    obtain ⟨a, r⟩ := e
    obtain ⟨a', r'⟩ := e'
    obtain ⟨rfl, hr⟩ : a' = a ∧ ReplyShifted k r r' := he
    rw [List.filterMap_cons, List.filterMap_cons, hf _ r r' hr, ih]
    cases f (a', r) <;> rfl

theorem Shifted.deliveries {x x' : Session P L} (h : x.Shifted k x') (c : Nat) :
    x'.deliveries c = (x.deliveries c).map (TensorMeta.shift k) := by
  refine h.filterMap fun a r r' hr => ?_
  split
  · exact hr.delivery?
  · rfl

/-- An event on one ring is matched by the same event on the other. -/
theorem Shifted.step {x x' y : Session P L} (h : Shifted k x x') {e : Event P}
    (hs : Step e x y) : ∃ y', Step e x' y' ∧ Shifted k y y' := by
  have hdeliveries := h.deliveries
  obtain ⟨⟨w, hmem, hpool, hnumbered⟩, hlog⟩ := h
  have hos : x'.mem.1.os = x.mem.1.os := by
    rw [hmem.eq]
    rfl
  have halive : ∀ a, x.mem.1.aliveActor a → x'.mem.1.aliveActor a := fun a ha => by
    unfold State.aliveActor at ha ⊢
    rwa [hos]
  have hrunning : ∀ a, x.mem.1.running a → x'.mem.1.running a := fun a ha => by
    unfold State.running at ha ⊢
    rwa [hos]
  have hidle : ∀ a, x.pool a = none → x'.pool a = none := fun a ha => by
    have := hpool a
    rw [ha] at this
    generalize hq : x'.pool a = q at this
    cases this
    rfl
  cases hs with
  | request r p idle alive running hp =>
    obtain ⟨v, p', hv, hmem', hp', hlock⟩ := program_lockstep hmem hp
    exact ⟨_, .request r p' (hidle _ idle) (halive _ alive) (hrunning _ running) hp',
      ⟨v, hmem', matched_update hpool hv (.busy hlock), fun e he m hm =>
        hv.1 (hnumbered e he m hm)⟩, hlog⟩
  | releaseRaw c i self m idle alive running handle delivered =>
    have hdelivered : (x'.deliveries c)[i]? = some (m.shift k) := by
      rw [hdeliveries, List.getElem?_map, delivered]
      rfl
    have hm : m.slotIndex ∈ w.slots := by
      obtain ⟨e, he, hme⟩ := List.mem_filterMap.mp (List.mem_of_getElem? delivered)
      exact hnumbered e he m (Option.ite_none_right_eq_some.mp hme).2
    exact ⟨_, .releaseRaw c i _ _ (hidle _ idle) (halive _ alive) (hrunning _ running)
      (hmem.consumer handle) hdelivered,
      ⟨w, hmem, matched_update hpool le_rfl (.busy (releasing_lockstep c self hm)), hnumbered⟩,
      hlog⟩
  | step a p q m busy alive hn =>
    have := hpool a
    rw [busy] at this
    generalize hq : x'.pool a = q' at this
    cases this with
    | busy hlock =>
      obtain ⟨v, r', m', hv, hn', hmem', hlock'⟩ := hlock.next? hmem hn
      exact ⟨_, .step a _ r' m' hq (halive a alive) hn',
        ⟨v, hmem', matched_update hpool hv (.busy hlock'), fun e he m hm =>
          hv.1 (hnumbered e he m hm)⟩, hlog⟩
  | reply a r hr alive =>
    have := hpool a
    rw [hr] at this
    generalize hq : x'.pool a = q' at this
    cases this with
    | busy hlock =>
      obtain ⟨r', rfl, hreply, hr⟩ := hlock.ret_left
      refine ⟨_, .reply a r' hq (halive a alive),
        ⟨w, hmem, matched_update hpool le_rfl .idle, fun e he => ?_⟩,
        List.rel_append hlog (.cons ⟨rfl, hreply⟩ .nil)⟩
      rcases List.mem_append.mp he with he | he
      · exact hnumbered e he
      · rw [List.mem_singleton.mp he]
        exact hr
  | os os' hstep =>
    refine ⟨_, .os os' (hos.symm ▸ hstep), ⟨w, ?_, hpool, hnumbered⟩, hlog⟩
    refine ⟨?_, hmem.committed, hmem.active, hmem.leases, hmem.writers, hmem.handles⟩
    rw [hmem.eq]
    rfl

end Session

/-- The run that is made on a ring whose counter starts at `start` can be made, event by event, on
one whose counter starts `k` later: the replies, the memory and what is in hand are the same, with
every number shifted by `k`. -/
theorem run_shifted (start k : UInt64) (os : P.Os) (events : List (Event P)) (x : Session P L)
    (h : Session.Run (fun _ _ => True) events (.fresh L start os) x) :
    ∃ x', Session.Run (fun _ _ => True) events (.fresh L (start + k) os) x' ∧ x.Shifted k x' := by
  generalize hy : Session.fresh L start os = y at h
  induction h with
  | nil x =>
    subst hy
    exact ⟨_, .nil _, Session.fresh_shifted start os⟩
  | snoc _ _ hs ih =>
    obtain ⟨y', hrun, hshift⟩ := ih hy
    obtain ⟨z', hstep, hshift'⟩ := hshift.step hs
    exact ⟨z', hrun.snoc trivial hstep, hshift'⟩

/-! ## the numbers in the replies -/

/-- The number that a reply names. -/
def Reply.sequence? : Reply n → Option UInt64
  | .delivered (.ok m) => some m.sequence
  | .published (.ok (some r)) | .committed r => some r.sequence
  | .reserved (.ok (some w)) => some w.sequence
  | _ => none

theorem ReplyShifted.sequence? {r r' : Reply n} (h : ReplyShifted k r r') :
    r'.sequence? = r.sequence?.map (· + k) := by
  cases h with
  | registered r => rfl
  | delivered r => cases r <;> rfl
  | released h => rfl
  | published r => rcases r with _ | (_ | r) <;> rfl
  | reserved r => rcases r with _ | (_ | w) <;> rfl
  | committed r => rfl
  | done => rfl

namespace Session

/-- The numbers that the replies name, in the order of the replies. -/
def sequences (x : Session P L) : List UInt64 := x.log.filterMap fun e => e.2.sequence?

/-- The replies name the shifted numbers. -/
theorem Shifted.sequences {x x' : Session P L} (h : x.Shifted k x') :
    x'.sequences = x.sequences.map (· + k) :=
  h.filterMap fun _ _ _ hr => hr.sequence?

/-- Two publications are taken and the first is given back, twice; then comes a third, in the slot
of the first. The consumer is closed, and used once more. -/
def tour : List Move :=
  Move.whole (.register 0) ++ Move.whole (.publish 0 (.byte 5) .dropNewest 0) ++
  Move.whole (.publish 0 (.byte 6) .dropNewest 0) ++ Move.whole (.next 0 0) ++
  Move.whole (.next 0 0) ++ Move.whole (.release 0 1) ++
  [.releaseRaw 0 0, .steps (.consumer 0) 4000, .reply (.consumer 0)] ++
  Move.whole (.publish 0 (.byte 7) .dropNewest 0) ++ Move.whole (.next 0 0) ++
  Move.whole (.close 0) ++ Move.whole (.next 0 0)

end Session

/-- The same publications and deliveries on a ring whose counter starts at 1, and on one whose
counter wraps on the way. -/
theorem run_shifted_wrapped :
    ∃ (events : List (Event .single)) (x x' : Session .single .two),
      Session.Run (fun _ _ => True) events (.fresh .two 1 ()) x ∧
        Session.Run (fun _ _ => True) events (.fresh .two (1 + 0xFFFF_FFFF_FFFF_FFFE) ()) x' ∧
        x.Shifted 0xFFFF_FFFF_FFFF_FFFE x' ∧ x.sequences = [1, 2, 1, 2, 3, 3] ∧
        x'.sequences = [0xFFFF_FFFF_FFFF_FFFF, 0, 0xFFFF_FFFF_FFFF_FFFF, 0, 1, 1] := by
  obtain ⟨events, x, h, hx⟩ := Session.Run.play
    (fun x => decide (x.sequences = [1, 2, 1, 2, 3, 3])) Session.tour
    (.nil (.fresh (P := .single) .two 1 ())) (by decide +kernel)
  have hx := of_decide_eq_true hx
  obtain ⟨x', h', hshift⟩ := run_shifted 1 0xFFFF_FFFF_FFFF_FFFE () events x h
  refine ⟨events, x, x', h, h', hshift, hx, ?_⟩
  rw [hshift.sequences, hx]
  decide

end TenzorBus
