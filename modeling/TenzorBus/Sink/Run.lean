import TenzorBus.Conc.Yields
import TenzorBus.Guarantee.Run
import TenzorBus.Sink.Operations
import Mathlib.Data.List.Chain

/-!
# The sink over whole runs

The engine may call in any order and with any arguments. As long as it gets no destination while an
earlier one is still pending, the sink keeps slots and sequences straight.

* `Tidy` : what the sink holds fits the books
* `call_books` : what one call makes of both
* `InOrder` : the property of the run
-/

namespace TenzorBus

open Conc

variable {P : Platform} {n : Nat} {L : RingLayout} {b : Books n}

/-- The engine asks for a destination. -/
def SinkCall.isRequest : SinkCall → Bool
  | .videoDestination .. => true
  | _ => false

namespace BusSink

/-- The sequence of the next publication. -/
def upcoming (self : BusSink n) (b : Books n) : UInt64 :=
  match self.pending with
  | some w => w.handle.sequence
  | none => b.next

/-- What the sink holds and what it has noted fit the books. `before` is what had been published
before. -/
structure Tidy (before : List (UInt64 × Fin n)) (pid : UInt32) (sink : BusSink n) (b : Books n) :
    Prop where
  writing : ∀ i, b.state i = .writing ↔ ∃ w ∈ sink.pending, w.handle.slot = i
  producerPid : ∀ w ∈ sink.pending, b.producerPid w.handle.slot = pid
  sequence : ∀ w ∈ sink.pending, b.sequence w.handle.slot = w.handle.sequence
  next : ∀ w ∈ sink.pending, b.next = w.handle.sequence + 1
  upcoming : ∀ x ∈ sink.slotTrace.getLast?, sink.upcoming b = x.1 + 1
  published : b.published = before ++ sink.slotTrace
  consecutive : sink.slotTrace.IsChain fun x y => y.1 = x.1 + 1
  counted : sink.published = UInt64.ofNat sink.slotTrace.length

namespace Tidy

variable {before : List (UInt64 × Fin n)} {pid : UInt32} {sink : BusSink n}

theorem own (h : sink.Tidy before pid b) {a : Actor} (hpid : P.me a = pid) :
    b.Own (P := P) a := by
  intro i hi
  obtain ⟨w, hw, rfl⟩ := (h.writing i).mp hi
  exact (h.producerPid w hw).trans hpid.symm

/-- What else the sink keeps does not matter. -/
theorem congr (h : sink.Tidy before pid b) {sink' : BusSink n}
    (hpending : sink'.pending = sink.pending)
    (htrace : sink'.slotTrace = sink.slotTrace)
    (hpublished : sink'.published = sink.published) : sink'.Tidy before pid b where
  writing := hpending ▸ h.writing
  producerPid := hpending ▸ h.producerPid
  sequence := hpending ▸ h.sequence
  next := hpending ▸ h.next
  upcoming := by
    unfold BusSink.upcoming
    rw [hpending, htrace]
    exact h.upcoming
  published := htrace ▸ h.published
  consecutive := htrace ▸ h.consecutive
  counted := by
    rw [hpublished, htrace]
    exact h.counted

/-- A slot is in hand under the next number. -/
theorem reserved (h : sink.Tidy before pid b) (hnone : sink.pending = none) {w : Pending n}
    (hsequence : w.handle.sequence = b.next) :
    { sink with pending := some w }.Tidy before pid (b.reserved w.handle.slot pid) where
  writing i := by
    have hi := h.writing i
    rw [hnone] at hi
    by_cases hw : i = w.handle.slot
    · simp [Books.reserved, hw]
    · simp [Books.reserved, Function.update_of_ne hw, hi, Ne.symm hw]
  producerPid _ hw := by
    cases hw
    exact Function.update_self ..
  sequence _ hw := by
    cases hw
    exact (Function.update_self ..).trans hsequence.symm
  next _ hw := by
    cases hw
    exact congrArg (· + 1) hsequence.symm
  upcoming x hx := by
    have := h.upcoming x hx
    simp only [BusSink.upcoming, hnone] at this ⊢
    exact hsequence.trans this
  published := h.published
  consecutive := h.consecutive
  counted := h.counted

/-- The slot in hand has been published. -/
theorem committed (h : sink.Tidy before pid b) {w : Pending n} (hw : sink.pending = some w) :
    (({ sink with pending := none }.recordSlot w.handle.sequence w.handle.slot).record
      w.handle.sequence).Tidy before pid (b.committed w.handle.slot) where
  writing i := by
    have hi := h.writing i
    rw [hw] at hi
    by_cases hslot : i = w.handle.slot
    · simp [Books.committed, recordSlot, record, hslot]
    · simp [Books.committed, recordSlot, record, Function.update_of_ne hslot, hi, Ne.symm hslot]
  producerPid := by nofun
  sequence := by nofun
  next := by nofun
  upcoming x hx := by
    have hlast : x = (w.handle.sequence, w.handle.slot) := by
      simpa [recordSlot, record, eq_comm] using hx
    rw [hlast]
    exact h.next w hw
  published := by
    have := h.sequence w hw
    simp [Books.committed, recordSlot, record, h.published, this]
  consecutive := by
    refine List.isChain_append.mpr ⟨h.consecutive, .singleton _, ?_⟩
    intro x hx y hy
    cases hy
    have := h.upcoming x hx
    simpa [BusSink.upcoming, hw] using this
  counted := by
    simp [recordSlot, record, h.counted]

/-- The slot in hand has been given back, and its number with it. -/
theorem aborted (h : sink.Tidy before pid b) {w : Pending n} (hw : sink.pending = some w) :
    { sink with pending := none }.Tidy before pid
      (b.aborted w.handle.slot w.handle.sequence) where
  writing i := by
    have hi := h.writing i
    rw [hw] at hi
    by_cases hslot : i = w.handle.slot
    · simp [Books.aborted, hslot]
    · simp [Books.aborted, Function.update_of_ne hslot, hi, Ne.symm hslot]
  producerPid := by nofun
  sequence := by nofun
  next := by nofun
  upcoming x hx := by
    have := h.upcoming x hx
    simp only [BusSink.upcoming, hw] at this
    exact (if_pos (h.next w hw)).trans this
  published := h.published
  consecutive := h.consecutive
  counted := h.counted

end Tidy

/-! ## one call -/

theorem silent_perturb (plusOne : UInt32 → UInt32) (slot : Fin n) :
    Silent (perturb plusOne slot : RingM P n Unit) :=
  .bind (silent_load _) fun _ => silent_copyPayload _ _

section

variable {before : List (UInt64 × Fin L.slotCount)} {pid : UInt32} {b : Books L.slotCount}
  {sink : BusSink L.slotCount}

/-- What a call makes of the sink and the books. -/
structure Answered (before : List (UInt64 × Fin n)) (pid : UInt32) (x : Served n)
    (sink : BusSink n) (b : Books n) : Prop where
  tidy : sink.Tidy before pid b
  length : sink.slotTrace.length = x.before.slotTrace.length + if x.succeeded then 1 else 0
  idle : x.call.isRequest = false → sink.pending = none

theorem videoDestination_books (hme : ∀ t, P.me (.writer t) = P.me (.writer 0))
    (h : sink.Tidy before (P.me (.writer 0)) b) (epoch : Nat) (pts : Int64) (len : Nat) :
    From b (sink.videoDestination L epoch pts len : RingM P L.slotCount _) fun r b' =>
      Served.overlaps ⟨sink, .videoDestination epoch pts len, .destination r.1⟩ = false →
        Answered before (P.me (.writer 0))
          ⟨sink, .videoDestination epoch pts len, .destination r.1⟩ r.2 b' := by
  unfold videoDestination
  split
  · exact .ret fun _ => ⟨h, rfl, nofun⟩
  split
  · exact .ret fun _ => ⟨h, rfl, nofun⟩
  refine .bind (reserve_books (h.own (hme _)) _ _ _ _) ?_
  rintro (e | _ | writer) b' hb
  · rw [show b' = b from hb]
    exact .ret fun _ => ⟨h.congr rfl rfl rfl, rfl, nofun⟩
  · rw [show b' = b from hb]
    exact .ret fun _ => ⟨h.congr rfl rfl rfl, rfl, nofun⟩
  obtain ⟨hsequence, hb⟩ := hb
  rw [hb, hme]
  refine .skip (setTimestampNs_books _ _) fun _ => ?_
  unfold dropPending
  split
  · next w hw =>
    refine .seq (abort_books _ _) fun _ => .ret fun hapart => ?_
    simp [Served.overlaps, hw] at hapart
  · next hw =>
    refine .skip (.ret _) fun _ => .ret fun _ => ⟨?_, rfl, nofun⟩
    exact (h.reserved hw (w := { writer := sink.reservations, handle := writer }) hsequence).congr
      rfl rfl rfl

variable {call : SinkCall}

theorem finishPending_books (plusOne : UInt32 → UInt32) {w : Pending L.slotCount}
    (h : sink.Tidy before pid b) (hw : sink.pending = some w) (epoch : Nat) :
    From b (finishPending plusOne { sink with pending := none } w epoch : RingM P L.slotCount _)
      fun r b' => Answered before pid ⟨sink, call, .ready r.1⟩ r.2 b' := by
  have hcommit : From b (commitPending { sink with pending := none } w : RingM P L.slotCount _)
      fun r b' => Answered before pid ⟨sink, call, .ready r.1⟩ r.2 b' := by
    refine .bind (commit_books w.writer w.handle) ?_
    rintro result b' ⟨hsequence, hb⟩
    rw [hb, hsequence]
    exact .ret ⟨h.committed hw, List.length_append, fun _ => rfl⟩
  unfold finishPending
  split
  · split
    · exact .seq (abort_books _ _) fun _ => .ret ⟨h.aborted hw, rfl, fun _ => rfl⟩
    · exact .skip (silent_perturb plusOne _) fun _ => hcommit
  · exact hcommit

theorem copyIn_books (hme : ∀ t, P.me (.writer t) = P.me (.writer 0))
    (h : sink.Tidy before (P.me (.writer 0)) b) (hnone : sink.pending = none) (pts : Int64)
    (values : List UInt32) :
    From b (copyIn L sink pts values : RingM P L.slotCount _) fun r b' =>
      Answered before (P.me (.writer 0)) ⟨sink, call, .ready r.1⟩ r.2 b' := by
  unfold copyIn
  split
  · exact .ret ⟨h, rfl, fun _ => hnone⟩
  next view _ =>
  refine .bind (publish_books (h.own (hme _)) _ _ _) ?_
  rintro (e | _ | result) b' hb
  · rw [show b' = b from hb]
    exact .ret ⟨h.congr rfl rfl rfl, rfl, fun _ => hnone⟩
  · rw [show b' = b from hb]
    exact .ret ⟨h.congr rfl rfl rfl, rfl, fun _ => hnone⟩
  obtain ⟨hsequence, hb⟩ := hb
  rw [hb, hme]
  -- a publication is a reservation and its commit
  have hreserved := h.reserved hnone
    (w := ⟨sink.reservations, result.slotIndex, result.sequence, 0, 0⟩) hsequence
  exact .ret ⟨(hreserved.committed rfl).congr hnone rfl rfl, List.length_append, fun _ => hnone⟩

theorem epochReady_books (plusOne : UInt32 → UInt32)
    (hme : ∀ t, P.me (.writer t) = P.me (.writer 0))
    (h : sink.Tidy before (P.me (.writer 0)) b) (epoch : Nat) (pts : Int64)
    (tensor : Option (List UInt32)) :
    From b (sink.epochReady L plusOne epoch pts tensor : RingM P L.slotCount _) fun r b' =>
      Answered before (P.me (.writer 0)) ⟨sink, call, .ready r.1⟩ r.2 b' := by
  unfold epochReady
  split
  · next w hw => exact finishPending_books plusOne h hw epoch
  · next values hnone => exact copyIn_books hme h hnone pts values
  · next w _ hw =>
    exact .seq (abort_books _ _) fun _ => .ret ⟨h.aborted hw, rfl, fun _ => rfl⟩
  · next hnone => exact .ret ⟨h, rfl, fun _ => hnone⟩

theorem abortEpoch_books (h : sink.Tidy before pid b) (epoch : Nat) :
    From b (sink.abortEpoch epoch : RingM P L.slotCount _) fun sink' b' =>
      Answered before pid ⟨sink, call, .aborted⟩ sink' b' := by
  unfold abortEpoch dropPending
  split
  · next w hw =>
    exact .seq (abort_books _ _) fun _ => .ret ⟨h.aborted hw, rfl, fun _ => rfl⟩
  · next hnone =>
    refine .skip (.ret _) fun _ => .ret ⟨?_, rfl, fun _ => rfl⟩
    rwa [← hnone]

/-- A call keeps the sink tidy unless it overlaps. -/
theorem call_books (plusOne : UInt32 → UInt32) (hme : ∀ t, P.me (.writer t) = P.me (.writer 0))
    (h : sink.Tidy before (P.me (.writer 0)) b) (call : SinkCall) :
    From b (sink.call L plusOne call : RingM P L.slotCount _) fun r b' =>
      Served.overlaps ⟨sink, call, r.1⟩ = false →
        Answered before (P.me (.writer 0)) ⟨sink, call, r.1⟩ r.2 b' := by
  cases call with
  | videoDestination epoch pts len =>
    exact .bind (videoDestination_books hme h epoch pts len) fun r b' hr => .ret hr
  | epochReady epoch pts tensor =>
    exact .bind (epochReady_books plusOne hme h epoch pts tensor) fun r b' hr => .ret fun _ => hr
  | abortEpoch epoch =>
    exact .bind (abortEpoch_books h epoch) fun r b' hr => .ret fun _ => hr

end

/-! ## the run -/

/-- Slots and sequences are straight: no slot is being written but the one that is pending, none
after the end of an epoch, and the sink's trace lists what it has published, under consecutive
sequences, one for each `epoch_ready` that has succeeded. -/
structure InOrder (before : List (UInt64 × Fin n)) (sink : BusSink n) (log : List (Served n))
    (b : Books n) : Prop where
  writing : ∀ i, b.state i = .writing ↔ ∃ w ∈ sink.pending, w.handle.slot = i
  idle : ∀ x ∈ log.getLast?, x.call.isRequest = false → sink.pending = none
  published : b.published = before ++ sink.slotTrace
  consecutive : sink.slotTrace.IsChain fun x y => y.1 = x.1 + 1
  length : sink.slotTrace.length = (log.filter Served.succeeded).length
  counted : sink.published = UInt64.ofNat (log.filter Served.succeeded).length

/-- The sink is tidy after the calls of `log`, and has published in each that has succeeded. -/
structure Along (before : List (UInt64 × Fin n)) (pid : UInt32)
    (x : BusSink n × List (Served n)) (b : Books n) : Prop where
  tidy : x.1.Tidy before pid b
  length : x.1.slotTrace.length = (x.2.filter Served.succeeded).length
  idle : ∀ y ∈ x.2.getLast?, y.call.isRequest = false → x.1.pending = none

theorem Along.answered {before : List (UInt64 × Fin n)} {pid : UInt32} {sink sink' : BusSink n}
    {log : List (Served n)} {b b' : Books n} {x : Served n} (h : Along before pid (sink, log) b)
    (hx : x.before = sink) (ha : Answered before pid x sink' b') :
    Along before pid (sink', log ++ [x]) b' where
  tidy := ha.tidy
  length := by
    have hlength := h.length
    rw [ha.length, hx, List.filter_append, List.length_append, hlength]
    cases hs : x.succeeded <;> simp [hs]
  idle y hy := by
    have hlast : y = x := by simpa [eq_comm] using hy
    exact hlast ▸ ha.idle

theorem Along.inOrder {before : List (UInt64 × Fin n)} {pid : UInt32} {sink : BusSink n}
    {log : List (Served n)} {b : Books n} (h : Along before pid (sink, log) b) :
    sink.InOrder before log b where
  writing := h.tidy.writing
  idle := h.idle
  published := h.tidy.published
  consecutive := h.tidy.consecutive
  length := h.length
  counted := h.length ▸ h.tidy.counted

/-- The sink after the calls, as long as none of them has overlapped. -/
def AfterCalls (before : List (UInt64 × Fin n)) (pid : UInt32) (calls : List SinkCall)
    (x : BusSink n × List (Served n)) (m : State P n × Ghost n) : Prop :=
  x.2.map Served.call = calls ∧
    ((∀ y ∈ x.2, y.overlaps = false) → Along before pid x (books m))

theorem kept_afterCalls (before : List (UInt64 × Fin n)) (pid : UInt32) (calls : List SinkCall)
    (x : BusSink n × List (Served n)) :
    Kept Others (AfterCalls (P := P) before pid calls x) :=
  kept_books fun b => _ ∧ ((∀ y ∈ x.2, y.overlaps = false) → Along before pid x b)

theorem serveOne_books {before : List (UInt64 × Fin L.slotCount)} (plusOne : UInt32 → UInt32)
    (hme : ∀ t, P.me (.writer t) = P.me (.writer 0)) (done : List SinkCall) (call : SinkCall)
    (x : BusSink L.slotCount × List (Served L.slotCount)) :
    Triple Others (AfterCalls before (P.me (.writer 0)) done x)
      (serveOne L plusOne x call : RingM P L.slotCount _)
      (AfterCalls before (P.me (.writer 0)) (done ++ [call])) := by
  obtain ⟨sink, log⟩ := x
  intro m a m' hm ho
  obtain ⟨r, m₁, hcall, hret⟩ := Prog.Outcome.bind_iff.mp ho
  obtain ⟨rfl, henv⟩ := Prog.Outcome.ret_iff.mp hret
  refine (kept_afterCalls _ _ _ _).star henv ⟨by simp [hm.1], fun hapart => ?_⟩
  have hlog : ∀ y ∈ log, y.overlaps = false := fun y hy =>
    hapart y (List.mem_append_left _ hy)
  have halong := hm.2 hlog
  have hthis := hapart ⟨sink, call, r.1⟩ (List.mem_append_right _ (List.mem_singleton_self _))
  exact halong.answered rfl (call_books plusOne hme halong.tidy call m r m₁ rfl hcall hthis)

/-- Where no slot is being written, a new sink is tidy. -/
theorem along_new {b : Books n} (hfree : ∀ i, b.state i ≠ .writing) (pid : UInt32)
    (resolution : Nat) (direct : Bool) (timeout : Nat) (corruptEpoch : Option Nat) :
    Along b.published pid (new resolution direct timeout corruptEpoch, []) b where
  tidy :=
    { writing := fun i => ⟨fun h => absurd h (hfree i), by rintro ⟨w, hw, -⟩; cases hw⟩
      producerPid := by nofun
      sequence := by nofun
      next := by nofun
      upcoming := by nofun
      published := (List.append_nil _).symm
      consecutive := .nil
      counted := rfl }
  length := rfl
  idle := by nofun

end BusSink

/-- Whatever the engine calls, the sink keeps slots and sequences straight as long as no destination
request gets a slot while an earlier destination is pending. -/
theorem BusSink.serve_inOrder (plusOne : UInt32 → UInt32) (resolution : Nat) (direct : Bool)
    (timeout : Nat) (corruptEpoch : Option Nat) (calls : List SinkCall)
    {m m' : State P L.slotCount × Ghost L.slotCount} {sink : BusSink L.slotCount}
    {log : List (Served L.slotCount)} (hme : ∀ t, P.me (.writer t) = P.me (.writer 0))
    (hfree : ∀ i, (m.1.ring.slots i).state ≠ .writing)
    (h : ((BusSink.new resolution direct timeout corruptEpoch).serve L plusOne calls).Outcome Others
      m (sink, log) m')
    (hapart : ∀ x ∈ log, x.overlaps = false) :
    log.map Served.call = calls ∧ sink.InOrder (books m).published log (books m') := by
  have hstart : BusSink.AfterCalls (P := P) (books m).published (P.me (.writer 0)) []
      (BusSink.new resolution direct timeout corruptEpoch, []) m :=
    ⟨rfl, fun _ => BusSink.along_new hfree _ _ _ _ _⟩
  have hrun := Triple.foldl _ (fun done x => BusSink.kept_afterCalls _ _ done x)
    (BusSink.serveOne_books plusOne hme) calls [] _ m _ m' hstart h
  exact ⟨hrun.1, (hrun.2 hapart).inOrder⟩

/-- One epoch is decoded in place, the next one is copied in, the third one is aborted. -/
def SinkCall.decoded : List SinkCall :=
  [.videoDestination 0 0 3, .epochReady 0 0 none, .epochReady 1 0 (some [0, 0, 0]),
    .videoDestination 2 0 3, .abortEpoch 2]

theorem BusSink.serve_inOrder_decoded :
    ∃ (m' : State .single 2 × Ghost 2) (sink : BusSink 2) (log : List (Served 2)),
      ((BusSink.new 1 true 0 none).serve (.small 2 (by decide) (by decide)) id
        SinkCall.decoded).Outcome Others (State.init 1 (), Ghost.init 2 1) (sink, log) m' ∧
      sink.slotTrace.map (·.1) = [1, 2] ∧ log.map Served.call = SinkCall.decoded ∧
      sink.InOrder [] log (books m') := by
  obtain ⟨⟨sink, log⟩, m', h, ht⟩ := Prog.Outcome.computed (E := Others) 4000
    (p := (BusSink.new 1 true 0 none).serve (P := .single) (.small 2 (by decide) (by decide)) id
      SinkCall.decoded) (m := (State.init 1 (), Ghost.init 2 1))
    (fun x _ => x.1.slotTrace.map (·.1) == [1, 2] && x.2.all fun y => !y.overlaps)
    (by decide +kernel)
  rw [Bool.and_eq_true, beq_iff_eq, List.all_eq_true] at ht
  refine ⟨m', sink, log, h, ht.1, BusSink.serve_inOrder id 1 true 0 none SinkCall.decoded
    (fun _ => rfl) (fun _ hw => by cases hw) h fun x hx => ?_⟩
  simpa using ht.2 x hx

/-- The first epoch is published, the second one is abandoned without a word, the third one gets its
destination first. -/
def SinkCall.abandoned : List SinkCall :=
  [.videoDestination 0 0 3, .epochReady 0 0 none, .videoDestination 1 0 3,
    .videoDestination 2 0 3, .epochReady 2 0 none]

theorem BusSink.serve_abandoned :
    ∃ (m' : State .single 2 × Ghost 2) (sink : BusSink 2) (log : List (Served 2)),
      ((BusSink.new 1 true 0 none).serve (.small 2 (by decide) (by decide)) id
        SinkCall.abandoned).Outcome Others (State.init 1 (), Ghost.init 2 1) (sink, log) m' ∧
      sink.slotTrace.map (·.1) = [1, 3] ∧ ¬sink.InOrder [] log (books m') := by
  obtain ⟨⟨sink, log⟩, m', h, ht⟩ := Prog.Outcome.computed (E := Others) 4000
    (p := (BusSink.new 1 true 0 none).serve (P := .single) (.small 2 (by decide) (by decide)) id
      SinkCall.abandoned) (m := (State.init 1 (), Ghost.init 2 1))
    (fun x _ => x.1.slotTrace == [(1, 0), (3, 0)]) (by decide +kernel)
  have htrace : sink.slotTrace = [(1, 0), (3, 0)] := by simpa using ht
  refine ⟨m', sink, log, h, by rw [htrace]; rfl, fun hin => ?_⟩
  have hgap := hin.consecutive
  rw [htrace] at hgap
  revert hgap
  decide

/-! ## what the others do -/

/-- Only a writer changes states and numbers, as long as no writer has died. -/
theorem Step.unwritten {G : Guards n} (hG : ¬G.careless) {cap : Nat} {a : Actor} {p p' : Proto n}
    (hs : Step G cap a p p') (hi : Inv cap p) (ha : ∀ t, a ≠ .writer t)
    (halive : ∀ t, p.alive (.writer t)) :
    p'.state = p.state ∧ p'.hist.num = p.hist.num ∧ p'.hist.next = p.hist.next ∧
      p'.hist.published = p.hist.published := by
  cases hs with
  | begin t | body t | number t | setMask t | advance t | commit t | cancel t | free t | forget t =>
    exact absurd rfl (ha t)
  | abandon _ _ j locked gone =>
    -- somebody alive owns what is being written
    obtain ⟨t, r, hr, hphase, hslot⟩ := hi.owned j (gone.2 hG)
    exact absurd (halive t) (gone.1 t r hr hslot hphase)
  | _ => exact ⟨rfl, rfl, rfl, rfl⟩

theorem others_of_guar {G : Guards n} (hG : ¬G.careless) {cap : Nat} {a : Actor}
    {m m' : State P n × Ghost n} (hc : Coupled G (view m)) (hi : Inv cap (view m).proto)
    (hg : Guar G cap a (view m) (view m')) (ha : ∀ t, a ≠ .writer t)
    (halive : ∀ t, (view m).proto.alive (.writer t)) : Others m m' := by
  obtain ⟨hstate, hnum, hnext, hpublished⟩ := hg.step.unwritten hG hi ha halive
  refine (Books.mk.injEq ..).mpr ⟨hstate, ?_, ?_, ?_, congrArg (List.map _) hpublished⟩
  · funext j
    have hword : seqWord ((view m').proto.hist.num j) = seqWord ((view m).proto.hist.num j) := by
      rw [hnum]
    exact ((hg.coupled.sequence j).trans hword).trans (hc.sequence j).symm
  · funext j
    exact (hg.private'.slotPid j fun t r ht => absurd ht (ha t)).1
  · have hword : seqWord (view m').proto.hist.next = seqWord (view m).proto.hist.next := by
      rw [hnext]
    exact (hg.coupled.nextSeq.trans hword).trans hc.nextSeq.symm

/-- The consumers and the sweeps of a ring leave the books alone as long as the writers live and are
reported alive. -/
theorem others_of_step {k : UInt64} {start : P.Os → Prop} {c : RingConfig P L} {a : Actor}
    {p : RingM P L.slotCount Unit} {m : State P L.slotCount × Ghost L.slotCount}
    (h : (ringSystem P L).Reach HonestChecks (Fresh P L k start) c)
    (hs : (c.pool a).next? c.mem = some (p, m)) (hlive : c.mem.1.aliveActor a)
    (ha : ∀ t, a ≠ .writer t) (halive : ∀ t, c.mem.1.aliveActor (.writer t)) :
    Others c.mem m := by
  have hM := Refine.plainMode_lawful P L k start
  have h' : (ringSystem P L).Reach (Refine.plainMode P L.slotCount).rules.ok
      (Fresh P L k start) c := h.mono fun _ _ hc => ⟨Honest.believes hc, trivial⟩
  rcases hM.sound.acts h' hlive hs with hg | hm
  · exact others_of_guar id (hM.inv h').coupled (hM.inv h').proto hg ha halive
  · exact hm ▸ rfl

end TenzorBus
