import TenzorBus.Guarantee.Sequences
import TenzorBus.Refine.Queue

/-!
# Deliveries in turn

With one reservation at a time and nobody dying, a consumer that has registered between two
reservations is handed every publication since, in the order of the commits and without a gap, and
`try_take` finds the next one if it was there when the call began.

* `OneAtATime` : what is asked of a run
* `InTurn` : the guarantee for one consumer
* `delivered_in_turn` : it holds in every reachable state
-/

namespace TenzorBus

open Conc Refine

variable {P : Platform} {L : RingLayout} {n : Nat} {k : UInt64}

/-! ## the condition on the run -/

/-- Nobody dies, a reservation is begun only when none is unfinished, and no lease of an open
consumer spans more than `2 ^ 63` publications. -/
structure OneAtATime (m m' : State P n × Ghost n) : Prop where
  calm : Calm m m'
  singly : m'.2.begun ≠ m.2.begun → ∀ t, m.2.reservation t = none
  near : ∀ c k, m'.2.registration c = some k → k.closing = false → ∀ x ∈ m'.1.leases c,
    k.last - m'.2.num x.slotIndex ≤ 2 ^ 63

theorem fifo_init (os : P.Os) :
    (view (State.init k os, Ghost.init n k) : View P n).proto.Fifo k.toNat where
  counter := {
    single := fun _ _ _ _ h => nomatch h
    idle := fun _ => (add_zero _).symm
    next := fun _ _ h => nomatch h
    number := fun _ _ h => nomatch h
    position := fun _ h => nomatch h }
  place _ _ h := nomatch h
  waiting _ _ h := nomatch h.1.1
  fresh _ _ := rfl
  trying _ := Nat.zero_le _
  tries _ _ h := nomatch h

theorem queueMode_lawful (P : Platform) (L : RingLayout) (k : UInt64) :
    (queueMode P L.slotCount k.toNat).Lawful (L := L) k P.allAlive where
  initial os h := {
    left := {
      held := fun _ _ h => nomatch h.1.1
      once := fun _ _ h => nomatch h.1.1
      fresh := fun _ _ => rfl }
    right := ⟨fifo_init os, fun _ _ _ h => absurd h.1 nofun, fun a => h (P.proc a)⟩ }
  delivers := delivers_queue
  step _ v _ hi hg _ hok _ := by
    obtain ⟨hleases, hfifo, hnear, hlive⟩ := hi.mode
    exact ⟨hleases.step hi.proto id hg.step hg.live hg.step.ascends,
      hfifo.step hi.proto hlive hleases hg.step hok.2.1, hok.2.2, hok.1⟩
  env _ _ hi hp hok := by
    obtain ⟨hleases, hfifo, -, -⟩ := hi.mode
    exact ⟨hleases.fades hp.fades, hfifo.fades hp.fades, hok.2.2, hok.1⟩

theorem OneAtATime.ok {m m' : State P n × Ghost n} (h : OneAtATime m m') :
    Believes (queueMode P n k.toNat).guards (view m) (view m') ∧
      (queueMode P n k.toNat).ok (view m) (view m') :=
  ⟨h.calm.honest.believes, fun a => h.calm.alive (P.proc a), h.singly,
    fun c reg x hk hx => h.near c reg hk.1 hk.2 x hx⟩

/-! ## the guarantee -/

/-- A publication waits for the registration: it is committed in its slot with the words of its
commit, carries the reader bit, and its sequence is new to the consumer. -/
structure Awaits (m : State P n × Ghost n) (k : Registration) (pub : Publication n) : Prop where
  committed : (m.1.ring.slots pub.slot).state = .committed
  sequence : (m.1.ring.slots pub.slot).sequence = pub.sequence
  header : (m.1.ring.slots pub.slot).header = pub.header
  payload : (m.1.ring.slots pub.slot).payload = pub.payload
  reader : k.index ∈ readers (m.1.ring.slots pub.slot).readersMask
  newer : seqNewer pub.sequence (seqWord k.last) = true

/-- What consumer `c` has been handed is an initial part of what has been committed since its
registration; as long as it is open the rest waits for it, in not more slots than there are; and
no `try_take` that began when more had been committed than the consumer had been handed has come
back with nothing. -/
structure InTurn (m : State P n × Ghost n) (c : Nat) (k : Registration) : Prop where
  handed : List.Forall₂ TensorMeta.Of (m.2.handed c)
    ((m.2.published.drop k.start).take (m.2.handed c).length)
  awaits : k.closing = false → ∀ pub ∈ m.2.published.drop (k.start + (m.2.handed c).length),
    Awaits m k pub
  few : k.closing = false → (m.2.published.drop (k.start + (m.2.handed c).length)).length ≤ n
  answered : ∀ x ∈ m.2.tries c, x.result = none → x.start ≤ k.start + x.handed

/-- An initial part that is known position by position. -/
theorem Proto.Place.forall₂ {first : Int} {p : Proto n} {c : Nat} {reg : Registration}
    (h : p.Place first c reg) : List.Forall₂ TensorMeta.Of (p.hist.handed c)
      ((p.hist.published.drop reg.start).take (p.hist.handed c).length) := by
  have hle := h.le
  unfold Proto.seen at hle
  refine List.forall₂_iff_get.mpr ⟨by simp; omega, fun i hi hi' => ?_⟩
  obtain ⟨pub, hpub, hof⟩ := h.handed i _ (List.getElem?_eq_getElem hi)
  obtain ⟨hlt, rfl⟩ := List.getElem?_eq_some_iff.mp hpub
  simpa using hof

/-- Whatever has been committed beyond a consumer's place waits for it. -/
theorem Mode.Inv.awaits {first : Int} {m : State P L.slotCount × Ghost L.slotCount}
    (hi : (queueMode P L.slotCount first).Inv L.slotCapacity (view m)) {c : Nat}
    {reg : Registration} (hk : (view m).proto.concerns True c reg)
    {pub : Publication L.slotCount}
    (hpub : pub ∈ m.2.published.drop (reg.start + (m.2.handed c).length)) : Awaits m reg pub := by
  obtain ⟨-, hfifo, hnear, -⟩ := hi.mode
  obtain ⟨i, hpub⟩ := List.mem_iff_getElem?.mp hpub
  rw [List.getElem?_drop] at hpub
  have hpub : (view m).proto.hist.published[(view m).proto.seen c reg + i]? = some pub := hpub
  obtain ⟨hc, hpos, hb⟩ := (hfifo.waiting c reg hk).unread _ pub (Nat.le_add_right _ _) hpub
  -- the slot still has the words of its last commit, which was this one
  obtain ⟨mask, hcontent, -⟩ := hi.proto.content pub.slot hc
  rw [hpos, hpub] at hcontent
  have hsame := Option.some.inj hcontent
  have hseq : pub.sequence = seqWord (m.2.num pub.slot) := congrArg Publication.sequence hsame
  exact {
    committed := hc
    sequence := (hi.coupled.sequence pub.slot).trans hseq.symm
    header := (congrArg Publication.header hsame).symm
    payload := (congrArg Publication.payload hsame).symm
    reader := hb
    newer := by
      rw [hseq]
      refine (hfifo.seqNewer_iff (L.slotCount_lt.trans (by decide)) hnear hi.proto hk hc hb).mpr ?_
      rw [hpos]
      exact Nat.le_add_right _ _ }

/-- In a run of live processes with at most one unfinished reservation at a time, in which no lease
spans more than `2 ^ 63` publications, every consumer that registers between two reservations is
handed the publications since its registration one after the other. -/
theorem delivered_in_turn {c : RingConfig P L}
    (h : (ringSystem P L).Reach OneAtATime (Fresh P L k P.allAlive) c) {cn : Nat}
    {reg : Registration} (hk : c.mem.2.registration cn = some reg) (hq : reg.quiet) :
    InTurn c.mem cn reg := by
  have hi := (queueMode_lawful P L k).inv (h.mono fun _ _ hok => hok.ok)
  have hplace := hi.mode.2.1.place cn reg hk hq
  have hconcerns : reg.closing = false → (view c.mem).proto.concerns True cn reg :=
    fun hcl => ⟨⟨hk, hcl⟩, fun _ => hq⟩
  exact {
    handed := hplace.forall₂
    awaits := fun hcl pub hpub => hi.awaits (hconcerns hcl) hpub
    few := fun hcl => by
      rw [List.length_drop]
      exact (hi.mode.2.1.waiting cn reg (hconcerns hcl)).few
    answered := hplace.answered }

/-! ## a run -/

/-- `OneAtATime`, asked of a short run whose consumers register while no slot is being written. -/
def oneAtATime (m m' : State P L.slotCount × Ghost L.slotCount) : Bool :=
  Script.unasked m m' && decide (0 ≤ m'.2.next ∧ m'.2.next ≤ 2 ^ 62) &&
    match m.1.lock with
    | some (.writer t) => m'.2.begun == m.2.begun || (m.2.reservation t).isNone &&
        decide (∀ j, (m.1.ring.slots j).state ≠ .writing)
    | some (.consumer c) => m'.2.begun == m.2.begun && ((m.2.registration c).isSome ||
        (m'.2.registration c).isNone || decide (∀ j, (m.1.ring.slots j).state ≠ .writing))
    | _ => m'.2.begun == m.2.begun

/-- Where no slot is being written and the lock is not a writer's in the middle of a reservation,
no reservation is unfinished. -/
theorem Inv.none_unfinished {cap : Nat} {p : Proto n} (h : Inv cap p) (ha : ∀ a, p.alive a)
    (hs : ∀ j, p.state j ≠ .writing)
    (hl : ∀ t, p.lock = some (.writer t) → p.hist.reservation t = none) (t : Nat) :
    p.hist.reservation t = none := by
  by_contra hne
  obtain ⟨r, hr⟩ := Option.ne_none_iff_exists'.mp hne
  by_cases hp : r.phase = .returning
  · exact hne (hl t (h.locked t r hr (by rw [hp]; simp) (ha _)))
  · exact hs r.slot (h.writing t r hr hp)

theorem oneAtATime_singly {m m' : State P L.slotCount × Ghost L.slotCount} {cap : Nat}
    (hi : Inv cap (view m).proto) (ha : ∀ a, (view m).proto.alive a) (h : oneAtATime m m' = true)
    (hne : m'.2.begun ≠ m.2.begun) (t : Nat) : m.2.reservation t = none := by
  simp only [oneAtATime, Bool.and_eq_true] at h
  obtain ⟨-, h⟩ := h
  split at h
  · next w hl =>
    simp only [Bool.or_eq_true, beq_iff_eq, hne, false_or, Bool.and_eq_true,
      Option.isNone_iff_eq_none,
      decide_eq_true_eq] at h
    refine hi.none_unfinished ha h.2 (fun t' ht' => ?_) t
    obtain rfl : t' = w := Actor.writer.inj (Option.some.inj (ht'.symm.trans hl))
    exact h.1
  · simp [hne] at h
  · simp [hne] at h

/-- A new registration is one that is made while no slot is being written. -/
theorem Step.all_quiet {G : Guards n} {cap : Nat} {a : Actor} {p p' : Proto n}
    (hs : Step G cap a p p') (hq : ∀ c k, p.hist.registration c = some k → k.quiet)
    (hnew : ∀ c, p.lock = some (.consumer c) → p.hist.registration c = none →
      p'.hist.registration c ≠ none → ∀ t, p.hist.reservation t = none) :
    ∀ c k, p'.hist.registration c = some k → k.quiet := by
  intro c k hk
  cases hr : p.hist.registration c with
  | some k₀ =>
    obtain ⟨last, closing, hk'⟩ := hs.registration hr
    obtain rfl := Option.some.inj (hk'.symm.trans hk)
    exact hq c k₀ hr
  | none =>
    cases hs with
    | register c' _ i locked free fresh =>
      by_cases hc : c = c'
      · subst hc
        obtain rfl : p.hist.registrationNow i = k := by simpa [Ghost.register] using hk
        exact hnew c locked hr (by rw [hk]; simp)
      · exact hq c k (by simpa [Ghost.register, hc] using hk)
    | closing c' =>
      by_cases hc : c = c'
      · subst hc
        simp [Ghost.closing, hr] at hk
      · exact hq c k (by simpa [Ghost.closing, hc] using hk)
    | take c' _ k₀ m client =>
      by_cases hc : c = c'
      · subst hc
        simp [Ghost.hand, hr] at hk
      · exact hq c k (by simpa [Ghost.hand, hc] using hk)
    | _ => exact hq c k hk

theorem oneAtATime_joins {m m' : State P L.slotCount × Ghost L.slotCount} {cap : Nat}
    (hi : Inv cap (view m).proto) (ha : ∀ a, (view m).proto.alive a) (h : oneAtATime m m' = true)
    {c : Nat} (hl : m.1.lock = some (.consumer c)) (hnone : m.2.registration c = none)
    (hsome : m'.2.registration c ≠ none) (t : Nat) : m.2.reservation t = none := by
  simp only [oneAtATime, hl, hnone, Bool.and_eq_true, Option.isSome_none, Bool.false_or,
    Bool.or_eq_true, Option.isNone_iff_eq_none, hsome, false_or, decide_eq_true_eq] at h
  refine hi.none_unfinished ha h.2.2 (fun t' ht' => ?_) t
  cases Option.some.inj (ht'.symm.trans hl)

/-- In a run of such steps consumers register between two reservations. -/
theorem oneAtATime_step {c d : RingConfig .single L}
    (h : (ringSystem .single L).Reach (fun m m' => oneAtATime m m' = true)
      (Fresh .single L 0 Platform.single.allAlive) c)
    (hreach : (ringSystem .single L).Reach OneAtATime
      (Fresh .single L 0 Platform.single.allAlive) c)
    (hs : (ringSystem .single L).Step c d) (hok : oneAtATime c.mem d.mem = true)
    (hq : ∀ cn reg, c.mem.2.registration cn = some reg → reg.quiet) :
    OneAtATime c.mem d.mem ∧ ∀ cn reg, d.mem.2.registration cn = some reg → reg.quiet := by
  have hcalm : ∀ {m m' : State .single L.slotCount × Ghost L.slotCount},
      oneAtATime m m' = true → Calm m m' ∧ Short m' := fun hok => by
    simp only [oneAtATime, Bool.and_eq_true, decide_eq_true_eq] at hok
    exact ⟨⟨fun _ => rfl, fun x hx => (Script.verdicts_of_unasked hok.1.1 hx).elim⟩, hok.1.2⟩
  have hM := queueMode_lawful .single L 0
  have hi := hM.inv (hreach.mono fun _ _ hok => hok.ok)
  have hn : Narrow (view d.mem).proto := ((shortMode_lawful .single L False _).inv
    ((h.step hs hok).mono fun _ _ hc =>
      ⟨Honest.believes (hcalm hc).1.honest, (hcalm hc).2⟩)).mode.1
  refine ⟨⟨(hcalm hok).1, oneAtATime_singly hi.proto (fun _ => rfl) hok,
    fun cn reg hk _ x _ => ?_⟩, ?_⟩
  · have hlast := (hn.last cn reg hk).2
    have hnum : 0 ≤ d.mem.2.num x.slotIndex := (hn.num x.slotIndex).1
    omega
  · rcases hM.sound.step (hreach.mono fun _ _ hok => hok.ok) hs with ⟨a, -, hg⟩ | ⟨os, -, he⟩ | he
    · exact hg.step.all_quiet hq fun cn hl hnone hsome =>
        oneAtATime_joins hi.proto (fun _ => rfl) hok hl hnone hsome
    · rw [he]
      exact hq
    · rw [he]
      exact hq

/-- What the check promises. -/
theorem reach_oneAtATime {c : RingConfig .single L}
    (h : (ringSystem .single L).Reach (fun m m' => oneAtATime m m' = true)
      (Fresh .single L 0 Platform.single.allAlive) c) :
    (ringSystem .single L).Reach OneAtATime (Fresh .single L 0 Platform.single.allAlive) c ∧
      ∀ cn reg, c.mem.2.registration cn = some reg → reg.quiet := by
  induction h with
  | init h =>
    refine ⟨.init h, fun cn reg hk => ?_⟩
    obtain ⟨os, -, rfl⟩ := h
    cases hk
  | step hr hs hok ih =>
    obtain ⟨hreach, hq⟩ := ih
    obtain ⟨hone, hq'⟩ := oneAtATime_step hr hreach hs hok hq
    exact ⟨hreach.step hs hone, hq'⟩

open Script in
/-- Two consumers, one of which registers after the first publication; a reservation is aborted in
between. -/
theorem delivered_in_turn_late :
    ∃ (c : RingConfig .single (.small 2 (by decide) (by decide))) (reg : Registration),
      (ringSystem _ _).Reach OneAtATime (Fresh _ _ 0 Platform.single.allAlive) c ∧
        c.mem.2.registration 1 = some reg ∧ reg.quiet ∧ reg.start = 1 ∧
          (c.mem.2.handed 0).length = 2 ∧ (c.mem.2.handed 1).length = 1 ∧ InTurn c.mem 1 reg := by
  obtain ⟨c, hc, ht⟩ := Script.reach (.small 2 (by decide) (by decide)) 0
    Platform.single.allAlive (fun _ => rfl) (fun m m' => oneAtATime m m' = true) oneAtATime
    (fun _ _ h => h)
    (whole (.consumer 0) (register 0) ++ whole (.writer 0) (publish 0 (.byte 5)) ++
      whole (.consumer 1) (register 1) ++ whole (.writer 0) (reserve 0 .u8 [1]) ++
      whole (.writer 0) (abort 0) ++ whole (.consumer 0) (next 0) ++
      whole (.writer 0) (publish 0 (.byte 6)) ++ whole (.consumer 0) (next 0) ++
      whole (.consumer 1) (next 1))
    (fun d => (d.mem.2.registration 1).any (fun reg => reg.start == 1) &&
      (d.mem.2.handed 0).length == 2 && (d.mem.2.handed 1).length == 1) (by decide +kernel)
  simp only [Bool.and_eq_true, beq_iff_eq, Option.any_eq_true] at ht
  obtain ⟨⟨⟨reg, hreg, hstart⟩, h0⟩, h1⟩ := ht
  obtain ⟨hreach, hq⟩ := reach_oneAtATime hc
  exact ⟨c, reg, hreach, hreg, hq 1 reg hreg, hstart, h0, h1,
    delivered_in_turn hreach hreg (hq 1 reg hreg)⟩

end TenzorBus
