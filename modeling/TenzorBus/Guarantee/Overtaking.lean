import TenzorBus.Guarantee.Ownership
import TenzorBus.Guarantee.Sequences
import TenzorBus.Refine.Overtaking

/-!
# Overtaken publications

Any number of reservations at a time, finished in any order, and consumers that register at any
moment. What a consumer is handed is never later than anything that waited for it when the
`try_take` began. A publication that carries the bit of a consumer is passed over only when it is
committed under a number that the consumer has reached, or when the consumer takes something later
in a `try_take` that began before the commit.

* `CalmAndFew` : what is asked of a run
* `taken_oldest` : the order of the deliveries
* `Late`, `Overtakes` : the two ways to pass a publication over
* `never_passed` : there is no third one
-/

namespace TenzorBus

open Conc Refine

variable {P : Platform} {L : RingLayout} {n : Nat} {k : UInt64}

/-! ## the run -/

/-- Nobody dies, and there have been at most `2 ^ 62` reservations. -/
structure CalmAndFew (m m' : State P n × Ghost n) : Prop where
  calm : Calm m m'
  few : m'.2.begun ≤ 2 ^ 62

theorem sparse_init {p : Proto n} (ha : ∀ a, p.alive a) (hs : ∀ j, p.state j = .free)
    (hp : p.hist = Ghost.init n k) : p.Sparse k := by
  have hk : (0 : Int) ≤ k.toNat := Int.natCast_nonneg _
  exact {
    numbered := ⟨∅, 0, numbered_init ha hp⟩
    spread := {
      le := fun j => by rw [hp]; exact hk
      committed := fun j hc => by rw [hs] at hc; cases hc
      reserved := fun t r hr => by rw [hp] at hr; cases hr
      last := fun c reg hreg => by rw [hp] at hreg; cases hreg }
    trying := fun c => by rw [hp]; exact le_rfl
    few := by rw [hp]; exact Nat.zero_le _ }

theorem Proto.Sparse.windowed {p : Proto n} (h : p.Sparse k) : Windowed p := by
  intro c reg j hreg hc _
  have := h.spread.committed j hc
  have := h.spread.last c reg hreg.1
  have := h.few
  omega

theorem oldestMode_lawful (P : Platform) (L : RingLayout) (k : UInt64) :
    (oldestMode P L.slotCount k).Lawful (L := L) k P.allAlive where
  initial os h := {
    left := {
      held := fun _ _ h => nomatch h.1.1
      once := fun _ _ h => nomatch h.1.1
      fresh := fun _ _ => rfl }
    right := sparse_init (fun a => h (P.proc a)) (fun _ => rfl) rfl }
  delivers := delivers_oldest
  step _ v _ hi hg _ hok _ := by
    obtain ⟨hleases, hsparse⟩ := hi.mode
    have hasc := ascends_of_windowed id hsparse.windowed hg.step
    exact ⟨hleases.step hi.proto id hg.step hg.live hasc, hsparse.step hi.proto id hg.step hok.2⟩
  env _ _ hi hp hok :=
    ⟨hi.mode.1.fades hp.fades, hi.mode.2.fades hp.fades hok.1 hok.2⟩

theorem CalmAndFew.ok {m m' : State P n × Ghost n} (h : CalmAndFew m m') :
    Believes (oldestMode P n k).guards (view m) (view m') ∧
      (oldestMode P n k).ok (view m) (view m') :=
  ⟨h.calm.honest.believes, fun a => h.calm.alive (P.proc a), h.few⟩

theorem reach_oldestMode {init : RingConfig P L → Prop} {c : RingConfig P L}
    (h : (ringSystem P L).Reach CalmAndFew init c) :
    (ringSystem P L).Reach (oldestMode P L.slotCount k).rules.ok init c :=
  h.mono fun _ _ hok => hok.ok

/-! ## what is waiting -/

/-- The reader bit of a registration is on a committed slot. -/
def ReadBy (m : State P n × Ghost n) (reg : Registration) (j : Fin n) : Prop :=
  (m.1.ring.slots j).state = .committed ∧ (m.1.ring.slots j).readersMask &&& bit reg.index ≠ 0

instance (m : State P n × Ghost n) (reg : Registration) (j : Fin n) : Decidable (ReadBy m reg j) :=
  inferInstanceAs (Decidable (_ ∧ _))

theorem readBy_iff {m : State P n × Ghost n} {reg : Registration} {j : Fin n} :
    ReadBy m reg j ↔ (view m).proto.state j = .committed ∧ reg.index ∈ (view m).proto.mask j := by
  unfold ReadBy
  rw [Ne, and_bit_eq_zero, not_not]
  rfl

/-- In a short run a committed slot waits for its reader if its sequence is new to it. -/
theorem waits_iff {m : State P L.slotCount × Ghost L.slotCount}
    (hi : (oldestMode P L.slotCount k).Inv L.slotCapacity (view m)) {cn : Nat} {reg : Registration}
    {j : Fin L.slotCount} (hr : m.2.registration cn = some reg) :
    (view m).proto.Waits reg j ↔
      ReadBy m reg j ∧ seqNewer (m.1.ring.slots j).sequence (seqWord reg.last) = true := by
  have hseq : (m.1.ring.slots j).sequence = seqWord (m.2.num j) := hi.coupled.sequence j
  rw [readBy_iff, hseq]
  refine ⟨fun hw => ⟨⟨hw.committed, hw.reader⟩, ?_⟩, fun ⟨⟨hc, hb⟩, hn⟩ => ⟨hc, hb, ?_⟩⟩
  · exact (hi.mode.2.seqNewer_iff hr hw.committed).mpr hw.newer
  · exact (hi.mode.2.seqNewer_iff hr hc).mp hn

/-! ## the order of the deliveries -/

/-- The numbers in committed slots compare as their words do. -/
theorem Proto.Sparse.seqNewer_slots {p : Proto n} (h : p.Sparse k) {i j : Fin n}
    (hi : p.state i = .committed) (hj : p.state j = .committed) :
    seqNewer (seqWord (p.hist.num i)) (seqWord (p.hist.num j)) = true ↔
      p.hist.num j < p.hist.num i := by
  have := h.spread.committed i hi
  have := h.spread.committed j hj
  have := h.spread.le i
  have := h.spread.le j
  have := h.few
  exact seqNewer_seqWord (by omega) (by omega)

/-- In a run of live processes with at most `2 ^ 62` reservations, whatever a consumer is handed is
older than everything else that waited for it when its `try_take` began. -/
theorem taken_oldest {c d : RingConfig P L}
    (h : (ringSystem P L).Reach CalmAndFew (Fresh P L k P.allAlive) c)
    (hs : (ringSystem P L).Step c d) {cn : Nat} {reg : Registration}
    (hreg : c.mem.2.registration cn = some reg) {x : TensorMeta L.slotCount}
    (hx : d.mem.2.handed cn = c.mem.2.handed cn ++ [x]) {j : Fin L.slotCount}
    (hj : ReadBy c.mem reg j)
    (hnew : seqNewer (c.mem.1.ring.slots j).sequence (seqWord reg.last) = true)
    (hpos : c.mem.2.position j < c.mem.2.trying cn) :
    x.slotIndex = j ∨ seqNewer (c.mem.1.ring.slots j).sequence x.sequence = true := by
  have hM := oldestMode_lawful P L k
  have hi := hM.inv (reach_oldestMode h)
  have hsame : d.mem.2.handed cn ≠ c.mem.2.handed cn := by
    rw [hx]
    simp
  rcases hM.sound.step (reach_oldestMode h) hs with ⟨a, -, hg⟩ | ⟨os, -, he⟩ | he
  · have hw := (waits_iff hi hreg).mpr ⟨hj, hnew⟩
    obtain ⟨good, hle⟩ := hg.step.hands_oldest hreg hx hw hpos
    by_cases hslot : x.slotIndex = j
    · exact .inl hslot
    · have hne := hi.mode.2.distinct hi.proto _ _ good.committed hw.committed hslot
      have hseq : (c.mem.1.ring.slots j).sequence = seqWord (c.mem.2.num j) := hi.coupled.sequence j
      right
      rw [good.sequence, hseq]
      exact (hi.mode.2.seqNewer_slots hw.committed good.committed).mpr (lt_of_le_of_ne hle hne)
  · rw [he] at hsame
    exact absurd rfl hsame
  · rw [he] at hsame
    exact absurd rfl hsame

theorem calmAndFew_of_unasked {m m' : State .single L.slotCount × Ghost L.slotCount}
    (h : (Script.unasked m m' && decide (m'.2.begun ≤ 2 ^ 62)) = true) : CalmAndFew m m' := by
  simp only [Bool.and_eq_true, decide_eq_true_eq] at h
  exact ⟨⟨fun _ => rfl, fun x hx => (Script.verdicts_of_unasked h.1 hx).elim⟩, h.2⟩

open Script in
/-- Of two reservations the second one is committed first, and both before the consumer looks. It is
handed the first one. -/
theorem taken_oldest_reversed :
    ∃ (c d : RingConfig .single (.small 2 (by decide) (by decide))) (x : TensorMeta 2),
      (ringSystem _ _).Reach CalmAndFew (Fresh _ _ 0 Platform.single.allAlive) c ∧
        (ringSystem _ _).Step c d ∧ d.mem.2.handed 0 = c.mem.2.handed 0 ++ [x] ∧
          c.mem.2.position 1 < c.mem.2.position 0 ∧ x.slotIndex ≠ 1 ∧
            seqNewer (c.mem.1.ring.slots 1).sequence x.sequence = true := by
  obtain ⟨c, d, hc, hs, ht⟩ := Script.stepFrom (P := .single) (.small 2 (by decide) (by decide)) 0
    () CalmAndFew (fun m m' => unasked m m' && decide (m'.2.begun ≤ 2 ^ 62))
    (fun _ _ h => calmAndFew_of_unasked h)
    (whole (.consumer 0) (register 0) ++ whole (.writer 0) (reserve 0 .u8 [1]) ++
      whole (.writer 1) (reserve 1 .u8 [1]) ++ whole (.writer 1) (commit 1) ++
      whole (.writer 0) (commit 0) ++ [next 0, .steps (.consumer 0) 46]) (.consumer 0)
    (fun c d => decide (c.mem.2.position 1 < c.mem.2.position 0) &&
      (c.mem.2.registration 0).any (fun reg => decide (ReadBy c.mem reg 1) &&
        seqNewer (c.mem.1.ring.slots 1).sequence (seqWord reg.last)) &&
      decide (c.mem.2.position 1 < c.mem.2.trying 0) &&
      c.mem.2.handed 0 == [] && (d.mem.2.handed 0).map (·.slotIndex) == [0]) (by decide +kernel)
  simp only [Bool.and_eq_true, decide_eq_true_eq, Option.any_eq_true, beq_iff_eq] at ht
  obtain ⟨⟨⟨⟨hpos, reg, hreg, hreads, hnew⟩, htrying⟩, hnone⟩, hone⟩ := ht
  obtain ⟨x, hx, hslot⟩ := List.map_eq_singleton_iff.mp hone
  have hreach : (ringSystem .single _).Reach CalmAndFew
      (Fresh .single _ 0 Platform.single.allAlive) c :=
    hc.begin_mono fun _ ⟨os, _, he⟩ => ⟨os, fun _ => rfl, he⟩
  have hhand : d.mem.2.handed 0 = c.mem.2.handed 0 ++ [x] := by rw [hx, hnone]; rfl
  have hne : x.slotIndex ≠ 1 := by rw [hslot]; decide
  exact ⟨c, d, x, hreach, hs, hhand, hpos, hne,
    (taken_oldest hreach hs hreg hhand hreads hnew htrying).resolve_left hne⟩

/-! ## what is passed over -/

/-- In this step something is committed that is addressed to consumer `cn` and not new to it. -/
def Late (m m' : State P n × Ghost n) (cn : Nat) : Prop :=
  ∃ reg ∈ m.2.registration cn, reg.closing = false ∧
    ∃ pub ∈ m'.2.published.drop m.2.published.length,
      ReadBy m' reg pub.slot ∧ seqNewer pub.sequence (seqWord reg.last) = false

/-- In this step consumer `cn` takes something newer than what waits for it in some slot, in a
`try_take` that began before the commit of that. -/
def Overtakes (m m' : State P n × Ghost n) (cn : Nat) : Prop :=
  ∃ reg ∈ m.2.registration cn, ∃ x ∈ (m'.2.handed cn).drop (m.2.handed cn).length, ∃ j,
    ReadBy m reg j ∧ seqNewer (m.1.ring.slots j).sequence (seqWord reg.last) = true ∧
      seqNewer x.sequence (m.1.ring.slots j).sequence = true ∧ m.2.trying cn ≤ m.2.position j

instance (m m' : State P n × Ghost n) (cn : Nat) : Decidable (Late m m' cn) :=
  inferInstanceAs (Decidable (∃ reg ∈ m.2.registration cn, _))

instance (m m' : State P n × Ghost n) (cn : Nat) : Decidable (Overtakes m m' cn) :=
  inferInstanceAs (Decidable (∃ reg ∈ m.2.registration cn, _))

/-- Nothing is passed over that way, as far as the registered consumers are concerned. -/
def InTime (m m' : State P n × Ghost n) : Prop :=
  ∀ i, ∀ cn ∈ m.2.holder i, ¬Late m m' cn ∧ ¬Overtakes m m' cn

instance (m m' : State P n × Ghost n) : Decidable (InTime m m') :=
  inferInstanceAs (Decidable (∀ i, ∀ cn ∈ m.2.holder i, _))

section

variable {c d : RingConfig P L} {cn : Nat} {reg : Registration} {j : Fin L.slotCount}

/-- A step that passes over what has not been passed over is one of the two. -/
theorem passed_step (hi : (oldestMode P L.slotCount k).Inv L.slotCapacity (view c.mem))
    (hi' : (oldestMode P L.slotCount k).Inv L.slotCapacity (view d.mem)) {a : Actor}
    (hg : Guar (Guards.oldest _) L.slotCapacity a (view c.mem) (view d.mem))
    (hk : (view d.mem).proto.client cn reg) (hp : (view d.mem).proto.Passed cn reg j) :
    (∃ reg₀, (view c.mem).proto.client cn reg₀ ∧ (view c.mem).proto.Passed cn reg₀ j) ∨
      (∃ i, c.mem.2.holder i = some cn) ∧ (Late c.mem d.mem cn ∨ Overtakes c.mem d.mem cn) := by
  have hholder : ∀ reg₀, (view c.mem).proto.client cn reg₀ → ∃ i, c.mem.2.holder i = some cn :=
    fun reg₀ hk₀ => ⟨_, hi.proto.active cn reg₀ hk₀ (hi.mode.2.live _)⟩
  rcases hg.step.passed hi.proto hi.mode.2 hk hp with hold | ⟨pub, rfl, hlate⟩ | ⟨reg₀, x, hover⟩
  · exact .inl hold
  · have hpub : d.mem.2.published = c.mem.2.published ++ [pub] := hlate.published
    refine .inr ⟨hholder reg hlate.client, .inl ⟨reg, hlate.client.1, hlate.client.2, pub, ?_,
      readBy_iff.mpr ⟨hp.committed, hp.reader⟩, ?_⟩⟩
    · rw [hpub]
      simp
    · have hnot := (hi'.mode.2.seqNewer_iff hk.1 hp.committed).not.mpr (not_lt.mpr hp.old)
      rw [hlate.sequence]
      simpa using hnot
  · have hhand : d.mem.2.handed cn = c.mem.2.handed cn ++ [x] := hover.handed
    have hw := (waits_iff hi hover.client.1).mp hover.waits
    have hseq : (c.mem.1.ring.slots j).sequence = seqWord (c.mem.2.num j) := hi.coupled.sequence j
    refine .inr ⟨hholder reg₀ hover.client, .inr ⟨reg₀, hover.client.1, x, ?_, j, hw.1, hw.2, ?_,
      hover.began⟩⟩
    · rw [hhand]
      simp
    · rw [hover.good.sequence, hseq]
      exact (hi.mode.2.seqNewer_slots hover.good.committed hover.waits.committed).mpr hover.later

/-- Nothing that carries the bit of an open consumer has been passed over. -/
theorem unpassed_of_reach
    (h : (ringSystem P L).Reach (fun m m' => CalmAndFew m m' ∧ InTime m m')
      (Fresh P L k P.allAlive) c) (hk : (view c.mem).proto.client cn reg) :
    ¬(view c.mem).proto.Passed cn reg j := by
  induction h generalizing reg with
  | init h =>
    obtain ⟨os, -, rfl⟩ := h
    exact absurd hk.1 nofun
  | @step c d hr hs hok ih =>
    have hM := oldestMode_lawful P L k
    have hreach : (ringSystem P L).Reach (oldestMode P L.slotCount k).rules.ok
        (Fresh P L k P.allAlive) c := reach_oldestMode (hr.mono fun _ _ hok => hok.1)
    have hi := hM.inv hreach
    have hi' := hM.inv (hreach.step hs hok.1.ok)
    intro hp
    rcases hM.sound.step hreach hs with ⟨a, -, hg⟩ | ⟨os, -, he⟩ | he
    · rcases passed_step hi hi' hg hk hp with ⟨reg₀, hk₀, hp₀⟩ | ⟨⟨i, hholder⟩, hnot⟩
      · exact ih hk₀ hp₀
      · obtain ⟨hlate, hover⟩ := hok.2 i cn hholder
        exact hnot.elim hlate hover
    · rw [he] at hk hp
      exact ih hk ⟨hp.committed, hp.reader, hp.unleased, hp.old⟩
    · rw [he] at hk hp
      exact ih hk hp

/-- In a run of live processes with at most `2 ^ 62` reservations, in which no publication is
committed late and none is overtaken, whatever carries the bit of an open consumer is leased by it
or new to it. -/
theorem never_passed
    (h : (ringSystem P L).Reach (fun m m' => CalmAndFew m m' ∧ InTime m m')
      (Fresh P L k P.allAlive) c) {con : Consumer} (ho : c.mem.1.isOpen cn con)
    (hc : (c.mem.1.ring.slots j).state = .committed)
    (hb : (c.mem.1.ring.slots j).readersMask &&& bit con.index ≠ 0) :
    (∃ x ∈ c.mem.1.leases cn, x.slotIndex = j) ∨
      seqNewer (c.mem.1.ring.slots j).sequence con.lastSequence = true := by
  have hi := (oldestMode_lawful P L k).inv (reach_oldestMode (h.mono fun _ _ hok => hok.1))
  obtain ⟨reg, hreg, hindex, hclosed⟩ := hi.coupled.consumer cn con ho.1
  have hclient : (view c.mem).proto.client cn reg := ⟨hreg, hclosed ▸ ho.2⟩
  have hlast : con.lastSequence = seqWord reg.last := hi.coupled.last id cn con reg ho.1 hreg
  have hseq : (c.mem.1.ring.slots j).sequence = seqWord (c.mem.2.num j) := hi.coupled.sequence j
  obtain ⟨hstate, hbit⟩ := readBy_iff.mp (⟨hc, hindex ▸ hb⟩ : ReadBy c.mem reg j)
  by_contra hneither
  obtain ⟨hfree, hold⟩ := not_or.mp hneither
  refine unpassed_of_reach h hclient (j := j) ⟨hstate, hbit, fun x hx hslot => hfree ⟨x, hx, hslot⟩,
    not_lt.mp fun hlt => hold ?_⟩
  rw [hseq, hlast]
  exact (hi.mode.2.seqNewer_iff hreg hstate).mpr hlt

end

/-! ## runs -/

/-- Nothing is committed, and nothing that has been is addressed to anybody. -/
def unread (m m' : State P n × Ghost n) : Bool :=
  m'.2.published.length == m.2.published.length &&
    decide (∀ j, (m.1.ring.slots j).state = .committed → (m.1.ring.slots j).readersMask = 0)

theorem inTime_of_unread {m m' : State P n × Ghost n} (h : unread m m' = true) : InTime m m' := by
  simp only [unread, Bool.and_eq_true, beq_iff_eq, decide_eq_true_eq] at h
  refine fun i cn _ => ⟨?_, ?_⟩
  · rintro ⟨reg, -, -, pub, hpub, -⟩
    rw [List.drop_eq_nil_of_le h.1.le] at hpub
    cases hpub
  · rintro ⟨reg, -, x, -, j, ⟨hc, hb⟩, -⟩
    rw [h.2 j hc] at hb
    exact hb (UInt64.zero_and)

/-- What is asked of a run in which nothing is passed over, as a check of one step. -/
def inTime (m m' : State P L.slotCount × Ghost L.slotCount) : Bool :=
  Script.unasked m m' && decide (m'.2.begun ≤ 2 ^ 62) && (unread m m' || decide (InTime m m'))

theorem inTime_sound {m m' : State .single L.slotCount × Ghost L.slotCount}
    (h : inTime m m' = true) : CalmAndFew m m' ∧ InTime m m' := by
  obtain ⟨h, htime⟩ := Bool.and_eq_true_iff.mp h
  refine ⟨calmAndFew_of_unasked h, ?_⟩
  rcases Bool.or_eq_true_iff.mp htime with hnone | htime
  · exact inTime_of_unread hnone
  · exact of_decide_eq_true htime

open Script in
/-- Two reservations at a time, one of them made before another consumer registers; the second
publication waits for both. -/
theorem never_passed_two :
    ∃ (c : RingConfig .single (.small 2 (by decide) (by decide))) (con : Consumer),
      (ringSystem _ _).Reach (fun m m' => CalmAndFew m m' ∧ InTime m m')
        (Fresh _ _ 0 Platform.single.allAlive) c ∧ c.mem.1.isOpen 0 con ∧
          (c.mem.2.handed 0).length = 1 ∧
            seqNewer (c.mem.1.ring.slots 1).sequence con.lastSequence = true := by
  obtain ⟨c, hc, ht⟩ := Script.reach (.small 2 (by decide) (by decide)) 0
    Platform.single.allAlive (fun _ => rfl) (fun m m' => CalmAndFew m m' ∧ InTime m m') inTime
    (fun _ _ h => inTime_sound h)
    (whole (.consumer 0) (register 0) ++ whole (.writer 0) (reserve 0 .u8 [1]) ++
      whole (.consumer 1) (register 1) ++ whole (.writer 1) (reserve 1 .u8 [1]) ++
      whole (.writer 0) (commit 0) ++ whole (.consumer 0) (next 0) ++
      whole (.writer 1) (commit 1))
    (fun d => (d.mem.2.handed 0).length == 1 &&
      decide ((d.mem.1.ring.slots 1).state = .committed) &&
      ((d.mem.1.leases 0).all fun x => decide (x.slotIndex ≠ 1)) &&
      (d.mem.1.consumer 0).any fun con => !con.closed &&
        decide ((d.mem.1.ring.slots 1).readersMask &&& bit con.index ≠ 0)) (by decide +kernel)
  simp only [Bool.and_eq_true, beq_iff_eq, decide_eq_true_eq, Option.any_eq_true, List.all_eq_true,
    Bool.not_eq_true'] at ht
  obtain ⟨⟨⟨hlen, hstate⟩, hfree⟩, con, hcon, hopen, hbit⟩ := ht
  refine ⟨c, con, hc, ⟨hcon, hopen⟩, hlen,
    (never_passed hc ⟨hcon, hopen⟩ hstate hbit).resolve_left ?_⟩
  rintro ⟨x, hx, hslot⟩
  exact hfree x hx hslot

/-- A committed slot carries the bit of the open consumer 0, which has not leased it and will not
take it any more. -/
def passedOver (c : RingConfig .single L) (j : Fin L.slotCount) : Bool :=
  decide ((c.mem.1.ring.slots j).state = .committed) &&
    ((c.mem.1.leases 0).all fun x => decide (x.slotIndex ≠ j)) &&
    (c.mem.1.consumer 0).any fun con => !con.closed &&
      decide ((c.mem.1.ring.slots j).readersMask &&& bit con.index ≠ 0) &&
        !seqNewer (c.mem.1.ring.slots j).sequence con.lastSequence

open Script in
/-- Both ways happen. A consumer registers while a reservation is unfinished; that is aborted and
its number is used again. Of two reservations the second one is committed and about to be taken when
the first one is committed. -/
theorem passed_over :
    (∃ c : RingConfig .single (.small 2 (by decide) (by decide)),
      (ringSystem _ _).Reach CalmAndFew (Fresh _ _ 0 Platform.single.allAlive) c ∧
        c.mem.2.handed 0 = [] ∧ passedOver c 0 = true) ∧
    ∃ c : RingConfig .single (.small 2 (by decide) (by decide)),
      (ringSystem _ _).Reach CalmAndFew (Fresh _ _ 0 Platform.single.allAlive) c ∧
        c.mem.2.taken 0 = [1] ∧ passedOver c 0 = true := by
  have hrun := fun (moves : List (System.Move (ringSystem .single (.small 2 (by decide)
      (by decide))))) test => Script.reach (.small 2 (by decide) (by decide)) 0
    Platform.single.allAlive (fun _ => rfl) CalmAndFew
    (fun m m' => unasked m m' && decide (m'.2.begun ≤ 2 ^ 62))
    (fun _ _ h => calmAndFew_of_unasked h) moves test
  constructor
  · obtain ⟨c, hc, ht⟩ := hrun
      (whole (.writer 0) (reserve 0 .u8 [1]) ++ whole (.consumer 0) (register 0) ++
        whole (.writer 0) (abort 0) ++ whole (.writer 0) (publish 0 (.byte 5)))
      (fun d => d.mem.2.handed 0 == [] && passedOver d 0) (by decide +kernel)
    simp only [Bool.and_eq_true, beq_iff_eq] at ht
    exact ⟨c, hc, ht⟩
  · obtain ⟨c, hc, ht⟩ := hrun
      (whole (.consumer 0) (register 0) ++ whole (.writer 0) (reserve 0 .u8 [1]) ++
        whole (.writer 1) (reserve 1 .u8 [1]) ++ whole (.writer 1) (commit 1) ++
        [next 0, .steps (.consumer 0) 46] ++ whole (.writer 0) (commit 0) ++
        [.steps (.consumer 0) 10])
      (fun d => d.mem.2.taken 0 == [1] && passedOver d 0) (by decide +kernel)
    simp only [Bool.and_eq_true, beq_iff_eq] at ht
    exact ⟨c, hc, ht⟩

end TenzorBus
