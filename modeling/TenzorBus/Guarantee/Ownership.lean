import TenzorBus.Guarantee.Run
import TenzorBus.Protocol.Leases
import TenzorBus.Ring.Script

/-!
# Who owns a slot

Every slot in `STATE_WRITING` belongs to one unfinished reservation, and the slot of a lease to the
consumer that holds it.

* `Ghost.Owns` : an unfinished reservation owns a slot
* `Undisturbed` : what a lease promises about its slot
* `exclusive_ownership` : both hold in every run
-/

namespace TenzorBus

open Conc Refine

variable {P : Platform} {L : RingLayout} {n : Nat}

/-- Writer `t` has an unfinished reservation of the slot. -/
def Ghost.Owns (g : Ghost n) (t : Nat) (j : Fin n) : Prop :=
  ∃ r, g.reservation t = some r ∧ r.phase ≠ .returning ∧ r.slot = j

/-- The consumer still holds the lease, and its handle is open. -/
def Holding (c : Nat) (m : TensorMeta n) (s : State P n × Ghost n) : Prop :=
  m ∈ s.1.leases c ∧ ∃ h, s.1.isOpen c h

/-- The slot of a lease is committed under the sequence of the lease, with the same header and
payload as before, and carries the consumer's bit. -/
structure Undisturbed (c : Nat) (m : TensorMeta n) (s s' : State P n × Ghost n) : Prop where
  committed : (s'.1.ring.slots m.slotIndex).state = .committed
  sequence : (s'.1.ring.slots m.slotIndex).sequence = m.sequence
  describes : m.Describes (s'.1.ring.slots m.slotIndex).header
  header : (s'.1.ring.slots m.slotIndex).header = (s.1.ring.slots m.slotIndex).header
  payload : (s'.1.ring.slots m.slotIndex).payload = (s.1.ring.slots m.slotIndex).payload
  reader : ∀ h, s'.1.isOpen c h →
    (s'.1.ring.slots m.slotIndex).readersMask &&& bit h.index ≠ 0

/-! ## leases -/

/-- The use of the ring in which nobody dies and no consumer runs too far ahead. -/
def leaseMode (P : Platform) (n : Nat) : Mode P n where
  guards := { Guards.lax n False with loose := fun _ => False }
  inv v := Leasing False v.proto ∧ Windowed v.proto ∧ ∀ a, v.proto.alive a
  ok _ v' := Windowed v'.proto ∧ ∀ a, v'.proto.alive a

/-- Inside the window what is new to a consumer is later than what it has seen. -/
theorem ascends_of_windowed {G : Guards n} {cap : Nat} {a : Actor} {p p' : Proto n}
    (hG : ¬G.careless) (hw : Windowed p) (hs : Step G cap a p p') : Ascends False p p' := by
  intro c k m hk hm
  cases hs with
  | take c' _ k' m' client grants =>
    obtain ⟨⟨good, reader⟩, newer, -⟩ := grants hG
    have hc : c = c' := by
      by_contra hne
      simp [Ghost.hand, hne] at hm
    subst hc
    have hm : m' = m := by simpa [Ghost.hand] using hm
    have hk' : k' = k := Option.some.inj (client.1.symm.trans hk.1.1)
    subst hm hk'
    rw [good.sequence] at newer
    exact lt_of_seqNewer newer (hw c k' _ client good.committed reader)
  | _ => exact absurd hm (by simp [Ghost.begin, Ghost.proceed, Ghost.number, Ghost.advance,
      Ghost.commit, Ghost.forget, Ghost.register, Ghost.closing, Ghost.deregister, Ghost.beginTry,
      Ghost.endTry, Ghost.validate, Ghost.abandon, Ghost.change, Ghost.settle, Ghost.count,
      Ghost.refuse, Ghost.violate, Ghost.beginSweep, Ghost.endSweep])

theorem leaseMode_lawful (P : Platform) (L : RingLayout) (k : UInt64) :
    (leaseMode P L.slotCount).Lawful (L := L) k P.allAlive where
  initial _ h :=
    ⟨{
      held := fun _ _ h => nomatch h.1.1
      once := fun _ _ h => nomatch h.1.1
      fresh := fun _ _ => rfl }, fun _ _ _ hk => absurd hk.1 nofun, fun a => h (P.proc a)⟩
  delivers := delivers_plain id (fun _ _ _ => trivial) (fun _ _ _ => trivial)
    fun _ c k m hi hl hk hm hne =>
      have hh := hi.mode.1.held c k ⟨hk, nofun⟩ hl m hm
      hne ⟨hh.good.sequence.symm, hh.reader⟩
  step _ _ _ hi hg _ hok _ :=
    ⟨hi.mode.1.step hi.proto id hg.step hg.live (ascends_of_windowed id hi.mode.2.1 hg.step), hok⟩
  env _ _ hi hp hok := ⟨hi.mode.1.fades hp.fades, hok⟩

theorem reach_leaseMode {init : RingConfig P L → Prop} {c : RingConfig P L}
    (h : (ringSystem P L).Reach CalmAndWindowed init c) :
    (ringSystem P L).Reach (leaseMode P L.slotCount).rules.ok init c :=
  h.mono fun _ _ hok => ⟨Honest.believes hok.1.honest, hok.2, fun _ => hok.1.alive _⟩

section

variable {k : UInt64} {c : RingConfig P L} {cn : Nat} {m : TensorMeta L.slotCount}

/-- In a run inside the window an open consumer's leases are as they should be. -/
theorem held_of_reach (h : (ringSystem P L).Reach CalmAndWindowed (Fresh P L k P.allAlive) c)
    (hm : Holding cn m c.mem) :
    ∃ r, (view c.mem).proto.client cn r ∧ (view c.mem).proto.Held r m ∧
      ∀ con, c.mem.1.isOpen cn con → con.index = r.index := by
  have hi := (leaseMode_lawful P L k).inv (reach_leaseMode h)
  obtain ⟨hmem, con, hcon, ho⟩ := hm
  obtain ⟨r, hr, hidx, hcl⟩ := hi.coupled.consumer cn con hcon
  have hk : (view c.mem).proto.client cn r := ⟨hr, hcl ▸ ho⟩
  refine ⟨r, hk, hi.mode.1.held cn r ⟨hk, nofun⟩ (hi.mode.2.2 _) m hmem, fun con' hc' => ?_⟩
  cases hcon.symm.trans hc'.1
  exact hidx

/-- As long as the lease is held nobody touches its slot. -/
theorem untouched_of_reach
    (h : (ringSystem P L).Reach CalmAndWindowed (Fresh P L k P.allAlive) c)
    (hm : Holding cn m c.mem) {d : RingConfig P L}
    (hd : (ringSystem P L).Reach (fun s s' => CalmAndWindowed s s' ∧ Holding cn m s') (· = c) d) :
    (ringSystem P L).Reach CalmAndWindowed (Fresh P L k P.allAlive) d ∧ Holding cn m d.mem ∧
      Untouched (view c.mem).proto (view d.mem).proto m.slotIndex := by
  induction hd with
  | init he => subst he; exact ⟨h, hm, rfl, rfl, rfl, rfl, rfl⟩
  | @step d e _ hs hok ih =>
    obtain ⟨hd, hmd, hu⟩ := ih
    have hM := (leaseMode_lawful P L k).sound
    refine ⟨hd.step hs hok.1, hok.2, ?_⟩
    have hi : (leaseMode P L.slotCount).Inv L.slotCapacity (view d.mem) :=
      hM.inv (reach_leaseMode hd)
    -- one more step of somebody
    suffices hstep : Untouched (view d.mem).proto (view e.mem).proto m.slotIndex from
      ⟨hstep.state.trans hu.state, hstep.num.trans hu.num, hstep.header.trans hu.header,
        hstep.payload.trans hu.payload, hstep.position.trans hu.position⟩
    rcases hM.step (reach_leaseMode hd) hs with ⟨a, -, hg⟩ | ⟨os, -, he⟩ | he
    · obtain ⟨r, hr, -⟩ := held_of_reach hd hmd
      obtain ⟨r', hr', -⟩ := held_of_reach (hd.step hs hok.1) hok.2
      exact (hi.mode.1.held_step hi.proto id hg.step hg.live ⟨hr, nofun⟩ (hi.mode.2.2 _)
        ⟨r', hr'⟩ hmd.1 hok.2.1).1
    · rw [he]; exact ⟨rfl, rfl, rfl, rfl, rfl⟩
    · rw [he]; exact ⟨rfl, rfl, rfl, rfl, rfl⟩

end

/-- Slots in `STATE_WRITING` have one owner. The slot of a lease is left alone as long as the lease
is held by an open consumer, in runs in which no consumer gets more than `2 ^ 63` sequence numbers
ahead of a publication on which its reader bit is still set. -/
theorem exclusive_ownership {k : UInt64} {c : RingConfig P L}
    (h : (ringSystem P L).Reach Calm (Fresh P L k P.allAlive) c) :
    (∀ j, (c.mem.1.ring.slots j).state = .writing → ∃! t, c.mem.2.Owns t j) ∧
    (∀ t t' j, c.mem.2.Owns t j → c.mem.2.Owns t' j → t = t') ∧
    ((ringSystem P L).Reach CalmAndWindowed (Fresh P L k P.allAlive) c →
      ∀ cn m, Holding cn m c.mem → ∀ d,
        (ringSystem P L).Reach (fun s s' => CalmAndWindowed s s' ∧ Holding cn m s') (· = c) d →
          Undisturbed cn m c.mem d.mem) := by
  have hi := inv_of_reach (h.mono fun _ _ hc => hc.honest)
  have hone : ∀ t t' j, c.mem.2.Owns t j → c.mem.2.Owns t' j → t = t' := by
    rintro t t' j ⟨r, hr, hp, rfl⟩ ⟨r', hr', hp', hs⟩
    exact hi.unique t t' r r' hr hr' hp hp' hs.symm
  refine ⟨fun j hj => ?_, hone, fun hw cn m hm d hd => ?_⟩
  · obtain ⟨t, r, hr, hp, hs⟩ := hi.owned j hj
    exact ⟨t, ⟨r, hr, hp, hs⟩, fun t' ht' => hone t' t j ht' ⟨r, hr, hp, hs⟩⟩
  · obtain ⟨hdr, hmd, hu⟩ := untouched_of_reach hw hm hd
    obtain ⟨r, -, hh, hidx⟩ := held_of_reach hdr hmd
    have hdi := (leaseMode_lawful P L k).inv (reach_leaseMode hdr)
    exact {
      committed := hh.good.committed
      sequence := (hdi.coupled.sequence _).trans hh.good.sequence.symm
      describes := hh.good.header
      header := hu.header
      payload := hu.payload
      reader := fun con hc => by
        rw [Ne, and_bit_eq_zero, not_not, hidx con hc]
        exact hh.reader }

open Script in
/-- A consumer takes a publication and keeps its lease. -/
theorem exclusive_ownership_delivery :
    ∃ (c : RingConfig .single (.small 2 (by decide) (by decide))) (m : TensorMeta _),
      (ringSystem _ _).Reach Calm (Fresh _ _ 0 Platform.single.allAlive) c ∧
        Holding 0 m c.mem ∧ Undisturbed 0 m c.mem c.mem := by
  obtain ⟨c, hc, ht⟩ := Script.reach (.small 2 (by decide) (by decide)) 0
    Platform.single.allAlive (fun _ => rfl)
    (fun m m' => Calm m m' ∧ Short m')
    (fun m m' => unasked m m' && decide (0 ≤ m'.2.next ∧ m'.2.next ≤ 2 ^ 62))
    (fun m m' h => by
      simp only [Bool.and_eq_true, decide_eq_true_eq] at h
      exact ⟨⟨fun _ => rfl, fun x hx => (verdicts_of_unasked h.1 hx).elim⟩, h.2⟩)
    (whole (.consumer 0) (register 0) ++ whole (.writer 0) (publish 0 (.byte 5)) ++
      whole (.consumer 0) (next 0))
    (fun d => !(d.mem.1.leases 0).isEmpty && (usable d.mem.1 0).isSome)
    (by decide +kernel)
  simp only [Bool.and_eq_true, Bool.not_eq_true', List.isEmpty_eq_false_iff] at ht
  obtain ⟨m, hm⟩ := List.exists_mem_of_ne_nil _ ht.1
  obtain ⟨h, hh⟩ := Option.isSome_iff_exists.mp ht.2
  have hold : Holding 0 m c.mem := ⟨hm, h, isOpen_of_usable hh⟩
  have hw := reach_windowed hc
  have hcalm := hw.mono fun _ _ hc => hc.1
  exact ⟨c, m, hcalm, hold, (exclusive_ownership hcalm).2.2 hw 0 m hold c (.init rfl)⟩

end TenzorBus
