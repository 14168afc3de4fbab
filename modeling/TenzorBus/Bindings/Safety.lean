import TenzorBus.Bindings.Script
import TenzorBus.Guarantee.Ownership

/-!
# What the bindings promise

* `custody` : nothing that the ring has handed over is lost, or owned twice
* `view_pinned` : a lease that has not been released keeps its slot as it was committed, and so does
  a view of it
* `view_unpublished` : what a view of a slot writer can write to has not been published
* `view_dangling` : a consumer is closed that has a lease
-/

namespace TenzorBus.Bindings

open Conc Refine

variable {P : Platform} {L : RingLayout} {n : Nat} {k : UInt64}

/-! ## nothing is lost -/

/-- What is with the objects of somebody who is not in the middle of a call is what the ring knows
of. -/
structure Settled (x : Interp P L) : Prop where
  lease : ∀ c, x.pool (.consumer c) = none → (x.mem.1.leases c).Perm (items c x.leases)
  writer : ∀ t, x.pool (.writer t) = none → (x.mem.1.writer t).toList.Perm (items t x.writers)

/-- In every run the leases that a consumer has taken and not released, and the slot writers that
are not used up, are with one object each. -/
theorem custody {may : Event → Interp P L → Prop}
    {ok : State P L.slotCount × Ghost L.slotCount → State P L.slotCount × Ghost L.slotCount → Prop}
    {start : P.Os → Prop} {x : Interp P L} (h : Run may ok (Begins P L k start) x) : Settled x where
  lease c hc := by
    obtain ⟨g, hg⟩ := h.plain (.consumer c)
    obtain rfl := hg.idle hc
    exact hg.accounts.lease c rfl
  writer t ht := by
    obtain ⟨g, hg⟩ := h.plain (.writer t)
    obtain rfl := hg.idle ht
    exact hg.accounts.writer t rfl

/-- A consumer is closed that has two leases. One of them is released afterwards, which raises an
error; the other one is the only one that there is. -/
theorem custody_closed : ∃ x : Interp .single .two,
    Run (fun _ _ => True) (fun _ _ => True) (Begins .single .two 0 fun _ => True) x ∧
      (x.mem.1.consumer 0).any (·.closed) = true ∧ x.raised.length = 1 ∧
        (x.mem.1.leases 0).length = 1 ∧ (x.mem.1.leases 0).Perm (items 0 x.leases) := by
  have hplay : ((Interp.fresh .two 0 () : Interp .single .two).play (fun _ _ => true)
      (fun _ _ => true)
      (viewed ++ Move.whole (.writer 0) (.call (.publish 0 (.byte 6) .dropNewest 0)) ++
        Move.whole (.consumer 0) (.call (.next 0 0)) ++ Move.whole (.consumer 0) (.close 0) ++
        Move.whole (.consumer 0) (.releaseLease 1))).any (fun x =>
          (x.mem.1.consumer 0).any (·.closed) && decide (x.raised.length = 1) &&
            decide ((x.mem.1.leases 0).length = 1) && (x.pool (.consumer 0)).isNone) = true := by
    decide +kernel
  have hinit : Run (fun _ _ => True) (fun _ _ => True) (Begins .single .two 0 fun _ => True)
      (Interp.fresh .two 0 ()) := .init ⟨(), trivial, rfl⟩
  obtain ⟨x, hx, ht⟩ := Run.play (fun _ _ => trivial) (fun _ _ _ => trivial)
    (fun _ _ _ => trivial) _ hinit hplay
  simp only [Bool.and_eq_true, decide_eq_true_eq, Option.isNone_iff_eq_none] at ht
  exact ⟨x, hx, ht.1.1.1, ht.1.1.2, ht.1.2, (custody hx).lease 0 ht.2⟩

/-! ## views of leases -/

/-- The slot of the lease is committed and carries the bit of the consumer, which is open; what is
in it is the publication. -/
structure Pinned (c : Nat) (m : TensorMeta n) (pub : Publication n) (s : State P n × Ghost n) :
    Prop where
  reader : ∃ con, s.1.isOpen c con ∧
    (s.1.ring.slots m.slotIndex).readersMask &&& bit con.index ≠ 0
  committed : (s.1.ring.slots m.slotIndex).state = .committed
  published : pub ∈ s.2.published
  slot : pub.slot = m.slotIndex
  sequence : pub.sequence = m.sequence ∧ (s.1.ring.slots m.slotIndex).sequence = m.sequence
  header : m.Describes pub.header ∧ (s.1.ring.slots m.slotIndex).header = pub.header
  payload : (s.1.ring.slots m.slotIndex).payload = pub.payload

theorem Interp.Effect.aged {x y : Interp P L} {e : Event} (h : x.Effect e y) :
    Aged x.leases y.leases := by
  cases h with
  | raise err => exact .refl _
  | call r p _ _ _ hs => rw [(Interp.start_same hs).leases]; exact .refl _
  | close c con _ _ hs => rw [(Interp.start_same hs).leases]; exact .refl _
  | viewLease i o ho hi => exact .set ho rfl (.inl rfl)
  | viewWriter i o ho hi => exact .refl _
  | forgetLease i o ho hv => exact .set ho rfl (.inl rfl)
  | forgetWriter i o ho hv => exact .refl _
  | emptyLease i o o' ho hi ho' =>
    obtain rfl | ⟨-, rfl⟩ := ho'
    · exact .set ho rfl (.inl rfl)
    · exact .set ho rfl (.inr rfl)
  | release i o o' m f con _ ho hm hz ho' hf hc hs =>
    rw [(Interp.start_same hs).leases]
    obtain ⟨hk, hi⟩ := Interp.keeper_of_spent ho'
    exact .set ho hk (.inr hi)
  | write i o w off b ho hw hoff hs => rw [(Interp.start_same hs).leases]; exact .refl _
  | stamp i o w ts ho hw hs => rw [(Interp.start_same hs).leases]; exact .refl _
  | emptyWriter i o o' ho hi hz ho' => exact .refl _
  | commit i o w ho hw hz hs => rw [(Interp.start_same hs).leases]; exact .refl _
  | abort i o o' w ho hw hz ho' hs => rw [(Interp.start_same hs).leases]; exact .refl _
  | step a p q m _ _ _ => exact .refl _
  | reply a r raised _ _ _ =>
    unfold Interp.receive
    split
    · exact .append _ _
    · exact .refl _
    · exact .refl _

/-- What has been published stays in the history. -/
theorem published_of_reach {c d : RingConfig P L}
    {ok : State P L.slotCount × Ghost L.slotCount → State P L.slotCount × Ghost L.slotCount → Prop}
    (hok : ∀ m m', ok m m' → CalmAndWindowed m m')
    (h : (ringSystem P L).Reach CalmAndWindowed (Fresh P L k P.allAlive) c)
    (hd : (ringSystem P L).Reach ok (· = c) d) : c.mem.2.published <+: d.mem.2.published := by
  have hM := (leaseMode_lawful P L k).sound
  induction hd with
  | init he => rw [he]
  | @step d e hd hs hstep ih =>
    have hreach := h.trans (hd.mono hok)
    rcases hM.step (reach_leaseMode hreach) hs with ⟨a, -, hg⟩ | ⟨os, -, he⟩ | he
    · exact ih.trans hg.step.published
    · rw [he]; exact ih
    · rw [he]; exact ih

/-- As long as a lease is held its slot shows what it showed at the beginning. -/
theorem pinned_of_reach {c : RingConfig P L} {cn : Nat} {m : TensorMeta L.slotCount}
    (h : (ringSystem P L).Reach CalmAndWindowed (Fresh P L k P.allAlive) c)
    (hm : Holding cn m c.mem) :
    ∃ pub ∈ c.mem.2.published, ∀ d,
      (ringSystem P L).Reach (fun s s' => CalmAndWindowed s s' ∧ Holding cn m s') (· = c) d →
        Pinned cn m pub d.mem := by
  have hi := (leaseMode_lawful P L k).inv (reach_leaseMode h)
  obtain ⟨r, -, hh, -⟩ := held_of_reach h hm
  obtain ⟨mask, hpub, -⟩ := hi.proto.content _ hh.good.committed
  refine ⟨_, List.mem_of_getElem? hpub, fun d hd => ?_⟩
  obtain ⟨hdr, hmd, hu⟩ := untouched_of_reach h hm hd
  obtain ⟨r', -, hh', hidx⟩ := held_of_reach hdr hmd
  have hdi := (leaseMode_lawful P L k).inv (reach_leaseMode hdr)
  have hpre := published_of_reach (fun _ _ hk => hk.1) h hd
  obtain ⟨-, con, hcon⟩ := hmd
  exact {
    reader := ⟨con, hcon, by
      rw [Ne, and_bit_eq_zero, not_not, hidx con hcon]
      exact hh'.reader⟩
    committed := hh'.good.committed
    published := hpre.subset (List.mem_of_getElem? hpub)
    slot := rfl
    sequence := ⟨hh.good.sequence.symm, (hdi.coupled.sequence _).trans hh'.good.sequence.symm⟩
    header := ⟨hh.good.header, hu.header⟩
    payload := hu.payload }

/-- A lease object that has not been released holds its lease. -/
theorem holding_of_run
    {ok : State P L.slotCount × Ghost L.slotCount → State P L.slotCount × Ghost L.slotCount → Prop}
    {start : P.Os → Prop} {x : Interp P L} (h : Run Interp.Orderly ok (Begins P L k start) x)
    {i : Nat}
    {o : PyLease L.slotCount} {m : TensorMeta L.slotCount} (ho : x.leases[i]? = some o)
    (hm : o.item = some m) : Holding o.keeper m x.mem := by
  obtain ⟨g, hg⟩ := h.orderly.2 (.consumer o.keeper)
  have hmem : m ∈ x.mem.1.leases o.keeper :=
    (hg.accounts.lease _ rfl).symm.subset
      (List.mem_append_right _ (mem_items.mpr ⟨i, o, ho, rfl, hm⟩))
  exact ⟨hmem, hg.accounts.opened trivial _ rfl (.inr (List.ne_nil_of_mem hmem))⟩

theorem Run.aged {may : Event → Interp P L → Prop}
    {ok : State P L.slotCount × Ghost L.slotCount → State P L.slotCount × Ghost L.slotCount → Prop}
    {start : P.Os → Prop} {x y : Interp P L} (h : Run may ok (Begins P L k start) x)
    (hy : Run may ok (· = x) y) : Aged x.leases y.leases := by
  induction hy with
  | init he => rw [he]; exact .refl _
  | event e hy _ hs _ ih => exact ih.trans ((h.trans hy).objects.effect hs).aged
  | os os _ _ _ ih => exact ih

section

variable {x y : Interp P L} {i : Nat} {o o' : PyLease L.slotCount} {m : TensorMeta L.slotCount}

/-- A lease object that is not released holds what it has held before. -/
theorem same_of_unreleased (h : Run Interp.Orderly CalmAndWindowed (Begins P L k P.allAlive) x)
    (ho : x.leases[i]? = some o) (hm : o.item = some m)
    (hy : Run Interp.Orderly CalmAndWindowed (· = x) y) (ho' : y.leases[i]? = some o')
    (hne : o'.item ≠ none) : o'.item = some m ∧ o'.keeper = o.keeper := by
  obtain ⟨p, hp, hk, hi⟩ := (h.aged hy).2 i o' ho' (List.getElem?_eq_some_iff.mp ho).1
  cases hp.symm.trans ho
  exact ⟨(hi.resolve_right hne).trans hm, hk⟩

/-- As long as a lease object is not released, the ring sees its lease held. -/
theorem holding_of_unreleased (h : Run Interp.Orderly CalmAndWindowed (Begins P L k P.allAlive) x)
    (ho : x.leases[i]? = some o) (hm : o.item = some m)
    (hy : Run Interp.Orderly CalmAndWindowed (· = x) y) :
    ∀ o', y.leases[i]? = some o' → o'.item ≠ none →
      (ringSystem P L).Reach (fun s s' => CalmAndWindowed s s' ∧ Holding o.keeper m s')
        (· = x.config) y.config := by
  induction hy with
  | init he => exact fun _ _ _ => .init (by rw [he])
  | @event y z e hy hmay hs hok ih =>
    intro o' ho' hne
    have hyr := h.trans hy
    have he := hyr.objects.effect hs
    have hlen := (List.getElem?_eq_some_iff.mp ho).1.trans_le (h.aged hy).1
    obtain ⟨p, hp, -, hi⟩ := he.aged.2 i o' ho' hlen
    have hp' := ih p hp fun e => hne ((hi.resolve_right hne).trans e)
    rcases (hyr.orderly.2.next (fun _ => hmay) he).2 hmay.2 with
      hstep | hsame
    · obtain ⟨hm', hk⟩ := same_of_unreleased h ho hm (hy.event e hmay hs hok) ho' hne
      have hold := holding_of_run (hyr.event e hmay hs hok) ho' hm'
      rw [hk] at hold
      exact hp'.step hstep ⟨hok, hold⟩
    · rwa [hsame]
  | @os y os hy hs hok ih =>
    intro o' ho' hne
    have hyr := (h.trans hy).os os hs hok
    obtain ⟨hm', hk⟩ := same_of_unreleased h ho hm (hy.os os hs hok) ho' hne
    have hold := holding_of_run hyr ho' hm'
    rw [hk] at hold
    exact (ih o' ho' hne).step (.env _ ⟨os, hs, rfl⟩) ⟨hok, hold⟩

end

/-- In every run of live processes inside the window in which no consumer is closed that has a
lease, and none is used that has been closed: a view belongs to a lease that has not been released;
and as long as a lease is not released, its consumer is open, and its slot keeps the bit of the
consumer and shows one and the same publication. -/
theorem view_pinned {x : Interp P L}
    (h : Run Interp.Orderly CalmAndWindowed (Begins P L k P.allAlive) x) :
    (∀ i, .lease i ∈ x.views →
      ∃ (o : PyLease L.slotCount) (m : _), x.leases[i]? = some o ∧ o.item = some m) ∧
    ∀ (i : Nat) (o : PyLease L.slotCount) (m : _), x.leases[i]? = some o → o.item = some m →
      ∃ pub ∈ x.mem.2.published, ∀ y, Run Interp.Orderly CalmAndWindowed (· = x) y →
        ∀ o' : PyLease L.slotCount, y.leases[i]? = some o' → o'.item ≠ none →
          o'.item = some m ∧ Pinned o.keeper m pub y.mem := by
  refine ⟨fun i hv => ?_, fun i o m ho hm => ?_⟩
  · have ho := List.getElem?_eq_getElem (h.objects.lease i hv)
    obtain ⟨m, hm⟩ := Option.isSome_iff_exists.mp
      ((h.objects.leases i _ ho).alive (List.count_pos_iff.mpr hv))
    exact ⟨_, m, ho, hm⟩
  · have hreach := h.orderly.1
    obtain ⟨pub, hpub, hpinned⟩ := pinned_of_reach hreach (holding_of_run h ho hm)
    refine ⟨pub, hpub, fun y hy o' ho' hne => ?_⟩
    exact ⟨(same_of_unreleased h ho hm hy ho' hne).1,
      hpinned _ (holding_of_unreleased h ho hm hy o' ho' hne)⟩

/-- Another publication comes while the array is there, and is taken and released. -/
theorem view_pinned_beside :
    ∃ (x : Interp .single .two) (o : PyLease 2) (m : TensorMeta 2),
      Run Interp.Orderly CalmAndWindowed (Begins .single .two 0 Platform.single.allAlive) x ∧
        .lease 0 ∈ x.views ∧ x.leases[0]? = some o ∧ o.item = some m ∧
          ∃ pub ∈ x.mem.2.published, Pinned o.keeper m pub x.mem := by
  obtain ⟨x, hx, ht⟩ := Run.script Interp.Orderly
    (fun e x => notClose e && decide (Interp.Prompt e x)) (fun _ _ ho => ho.2)
    (fun a x => ⟨tidy_of_notClose rfl, prompt_step a x⟩)
    (fun e x he => by
      rw [Bool.and_eq_true] at he
      exact ⟨tidy_of_notClose he.1, of_decide_eq_true he.2⟩)
    (viewed ++ Move.whole (.writer 0) (.call (.publish 0 (.byte 6) .dropNewest 0)) ++
      Move.whole (.consumer 0) (.call (.next 0 0)) ++
      Move.whole (.consumer 0) (.releaseLease 1))
    (fun x => decide (.lease 0 ∈ x.views)) (by decide +kernel)
  have hv := of_decide_eq_true ht
  obtain ⟨hviews, hleases⟩ := view_pinned hx
  obtain ⟨o, m, ho, hm⟩ := hviews 0 hv
  obtain ⟨pub, hpub, hpinned⟩ := hleases 0 o m ho hm
  exact ⟨x, o, m, hx, hv, ho, hm, pub, hpub,
    (hpinned x (.init rfl) o ho (by rw [hm]; exact Option.some_ne_none m)).2⟩

/-- A consumer is closed while an array is there, and the slot is used for something else. -/
theorem view_dangling :
    ∃ (x : Interp .single .two) (o : PyLease 2) (m : TensorMeta 2),
      Run Interp.Prompt CalmAndWindowed (Begins .single .two 0 Platform.single.allAlive) x ∧
        .lease 0 ∈ x.views ∧ x.leases[0]? = some o ∧ o.item = some m ∧
          (x.mem.1.ring.slots m.slotIndex).sequence ≠ m.sequence ∧
          (x.mem.1.ring.slots m.slotIndex).payload 0 ≠ 5 := by
  obtain ⟨x, hx, ht⟩ := Run.script Interp.Prompt (fun e x => decide (Interp.Prompt e x))
    (fun _ _ hp => hp) prompt_step (fun _ _ => of_decide_eq_true)
    (viewed ++ Move.whole (.consumer 0) (.close 0) ++
      Move.whole (.writer 0) (.call (.publish 0 (.byte 6) .dropNewest 0)) ++
      Move.whole (.writer 0) (.call (.publish 0 (.byte 7) .dropNewest 0)))
    (fun x => decide (.lease 0 ∈ x.views) && x.leases[0]?.any fun o => o.item.any fun m =>
      decide ((x.mem.1.ring.slots m.slotIndex).sequence ≠ m.sequence ∧
        (x.mem.1.ring.slots m.slotIndex).payload 0 ≠ 5)) (by decide +kernel)
  simp only [Bool.and_eq_true, decide_eq_true_eq, Option.any_eq_true] at ht
  obtain ⟨hv, o, ho, m, hm, ht⟩ := ht
  exact ⟨x, o, m, hx, hv, ho, hm, ht⟩

/-! ## views of slot writers -/

/-- The slot is being written, under the sequence of the slot writer, by its owner. -/
structure Unpublished (t : Nat) (w : SlotWriter n) (s : State P n × Ghost n) : Prop where
  writing : (s.1.ring.slots w.slot).state = .writing
  owned : s.2.Owns t w.slot
  sequence : (s.1.ring.slots w.slot).sequence = w.sequence

/-- In every run whose liveness check can be trusted, and in which no consumer is used that has been
closed: a view of a slot writer belongs to one that has been neither committed nor aborted; as long
as it has not, and its process lives, its slot is being written and is that of no other slot writer
whose process lives. -/
theorem view_unpublished {start : P.Os → Prop} {x : Interp P L}
    (h : Run Interp.Prompt TrustedChecks (Begins P L k start) x) :
    (∀ i, .writer i ∈ x.views →
      ∃ (o : PySlotWriter L.slotCount) (w : _), x.writers[i]? = some o ∧ o.item = some w) ∧
    ∀ (i : Nat) (o : PySlotWriter L.slotCount) (w : _), x.writers[i]? = some o →
      o.item = some w → x.mem.1.aliveActor (.writer o.keeper) →
        Unpublished o.keeper w x.mem ∧
        ∀ (j : Nat) (p : PySlotWriter L.slotCount) (v : _), x.writers[j]? = some p →
          p.item = some v → x.mem.1.aliveActor (.writer p.keeper) → v.slot = w.slot → j = i := by
  have hcustody := h.plain
  have hi := (carelessMode_lawful P L k start).inv (c := x.config)
    ((h.reach fun _ _ hp => hp).mono fun _ _ hc => ⟨hc, trivial⟩)
  have hwriter : ∀ (i : Nat) (o : PySlotWriter L.slotCount) (w : _), x.writers[i]? = some o →
      o.item = some w → x.mem.1.writer o.keeper = some w := fun i o w ho hw => by
    obtain ⟨g, hg⟩ := hcustody (.writer o.keeper)
    exact Interp.accounts_writer hg.accounts ho hw
  refine ⟨fun i hv => ?_, fun i o w ho hw halive => ?_⟩
  · have ho := List.getElem?_eq_getElem (h.objects.writer i hv)
    obtain ⟨w, hw⟩ := Option.isSome_iff_exists.mp
      ((h.objects.writers i _ ho).alive (List.count_pos_iff.mpr hv))
    exact ⟨_, w, ho, hw⟩
  obtain ⟨r, hr, hp, hs, -, hseq⟩ := hi.coupled.writer o.keeper w (hwriter i o w ho hw) halive
  have hne : r.phase ≠ .returning := by rw [hp]; decide
  refine ⟨⟨?_, ⟨r, hr, hne, hs⟩, (hi.coupled.sequence _).trans hseq.symm⟩,
    fun j p v hp' hv halive' hslot => ?_⟩
  · rw [← hs]
    exact hi.proto.writing _ r hr hne
  · obtain ⟨r', hr', hp'', hs', -⟩ := hi.coupled.writer p.keeper v (hwriter j p v hp' hv) halive'
    have hk : p.keeper = o.keeper := hi.proto.unique _ _ r' r hr' hr (by rw [hp'']; decide) hne
      ((hs'.trans hslot).trans hs.symm)
    obtain ⟨g, hg⟩ := hcustody (.writer o.keeper)
    have hlen := (hg.accounts.writer _ rfl).length_eq
    have hle : (items o.keeper x.writers).length ≤ 1 := by
      have : (x.mem.1.writer o.keeper).toList.length ≤ 1 := by
        cases x.mem.1.writer o.keeper <;> simp
      rw [List.length_append] at hlen
      omega
    exact item_unique hle hp' ho hk rfl hv hw

/-- An array is filled while the slot is reserved; to commit is refused as long as it is there. -/
theorem view_unpublished_refused :
    ∃ (x : Interp .single .two) (o : PySlotWriter 2) (w : SlotWriter 2),
      Run Interp.Prompt TrustedChecks (Begins .single .two 0 Platform.single.allAlive) x ∧
        .writer 0 ∈ x.views ∧ x.raised.length = 1 ∧ x.writers[0]? = some o ∧ o.item = some w ∧
          Unpublished o.keeper w x.mem := by
  obtain ⟨x, hx, ht⟩ := Run.script Interp.Prompt (fun e x => decide (Interp.Prompt e x))
    (fun _ _ hp => hp) prompt_step (fun _ _ => of_decide_eq_true)
    (Move.whole (.writer 0) (.call (.reserve 0 .u8 [1] .dropNewest 0)) ++
      [.event (.getBuffer (.writer 0))] ++ Move.whole (.writer 0) (.write 0 0 7) ++
      [.event (.commit 0)])
    (fun x => decide (.writer 0 ∈ x.views) && decide (x.raised.length = 1)) (by decide +kernel)
  simp only [Bool.and_eq_true, decide_eq_true_eq] at ht
  have hx := hx.mono fun _ _ hc => (hc.1.honest.believes : TrustedChecks _ _)
  obtain ⟨hviews, hwriters⟩ := view_unpublished hx
  obtain ⟨o, w, ho, hw⟩ := hviews 0 ht.1
  exact ⟨x, o, w, hx, ht.1, ht.2, ho, hw, (hwriters 0 o w ho hw rfl).1⟩

end TenzorBus.Bindings
