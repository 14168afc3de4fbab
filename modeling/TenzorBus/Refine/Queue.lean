import TenzorBus.Protocol.Queue
import TenzorBus.Refine.Delivery
import TenzorBus.Ring.Reads

/-!
# A consumer takes the next publication

`try_take` where at most one reservation is unfinished at a time and nobody dies.

* `queueMode` : the use of the ring
* `Sighting.next` : a pass that cannot miss the next publication, if there is one when it begins
* `rescan_next` : the rescans settle on its number
* `tryTake_next` : what `try_take` answers
-/

namespace TenzorBus

open Conc

/-- The use of the ring in which nobody dies, one reservation is made at a time, and no lease spans
half the range of the counter. -/
def queueMode (P : Platform) (n : Nat) (first : Int) : Mode P n where
  guards := .queue n
  inv v := Leasing True v.proto ∧ v.proto.Fifo first ∧ v.proto.Near ∧ ∀ a, v.proto.alive a
  ok v v' := (∀ a, v'.proto.alive a) ∧ Singly v.proto v'.proto ∧ v'.proto.Near

namespace Refine

variable {P : Platform} {L : RingLayout} {first : Int} {c : Nat} {con : Consumer}
  {k : Registration} {u : Nat}

/-! ## what survives the others -/

/-- What has been published stays published. -/
theorem published_kept {M : Mode P L.slotCount} {a : Actor} {v v' : View P L.slotCount}
    (h : Relies M a v v') : v.proto.hist.published <+: v'.proto.hist.published := by
  rcases h.rely.step with ⟨b, -, -, hs⟩ | hf
  · exact hs.published
  · rw [hf.eq]

/-- The number of a slot changes only when it becomes the next one. -/
theorem num_cases {a : Actor} {v v' : View P L.slotCount}
    (h : Relies (queueMode P L.slotCount first) a v v') (j : Fin L.slotCount) :
    v'.proto.hist.num j = v.proto.hist.num j ∨
      v'.proto.hist.num j = first + v.proto.hist.published.length := by
  rcases h.rely.step with ⟨b, -, -, hs⟩ | hf
  · exact h.inv.mode.2.1.counter.num_cases hs j
  · rw [hf.eq]
    exact .inl rfl

/-! ## a pass over the slots -/

/-- The consumer that concerns us is about to take the publication at position `u`, which is in the
slot `due` if it has been committed. -/
structure Next (c : Nat) (con : Consumer) (k : Registration) (u : Nat)
    (due : Option (Fin L.slotCount)) (v : View P L.slotCount) : Prop where
  opened : Opened c con k v
  due : ∀ j, due = some j → ∃ pub, v.proto.hist.published[u]? = some pub ∧ pub.slot = j

/-- A number from `u` on; the number `u` is that of the slot that is due. -/
def Ahead (first : Int) (u : Nat) (due : Option (Fin L.slotCount)) (q : Int) (j : Fin L.slotCount)
    (v : View P L.slotCount) : Prop :=
  ∃ w : Nat, q = first + w ∧ u ≤ w ∧ w ≤ v.proto.hist.published.length ∧
    ∀ j', due = some j' → w = u → j = j'

variable {due : Option (Fin L.slotCount)}

theorem keeps_next {M : Mode P L.slotCount} : Keeps M (.consumer c) (Next c con k u due) :=
  fun v v' h hv => ⟨keeps_opened v v' h hv.opened, fun j hj => by
    obtain ⟨pub, hpub, hslot⟩ := hv.due j hj
    obtain ⟨hu, rfl⟩ := List.getElem?_eq_some_iff.mp hpub
    exact ⟨_, List.prefix_iff_getElem?.mp (published_kept h) _ hu, hslot⟩⟩

theorem Ahead.kept {M : Mode P L.slotCount} {a : Actor} {v v' : View P L.slotCount}
    (h : Relies M a v v') {q : Int} {j : Fin L.slotCount} (hv : Ahead first u due q j v) :
    Ahead first u due q j v' := by
  obtain ⟨w, hq, hu, hw, hdue⟩ := hv
  exact ⟨w, hq, hu, hw.trans (published_kept h).length_le, hdue⟩

/-- The next publication to take has the position that the consumer has seen last, and one. -/
theorem seen_eq {v : View P L.slotCount}
    (hi : (queueMode P L.slotCount first).Inv L.slotCapacity v) (ho : Opened c con k v)
    (hq : k.quiet) (hu : k.last = first + u - 1) :
    v.proto.seen c k = u ∧ u ≤ v.proto.hist.published.length := by
  have hplace := hi.mode.2.1.place c k ho.registration hq
  have hlast := hplace.last
  have hle := hplace.le
  omega

/-- The waiting publications are few, so the words of their numbers compare as the numbers do. -/
theorem ahead_lt {v : View P L.slotCount}
    (hi : (queueMode P L.slotCount first).Inv L.slotCapacity v) (ho : Opened c con k v)
    (hf : Fits con k) (hq : k.quiet) (hu : k.last = first + u - 1) :
    v.proto.hist.published.length - u < 2 ^ 57 := by
  obtain ⟨hseen, -⟩ := seen_eq hi ho hq hu
  have hfew := (hi.mode.2.1.waiting c k ⟨ho.client hf, fun _ => hq⟩).few
  have := L.slotCount_lt
  omega

/-- What a reader bit of the consumer tells about a slot: it has a number that is still ahead, or
it is leased. -/
def Marked (first : Int) (k : Registration) (u : Nat) (due : Option (Fin L.slotCount))
    (j : Fin L.slotCount) (v : View P L.slotCount) : Prop :=
  v.proto.Addressed k.index j ∧ (Ahead first u due (v.proto.hist.num j) j v ∨
    Pinned k j v ∧ v.proto.hist.position j < u)

theorem keeps_marked (hf : Fits con k) (hq : k.quiet) (hu : k.last = first + u - 1)
    (j : Fin L.slotCount) : Keeps (queueMode P L.slotCount first) (.consumer c) fun v =>
      Next c con k u due v ∧ Marked first k u due j v := by
  intro v v' h hv
  obtain ⟨hnext, hA, hnum⟩ := hv
  have hnext' := keeps_next v v' h hnext
  refine ⟨hnext', h.rely.addressed id (hnext.opened.client hf) hA, ?_⟩
  rcases hnum with hahead | ⟨hpin, hpos⟩
  · left
    rcases num_cases h j with hsame | hnew
    · rw [hsame]
      exact hahead.kept h
    · -- the number of a reservation that has just been made
      have hlen := (published_kept h).length_le
      obtain ⟨-, hle⟩ := seen_eq h.inv hnext.opened hq hu
      refine ⟨_, hnew, hle, hlen, fun j' hj' hw => ?_⟩
      obtain ⟨pub, hpub, -⟩ := hnext.due j' hj'
      obtain ⟨hlt, -⟩ := List.getElem?_eq_some_iff.mp hpub
      omega
  · right
    obtain ⟨hun, hb⟩ := h.rely.pinned id (hnext.opened.client hf) hpin.1 hpin.2
    exact ⟨⟨hun.state.trans hpin.1, hb⟩, by rw [hun.position]; exact hpos⟩

/-- Where the consumer's bit is found. -/
theorem marked_of_bit {v : View P L.slotCount}
    (hi : (queueMode P L.slotCount first).Inv L.slotCapacity v) (hv : Next c con k u due v)
    (hq : k.quiet) (hu : k.last = first + u - 1) {j : Fin L.slotCount}
    (hb : k.index ∈ v.proto.mask j) : Marked first k u due j v := by
  refine ⟨hi.proto.addressed hb, ?_⟩
  obtain ⟨-, hle⟩ := seen_eq hi hv.opened hq hu
  have hcount := hi.mode.2.1.counter
  cases hstate : v.proto.state j with
  | free =>
    rw [hi.proto.freeMask j hstate] at hb
    simp at hb
  | committed =>
    obtain ⟨mask, hcontent, -⟩ := hi.proto.content j hstate
    obtain ⟨hlt, -⟩ := List.getElem?_eq_some_iff.mp hcontent
    by_cases hold : v.proto.hist.position j < u
    · exact .inr ⟨⟨hstate, hb⟩, hold⟩
    · refine .inl ⟨_, hcount.position j hstate, by omega, hlt.le, fun j' hj' hw => ?_⟩
      obtain ⟨pub, hpub, rfl⟩ := hv.due j' hj'
      rw [hw, hpub] at hcontent
      rw [Option.some.inj hcontent]
  | writing =>
    obtain ⟨t, r, hr, hp, rfl⟩ := hi.proto.owned j hstate
    have hphase : r.phase ≠ .header := by
      intro e
      rw [hi.proto.unmasked t r hr (.inl e)] at hb
      simp at hb
    refine .inl ⟨_, hcount.number t r hr hphase, hle, le_rfl, fun j' hj' hw => ?_⟩
    obtain ⟨pub, hpub, -⟩ := hv.due j' hj'
    obtain ⟨hlt, -⟩ := List.getElem?_eq_some_iff.mp hpub
    omega

/-- Numbers ahead compare as their words do. -/
theorem Ahead.seqNewer_iff {v : View P L.slotCount}
    (hfew : v.proto.hist.published.length - u < 2 ^ 57) {q q' : Int}
    {due' : Option (Fin L.slotCount)} {j j' : Fin L.slotCount}
    (h : Ahead first u due q j v) (h' : Ahead first u due' q' j' v) :
    seqNewer (seqWord q) (seqWord q') = true ↔ q' < q := by
  obtain ⟨w, rfl, hu, hw, -⟩ := h
  obtain ⟨w', rfl, hu', hw', -⟩ := h'
  exact seqNewer_seqWord (by omega) (by omega)

/-- A pass that cannot miss the next publication if that is due. -/
def Sighting.next (hf : Fits con k) (hq : k.quiet) (hu : k.last = first + u - 1)
    (due : Option (Fin L.slotCount)) :
    Sighting (queueMode P L.slotCount first) c con k where
  Base := Next c con k u due
  Mark := Marked first k u due
  Good q j v := v.proto.Addressed k.index j ∧ ∃ x, q = seqWord x ∧ Ahead first u due x j v
  Due j := due = some j
  Below q _ := q = seqWord (first + u)
  opened _ h := h.opened
  keepsBase := keeps_next
  keepsMark j := keeps_marked hf hq hu j
  keepsGood _ j v v' h hv := by
    obtain ⟨hnext, hA, x, hx, hahead⟩ := hv
    exact ⟨keeps_next v v' h hnext, h.rely.addressed id (hnext.opened.client hf) hA, x, hx,
      hahead.kept h⟩
  mark _ _ hi _ hb := marked_of_bit hi hb hq hu
  good v j hi _ hb hm hn := by
    obtain ⟨hA, hahead | ⟨hpin, hpos⟩⟩ := hm
    · exact ⟨hA, _, rfl, hahead⟩
    · have hk : v.proto.concerns True c k := ⟨hb.opened.client hf, fun _ => hq⟩
      have hseen := (hi.mode.2.1.seqNewer_iff
        (L.slotCount_lt.trans_le (by decide)) hi.mode.2.2.1 hi.proto hk hpin.1 hpin.2).mp hn
      rw [(seen_eq hi hb.opened hq hu).1] at hseen
      omega
  due v j hi _ hb hd := by
    have hk : v.proto.concerns True c k := ⟨hb.opened.client hf, fun _ => hq⟩
    obtain ⟨pub, hpub, rfl⟩ := hb.due j hd
    obtain ⟨hseen, -⟩ := seen_eq hi hb.opened hq hu
    obtain ⟨hc, hpos, hbit⟩ := (hi.mode.2.1.waiting c k hk).unread u pub hseen.le hpub
    refine ⟨⟨hc, hbit⟩, ?_, ?_⟩
    · rw [hi.mode.2.1.seqNewer_iff (L.slotCount_lt.trans_le (by decide)) hi.mode.2.2.1 hi.proto hk
        hc hbit, hseen, hpos]
    · rw [hi.mode.2.1.counter.position _ hc, hpos]
  older v b i e i' j hi hb hgood hgood' hn hbelow := by
    obtain ⟨-, x, rfl, hx⟩ := hgood
    obtain ⟨-, y, rfl, hy⟩ := hgood'
    have hfew := ahead_lt hi hb.opened hf hq hu
    have hlt := (hx.seqNewer_iff hfew hy).mp hn
    obtain ⟨w, rfl, hw, hw', -⟩ := hx
    obtain ⟨w', rfl, hv, hv', -⟩ := hy
    have := seqWord_inj hbelow (by omega) (by omega)
    omega
  newer v b i e i' j hi hb hgood hgood' hn hbelow := by
    obtain ⟨-, x, rfl, hx⟩ := hgood
    obtain ⟨-, y, rfl, hy⟩ := hgood'
    have hfew := ahead_lt hi hb.opened hf hq hu
    have hge : ¬y < x := fun hlt => by
      rw [(hx.seqNewer_iff hfew hy).mpr hlt] at hn
      cases hn
    obtain ⟨w, rfl, hw, hw', -⟩ := hx
    obtain ⟨w', rfl, hv, hv', -⟩ := hy
    have := seqWord_inj hbelow (by omega) (by omega)
    rw [show first + (w : Int) = first + u by omega]

/-! ## the rescans -/

/-- A candidate with the next number, or one that a rescan will replace. -/
theorem rescan_next (hf : Fits con k) (hq : k.quiet) (hu : k.last = first + u - 1) (fuel : Nat)
    (best : UInt64 × Fin L.slotCount) :
    Keeping (queueMode P L.slotCount first) (.consumer c) (Consumer.rescan c con fuel best)
      (fun v => (best.1 = seqWord (first + u) ∨ 0 < fuel) ∧ Next c con k u due v ∧
        (Sighting.next (c := c) (P := P) hf hq hu due).Good best.1 best.2 v)
      fun r v => r.1 = seqWord (first + u) ∧ Next c con k u due v ∧
        (Sighting.next (c := c) (P := P) hf hq hu due).Good r.1 r.2 v := by
  induction fuel generalizing best with
  | zero =>
    exact ret fun v _ hv => ⟨hv.1.resolve_right (Nat.lt_irrefl 0), hv.2⟩
  | succ fuel ih =>
    let S := Sighting.next (P := P) (c := c) hf hq hu due
    refine pre (Φ := fun v => S.Base v ∧ S.Good best.1 best.2 v) ?_ fun v _ hv => hv.2
    by_cases hb : best.1 = seqWord (first + u)
    · -- nothing is older
      let S' := S.also (S.Good best.1 best.2) (S.keepsGood best.1 best.2)
      refine seq (S'.scanOldest_keeps id hf) fun found => ?_
      have hdone : Keeping (queueMode P L.slotCount first) (.consumer c) (pure best)
          (fun v => S'.Best (List.finRange L.slotCount) found v) fun r v =>
            r.1 = seqWord (first + u) ∧ Next c con k u due v ∧ S.Good r.1 r.2 v :=
        ret fun v _ hv => ⟨hb, hv.base.1, hv.base.2⟩
      cases found with
      | none => exact hdone
      | some next =>
        dsimp only
        split
        · next hnew =>
          refine pre (ih next) fun v hi hv => ?_
          have hgood : S.Good next.1 next.2 v := hv.good next.1 next.2 rfl
          have := S.older v best.1 best.2 next.1 next.2 best.2 hi hv.base.1 hv.base.2 hgood hnew hb
          exact ⟨.inl this, hv.base.1, hgood⟩
        · exact hdone
    · -- the next publication has been committed, and this pass finds it
      refine pre (Φ := fun v => ∃ j, Next c con k u (some j) v ∧ S.Base v ∧
        S.Good best.1 best.2 v) (name fun j => ?_) fun v hi hv => ?_
      · let S' := (Sighting.next (P := P) (c := c) hf hq hu (some j)).also
          (fun v => S.Base v ∧ S.Good best.1 best.2 v) fun v v' h hv =>
            ⟨keeps_next v v' h hv.1, S.keepsGood best.1 best.2 v v' h hv.2⟩
        refine seq (S'.scanOldest_keeps id hf) fun found => ?_
        have hfound : ∀ v, S'.Best (List.finRange L.slotCount) found v →
            ∃ i, found = some (seqWord (first + u), i) := fun v hv => by
          obtain ⟨q, i, hf, hq⟩ := hv.due j (List.mem_finRange j) rfl
          exact ⟨i, hf.trans (by rw [show q = seqWord (first + u) from hq])⟩
        cases found with
        | none =>
          refine ret fun v _ hv => ?_
          obtain ⟨i, hi⟩ := hfound v hv
          cases hi
        | some next =>
          dsimp only
          split
          · refine pre (ih next) fun v _ hv => ?_
            obtain ⟨i, hi⟩ := hfound v hv
            cases hi
            obtain ⟨hA, x, hx, w, rfl, hw, hw', hdue⟩ := hv.good _ i rfl
            refine ⟨.inl rfl, hv.base.2.1, hA, _, hx, w, rfl, hw, hw', fun j' hj' hwu => ?_⟩
            -- both are the slot of the same publication
            obtain ⟨pub, hpub, hslot⟩ := hv.base.1.due j rfl
            obtain ⟨pub', hpub', hslot'⟩ := hv.base.2.1.due j' hj'
            rw [hdue j rfl hwu, ← hslot, ← hslot', Option.some.inj (hpub.symm.trans hpub')]
          · next hold =>
            refine ret fun v hi hv => ?_
            obtain ⟨i, hnext⟩ := hfound v hv
            cases hnext
            obtain ⟨-, x, hx, hahead⟩ := hv.base.2.2
            obtain ⟨-, y, hy, hahead'⟩ := hv.good _ i rfl
            have hfew := ahead_lt hi hv.base.1.opened hf hq hu
            refine absurd ?_ hold
            rw [hx, hy, hahead.seqNewer_iff hfew hahead']
            obtain ⟨w, rfl, hw, hw', -⟩ := hahead
            obtain ⟨w', rfl, hv, hv', -⟩ := hahead'
            have hlast : w' = u := by
              have := seqWord_inj hy (by omega) (by omega)
              omega
            have hne : w ≠ u := by
              rintro rfl
              exact hb hx
            omega
      · obtain ⟨hnext, hA, x, hx, w, rfl, hw, hw', hdue⟩ := hv
        have hne : w ≠ u := by
          rintro rfl
          exact hb hx
        have hlt : u < v.proto.hist.published.length := by omega
        exact ⟨_, ⟨hnext.opened, fun j hj => ⟨_, List.getElem?_eq_getElem hlt,
          Option.some.inj hj⟩⟩, hnext, hA, _, hx, w, rfl, hw, hw', hdue⟩

/-! ## what a `try_take` leaves alone -/

variable {M : Mode P L.slotCount}

theorem keeps_trying {l : Nat} :
    Keeps M (.consumer c) fun v => v.proto.hist.trying c = l :=
  fun _ _ h hv => h.rely.consumer.2.2.2.trans hv

/-- What the notes of a `try_take` in its middle leave alone may be added to any outline of it. -/
theorem framed {α : Type} {p : RingM P L.slotCount α} {F Φ : View P L.slotCount → Prop}
    {Ψ : α → View P L.slotCount → Prop} (hF : Keeps M (.consumer c) F)
    (hp : p.Acts fun m m' => F (view m) → F (view m')) (h : Keeping M (.consumer c) p Φ Ψ) :
    Keeping M (.consumer c) p (fun v => Φ v ∧ F v) fun b v => Ψ b v ∧ F v :=
  Rules.Outline.frame hF.stable hp h

/-- The only note of a validated read is what it returns. -/
theorem framed_read {slot : Fin L.slotCount} {expected : UInt64} {F Φ : View P L.slotCount → Prop}
    {Ψ : Option (TensorMeta L.slotCount) → View P L.slotCount → Prop}
    (hF : Keeps M (.consumer c) F)
    (hnote : ∀ v x y, F v → F { v with proto :=
      { v.proto with hist := v.proto.hist.validate c x y } })
    (h : Keeping M (.consumer c) (Consumer.readValidated L.slotCapacity c con slot expected) Φ Ψ) :
    Keeping M (.consumer c) (Consumer.readValidated L.slotCapacity c con slot expected)
      (fun v => Φ v ∧ F v) fun r v => Ψ r v ∧ F v := by
  refine framed hF ((Consumer.readValidated_notes c con _ _ _).mono fun m m' hm => ?_) h
  rcases hm with rfl | ⟨x, payload, rfl⟩
  · exact id
  · exact hnote (view m) x payload

/-! ## what is taken -/

/-- What has the number of the next publication is the next publication. -/
theorem num_of_validated {v : View P L.slotCount}
    (hi : (queueMode P L.slotCount first).Inv L.slotCapacity v) (hf : Fits con k) (hq : k.quiet)
    (hu : k.last = first + u - 1) {m : TensorMeta L.slotCount} (hv : Validated c con k m v)
    (hm : m.sequence = seqWord (first + u)) : v.proto.hist.num m.slotIndex = k.last + 1 := by
  have hk : v.proto.concerns True c k := ⟨hv.opened.client hf, fun _ => hq⟩
  obtain ⟨hseen, -⟩ := seen_eq hi hv.opened hq hu
  have hpos := hi.mode.2.1.counter.position _ hv.good.committed
  have hfew := ahead_lt hi hv.opened hf hq hu
  obtain ⟨mask, hcontent, -⟩ := hi.proto.content _ hv.good.committed
  obtain ⟨hlt, -⟩ := List.getElem?_eq_some_iff.mp hcontent
  have hspan : k.last - v.proto.hist.num m.slotIndex ≤ 2 ^ 63 := by
    by_cases hold : v.proto.hist.position m.slotIndex < v.proto.seen c k
    · obtain ⟨m', hm', hslot⟩ :=
        (hi.mode.2.1.waiting c k hk).leased _ hv.good.committed hv.pinned.2 hold
      rw [← hslot]
      exact hi.mode.2.2.1 c k m' hk.1 hm'
    · omega
  have := seqWord_inj (hv.good.sequence.symm.trans hm) (by omega) (by omega)
  omega

theorem deliverable_of_validated {v : View P L.slotCount}
    (hi : (queueMode P L.slotCount first).Inv L.slotCapacity v) (hf : Fits con k) (hq : k.quiet)
    (hu : k.last = first + u - 1) {m : TensorMeta L.slotCount} (hv : Validated c con k m v)
    (hm : m.sequence = seqWord (first + u)) :
    Deliverable (queueMode P L.slotCount first) c con k m v where
  opened := hv.opened
  grants _ := {
    good := hv.good
    reader := hv.pinned.2
    newer := by
      rw [hm, seqNewer_seqWord (by omega) (by omega)]
      omega
    take := fun k' hk' _ => by
      obtain rfl : k' = k := Option.some.inj (hk'.1.symm.trans hv.opened.registration)
      exact num_of_validated hi hf hq hu hv hm }

theorem keeps_deliverable (hf : Fits con k) (m : TensorMeta L.slotCount) :
    Keeps (queueMode P L.slotCount first) (.consumer c)
      (Deliverable (queueMode P L.slotCount first) c con k m) := by
  intro v v' h hv
  have htake := hv.takeable id
  have hval := keeps_validated id hf m v v' h htake.1
  refine ⟨hval.opened, fun _ => ⟨⟨hval.good, hval.pinned.2⟩, htake.2, fun k' hk' hq => ?_⟩⟩
  obtain rfl : k' = k := Option.some.inj (hk'.1.symm.trans hval.opened.registration)
  obtain ⟨hun, -⟩ := h.rely.pinned id (htake.1.opened.client hf) htake.1.pinned.1
    htake.1.pinned.2
  rw [hun.num]
  exact (hv.grants id).take k' (htake.1.opened.client hf) hq

/-- The candidate is read, and taken if it is still there; it is there if it was due. -/
theorem readNext (hf : Fits con k) (hq : k.quiet) (hu : k.last = first + u - 1)
    (best : UInt64 × Fin L.slotCount) :
    Keeping (queueMode P L.slotCount first) (.consumer c)
      (Consumer.readValidated L.slotCapacity c con best.2 best.1)
      (fun v => best.1 = seqWord (first + u) ∧ Next c con k u due v ∧
        (Sighting.next (c := c) (P := P) hf hq hu due).Good best.1 best.2 v)
      fun r v => Opened c con k v ∧ (r = none → due = none) ∧
        ∀ m, r = some m → Deliverable (queueMode P L.slotCount first) c con k m v := by
  refine given fun hb => ?_
  refine post (pre (readValidated_keeps id hf (φ := due ≠ none)) fun v hi hv => ?_)
    fun r v hi hv => ⟨hv.1, fun hr => not_not.mp (hv.2.1 hr), fun m hm => ?_⟩
  · obtain ⟨hnext, hA, x, hx, hahead⟩ := hv
    refine ⟨⟨hnext.opened, hA⟩, fun hdue => ?_⟩
    obtain ⟨j, hj⟩ := Option.ne_none_iff_exists'.mp hdue
    have hfew := ahead_lt hi hnext.opened hf hq hu
    obtain ⟨w, rfl, hw, hw', hslot⟩ := hahead
    have hwu : w = u := by
      have := seqWord_inj (hx.symm.trans hb) (by omega) (by omega)
      omega
    obtain ⟨pub, hpub, hpubslot⟩ := hnext.due j hj
    have hk : v.proto.concerns True c k := ⟨hnext.opened.client hf, fun _ => hq⟩
    obtain ⟨hc, hpos, -⟩ := (hi.mode.2.1.waiting c k hk).unread u pub
      (seen_eq hi hnext.opened hq hu).1.le hpub
    rw [hslot j hj hwu, ← hpubslot, hb]
    exact ⟨hc, by rw [hi.mode.2.1.counter.position _ hc, hpos]⟩
  · obtain ⟨-, hseq, hval⟩ := hv.2.2 m hm
    exact deliverable_of_validated hi hf hq hu hval (hseq.trans hb)

/-! ## `try_take` -/

/-- What is deliverable remains so when the answer is noted. -/
theorem deliverable_endTry {v : View P L.slotCount} {m : TensorMeta L.slotCount}
    {r : Option (TensorMeta L.slotCount)}
    (h : Deliverable (queueMode P L.slotCount first) c con k m v) :
    Deliverable (queueMode P L.slotCount first) c con k m
      { v with proto := { v.proto with hist := v.proto.hist.endTry c r } } where
  opened := ⟨h.opened.steady, h.opened.handle, h.opened.registration⟩
  grants _ :=
    have hg := h.grants id
    ⟨⟨⟨hg.good.committed, hg.good.sequence, hg.good.header⟩, hg.reader⟩, hg.newer, hg.take⟩

/-- At the end of a `try_take` whose answer is known. -/
def Answered (first : Int) (c : Nat) (con : Consumer) (k : Registration) (l : Nat)
    (r : Option (TensorMeta L.slotCount)) (v : View P L.slotCount) : Prop :=
  (Opened c con k v ∧ (r = none → l ≤ v.proto.seen c k) ∧
    ∀ m, r = some m → Deliverable (queueMode P L.slotCount first) c con k m v) ∧
      v.proto.hist.trying c = l

/-- The answer is noted. -/
theorem answer_next (hf : Fits con k) (l : Nat) (r : Option (TensorMeta L.slotCount)) :
    Keeping (queueMode P L.slotCount first) (.consumer c)
      (do Prog.record fun _ g => g.endTry c r; return r) (Answered first c con k l r)
      fun r v => Opened c con k v ∧
        ∀ m, r = some m → Deliverable (queueMode P L.slotCount first) c con k m v := by
  refine seq (endTry_keeps r (Ψ := fun v => Opened c con k v ∧
    ∀ m, r = some m → Deliverable (queueMode P L.slotCount first) c con k m v)
    (fun v v' h hv => ⟨keeps_opened v v' h hv.1, fun m hm =>
      keeps_deliverable hf m v v' h (hv.2 m hm)⟩) (fun v _ hv k' hk' _ hr => ?_) fun v hv => ?_)
    fun _ => ret fun _ _ hv => hv
  · obtain ⟨⟨ho, hnone, -⟩, htrying⟩ := hv
    obtain rfl : k' = k := Option.some.inj (hk'.symm.trans ho.registration)
    exact htrying.trans_le (hnone hr)
  · obtain ⟨⟨ho, -, hsome⟩, -⟩ := hv
    exact ⟨⟨ho.steady, ho.handle, ho.registration⟩, fun m hm => deliverable_endTry (hsome m hm)⟩

/-- Whatever a `try_take` takes is the next publication, and it comes back with nothing only if
there was none when it began. -/
theorem tryTake_next (hf : Fits con k) (hq : k.quiet) :
    Keeping (queueMode P L.slotCount first) (.consumer c)
      (Consumer.tryTake L.slotCapacity c con) (Opened c con k) fun r v => Opened c con k v ∧
        ∀ m, r = some m → Deliverable (queueMode P L.slotCount first) c con k m v := by
  refine pre (Φ := fun v => ∃ u : Nat, k.last = first + u - 1 ∧ Opened c con k v)
    (name fun u => given fun hu => ?_) fun v hi ho =>
      ⟨_, (hi.mode.2.1.place c k ho.registration hq).last, ho⟩
  -- what was there at the beginning
  refine seq (X := fun _ v => ∃ due l, (due = none → l ≤ u) ∧
    Next c con k u due v ∧ v.proto.hist.trying c = l) (beginTry_keeps (Keeps.exists fun due =>
      Keeps.exists fun l => (Keeps.const _).and (keeps_next.and keeps_trying)) fun v _ _ ho => ?_)
    fun _ => name fun due => name fun l => given fun hdue => ?_
  · refine ⟨(v.proto.hist.published[u]?).map (·.slot), v.proto.hist.published.length, fun h => ?_,
      ⟨⟨ho.steady, ho.handle, ho.registration⟩, fun j hj => Option.map_eq_some_iff.mp hj⟩, ?_⟩
    · exact List.getElem?_eq_none_iff.mp (Option.map_eq_none_iff.mp h)
    · simp [Ghost.beginTry]
  let S := Sighting.next (P := P) (c := c) hf hq hu due
  refine seq (framed keeps_trying (.of_reads (Consumer.scanOldest_reads c con) fun _ => id)
    (S.scanOldest_keeps id hf)) fun found => ?_
  cases found with
  | none =>
    refine pre (answer_next hf l none) fun v hi hv =>
      ⟨⟨hv.1.base.opened, fun _ => ?_, fun m hm => by cases hm⟩, hv.2⟩
    rw [(seen_eq hi hv.1.base.opened hq hu).1]
    refine hdue (Option.eq_none_iff_forall_ne_some.mpr fun j hj => ?_)
    obtain ⟨q, i, hnone, -⟩ := hv.1.due j (List.mem_finRange j) hj
    cases hnone
  | some best =>
    have hread : ∀ best : UInt64 × Fin L.slotCount,
        Keeping (queueMode P L.slotCount first) (.consumer c)
          (Consumer.readValidated L.slotCapacity c con best.2 best.1)
          (fun v => (best.1 = seqWord (first + u) ∧ Next c con k u due v ∧
            S.Good best.1 best.2 v) ∧ v.proto.hist.trying c = l) (Answered first c con k l) :=
      fun best => post (framed_read keeps_trying (fun _ _ _ h => h) (readNext hf hq hu best))
        fun r v hi hv =>
          ⟨⟨hv.1.1, fun hr => (hdue (hv.1.2.1 hr)).trans_eq (seen_eq hi hv.1.1 hq hu).1.symm,
            hv.1.2.2⟩, hv.2⟩
    refine seq (pre (framed keeps_trying (.of_reads (Consumer.rescan_reads c con _ _) fun _ => id)
      (rescan_next hf hq hu L.slotCount best)) fun v _ hv => ?_) fun best =>
        seq (hread best) fun r => answer_next hf l r
    exact ⟨⟨.inr (lt_of_lt_of_le (by decide) L.slotCount_ge), hv.1.base,
      hv.1.good best.1 best.2 rfl⟩, hv.2⟩

theorem delivers_queue : Delivers (queueMode P L.slotCount first) where
  keeps hf := keeps_deliverable hf _
  tryTake {c con k} hf := by
    have hall : Keeping (queueMode P L.slotCount first) (.consumer c)
        (Consumer.tryTake L.slotCapacity c con) (Opened c con k) fun r v => Opened c con k v ∧
          ∀ m, r = some m → Deliverable (queueMode P L.slotCount first) c con k m v := by
      by_cases hq : k.quiet
      · exact tryTake_next hf hq
      · -- of the others nothing is asked
        refine post (tryTake_plain id hf fun v r ho k' hk' hq' => ?_) fun r v _ hv =>
          ⟨hv.1, fun m hm => (hv.2 m hm).deliverable fun k' hk' hq' => ?_⟩
        · obtain rfl : k' = k := Option.some.inj (hk'.symm.trans ho.registration)
          exact absurd hq' hq
        · obtain rfl : k' = k := Option.some.inj (hk'.1.symm.trans hv.1.registration)
          exact absurd hq' hq
    refine post hall fun r v _ hv => ?_
    cases r with
    | none => exact hv.1
    | some m => exact hv.2 m rfl
  loose v c k m hi hl hk hm hne hq := by
    have hh := hi.mode.1.held c k ⟨hk, fun _ => hq⟩ hl m hm
    exact hne ⟨hh.good.sequence.symm, hh.reader⟩

end Refine

end TenzorBus
