import TenzorBus.Protocol.Overtaking
import TenzorBus.Refine.Queue

/-!
# A consumer takes what has waited longest

`try_take` in any run in which nobody dies and there are fewer than `2 ^ 62` reservations.

* `oldestMode` : the use of the ring
* `Sighting.oldest` : a pass finds nothing later than anything that waited when the call began
* `tryTake_oldest` : what `try_take` answers
-/

namespace TenzorBus

open Conc

variable {n : Nat}

/-- The use of the ring in which nobody dies and the counter starts at `k₀`. -/
def oldestMode (P : Platform) (n : Nat) (k₀ : UInt64) : Mode P n where
  guards := .oldest n
  inv v := Leasing False v.proto ∧ v.proto.Sparse k₀
  ok _ v' := (∀ a, v'.proto.alive a) ∧ v'.proto.hist.begun ≤ 2 ^ 62

namespace Refine

variable {P : Platform} {L : RingLayout} {k₀ : UInt64} {c : Nat} {con : Consumer}
  {k : Registration}

/-! ## what has waited -/

/-- The `try_take` of consumer `c` began when there were `l` publications, and the slots `D` waited
for it, under the numbers `w`. They still wait, and nothing else that old does. -/
structure Since (c : Nat) (con : Consumer) (k : Registration) (l : Nat)
    (D : Fin L.slotCount → Prop) (w : Fin L.slotCount → Int) (v : View P L.slotCount) : Prop where
  opened : Opened c con k v
  began : v.proto.hist.trying c = l
  still : ∀ j, D j → v.proto.Waits k j ∧ v.proto.hist.num j = w j
  only : ∀ j, v.proto.Waits k j → v.proto.hist.position j < l → D j

variable {l : Nat} {D : Fin L.slotCount → Prop} {w : Fin L.slotCount → Int}

theorem keeps_since (hf : Fits con k) :
    Keeps (oldestMode P L.slotCount k₀) (.consumer c) (Since c con k l D w) := by
  intro v v' h hv
  have hbegan : v'.proto.hist.trying c = l := keeps_trying v v' h hv.began
  have hopened := keeps_opened v v' h hv.opened
  rcases h.rely.step with ⟨b, hb, -, hs⟩ | hf'
  · have hsparse := h.inv.mode.2
    refine ⟨hopened, hbegan, fun j hj => ?_, fun j hw hpos => ?_⟩
    · obtain ⟨hw, hnum⟩ := hv.still j hj
      obtain ⟨hw', -, hnum'⟩ :=
        hs.still_waits id h.inv.proto hsparse.live (hv.opened.client hf) hb hw
      exact ⟨hw', hnum'.trans hnum⟩
    · obtain ⟨hw', hpos', -⟩ := hs.waits h.inv.proto (hv.began ▸ hsparse.trying c) hw hpos
      exact hv.only j hw' (hpos' ▸ hpos)
  · refine ⟨hopened, hbegan, fun j hj => ?_, fun j hw hpos => ?_⟩
    · obtain ⟨hw, hnum⟩ := hv.still j hj
      rw [hf'.eq]
      exact ⟨hw.same rfl rfl rfl, hnum⟩
    · rw [hf'.eq] at hw hpos
      exact hv.only j (hw.same rfl rfl rfl) hpos

/-! ## a pass over the slots -/

/-- One of the numbers of a short run. -/
def Within (k₀ : UInt64) (x : Int) : Prop := (k₀.toNat : Int) ≤ x ∧ x ≤ k₀.toNat + 2 ^ 62

theorem Within.of_le {x : Int} {v : View P L.slotCount} (hv : v.proto.Sparse k₀)
    (hlo : (k₀.toNat : Int) ≤ x) (hhi : x ≤ k₀.toNat + v.proto.hist.begun) : Within k₀ x := by
  have := hv.few
  exact ⟨hlo, by omega⟩

theorem Within.seqNewer_iff {x y : Int} (hx : Within k₀ x) (hy : Within k₀ y) :
    seqNewer (seqWord x) (seqWord y) = true ↔ y < x := by
  obtain ⟨hx, hx'⟩ := hx
  obtain ⟨hy, hy'⟩ := hy
  exact seqNewer_seqWord (by omega) (by omega)

theorem Within.inj {x y : Int} (hx : Within k₀ x) (hy : Within k₀ y) (h : seqWord x = seqWord y) :
    x = y := by
  obtain ⟨hx, hx'⟩ := hx
  obtain ⟨hy, hy'⟩ := hy
  exact seqWord_inj h (by omega) (by omega)

/-- A pass that finds nothing later than anything that has waited. -/
def Sighting.oldest (hf : Fits con k) (l : Nat) (D : Fin L.slotCount → Prop)
    (w : Fin L.slotCount → Int) : Sighting (oldestMode P L.slotCount k₀) c con k where
  Base := Since c con k l D w
  Mark j v := v.proto.Addressed k.index j ∧ (k₀.toNat : Int) ≤ v.proto.hist.num j
  Good q j v := v.proto.Addressed k.index j ∧ seqNewer q (seqWord k.last) = true ∧
    ∃ x, q = seqWord x ∧ Within k₀ x
  Due := D
  Below q j := ∃ x, q = seqWord x ∧ Within k₀ x ∧ x ≤ w j
  opened _ h := h.opened
  keepsBase := keeps_since hf
  keepsMark j v v' h hv := by
    obtain ⟨hs, hA, hlo⟩ := hv
    refine ⟨keeps_since hf v v' h hs, h.rely.addressed id (hs.opened.client hf) hA, ?_⟩
    rcases h.rely.step with ⟨b, -, -, hstep⟩ | hf'
    · obtain ⟨held, lost, hn⟩ := h.inv.mode.2.numbered
      exact Proto.Spread.le_num hn.next hstep hlo
    · rw [hf'.eq]
      exact hlo
  keepsGood q j v v' h hv := by
    obtain ⟨hs, hA, hx⟩ := hv
    exact ⟨keeps_since hf v v' h hs, h.rely.addressed id (hs.opened.client hf) hA, hx⟩
  mark v j hi _ _ hb := ⟨hi.proto.addressed hb, hi.mode.2.spread.le_of_bit hi.proto hb⟩
  good v j hi _ _ hm hn := ⟨hm.1, hn, _, rfl, .of_le hi.mode.2 hm.2 (hi.mode.2.spread.le j)⟩
  due v j hi _ hb hd := by
    obtain ⟨hw, hnum⟩ := hb.still j hd
    refine ⟨⟨hw.committed, hw.reader⟩, ?_, _, rfl, ?_, hnum.le⟩
    · exact (hi.mode.2.seqNewer_iff hb.opened.registration hw.committed).mpr hw.newer
    · exact .of_le hi.mode.2 (hi.mode.2.spread.committed j hw.committed) (hi.mode.2.spread.le j)
  older v b i e i' j _ _ _ hgood' hn hbelow := by
    obtain ⟨x, rfl, hx, hle⟩ := hbelow
    obtain ⟨-, -, y, rfl, hy⟩ := hgood'
    exact ⟨y, rfl, hy, ((hx.seqNewer_iff hy).mp hn).le.trans hle⟩
  newer v b i e i' j _ _ hgood _ hn hbelow := by
    obtain ⟨y, rfl, hy, hle⟩ := hbelow
    obtain ⟨-, -, x, rfl, hx⟩ := hgood
    refine ⟨x, rfl, hx, le_trans (not_lt.mp fun hlt => ?_) hle⟩
    rw [(hx.seqNewer_iff hy).mpr hlt] at hn
    cases hn

/-! ## `try_take` -/

/-- The guard of a delivery survives the others. -/
theorem keeps_oldest (hf : Fits con k) (m : TensorMeta L.slotCount) :
    Keeps (oldestMode P L.slotCount k₀) (.consumer c)
      (Deliverable (oldestMode P L.slotCount k₀) c con k m) := by
  intro v v' h hv
  obtain ⟨hval, hnew⟩ := hv.takeable id
  have hval' := keeps_validated id hf m v v' h hval
  refine ⟨hval'.opened, fun _ => ⟨⟨hval'.good, hval'.pinned.2⟩, hnew, fun k' j hk' hw hpos => ?_⟩⟩
  obtain rfl : k' = k := Option.some.inj (hk'.1.symm.trans hval'.opened.registration)
  have htake := (hv.grants id).take k' j (hval.opened.client hf)
  rcases h.rely.step with ⟨b, -, -, hs⟩ | hf'
  · obtain ⟨hun, -⟩ := h.rely.pinned id (hval.opened.client hf) hval.pinned.1 hval.pinned.2
    have hsparse := h.inv.mode.2
    rw [keeps_trying v v' h rfl] at hpos
    obtain ⟨hw', hpos', hnum⟩ := hs.waits h.inv.proto (hsparse.trying c) hw hpos
    rw [hun.num, hnum]
    exact htake hw' (hpos' ▸ hpos)
  · rw [hf'.eq] at hw hpos ⊢
    exact htake (hw.same rfl rfl rfl) hpos

/-- What has been read under the number of a candidate that no pass improves on. -/
theorem deliverable_oldest {v : View P L.slotCount}
    (hi : (oldestMode P L.slotCount k₀).Inv L.slotCapacity v) {m : TensorMeta L.slotCount}
    (hv : Validated c con k m v) (hnew : seqNewer m.sequence (seqWord k.last) = true)
    (hs : Since c con k l D w v)
    (hbelow : ∀ j, D j → ∃ x, m.sequence = seqWord x ∧ Within k₀ x ∧ x ≤ w j) :
    Deliverable (oldestMode P L.slotCount k₀) c con k m v where
  opened := hv.opened
  grants _ := {
    good := hv.good
    reader := hv.pinned.2
    newer := hnew
    take := fun k' j hk' hw hpos => by
      obtain rfl : k' = k := Option.some.inj (hk'.1.symm.trans hv.opened.registration)
      rw [hs.began] at hpos
      have hd := hs.only j hw hpos
      obtain ⟨x, hx, hwithin, hle⟩ := hbelow j hd
      have hnum : Within k₀ (v.proto.hist.num m.slotIndex) := .of_le hi.mode.2
        (hi.mode.2.spread.committed _ hv.good.committed) (hi.mode.2.spread.le _)
      rw [hnum.inj hwithin (hv.good.sequence.symm.trans hx), (hs.still j hd).2]
      exact hle }

/-- Whatever a `try_take` takes is not later than anything that waited when it began. -/
theorem tryTake_oldest (hf : Fits con k) :
    Keeping (oldestMode P L.slotCount k₀) (.consumer c) (Consumer.tryTake L.slotCapacity c con)
      (Opened c con k) fun r v => Opened c con k v ∧
        ∀ m, r = some m → Deliverable (oldestMode P L.slotCount k₀) c con k m v := by
  -- the end: an answer of which all is known
  have hend : ∀ r : Option (TensorMeta L.slotCount),
      Keeping (oldestMode P L.slotCount k₀) (.consumer c)
        (do Prog.record fun _ g => g.endTry c r; return r)
        (fun v => Opened c con k v ∧
          ∀ m, r = some m → Deliverable (oldestMode P L.slotCount k₀) c con k m v)
        fun r v => Opened c con k v ∧
          ∀ m, r = some m → Deliverable (oldestMode P L.slotCount k₀) c con k m v := fun r =>
    seq (endTry_keeps r (fun v v' h hv => ⟨keeps_opened v v' h hv.1, fun m hm =>
        keeps_oldest hf m v v' h (hv.2 m hm)⟩) (fun _ _ _ => trivial)
      fun v hv => ⟨⟨hv.1.steady, hv.1.handle, hv.1.registration⟩, fun m hm => by
        obtain ⟨ho, hgrants⟩ := hv.2 m hm
        obtain ⟨⟨good, reader⟩, newer, take⟩ := hgrants id
        exact ⟨⟨ho.steady, ho.handle, ho.registration⟩, fun _ =>
          ⟨⟨⟨good.committed, good.sequence, good.header⟩, reader⟩, newer,
            fun k' j hk' hw hpos => take k' j hk' (hw.same rfl rfl rfl) hpos⟩⟩⟩)
      fun _ => ret fun _ _ hv => hv
  -- what waits at the beginning
  refine seq (X := fun _ v => ∃ l D w, Since c con k l D w v) (beginTry_keeps (Keeps.exists fun l =>
      Keeps.exists fun D => Keeps.exists fun w => keeps_since hf) fun v _ _ ho => ?_)
    fun _ => name fun l => name fun D => name fun w => ?_
  · exact ⟨_, v.proto.Waits k, v.proto.hist.num, ⟨ho.steady, ho.handle, ho.registration⟩, rfl,
      fun j hj => ⟨hj.same rfl rfl rfl, rfl⟩, fun j hw _ => hw.same rfl rfl rfl⟩
  let S : Sighting (oldestMode P L.slotCount k₀) c con k := .oldest hf l D w
  refine seq (S.scanOldest_keeps id hf) fun found => ?_
  cases found with
  | none => exact pre (hend none) fun v _ hv => ⟨hv.base.opened, nofun⟩
  | some first =>
    refine seq (S.rescan_keeps id hf _ first) fun best => seq ?_ hend
    obtain ⟨q, j⟩ := best
    refine pre (given (φ := seqNewer q (seqWord k.last) = true ∧
      ∀ i, D i → ∃ x, q = seqWord x ∧ Within k₀ x ∧ x ≤ w i) fun hq =>
        post (framed_read (keeps_since hf) (fun v _ _ hv => ⟨⟨hv.opened.steady, hv.opened.handle,
          hv.opened.registration⟩, hv.began,
          fun j hj => ⟨(hv.still j hj).1.same rfl rfl rfl, (hv.still j hj).2⟩,
          fun j hw => hv.only j (hw.same rfl rfl rfl)⟩)
          (readValidated_keeps id hf (φ := False))) fun r v hi hv => ⟨hv.1.1, fun m hm => ?_⟩)
      fun v _ hv => ⟨⟨(hv.good q j rfl).2.1, fun i hi => ?_⟩,
        ⟨⟨hv.base.opened, (hv.good q j rfl).1⟩, False.elim⟩, hv.base⟩
    · obtain ⟨-, hseq, hval⟩ := hv.1.2.2 m hm
      obtain rfl : m.sequence = q := hseq
      exact deliverable_oldest hi hval hq.1 hv.2 hq.2
    · obtain ⟨q', i', he, hbelow⟩ := hv.due i (List.mem_finRange i) hi
      cases he
      exact hbelow

theorem delivers_oldest : Delivers (oldestMode P L.slotCount k₀) where
  keeps hf := keeps_oldest hf _
  tryTake hf := post (tryTake_oldest hf) fun r v _ hv => by
    cases r with
    | none => exact hv.1
    | some m => exact hv.2 m rfl
  loose v c k m hi hl hk hm hne := by
    have hh := hi.mode.1.held c k ⟨hk, nofun⟩ hl m hm
    exact hne ⟨hh.good.sequence.symm, hh.reader⟩

end Refine

end TenzorBus
