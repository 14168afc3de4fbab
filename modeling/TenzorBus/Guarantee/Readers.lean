import TenzorBus.Guarantee.Oracle

/-!
# The number of readers

`readers_remaining` is stored after the mask has been changed, in a store of its own. It is the
number of the mask's bits as long as nobody stores a number after the one who has changed the mask
last.

* `Tallied` : the numbers are right, except where they are about to be stored
* `CountsInOrder` : the condition on a run
* `readers_counted` : where no operation is changing a mask, the number is that of its bits
-/

namespace TenzorBus

open Conc Refine

variable {P : Platform} {L : RingLayout} {n : Nat} {token : Nat → UInt32} {k : UInt64}
  {start : P.Os → Prop}

/-- What a transition of `a` does to the masks. -/
inductive Proto.Remasks (p p' : Proto n) (a : Actor) : Prop
  | same (mask : p'.mask = p.mask) (changing : p'.hist.changing = p.hist.changing)
      (latest : p'.hist.latest = p.hist.latest)
  | change (j : Fin n) (m : Finset (Fin 64)) (settled : p.settled a)
      (mask : p'.mask = Function.update p.mask j m)
      (changing : p'.hist.changing = Function.update p.hist.changing a (some j))
      (latest : p'.hist.latest = Function.update p.hist.latest j (some a))
  | settle (j : Fin n) (own : p.hist.changing a = some j) (mask : p'.mask = p.mask)
      (changing : p'.hist.changing = Function.update p.hist.changing a none)
      (latest : p'.hist.latest =
        Function.update p.hist.latest j ((p.hist.latest j).filter (· ≠ a)))

theorem Step.remasks {G : Guards n} {cap : Nat} {a : Actor} {p p' : Proto n}
    (hs : Step G cap a p p') : p.Remasks p' a := by
  cases hs with
  | setMask t _ r locked own phase settled => exact .change r.slot _ settled rfl rfl rfl
  | cancel t _ r locked own phase settled => exact .change r.slot _ settled rfl rfl rfl
  | dropBit _ _ c i j locked holder leaving reader settled => exact .change j _ settled rfl rfl rfl
  | release c _ k m client held reader settled =>
    exact .change m.slotIndex _ settled rfl rfl rfl
  | abandonMask _ _ j locked gone settled => exact .change j _ settled rfl rfl rfl
  | settle _ _ j own => exact .settle j own rfl rfl rfl
  | _ => exact .same rfl rfl rfl

/-- The number of a slot's readers is right, or it will be stored by the one who has changed the
mask last, who is alive. -/
structure Tallied (v : View P n) : Prop where
  latest : ∀ j a, v.proto.hist.latest j = some a →
    v.proto.hist.changing a = some j ∧ v.proto.alive a
  readers : ∀ j, v.proto.hist.latest j = none →
    v.readersRemaining j = UInt16.ofNat (v.proto.mask j).card

/-- Whoever has changed a mask last is alive until the number is stored. -/
def LatestAlive (v : View P n) : Prop := ∀ j a, v.proto.hist.latest j = some a → v.proto.alive a

/-- A number of readers is stored only as long as the one who has changed the mask last has not
stored its own. -/
def InOrder (v v' : View P n) : Prop :=
  ∀ a j, v.proto.hist.changing a = some j → v'.proto.hist.changing a ≠ some j →
    v.proto.hist.latest j ≠ none

namespace Tallied

variable {G : Guards n} {cap : Nat} {a : Actor} {v v' : View P n}

theorem step (h : Tallied v) (hg : Guar G cap a v v') (hok : LatestAlive v')
    (hord : InOrder v v') : Tallied v' := by
  rcases hg.step.remasks with ⟨mask, changing, latest⟩ | ⟨j, m, settled, mask, changing, latest⟩ |
    ⟨j, own, mask, changing, latest⟩
  · -- no number is stored
    have hsame : ∀ j, v'.readersRemaining j = v.readersRemaining j := by
      intro j
      rcases hg.private'.readers j with ⟨hs, -⟩ | ⟨hc, hn, -⟩
      · exact hs
      · rw [changing, hc] at hn
        cases hn
    refine ⟨fun j b hb => ⟨?_, hok j b hb⟩, fun j hn => ?_⟩
    · rw [changing]
      rw [latest] at hb
      exact (h.latest j b hb).1
    · rw [hsame, mask]
      rw [latest] at hn
      exact h.readers j hn
  · -- `a` has changed no other mask
    have hsame : ∀ j', v'.readersRemaining j' = v.readersRemaining j' := by
      intro j'
      rcases hg.private'.readers j' with ⟨hs, -⟩ | ⟨hc, -, -⟩
      · exact hs
      · rw [show v.proto.hist.changing a = none from settled] at hc
        cases hc
    refine ⟨fun j' b hb => ⟨?_, hok j' b hb⟩, fun j' hn => ?_⟩
    · rw [latest] at hb
      rw [changing]
      by_cases hj : j' = j
      · subst hj
        rw [Function.update_self] at hb
        rw [← Option.some.inj hb, Function.update_self]
      · rw [Function.update_of_ne hj] at hb
        have hc := (h.latest j' b hb).1
        have hne : b ≠ a := by
          rintro rfl
          rw [show v.proto.hist.changing b = none from settled] at hc
          cases hc
        rw [Function.update_of_ne hne]
        exact hc
    · rw [latest] at hn
      have hj : j' ≠ j := by
        rintro rfl
        rw [Function.update_self] at hn
        cases hn
      rw [Function.update_of_ne hj] at hn
      rw [hsame, mask, Function.update_of_ne hj]
      exact h.readers j' hn
  · have hstored := hg.private'.readers
    have hlate : v.proto.hist.latest j ≠ none := by
      refine hord a j own ?_
      rw [changing, Function.update_self]
      nofun
    refine ⟨fun j' b hb => ⟨?_, hok j' b hb⟩, fun j' hn => ?_⟩
    · rw [latest] at hb
      -- whoever is still the last one is somebody else
      have hb : v.proto.hist.latest j' = some b ∧ b ≠ a := by
        by_cases hj : j' = j
        · subst hj
          rw [Function.update_self, Option.filter_eq_some_iff] at hb
          exact ⟨hb.1, by simpa using hb.2⟩
        · rw [Function.update_of_ne hj] at hb
          refine ⟨hb, ?_⟩
          rintro rfl
          have hc := (h.latest j' b hb).1
          rw [own] at hc
          exact hj (Option.some.inj hc).symm
      rw [changing, Function.update_of_ne hb.2]
      exact (h.latest j' b hb.1).1
    · rw [latest] at hn
      by_cases hj : j' = j
      · subst hj
        -- the number that is stored is that of the one who has changed the mask last
        obtain ⟨b, hb⟩ := Option.ne_none_iff_exists'.mp hlate
        have hab : b = a := by
          by_contra hne
          rw [Function.update_self, hb] at hn
          simp [hne] at hn
        subst hab
        rcases hstored j' with ⟨-, hn'⟩ | ⟨-, -, hr⟩
        · refine absurd ?_ (hn' own)
          rw [changing, Function.update_self]
        · rw [hr hb, mask]
      · rw [Function.update_of_ne hj] at hn
        rcases hstored j' with ⟨hs, -⟩ | ⟨hc, -, -⟩
        · rw [hs, mask]
          exact h.readers j' hn
        · rw [own] at hc
          exact absurd (Option.some.inj hc).symm hj

theorem env (h : Tallied v) (hp : Passes v v') (hok : LatestAlive v') : Tallied v' := by
  have hw := hp.words
  have hf := hp.fades.eq
  refine ⟨fun j a ha => ⟨?_, hok j a ha⟩, fun j hn => ?_⟩
  · rw [hf] at ha ⊢
    exact (h.latest j a ha).1
  · have hr : v'.readersRemaining = v.readersRemaining := by rw [hw]
    rw [hr]
    rw [hf] at hn ⊢
    exact h.readers j hn

end Tallied

/-! ## runs -/

/-- The use of the ring in which numbers of readers are stored in order. -/
def tallyMode (P : Platform) (n : Nat) : Mode P n where
  guards := .lax n True
  inv := Tallied
  ok v v' := LatestAlive v' ∧ InOrder v v'

theorem tallyMode_lawful (P : Platform) (L : RingLayout) (k : UInt64) (start : P.Os → Prop) :
    (tallyMode P L.slotCount).Lawful (L := L) k start where
  initial _ _ := ⟨nofun, fun j _ => by
    show (0 : UInt16) = UInt16.ofNat (readers 0).card
    rw [readers_zero]
    rfl⟩
  delivers := delivers_lax rfl
  step _ _ _ hi hg _ hok _ := hi.mode.step hg hok.1 hok.2
  env _ _ hi hp hok := hi.mode.env hp hok.1

/-- The number of a slot's readers is stored only as long as whoever has changed the mask last has
not stored its own number, and nobody dies who has changed a mask last. -/
structure CountsInOrder (m m' : State P n × Ghost n) : Prop where
  order : ∀ a j, m.2.changing a = some j → m'.2.changing a ≠ some j → m.2.latest j ≠ none
  alive : ∀ j a, m'.2.latest j = some a → m'.1.aliveActor a

/-- No living actor has changed the mask of the slot without having stored the number of its
readers. -/
def Unchanging (m : State P n × Ghost n) (j : Fin n) : Prop :=
  ∀ a, m.1.aliveActor a → m.2.changing a ≠ some j

/-- In a run in which the numbers are stored in order, `readers_remaining` of a slot on which no
operation is in progress is the number of bits in its mask. -/
theorem readers_counted {c : RingConfig P L}
    (h : (ringSystem P L).Reach (fun m m' => TrustedChecks m m' ∧ CountsInOrder m m')
      (Fresh P L k start) c) {j : Fin L.slotCount} (hj : Unchanging c.mem j) :
    (c.mem.1.ring.slots j).readersRemaining.toNat =
      countOnes (c.mem.1.ring.slots j).readersMask := by
  have hi := (tallyMode_lawful P L k start).inv
    (h.mono fun _ _ hok => ⟨hok.1, hok.2.alive, hok.2.order⟩)
  have hnone : c.mem.2.latest j = none := by
    by_contra hne
    obtain ⟨a, ha⟩ := Option.ne_none_iff_exists'.mp hne
    obtain ⟨hc, hl⟩ := hi.mode.latest j a ha
    exact hj a ((hi.coupled.alive a).mp hl) hc
  have hr : (c.mem.1.ring.slots j).readersRemaining =
      UInt16.ofNat (readers (c.mem.1.ring.slots j).readersMask).card := hi.mode.readers j hnone
  have hle : (readers (c.mem.1.ring.slots j).readersMask).card ≤ 64 :=
    (Finset.card_le_univ _).trans (by simp)
  rw [hr, countOnes_eq, UInt16.toNat_ofNat_of_lt' (by simp only [UInt16.size]; omega)]

/-- Where everybody is idle no operation is in progress. -/
theorem unchanging_of_idle {M : Mode P L.slotCount} (hM : M.Lawful k start) {c : RingConfig P L}
    (h : (ringSystem P L).Reach M.rules.ok (Fresh P L k start) c)
    (hp : ∀ a, c.pool a = .ret ()) (j : Fin L.slotCount) : Unchanging c.mem j := by
  intro a hl hc
  have hr := hM.rest h hl (hp a)
  exact absurd (hr.1.2.symm.trans hc) nofun

/-- Two consumers and a writer. -/
def trio : List Actor := [.consumer 0, .consumer 1, .writer 0]

/-- `CountsInOrder`, asked of three actors. -/
def inOrder (m m' : State P n × Ghost n) : Bool :=
  trio.all fun a => decide (∀ j, m.2.changing a = some j → m'.2.changing a ≠ some j →
    m.2.latest j ≠ none)

theorem idle_of_done {c : RingConfig P L} (h : System.Among (fun a => decide (a ∈ trio)) c)
    (ht : (trio.all fun a => (c.pool a).isDone) = true) (a : Actor) : c.pool a = .ret () := by
  by_cases hb : a ∈ trio
  · exact Prog.eq_ret_of_isDone (List.all_eq_true.mp ht a hb)
  · exact h a (by simpa using hb)

open Script in
/-- Two consumers take a publication and release it, one after the other. -/
theorem readers_counted_release :
    ∃ c : RingConfig .single (.small 2 (by decide) (by decide)),
      (ringSystem _ _).Reach (fun m m' => TrustedChecks m m' ∧ CountsInOrder m m')
        (Fresh _ _ 0 fun _ => True) c ∧
          (c.mem.1.ring.slots 0).readersMask = 2 ∧
            (c.mem.1.ring.slots 0).readersRemaining.toNat =
              countOnes (c.mem.1.ring.slots 0).readersMask := by
  have hM := tallyMode_lawful .single (.small 2 (by decide) (by decide)) 0 fun _ => True
  obtain ⟨c, hc, ha, ht⟩ := Script.reachAmong (.small 2 (by decide) (by decide)) 0
    (fun _ => True) trivial (fun m m' => TrustedChecks m m' ∧ CountsInOrder m m')
    (fun m m' => unasked m m' && inOrder m m') (fun a => decide (a ∈ trio))
    (fun c m' hc ha h => by
      simp only [Bool.and_eq_true, inOrder, List.all_eq_true, decide_eq_true_eq] at h
      refine ⟨fun x hx => (verdicts_of_unasked h.1 hx).elim, fun a j hj hj' => ?_, fun _ _ _ => rfl⟩
      by_cases hb : a ∈ trio
      · exact h.2 a hb j hj hj'
      · have hr := hM.rest (hc.mono fun _ _ hok => ⟨hok.1, hok.2.alive, hok.2.order⟩) (a := a) rfl
          (ha a (by simpa using hb))
        exact absurd (hr.1.2.symm.trans hj) nofun)
    (whole (.consumer 0) (register 0) ++ whole (.consumer 1) (register 1) ++
      whole (.writer 0) (publish 0 (.byte 5)) ++ whole (.consumer 0) (next 0) ++
      whole (.consumer 0) (release 0))
    (by decide) (fun d => decide ((d.mem.1.ring.slots 0).readersMask = 2) &&
      trio.all fun a => (d.pool a).isDone) (by decide +kernel)
  simp only [Bool.and_eq_true, decide_eq_true_eq] at ht
  refine ⟨c, hc, ht.1, readers_counted hc ?_⟩
  exact unchanging_of_idle hM (hc.mono fun _ _ hok => ⟨hok.1, hok.2.alive, hok.2.order⟩)
    (idle_of_done ha ht.2) 0

open Script in
/-- Two consumers release a publication at the same time, and the one who has cleared its bit first
is the last to store the number. -/
theorem readers_miscounted :
    ∃ c : RingConfig .single (.small 2 (by decide) (by decide)),
      (ringSystem _ _).Reach TrustedChecks (Fresh _ _ 0 fun _ => True) c ∧ Unchanging c.mem 0 ∧
        (c.mem.1.ring.slots 0).readersRemaining.toNat ≠
          countOnes (c.mem.1.ring.slots 0).readersMask := by
  obtain ⟨c, hc, ha, ht⟩ := Script.reachAmong (.small 2 (by decide) (by decide)) 0
    (fun _ => True) trivial TrustedChecks unasked (fun a => decide (a ∈ trio))
    (fun _ _ _ _ h x hx => (verdicts_of_unasked h hx).elim)
    (whole (.consumer 0) (register 0) ++ whole (.consumer 1) (register 1) ++
      whole (.writer 0) (publish 0 (.byte 5)) ++ whole (.consumer 0) (next 0) ++
      whole (.consumer 1) (next 1) ++ [release 0, .steps (.consumer 0) 2] ++
      whole (.consumer 1) (release 1) ++ [.steps (.consumer 0) 4000])
    (by decide) (fun d => decide ((d.mem.1.ring.slots 0).readersMask = 0) &&
      decide ((d.mem.1.ring.slots 0).readersRemaining = 1) && trio.all fun a => (d.pool a).isDone)
    (by decide +kernel)
  simp only [Bool.and_eq_true, decide_eq_true_eq] at ht
  refine ⟨c, hc, ?_, ?_⟩
  · -- the conditions of the use of the ring in which any number goes
    exact unchanging_of_idle (carelessMode_lawful .single _ 0 fun _ => True)
      (hc.mono fun _ _ hok => ⟨hok, trivial⟩) (idle_of_done ha ht.2) 0
  · rw [ht.1.1, ht.1.2]
    decide

end TenzorBus
