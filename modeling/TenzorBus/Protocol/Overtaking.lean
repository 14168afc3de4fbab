import TenzorBus.Protocol.Numbers
import TenzorBus.Protocol.Slots

/-!
# Overtaking

Any number of reservations may be unfinished at a time, may be committed in any order and aborted,
and consumers may register in between. A consumer has one mark, the last number that it has taken,
so what has a smaller number and comes later is passed over. As long as nobody dies and there are
fewer than `2 ^ 62` reservations that is all that can be missed.

* `Proto.Spread` : the numbers that there are
* `Numbered.num_ne` : no two are equal
* `Guards.oldest` : what `try_take` does
* `Proto.Sparse` : the run is short enough for that
* `Proto.Passed` : a publication that its reader will not take
* `Step.passed` : how it comes to that
-/

namespace TenzorBus

variable {n : Nat}

/-! ## the numbers that there are -/

/-- Numbers in use are from `first` on, and not more than there have been reservations. -/
structure Proto.Spread (first : Int) (p : Proto n) : Prop where
  le : ∀ j, p.hist.num j ≤ first + p.hist.begun
  committed : ∀ j, p.state j = .committed → first ≤ p.hist.num j
  reserved : ∀ t r, p.hist.reservation t = some r → r.phase ≠ .header → first ≤ p.hist.num r.slot
  last : ∀ c k, p.hist.registration c = some k →
    first - 1 ≤ k.last ∧ k.last ≤ first + p.hist.begun

namespace Proto.Spread

variable {first : Int} {G : Guards n} {cap : Nat} {a : Actor} {p p' : Proto n}

/-- Nothing happens to the numbers. -/
theorem same (h : p.Spread first) (hnum : p'.hist.num = p.hist.num)
    (hb : p'.hist.begun = p.hist.begun) (hs : ∀ j, p'.state j = .committed → p.state j = .committed)
    (hr : ∀ t r, p'.hist.reservation t = some r → r.phase ≠ .header →
      ∃ r₀, p.hist.reservation t = some r₀ ∧ r₀.phase ≠ .header ∧ r₀.slot = r.slot)
    (hk : ∀ c k, p'.hist.registration c = some k →
      ∃ k₀, p.hist.registration c = some k₀ ∧ k₀.last = k.last) : p'.Spread first where
  le j := by
    rw [hnum, hb]
    exact h.le j
  committed j hc := by
    rw [hnum]
    exact h.committed j (hs j hc)
  reserved t r ht hp := by
    obtain ⟨r₀, hr₀, hp₀, hslot⟩ := hr t r ht hp
    rw [hnum, ← hslot]
    exact h.reserved t r₀ hr₀ hp₀
  last c k hck := by
    obtain ⟨k₀, hk₀, hlast⟩ := hk c k hck
    rw [hb, ← hlast]
    exact h.last c k₀ hk₀

theorem step (h : p.Spread first) (hG : ¬G.careless) (hlo : first ≤ p.hist.next)
    (hhi : p.hist.next ≤ first + p.hist.begun) (hs : Step G cap a p p') : p'.Spread first := by
  -- a reservation that moves on had a number before
  have hproceed : ∀ {t r ph}, p.hist.reservation t = some r → r.phase ≠ .header →
      ∀ t' r', (p.hist.proceed t ph).reservation t' = some r' → r'.phase ≠ .header →
        ∃ r₀, p.hist.reservation t' = some r₀ ∧ r₀.phase ≠ .header ∧ r₀.slot = r'.slot := by
    intro t r ph own hp t' r' hr' hp'
    rcases (Inv.proceed_reservation own).mp hr' with ⟨rfl, rfl⟩ | ⟨-, hr'⟩
    · exact ⟨r, own, hp, rfl⟩
    · exact ⟨r', hr', hp', rfl⟩
  have hdrop : ∀ {t}, ∀ t' r', Function.update p.hist.reservation t none t' = some r' →
      r'.phase ≠ .header →
        ∃ r₀, p.hist.reservation t' = some r₀ ∧ r₀.phase ≠ .header ∧ r₀.slot = r'.slot :=
    fun t' r' hr' hp' => ⟨r', (Inv.drop_reservation.mp hr').2, hp', rfl⟩
  have hkeep : ∀ c k, p.hist.registration c = some k →
      ∃ k₀, p.hist.registration c = some k₀ ∧ k₀.last = k.last := fun c k hk => ⟨k, hk, rfl⟩
  cases hs with
  | begin t _ j mask locked idle free captured =>
    have hmore : p.hist.begun ≤ p.hist.begun + 1 := Nat.le_succ _
    refine ⟨fun i => (h.le i).trans (by simp [Ghost.begin]), fun i hc => ?_, fun t' r' hr' hp => ?_,
      fun c k hk => ⟨(h.last c k hk).1, (h.last c k hk).2.trans (by simp [Ghost.begin])⟩⟩
    · have hi : i ≠ j := fun e => by simp [e] at hc
      exact h.committed i (by simpa [hi] using hc)
    · rcases Inv.begin_reservation.mp hr' with ⟨-, rfl⟩ | ⟨-, hr'⟩
      · exact absurd rfl hp
      · exact h.reserved t' r' hr' hp
  | number t _ r locked own phase =>
    have hnum : ∀ i, (p.hist.number t r.slot).num i = p.hist.next ∨
        (p.hist.number t r.slot).num i = p.hist.num i ∧ i ≠ r.slot := by
      intro i
      by_cases hi : i = r.slot
      · exact .inl (by simp [Ghost.number, hi])
      · exact .inr ⟨by simp [Ghost.number, hi], hi⟩
    refine ⟨fun i => ?_, fun i hc => ?_, fun t' r' hr' hp => ?_, h.last⟩
    · rcases hnum i with he | ⟨he, -⟩
      · rw [he]
        exact hhi
      · rw [he]
        exact h.le i
    · rcases hnum i with he | ⟨he, -⟩
      · rw [he]
        exact hlo
      · rw [he]
        exact h.committed i hc
    · rcases hnum r'.slot with he | ⟨he, hne⟩
      · rw [he]
        exact hlo
      · rw [he]
        rcases (Inv.proceed_reservation own).mp hr' with ⟨-, rfl⟩ | ⟨-, hr'⟩
        · exact absurd rfl hne
        · exact h.reserved t' r' hr' hp
  | setMask t _ r locked own phase | advance t _ r locked own phase
  | cancel t _ r locked own phase =>
    exact h.same rfl rfl (fun _ hc => hc) (hproceed own (by rw [phase]; simp)) hkeep
  | free t _ r locked own phase =>
    refine h.same rfl rfl (fun j hc => ?_) (hproceed own (by rw [phase]; simp)) hkeep
    have hj : j ≠ r.slot := fun e => by simp [e] at hc
    simpa [hj] using hc
  | commit t _ r own phase =>
    refine ⟨h.le, fun j hc => ?_, fun t' r' hr' => h.reserved t' r' (Inv.drop_reservation.mp hr').2,
      h.last⟩
    by_cases hj : j = r.slot
    · subst hj
      exact h.reserved t r own (by rw [phase]; simp)
    · exact h.committed j (by simpa [hj] using hc)
  | forget t _ r handedBack locked own phase exchange =>
    exact h.same rfl rfl (fun _ hc => hc) hdrop hkeep
  | abandon _ _ j locked gone =>
    refine h.same rfl rfl (fun i hc => ?_) (fun t' r' hr' hp =>
      ⟨r', (Inv.abandon_reservation.mp hr').1, hp, rfl⟩) hkeep
    have hi : i ≠ j := fun e => by simp [e] at hc
    simpa [hi] using hc
  | register c _ i locked free fresh =>
    refine ⟨h.le, h.committed, h.reserved, fun c' k hk => ?_⟩
    by_cases hc : c' = c
    · subst hc
      obtain rfl : p.hist.registrationNow i = k := by simpa [Ghost.register] using hk
      exact ⟨show first - 1 ≤ p.hist.next - 1 by omega,
        show p.hist.next - 1 ≤ first + p.hist.begun by omega⟩
    · exact h.last c' k (by simpa [Ghost.register, hc] using hk)
  | closing c =>
    refine h.same rfl rfl (fun _ hc => hc) (fun t r hr hp => ⟨r, hr, hp, rfl⟩) fun c' k hk => ?_
    by_cases hc : c' = c
    · subst hc
      obtain ⟨k₀, hk₀, rfl⟩ := Option.map_eq_some_iff.mp
        (show (p.hist.registration c').map _ = some k by simpa [Ghost.closing] using hk)
      exact ⟨k₀, hk₀, rfl⟩
    · exact ⟨k, by simpa [Ghost.closing, hc] using hk, rfl⟩
  | take c _ k₀ m client grants =>
    refine ⟨h.le, h.committed, h.reserved, fun c' k hk => ?_⟩
    by_cases hc : c' = c
    · subst hc
      obtain ⟨k₁, -, rfl⟩ := Option.map_eq_some_iff.mp
        (show (p.hist.registration c').map _ = some k by simpa [Ghost.hand] using hk)
      have hfirst := h.committed m.slotIndex (grants hG).good.committed
      exact ⟨show first - 1 ≤ p.hist.num m.slotIndex by omega, h.le m.slotIndex⟩
    · exact h.last c' k (by simpa [Ghost.hand, hc] using hk)
  | _ => exact h.same rfl rfl (fun _ hc => hc) (fun t r hr hp => ⟨r, hr, hp, rfl⟩) hkeep

/-- A number that is in use is followed by another one. -/
theorem le_num {G : Guards n} {cap : Nat} {a : Actor} {p p' : Proto n} {j : Fin n} {first : Int}
    (hlo : first ≤ p.hist.next) (hs : Step G cap a p p') (h : first ≤ p.hist.num j) :
    first ≤ p'.hist.num j := by
  cases hs with
  | number t _ r =>
    by_cases hj : j = r.slot
    · simpa [Ghost.number, hj] using hlo
    · simpa [Ghost.number, hj] using h
  | _ => exact h

/-- What carries a reader bit has a number. -/
theorem le_of_bit {cap : Nat} {p : Proto n} {first : Int} (h : p.Spread first) (hi : Inv cap p)
    {i : Fin 64} {j : Fin n} (hb : i ∈ p.mask j) : first ≤ p.hist.num j := by
  cases hstate : p.state j with
  | free =>
    rw [hi.freeMask j hstate] at hb
    simp at hb
  | committed => exact h.committed j hstate
  | writing =>
    obtain ⟨t, r, hr, -, rfl⟩ := hi.owned j hstate
    refine h.reserved t r hr fun e => ?_
    rw [hi.unmasked t r hr (.inl e)] at hb
    simp at hb

end Proto.Spread

/-! ## no two are equal -/

namespace Numbered

variable {k : UInt64} {G : Guards n} {cap : Nat} {p : Proto n} {held : Finset Nat}
  {lost : Multiset UInt64} {j j' : Fin n}

/-- As long as there have been few reservations no number is issued twice. -/
theorem nodup (h : Numbered k p held lost) (hb : p.hist.begun ≤ 2 ^ 62) :
    ((p.hist.published.map (·.sequence) : List UInt64) + held.val.map p.hist.word :
      Multiset UInt64).Nodup := by
  have hbegun := h.begun
  refine Ledger.Balanced.nodup h.balanced fun i hi i' hi' he => ?_
  have := seqWord_inj he (by omega) (by omega)
  omega

/-- No two slots are committed under one number. -/
theorem num_ne (h : Numbered k p held lost) (hi : Inv cap p) (hb : p.hist.begun ≤ 2 ^ 62)
    (hc : p.state j = .committed) (hc' : p.state j' = .committed) (hne : j ≠ j') :
    p.hist.num j ≠ p.hist.num j' := by
  intro he
  obtain ⟨mask, hcontent, -⟩ := hi.content j hc
  obtain ⟨mask', hcontent', -⟩ := hi.content j' hc'
  have hnodup := Multiset.coe_nodup.mp (Multiset.nodup_add.mp (h.nodup hb)).1
  obtain ⟨hlt, hpub⟩ := List.getElem?_eq_some_iff.mp hcontent
  obtain ⟨hlt', hpub'⟩ := List.getElem?_eq_some_iff.mp hcontent'
  have hpos : p.hist.position j = p.hist.position j' := by
    have hmap : p.hist.position j < (p.hist.published.map (·.sequence)).length := by simpa using hlt
    have hmap' : p.hist.position j' < (p.hist.published.map (·.sequence)).length := by
      simpa using hlt'
    have hword : (p.hist.published.map (·.sequence))[p.hist.position j] =
        (p.hist.published.map (·.sequence))[p.hist.position j'] := by
      simp only [List.getElem_map, hpub, hpub', he]
    exact hnodup.getElem_inj_iff.mp hword
  rw [hpos, hcontent'] at hcontent
  exact hne (congrArg Publication.slot (Option.some.inj hcontent)).symm

end Numbered

/-! ## what `try_take` does -/

/-- Slot `j` is committed and carries the consumer's bit, under a number that it has not reached. -/
structure Proto.Waits (p : Proto n) (k : Registration) (j : Fin n) : Prop where
  committed : p.state j = .committed
  reader : k.index ∈ p.mask j
  newer : k.last < p.hist.num j

theorem Proto.Waits.same {p p' : Proto n} {k : Registration} {j : Fin n} (h : p.Waits k j)
    (hs : p'.state = p.state) (hm : p'.mask = p.mask) (hn : p'.hist.num = p.hist.num) :
    p'.Waits k j :=
  ⟨hs ▸ h.committed, hm ▸ h.reader, hn ▸ h.newer⟩

/-- The guards of a use of the ring in which what a consumer takes is not later than anything that
waited for it when the `try_take` began. -/
def Guards.oldest (n : Nat) : Guards n where
  take p c m := ∀ k j, p.client c k → p.Waits k j → p.hist.position j < p.hist.trying c →
    p.hist.num m.slotIndex ≤ p.hist.num j
  answer _ _ _ := True
  loose _ := False
  careless := False

section

variable {G : Guards n} {cap : Nat} {a : Actor} {p p' : Proto n} {c : Nat} {k : Registration}
  {j : Fin n} {l : Nat}

/-- What waits and has been published before `l` has waited before. -/
theorem Step.waits (hs : Step G cap a p p') (hi : Inv cap p) (hl : l ≤ p.hist.published.length)
    (hw : p'.Waits k j) (hpos : p'.hist.position j < l) :
    p.Waits k j ∧ p'.hist.position j = p.hist.position j ∧ p'.hist.num j = p.hist.num j := by
  obtain ⟨hc, hb, hn⟩ := hw
  rcases hs.committed_cases hi hc hb with ⟨hc₀, hb₀, hpos₀, hnum⟩ | ⟨t, r, -, -, rfl, -, hist⟩
  · exact ⟨⟨hc₀, hb₀, hnum ▸ hn⟩, hpos₀, hnum⟩
  · rw [hist] at hpos
    simp only [Ghost.commit, Proto.publication, Function.update_self] at hpos
    omega

/-- What waits and has been published before `l` still waits. -/
theorem Step.still_waits (hs : Step G cap a p p') (hG : ¬G.careless) (hi : Inv cap p)
    (live : ∀ a, p.alive a) (hk : p.client c k) (ha : a ≠ .consumer c) (hw : p.Waits k j) :
    p'.Waits k j ∧ p'.hist.position j = p.hist.position j ∧ p'.hist.num j = p.hist.num j := by
  have hr : Rely G cap (.consumer c) p p' := ⟨hi, hs.alive ▸ live _, .inl ⟨a, ha, live _, hs⟩⟩
  obtain ⟨hu, hb⟩ := hr.pinned hG hk hw.committed hw.reader
  exact ⟨⟨hu.state.trans hw.committed, hb, hu.num.symm ▸ hw.newer⟩, hu.position, hu.num⟩

/-- What is handed over is not later than anything that waited when the `try_take` began. -/
theorem Step.hands_oldest (hs : Step (Guards.oldest n) cap a p p')
    (hk : p.hist.registration c = some k) {m : TensorMeta n}
    (hm : p'.hist.handed c = p.hist.handed c ++ [m]) (hw : p.Waits k j)
    (hpos : p.hist.position j < p.hist.trying c) :
    p.Matches m ∧ p.hist.num m.slotIndex ≤ p.hist.num j := by
  cases hs with
  | take c' _ k₀ m₀ client grants =>
    obtain ⟨⟨good, -⟩, -, htake⟩ := grants id
    have hc : c = c' := by
      by_contra hne
      simp [Ghost.hand, hne] at hm
    subst hc
    obtain rfl : m₀ = m := by simpa [Ghost.hand] using hm
    obtain rfl : k₀ = k := Option.some.inj (client.1.symm.trans hk)
    exact ⟨good, htake k₀ j client hw hpos⟩
  | _ => exact absurd hm (by simp [Ghost.begin, Ghost.proceed, Ghost.number, Ghost.advance,
      Ghost.commit, Ghost.forget, Ghost.register, Ghost.closing, Ghost.deregister, Ghost.beginTry,
      Ghost.endTry, Ghost.validate, Ghost.abandon, Ghost.change, Ghost.settle, Ghost.count,
      Ghost.refuse, Ghost.violate, Ghost.beginSweep, Ghost.endSweep])

end

/-! ## few numbers -/

/-- What there is to know about the numbers in a run without deaths and with few reservations. -/
structure Proto.Sparse (k₀ : UInt64) (p : Proto n) : Prop where
  numbered : ∃ held lost, Numbered k₀ p held lost
  spread : p.Spread k₀.toNat
  trying : ∀ c, p.hist.trying c ≤ p.hist.published.length
  few : p.hist.begun ≤ 2 ^ 62

namespace Proto.Sparse

variable {k₀ : UInt64} {p p' : Proto n}

theorem live (h : p.Sparse k₀) (a : Actor) : p.alive a := by
  obtain ⟨held, lost, hn⟩ := h.numbered
  exact hn.alive a

theorem distinct {cap : Nat} (h : p.Sparse k₀) (hi : Inv cap p) (j j' : Fin n)
    (hc : p.state j = .committed) (hc' : p.state j' = .committed) (hne : j ≠ j') :
    p.hist.num j ≠ p.hist.num j' := by
  obtain ⟨held, lost, hn⟩ := h.numbered
  exact hn.num_ne hi h.few hc hc' hne

theorem step {G : Guards n} {cap : Nat} {a : Actor} (h : p.Sparse k₀) (hi : Inv cap p)
    (hG : ¬G.careless) (hs : Step G cap a p p') (hb : p'.hist.begun ≤ 2 ^ 62) :
    p'.Sparse k₀ := by
  obtain ⟨⟨held, lost, hn⟩, hspread, htrying, -⟩ := h
  obtain ⟨held', lost', hn', -⟩ := hn.step hi hG hs
  have := hn.begun
  exact ⟨⟨held', lost', hn'⟩, hspread.step hG hn.next (by omega) hs, hs.trying_le htrying, hb⟩

theorem fades (h : p.Sparse k₀) (hf : Fades p p') (live : ∀ a, p'.alive a)
    (hb : p'.hist.begun ≤ 2 ^ 62) : p'.Sparse k₀ := by
  obtain ⟨⟨held, lost, hn⟩, hspread, htrying, -⟩ := h
  have he := hf.eq
  rw [he] at hb ⊢
  exact ⟨⟨held, lost, hn.same live rfl rfl rfl rfl rfl⟩, ⟨hspread.le, hspread.committed,
    hspread.reserved, hspread.last⟩, htrying, hb⟩

/-- The words of the numbers compare as the numbers do. -/
theorem seqNewer_iff (h : p.Sparse k₀) {c : Nat} {k : Registration} {j : Fin n}
    (hk : p.hist.registration c = some k) (hc : p.state j = .committed) :
    seqNewer (seqWord (p.hist.num j)) (seqWord k.last) = true ↔ k.last < p.hist.num j := by
  have := h.spread.committed j hc
  have := h.spread.le j
  have := h.spread.last c k hk
  have := h.few
  exact seqNewer_seqWord (by omega) (by omega)

end Proto.Sparse

/-! ## what is passed over -/

section

variable {cap : Nat} {a : Actor} {p p' : Proto n} {c : Nat} {k : Registration} {j : Fin n}

/-- Slot `j` carries the bit of a consumer that has not leased it and will not take it any more. -/
structure Proto.Passed (p : Proto n) (c : Nat) (k : Registration) (j : Fin n) : Prop where
  committed : p.state j = .committed
  reader : k.index ∈ p.mask j
  unleased : ∀ m ∈ p.leases c, m.slotIndex ≠ j
  old : p.hist.num j ≤ k.last

/-- What is committed in this step has a number that the consumer has reached already. -/
structure Proto.Late (p p' : Proto n) (c : Nat) (k : Registration) (pub : Publication n) :
    Prop where
  client : p.client c k
  published : p'.hist.published = p.hist.published ++ [pub]
  sequence : pub.sequence = seqWord (p'.hist.num pub.slot)

/-- In this step the consumer takes `m`, which is later than what waits in slot `j`, in a `try_take`
that began before the commit of that. -/
structure Proto.Overtakes (p p' : Proto n) (c : Nat) (k : Registration) (m : TensorMeta n)
    (j : Fin n) : Prop where
  client : p.client c k
  waits : p.Waits k j
  good : p.Matches m
  handed : p'.hist.handed c = p.hist.handed c ++ [m]
  later : p.hist.num j < p.hist.num m.slotIndex
  began : p.hist.trying c ≤ p.hist.position j

/-- Nothing else passes a publication over. -/
theorem Step.passed (hs : Step (Guards.oldest n) cap a p p') (hi : Inv cap p) {k₀ : UInt64}
    (hn : p.Sparse k₀) (hk : p'.client c k) (h : p'.Passed c k j) :
    (∃ k₁, p.client c k₁ ∧ p.Passed c k₁ j) ∨ (∃ pub, pub.slot = j ∧ p.Late p' c k pub) ∨
      ∃ k₁ m, p.Overtakes p' c k₁ m j := by
  obtain ⟨hc, hb, hfree, hold⟩ := h
  rcases hs.client id hk with ⟨i, -, -, free, rfl, rfl⟩ | ⟨client, -, -⟩ |
    ⟨k₁, m, client, good, reader, newer, rfl, rfl⟩
  · exact absurd free (hi.bits i j hb)
  · rcases hs.committed_cases hi hc hb with ⟨hc₀, hb₀, -, hnum⟩ | ⟨t, r, -, -, rfl, -, hist⟩
    · refine .inl ⟨k, client, hc₀, hb₀, fun m hm hslot => ?_, hnum ▸ hold⟩
      subst hslot
      exact hfree m (hs.keeps_lease client id hm hb) rfl
    · refine .inr (.inl ⟨p.publication r, rfl, client, ?_, ?_⟩) <;>
        · rw [hist]
          rfl
  · have hne : m.slotIndex ≠ j := hfree m (by simp)
    have hc : p.state j = .committed := hc
    have hold : p.hist.num j ≤ p.hist.num m.slotIndex := hold
    by_cases hseen : p.hist.num j ≤ k₁.last
    · exact .inl ⟨k₁, client, hc, hb, fun m' hm' => hfree m' (by simp [hm']), hseen⟩
    · have hlt := lt_of_le_of_ne hold (hn.distinct hi j m.slotIndex hc good.committed hne.symm)
      have hwaits : p.Waits k₁ j := ⟨hc, hb, by omega⟩
      have hhand : (p.hist.hand c m).handed c = p.hist.handed c ++ [m] := by simp [Ghost.hand]
      refine .inr (.inr ⟨k₁, m, client, hwaits, good, hhand, hlt, ?_⟩)
      -- otherwise it waited when the `try_take` began
      by_contra hpos
      have := (hs.hands_oldest client.1 hhand hwaits (by omega)).2
      omega

end

end TenzorBus
