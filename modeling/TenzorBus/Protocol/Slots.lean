import TenzorBus.Protocol.Leases

/-!
# The slots of an open consumer

What a transition does to the slots that carry the reader bit of a consumer that stays open, as long
as nobody dies.

* `Step.pinned` : a committed one is not touched, but for the bit when its lease is released
* `Step.committed_cases` : what is committed was so before, or has just been committed
* `Step.addressed_by` : what is being published stays addressed to the consumer
-/

namespace TenzorBus

variable {n : Nat}

section

variable {strict : Prop} {G : Guards n} {cap : Nat} {a : Actor} {p p' : Proto n} {c : Nat}
  {k : Registration}

/-- No slot is taken back from the living. -/
theorem Inv.not_gone (hi : Inv cap p) (hG : ¬G.careless) (live : ∀ a, p.alive a) {j : Fin n} :
    ¬p.gone G (.slot j) := by
  rintro ⟨orphaned, writing⟩
  obtain ⟨t, r, hr, hp, hs⟩ := hi.owned j (writing hG)
  exact orphaned t r hr hs hp (live _)

/-- A committed slot that carries the bit of a consumer that stays open is not touched, but for the
bit when its lease is released. -/
theorem Step.pinned (hs : Step G cap a p p') (hG : ¬G.careless) (hi : Inv cap p)
    (live : ∀ a, p.alive a) (hk : p.client c k) (hopen : ∃ k', p'.client c k') {j : Fin n}
    (hc : p.state j = .committed) (hb : k.index ∈ p.mask j) :
    Untouched p p' j ∧ (k.index ∈ p'.mask j ∨
      ∃ m ∈ p.leases c, m.slotIndex = j ∧ p'.leases c = (p.leases c).erase m) := by
  by_cases hac : a = .consumer c
  · subst hac
    exact hs.own_pinned hG hi (live _) hk hopen hc hb
  · have hr : Rely G cap (.consumer c) p p' := ⟨hi, hs.alive ▸ live _, .inl ⟨a, hac, live _, hs⟩⟩
    obtain ⟨hu, hb'⟩ := hr.pinned hG hk hc hb
    exact ⟨hu, .inl hb'⟩

/-- A publication is an old one, or a reservation has just been committed. -/
theorem Step.published_cases (hs : Step G cap a p p') {i : Nat} {pub : Publication n}
    (hpub : p'.hist.published[i]? = some pub) : p.hist.published[i]? = some pub ∨
      ∃ t r, p.hist.reservation t = some r ∧ r.phase = .inHand ∧ i = p.hist.published.length ∧
        pub = p.publication r ∧ p'.state r.slot = .committed ∧ p'.hist.position r.slot = i ∧
          p'.mask = p.mask := by
  cases hs with
  | commit t _ r own phase =>
    rcases lt_or_ge i p.hist.published.length with hlt | hge
    · left
      rwa [show (p.hist.commit t (p.publication r)).published =
        p.hist.published ++ [p.publication r] from rfl, List.getElem?_append_left hlt] at hpub
    · right
      obtain ⟨hlt, hpub⟩ := List.getElem?_eq_some_iff.mp hpub
      have hlen : i < p.hist.published.length + 1 := by simpa [Ghost.commit] using hlt
      obtain rfl : i = p.hist.published.length := by omega
      refine ⟨t, r, own, phase, rfl, ?_, by simp, by simp [Ghost.commit, Proto.publication], rfl⟩
      rw [← hpub]
      simp [Ghost.commit]
  | _ => exact .inl hpub

/-- What is committed and carries a bit was so before, or has just been committed. -/
theorem Step.committed_cases (hs : Step G cap a p p') (hi : Inv cap p) {i : Fin 64} {j : Fin n}
    (hc : p'.state j = .committed) (hb : i ∈ p'.mask j) :
    p.state j = .committed ∧ i ∈ p.mask j ∧ p'.hist.position j = p.hist.position j ∧
        p'.hist.num j = p.hist.num j ∨
      ∃ t r, p.hist.reservation t = some r ∧ r.phase = .inHand ∧ r.slot = j ∧ p'.mask = p.mask ∧
        p'.hist = p.hist.commit t (p.publication r) := by
  -- a reservation is of another slot
  have hother : ∀ t r, p.hist.reservation t = some r → r.phase ≠ .returning →
      p.state j = .committed → j ≠ r.slot := fun t r hr hp hc =>
    (hi.ne_of_writing hr hp (by rw [hc]; simp)).symm
  cases hs with
  | begin t _ j' mask locked idle free captured =>
    have hj : j ≠ j' := fun e => by simp [e] at hc
    exact .inl ⟨by simpa [hj] using hc, hb, rfl, rfl⟩
  | number t _ r locked own phase =>
    have hj := hother t r own (by rw [phase]; simp) hc
    exact .inl ⟨hc, hb, rfl, by simp [Ghost.number, hj]⟩
  | setMask t _ r locked own phase =>
    have hj := hother t r own (by rw [phase]; simp) hc
    exact .inl ⟨hc, by simpa [hj] using hb, rfl, rfl⟩
  | commit t _ r own phase =>
    by_cases hj : j = r.slot
    · subst hj
      exact .inr ⟨t, r, own, phase, rfl, rfl, rfl⟩
    · exact .inl ⟨by simpa [hj] using hc, hb, by simp [Ghost.commit, Proto.publication, hj], rfl⟩
  | cancel t _ r locked own phase =>
    have hj : j ≠ r.slot := fun e => by simp [e] at hb
    exact .inl ⟨hc, by simpa [hj] using hb, rfl, rfl⟩
  | free t _ r locked own phase =>
    have hj : j ≠ r.slot := fun e => by simp [e] at hc
    exact .inl ⟨by simpa [hj] using hc, hb, rfl, rfl⟩
  | dropBit _ _ c i' j' locked holder leaving reader =>
    refine .inl ⟨hc, ?_, rfl, rfl⟩
    by_cases hj : j = j'
    · subst hj
      exact Finset.mem_of_mem_erase (by simpa using hb)
    · simpa [hj] using hb
  | release c _ k m client held reader =>
    refine .inl ⟨hc, ?_, rfl, rfl⟩
    by_cases hj : j = m.slotIndex
    · rw [hj] at hb ⊢
      exact Finset.mem_of_mem_erase (by simpa using hb)
    · simpa [hj] using hb
  | abandonMask _ _ j' locked gone =>
    have hj : j ≠ j' := fun e => by simp [e] at hb
    exact .inl ⟨hc, by simpa [hj] using hb, rfl, rfl⟩
  | abandon _ _ j' locked gone =>
    have hj : j ≠ j' := fun e => by simp [e] at hc
    exact .inl ⟨by simpa [hj] using hc, hb, rfl, rfl⟩
  | _ => exact .inl ⟨hc, hb, rfl, rfl⟩

/-- A `try_take` begins with what is there. -/
theorem Step.trying_le (hs : Step G cap a p p') (h : ∀ c, p.hist.trying c ≤ p.hist.published.length)
    (c : Nat) : p'.hist.trying c ≤ p'.hist.published.length := by
  have hlen := hs.published.length_le
  cases hs with
  | beginTry c' =>
    by_cases hc : c = c'
    · subst hc
      simp [Ghost.beginTry]
    · simpa [Ghost.beginTry, hc] using h c
  | _ => exact (h c).trans hlen

/-- The lease of a slot goes with the bit. -/
theorem Step.keeps_lease (hs : Step G cap a p p') (hk : p.client c k) (hG : ¬G.loose k)
    {m : TensorMeta n} (hm : m ∈ p.leases c) (hb : k.index ∈ p'.mask m.slotIndex) :
    m ∈ p'.leases c := by
  cases hs with
  | take c' _ k₀ m₀ client =>
    by_cases hc : c = c'
    · subst hc
      simp [hm]
    · simpa [hc] using hm
  | release c' _ k₀ m₀ client held =>
    by_cases hc : c = c'
    · subst hc
      have hne : m ≠ m₀ := by
        rintro rfl
        obtain rfl : k₀ = k := Option.some.inj (client.1.symm.trans hk.1)
        simp at hb
      simpa using (List.mem_erase_of_ne hne).mpr hm
    · simpa [hc] using hm
  | dropLease c' _ k₀ m₀ client held loose =>
    by_cases hc : c = c'
    · subst hc
      obtain rfl : k₀ = k := Option.some.inj (client.1.symm.trans hk.1)
      exact absurd loose hG
    · simpa [hc] using hm
  | _ => exact hm

/-- What writer `t` is publishing is addressed to the entry `i`. -/
def Proto.AddressedBy (p : Proto n) (i : Fin 64) (t : Nat) : Prop :=
  ∀ r, p.hist.reservation t = some r → r.phase ≠ .aborting → r.phase ≠ .returning →
    i ∈ readers r.mask ∧ (r.phase = .masked ∨ r.phase = .inHand → i ∈ p.mask r.slot)

/-- It stays addressed to a consumer that stays open. -/
theorem Step.addressed_by (hs : Step G cap a p p') (hi : Inv cap p) (hG : ¬G.careless)
    (live : ∀ a, p.alive a) (hl : Leasing strict p) (hk : p.concerns strict c k)
    {t' : Nat} (h : p.AddressedBy k.index t') : p'.AddressedBy k.index t' := by
  have hholder := hi.active c k hk.1 (live _)
  cases hs with
  | begin t _ j mask locked idle free captured =>
    intro r' hr' hp hp'
    rcases Inv.begin_reservation.mp hr' with ⟨-, rfl⟩ | ⟨-, hr'⟩
    · exact ⟨(captured _).mpr (by rw [hholder]; simp), by simp⟩
    · exact h r' hr' hp hp'
  | number t _ r locked own phase =>
    intro r' hr' hp hp'
    rcases (Inv.proceed_reservation own).mp hr' with ⟨rfl, rfl⟩ | ⟨-, hr'⟩
    · exact ⟨(h r own (by rw [phase]; simp) (by rw [phase]; simp)).1, by simp⟩
    · exact h r' hr' hp hp'
  | setMask t _ r locked own phase =>
    intro r' hr' hp hp'
    rcases (Inv.proceed_reservation own).mp hr' with ⟨rfl, rfl⟩ | ⟨ht, hr'⟩
    · have := (h r own (by rw [phase]; simp) (by rw [phase]; simp)).1
      exact ⟨this, fun _ => by simpa using this⟩
    · have hs : r'.slot ≠ r.slot := fun e =>
        ht (hi.unique t' t r' r hr' own hp' (by rw [phase]; simp) e)
      simpa [hs] using h r' hr' hp hp'
  | advance t _ r locked own phase =>
    intro r' hr' hp hp'
    rcases (Inv.proceed_reservation own).mp hr' with ⟨rfl, rfl⟩ | ⟨-, hr'⟩
    · have := h r own (by rw [phase]; simp) (by rw [phase]; simp)
      exact ⟨this.1, fun _ => this.2 (.inl phase)⟩
    · exact h r' hr' hp hp'
  | commit t _ r own phase => exact fun r' hr' => h r' (Inv.drop_reservation.mp hr').2
  | cancel t _ r locked own phase =>
    intro r' hr' hp hp'
    rcases (Inv.proceed_reservation own).mp hr' with ⟨-, rfl⟩ | ⟨ht, hr'⟩
    · exact absurd rfl hp
    · have hs : r'.slot ≠ r.slot := fun e =>
        ht (hi.unique t' t r' r hr' own hp' (by rw [phase]; simp) e)
      simpa [hs] using h r' hr' hp hp'
  | free t _ r locked own phase =>
    intro r' hr' hp hp'
    rcases (Inv.proceed_reservation own).mp hr' with ⟨-, rfl⟩ | ⟨-, hr'⟩
    · exact absurd rfl hp'
    · exact h r' hr' hp hp'
  | forget t _ r handedBack locked own phase =>
    exact fun r' hr' => h r' (Inv.drop_reservation.mp hr').2
  | dropBit _ _ c' i j locked holder leaving reader =>
    have hne : k.index ≠ i := by
      rintro rfl
      obtain rfl : c = c' := Option.some.inj (hholder.symm.trans holder)
      rcases leaving with ⟨-, k₀, hk₀, hcl⟩ | hdead
      · obtain rfl : k₀ = k := Option.some.inj (hk₀.symm.trans hk.1.1)
        rw [hk.1.2] at hcl
        cases hcl
      · exact hdead (live _)
    intro r' hr' hp hp'
    refine ⟨(h r' hr' hp hp').1, fun hm => ?_⟩
    have hb := (h r' hr' hp hp').2 hm
    by_cases hj : r'.slot = j
    · subst hj
      simpa [hne] using hb
    · simpa [hj] using hb
  | release c' _ k₀ m client held reader =>
    intro r' hr' hp hp'
    refine ⟨(h r' hr' hp hp').1, fun hm => ?_⟩
    have hb := (h r' hr' hp hp').2 hm
    by_cases hj : r'.slot = m.slotIndex
    · have hne : k.index ≠ k₀.index := by
        intro e
        have hh := hi.active c' k₀ client (live _)
        rw [← e] at hh
        obtain rfl : c = c' := Option.some.inj (hholder.symm.trans hh)
        -- the slot of a lease is not being written
        have hheld := (hl.held c k hk (live _) m held).good.committed
        rw [← hj, hi.writing t' r' hr' hp'] at hheld
        cases hheld
      rw [hj] at hb ⊢
      simpa [hne] using hb
    · simpa [hj] using hb
  | abandonMask _ _ j locked gone => exact absurd gone (hi.not_gone hG live)
  | abandon _ _ j locked gone => exact absurd gone (hi.not_gone hG live)
  | _ => exact h

end

end TenzorBus
