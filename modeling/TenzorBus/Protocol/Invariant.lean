import TenzorBus.Protocol.State

/-!
# The invariant of the protocol

What holds in every reachable state, whoever has died and whatever the liveness check has said
about the dead.

* `Inv` : the invariant
* `Inv.step` : every transition of a live actor keeps it
* `Inv.fades` : deaths keep it
-/

namespace TenzorBus

variable {n : Nat}

/-- The slot holds the publication that it was last committed with, and its readers are among
those that the publication is for. -/
def Proto.Published (p : Proto n) (j : Fin n) (mask : UInt64) : Prop :=
  p.hist.published[p.hist.position j]? = some
      { slot := j, sequence := seqWord (p.hist.num j), header := p.header j,
        payload := p.payload j, mask := mask } ∧
    p.mask j ⊆ readers mask ∧
    ∀ m, p.hist.position j < m → ∀ pub, p.hist.published[m]? = some pub → pub.slot ≠ j

structure Inv (cap : Nat) (p : Proto n) : Prop where
  /-- Every slot in `STATE_WRITING` belongs to one unfinished reservation. -/
  unique : ∀ t t' r r', p.hist.reservation t = some r → p.hist.reservation t' = some r' →
    r.phase ≠ .returning → r'.phase ≠ .returning → r.slot = r'.slot → t = t'
  writing : ∀ t r, p.hist.reservation t = some r → r.phase ≠ .returning →
    p.state r.slot = .writing
  owned : ∀ j, p.state j = .writing →
    ∃ t r, p.hist.reservation t = some r ∧ r.phase ≠ .returning ∧ r.slot = j
  /-- Readers are there from the mask's store to the commit, and the reservation has captured
  them. -/
  freeMask : ∀ j, p.state j = .free → p.mask j = ∅
  unmasked : ∀ t r, p.hist.reservation t = some r →
    r.phase = .header ∨ r.phase = .numbered ∨ r.phase = .aborting → p.mask r.slot = ∅
  captured : ∀ t r, p.hist.reservation t = some r → r.phase = .masked ∨ r.phase = .inHand →
    p.mask r.slot ⊆ readers r.mask
  /-- A reservation is made, and given back, under the lock. -/
  locked : ∀ t r, p.hist.reservation t = some r → r.phase ≠ .inHand → p.alive (.writer t) →
    p.lock = some (.writer t)
  capturing : ∀ t r, p.hist.reservation t = some r →
    r.phase = .header ∨ r.phase = .numbered ∨ r.phase = .masked → p.alive (.writer t) →
    ∀ i, i ∈ readers r.mask ↔ p.hist.holder i ≠ none
  /-- Whoever is registered and alive holds a registry entry, and only held entries have bits. -/
  registered : ∀ i c, p.hist.holder i = some c →
    ∃ k, p.hist.registration c = some k ∧ k.index = i
  active : ∀ c k, p.client c k → p.alive (.consumer c) → p.hist.holder k.index = some c
  bits : ∀ i j, i ∈ p.mask j → p.hist.holder i ≠ none
  validInHand : ∀ t r, p.hist.reservation t = some r → r.phase = .inHand →
    (p.header r.slot).Valid cap
  valid : ∀ j, p.state j = .committed → (p.header j).Valid cap
  content : ∀ j, p.state j = .committed → ∃ mask, p.Published j mask

namespace Inv

variable {cap : Nat} {p p' : Proto n} {G : Guards n} {a : Actor}

/-! ## reservations that move on -/

theorem begin_reservation {g : Ghost n} {t t' : Nat} {j : Fin n} {mask : UInt64}
    {r : Reservation n} :
    (g.begin t j mask).reservation t' = some r ↔
      (t' = t ∧ r = { slot := j, mask := mask, owners := g.holder, phase := .header }) ∨
        (t' ≠ t ∧ g.reservation t' = some r) := by
  by_cases h : t' = t
  · subst h; simp [Ghost.begin, eq_comm]
  · simp [Ghost.begin, h]

theorem proceed_reservation {g : Ghost n} {t t' : Nat} {ph : Phase} {r r₀ : Reservation n}
    (h₀ : g.reservation t = some r₀) :
    (g.proceed t ph).reservation t' = some r ↔
      (t' = t ∧ r = { r₀ with phase := ph }) ∨ (t' ≠ t ∧ g.reservation t' = some r) := by
  by_cases h : t' = t
  · subst h; simp [Ghost.proceed, h₀, eq_comm]
  · simp [Ghost.proceed, h]

theorem drop_reservation {f : Nat → Option (Reservation n)} {t t' : Nat} {r : Reservation n} :
    Function.update f t none t' = some r ↔ t' ≠ t ∧ f t' = some r := by
  by_cases h : t' = t
  · subst h; simp
  · simp [h]

theorem abandon_reservation {g : Ghost n} {t : Nat} {j : Fin n} {r : Reservation n} :
    (g.abandon j).reservation t = some r ↔ g.reservation t = some r ∧ r.slot ≠ j := by
  simp [Ghost.abandon, Option.filter_eq_some_iff]

theorem free_of_avail (h : Inv cap p) {j : Fin n}
    (free : p.state j = .free ∨ p.state j = .committed ∧ p.mask j = ∅) :
    p.mask j = ∅ ∧ ∀ t r, p.hist.reservation t = some r → r.phase ≠ .returning → r.slot ≠ j := by
  refine ⟨free.elim (h.freeMask j) And.right, fun t r hr hp hj => ?_⟩
  have hw := h.writing t r hr hp
  rw [hj] at hw
  rcases free with hf | ⟨hf, -⟩ <;> rw [hf] at hw <;> cases hw

/-- Slots in `STATE_WRITING` are not touched by what happens to free or committed ones. -/
theorem ne_of_writing {j : Fin n} {t : Nat} {r : Reservation n} (h : Inv cap p)
    (hr : p.hist.reservation t = some r) (hp : r.phase ≠ .returning) (hj : p.state j ≠ .writing) :
    r.slot ≠ j :=
  fun e => hj (e ▸ h.writing t r hr hp)

/-! ## one transition at a time -/

theorem acquire (h : Inv cap p) (free : p.lock = none ∨ ∃ b, p.lock = some b ∧ ¬p.alive b) :
    Inv cap { p with lock := some a } :=
  { h with
    locked := fun t r hr hp hl => by
      rcases free with hf | ⟨b, hb, hd⟩
      · exact absurd (h.locked t r hr hp hl) (by simp [hf])
      · exact absurd hl (by rwa [Option.some.inj (hb.symm.trans (h.locked t r hr hp hl))] at hd) }

theorem unlock (h : Inv cap p) (locked : p.lock = some a)
    (done : ∀ t r, a = .writer t → p.hist.reservation t = some r → r.phase = .inHand) :
    Inv cap { p with lock := none } :=
  { h with
    locked := fun t r hr hp hl =>
      absurd (done t r (Option.some.inj (locked.symm.trans (h.locked t r hr hp hl))) hr) hp }

theorem begin (h : Inv cap p) {t : Nat} {j : Fin n} {mask : UInt64}
    (locked : p.lock = some (.writer t)) (idle : p.hist.reservation t = none)
    (free : p.state j = .free ∨ p.state j = .committed ∧ p.mask j = ∅)
    (captured : ∀ i, i ∈ readers mask ↔ p.hist.holder i ≠ none) :
    Inv cap { p with
      state := Function.update p.state j .writing
      hist := p.hist.begin t j mask } := by
  obtain ⟨hmask, hne⟩ := h.free_of_avail free
  exact { h with
    unique := fun t₁ t₂ r₁ r₂ h₁ h₂ p₁ p₂ hs => by
      rcases begin_reservation.mp h₁ with ⟨e₁, rfl⟩ | ⟨-, q₁⟩ <;>
        rcases begin_reservation.mp h₂ with ⟨e₂, rfl⟩ | ⟨-, q₂⟩
      · rw [e₁, e₂]
      · exact absurd hs.symm (hne _ _ q₂ p₂)
      · exact absurd hs (hne _ _ q₁ p₁)
      · exact h.unique _ _ _ _ q₁ q₂ p₁ p₂ hs
    writing := fun t' r hr hp => by
      rcases begin_reservation.mp hr with ⟨-, rfl⟩ | ⟨-, hr⟩
      · simp
      · simpa [hne _ _ hr hp] using h.writing _ _ hr hp
    owned := fun j' hw => by
      by_cases hj : j' = j
      · exact ⟨t, _, begin_reservation.mpr (.inl ⟨rfl, rfl⟩), nofun, hj.symm⟩
      · obtain ⟨t', r, hr, hp, hs⟩ := h.owned j' (by simpa [hj] using hw)
        refine ⟨t', r, begin_reservation.mpr (.inr ⟨fun e => ?_, hr⟩), hp, hs⟩
        rw [e, idle] at hr
        cases hr
    freeMask := fun j' hf => by
      by_cases hj : j' = j
      · simp [hj] at hf
      · exact h.freeMask j' (by simpa [hj] using hf)
    unmasked := fun t' r hr hp => by
      rcases begin_reservation.mp hr with ⟨-, rfl⟩ | ⟨-, hr⟩
      · exact hmask
      · exact h.unmasked _ _ hr hp
    captured := fun t' r hr hp => by
      rcases begin_reservation.mp hr with ⟨-, rfl⟩ | ⟨-, hr⟩
      · exact hmask ▸ Finset.empty_subset _
      · exact h.captured _ _ hr hp
    locked := fun t' r hr hp hl => by
      rcases begin_reservation.mp hr with ⟨rfl, rfl⟩ | ⟨-, hr⟩
      · exact locked
      · exact h.locked _ _ hr hp hl
    capturing := fun t' r hr hp hl => by
      rcases begin_reservation.mp hr with ⟨-, rfl⟩ | ⟨-, hr⟩
      · exact captured
      · exact h.capturing _ _ hr hp hl
    validInHand := fun t' r hr hp => by
      rcases begin_reservation.mp hr with ⟨-, rfl⟩ | ⟨-, hr⟩
      · cases hp
      · exact h.validInHand _ _ hr hp
    valid := fun j' hc => by
      by_cases hj : j' = j
      · simp [hj] at hc
      · exact h.valid j' (by simpa [hj] using hc)
    content := fun j' hc => by
      by_cases hj : j' = j
      · simp [hj] at hc
      · exact h.content j' (by simpa [hj] using hc) }

/-- The words of a slot in hand change. -/
theorem body (h : Inv cap p) {t : Nat} {r : Reservation n} {header : TensorHeader}
    {payload : Nat → UInt8} (own : p.hist.reservation t = some r) (phase : r.phase ≠ .returning)
    (valid : r.phase = .inHand → header.Valid cap) :
    Inv cap { p with
      header := Function.update p.header r.slot header
      payload := Function.update p.payload r.slot payload } := by
  have hw := h.writing t r own phase
  exact { h with
    validInHand := fun t' r' hr' hp' => by
      by_cases hs : r'.slot = r.slot
      · have ht := h.unique t' t r' r hr' own (by rw [hp']; nofun) phase hs
        rw [ht, own] at hr'
        cases hr'
        simpa using valid hp'
      · simpa [hs] using h.validInHand t' r' hr' hp'
    valid := fun j hc => by
      have hj : j ≠ r.slot := fun e => by rw [e, hw] at hc; cases hc
      simpa [hj] using h.valid j hc
    content := fun j hc => by
      have hj : j ≠ r.slot := fun e => by rw [e, hw] at hc; cases hc
      simpa [Proto.Published, hj] using h.content j hc }

/-- A reservation moves on to another phase, under the lock or in hand. -/
theorem proceed (h : Inv cap p) {t : Nat} {r : Reservation n} (ph : Phase)
    (own : p.hist.reservation t = some r) (phase : r.phase ≠ .returning) (hph : ph ≠ .returning)
    (locked : ph ≠ .inHand → p.lock = some (.writer t))
    (unmasked : ph = .header ∨ ph = .numbered ∨ ph = .aborting → p.mask r.slot = ∅)
    (captured : ph = .masked ∨ ph = .inHand → p.mask r.slot ⊆ readers r.mask)
    (capturing : ph = .header ∨ ph = .numbered ∨ ph = .masked →
      r.phase = .header ∨ r.phase = .numbered ∨ r.phase = .masked)
    (valid : ph = .inHand → (p.header r.slot).Valid cap) :
    Inv cap { p with hist := p.hist.proceed t ph } := by
  exact { h with
    unique := fun t₁ t₂ r₁ r₂ h₁ h₂ p₁ p₂ hs => by
      rcases (proceed_reservation own).mp h₁ with ⟨e₁, rfl⟩ | ⟨-, q₁⟩ <;>
        rcases (proceed_reservation own).mp h₂ with ⟨e₂, rfl⟩ | ⟨-, q₂⟩
      · rw [e₁, e₂]
      · rw [e₁]; exact h.unique _ _ _ _ own q₂ phase p₂ hs
      · rw [e₂]; exact h.unique _ _ _ _ q₁ own p₁ phase hs
      · exact h.unique _ _ _ _ q₁ q₂ p₁ p₂ hs
    writing := fun t' r' hr' hp' => by
      rcases (proceed_reservation own).mp hr' with ⟨-, rfl⟩ | ⟨-, hr'⟩
      · exact h.writing t r own phase
      · exact h.writing _ _ hr' hp'
    owned := fun j hw => by
      obtain ⟨t', r', hr', hp', hs⟩ := h.owned j hw
      by_cases ht : t' = t
      · rw [ht, own] at hr'
        cases hr'
        exact ⟨t, _, (proceed_reservation own).mpr (.inl ⟨rfl, rfl⟩), hph, hs⟩
      · exact ⟨t', r', (proceed_reservation own).mpr (.inr ⟨ht, hr'⟩), hp', hs⟩
    unmasked := fun t' r' hr' hp' => by
      rcases (proceed_reservation own).mp hr' with ⟨-, rfl⟩ | ⟨-, hr'⟩
      · exact unmasked hp'
      · exact h.unmasked _ _ hr' hp'
    captured := fun t' r' hr' hp' => by
      rcases (proceed_reservation own).mp hr' with ⟨-, rfl⟩ | ⟨-, hr'⟩
      · exact captured hp'
      · exact h.captured _ _ hr' hp'
    locked := fun t' r' hr' hp' hl => by
      rcases (proceed_reservation own).mp hr' with ⟨rfl, rfl⟩ | ⟨-, hr'⟩
      · exact locked hp'
      · exact h.locked _ _ hr' hp' hl
    capturing := fun t' r' hr' hp' hl => by
      rcases (proceed_reservation own).mp hr' with ⟨rfl, rfl⟩ | ⟨-, hr'⟩
      · exact h.capturing _ r own (capturing hp') hl
      · exact h.capturing _ _ hr' hp' hl
    validInHand := fun t' r' hr' hp' => by
      rcases (proceed_reservation own).mp hr' with ⟨-, rfl⟩ | ⟨-, hr'⟩
      · exact valid hp'
      · exact h.validInHand _ _ hr' hp' }

/-- A reservation's slot gets another number. -/
theorem renumber (h : Inv cap p) {t : Nat} {r : Reservation n} {u : Int}
    (own : p.hist.reservation t = some r) (phase : r.phase ≠ .returning) :
    Inv cap { p with hist := { p.hist with num := Function.update p.hist.num r.slot u } } :=
  { h with
    content := fun j hc => by
      have hj : j ≠ r.slot := fun e => by rw [e, h.writing t r own phase] at hc; cases hc
      simpa [Proto.Published, hj] using h.content j hc }

/-- Readers leave. -/
theorem shrink (h : Inv cap p) {j : Fin n} {m : Finset (Fin 64)} (hm : m ⊆ p.mask j) :
    Inv cap { p with mask := Function.update p.mask j m } := by
  have hsub : ∀ i, Function.update p.mask j m i ⊆ p.mask i := fun i => by
    by_cases hi : i = j
    · subst hi; simpa using hm
    · simp [hi]
  exact { h with
    freeMask := fun i hi => Finset.subset_empty.mp (h.freeMask i hi ▸ hsub i)
    unmasked := fun t r hr hp => Finset.subset_empty.mp (h.unmasked t r hr hp ▸ hsub r.slot)
    captured := fun t r hr hp => (hsub r.slot).trans (h.captured t r hr hp)
    bits := fun i k hi => h.bits i k (hsub k hi)
    content := fun i hc => by
      obtain ⟨mask, hp, hr, hl⟩ := h.content i hc
      exact ⟨mask, hp, (hsub i).trans hr, hl⟩ }

/-- The mask of a reservation is stored. -/
theorem fill (h : Inv cap p) {t : Nat} {r : Reservation n}
    (own : p.hist.reservation t = some r) (phase : r.phase = .masked) (live : p.alive (.writer t)) :
    Inv cap { p with mask := Function.update p.mask r.slot (readers r.mask) } := by
  have hp : r.phase ≠ .returning := by rw [phase]; nofun
  have hw := h.writing t r own hp
  -- whoever owns the slot is this reservation
  have huniq : ∀ t' r', p.hist.reservation t' = some r' → r'.phase ≠ .returning →
      r'.slot = r.slot → r' = r := fun t' r' hr' hp' hs => by
    have ht := h.unique t' t r' r hr' own hp' hp hs
    rw [ht, own] at hr'
    exact (Option.some.inj hr').symm
  exact { h with
    freeMask := fun j hf => by
      have hj : j ≠ r.slot := fun e => by rw [e, hw] at hf; cases hf
      simpa [hj] using h.freeMask j hf
    unmasked := fun t' r' hr' hp' => by
      by_cases hs : r'.slot = r.slot
      · have := huniq t' r' hr' (by rintro e; simp [e] at hp') hs
        simp [this, phase] at hp'
      · simpa [hs] using h.unmasked t' r' hr' hp'
    captured := fun t' r' hr' hp' => by
      by_cases hs : r'.slot = r.slot
      · have := huniq t' r' hr' (by rintro e; simp [e] at hp') hs
        simp [this]
      · simpa [hs] using h.captured t' r' hr' hp'
    bits := fun i j hi => by
      by_cases hj : j = r.slot
      · subst hj
        exact (h.capturing t r own (.inr (.inr phase)) live i).mp (by simpa using hi)
      · exact h.bits i j (by simpa [hj] using hi)
    content := fun j hc => by
      have hj : j ≠ r.slot := fun e => by rw [e, hw] at hc; cases hc
      simpa [Proto.Published, hj] using h.content j hc }

theorem commit (h : Inv cap p) {t : Nat} {r : Reservation n}
    (own : p.hist.reservation t = some r) (phase : r.phase = .inHand) :
    Inv cap { p with
      state := Function.update p.state r.slot .committed
      hist := p.hist.commit t (p.publication r) } := by
  have hp : r.phase ≠ .returning := by rw [phase]; nofun
  have hother : ∀ t' r', t' ≠ t → p.hist.reservation t' = some r' → r'.phase ≠ .returning →
      r'.slot ≠ r.slot := fun t' r' ht hr' hp' hs => ht (h.unique t' t r' r hr' own hp' hp hs)
  exact { h with
    unique := fun t₁ t₂ r₁ r₂ h₁ h₂ =>
      h.unique t₁ t₂ r₁ r₂ (drop_reservation.mp h₁).2 (drop_reservation.mp h₂).2
    writing := fun t' r' hr' hp' => by
      obtain ⟨ht, hr'⟩ := drop_reservation.mp hr'
      simpa [hother t' r' ht hr' hp'] using h.writing t' r' hr' hp'
    owned := fun j hw => by
      have hj : j ≠ r.slot := fun e => by simp [e] at hw
      obtain ⟨t', r', hr', hp', hs⟩ := h.owned j (by simpa [hj] using hw)
      refine ⟨t', r', drop_reservation.mpr ⟨fun e => hj ?_, hr'⟩, hp', hs⟩
      rw [e, own] at hr'
      cases hr'
      exact hs.symm
    freeMask := fun j hf => by
      have hj : j ≠ r.slot := fun e => by simp [e] at hf
      exact h.freeMask j (by simpa [hj] using hf)
    unmasked := fun t' r' hr' => h.unmasked t' r' (drop_reservation.mp hr').2
    captured := fun t' r' hr' => h.captured t' r' (drop_reservation.mp hr').2
    locked := fun t' r' hr' => h.locked t' r' (drop_reservation.mp hr').2
    capturing := fun t' r' hr' => h.capturing t' r' (drop_reservation.mp hr').2
    validInHand := fun t' r' hr' => h.validInHand t' r' (drop_reservation.mp hr').2
    valid := fun j hc => by
      by_cases hj : j = r.slot
      · rw [hj]; exact h.validInHand t r own phase
      · exact h.valid j (by simpa [hj] using hc)
    content := fun j hc => by
      by_cases hj : j = r.slot
      · subst hj
        refine ⟨r.mask, ?_, h.captured t r own (.inr phase), fun m hm pub hpub => ?_⟩
        · simp [Ghost.commit, Proto.publication]
        · simp only [Ghost.commit, Proto.publication, Function.update_self] at hm hpub
          rw [List.getElem?_eq_none (by simp; omega)] at hpub
          cases hpub
      · obtain ⟨mask, hpub, hr, hl⟩ := h.content j (by simpa [hj] using hc)
        have hlt := (List.getElem?_eq_some_iff.mp hpub).1
        refine ⟨mask, ?_, hr, fun m hm pub hm' => ?_⟩
        · simpa [Ghost.commit, Proto.publication, hj, List.getElem?_append_left hlt] using hpub
        · simp only [Ghost.commit, Proto.publication, Function.update_of_ne hj] at hm hm'
          rcases Nat.lt_trichotomy m p.hist.published.length with hlen | hlen | hlen
          · rw [List.getElem?_append_left hlen] at hm'
            exact hl m hm pub hm'
          · simp only [hlen, List.getElem?_concat_length, Option.some.injEq] at hm'
            exact hm' ▸ Ne.symm hj
          · rw [List.getElem?_eq_none (by simp; omega)] at hm'
            cases hm' }

theorem free (h : Inv cap p) {t : Nat} {r : Reservation n} (locked : p.lock = some (.writer t))
    (own : p.hist.reservation t = some r) (phase : r.phase = .aborting) :
    Inv cap { p with
      state := Function.update p.state r.slot .free
      hist := p.hist.proceed t .returning } := by
  have hp : r.phase ≠ .returning := by rw [phase]; nofun
  have hother : ∀ t' r', t' ≠ t → p.hist.reservation t' = some r' → r'.phase ≠ .returning →
      r'.slot ≠ r.slot := fun t' r' ht hr' hp' hs => ht (h.unique t' t r' r hr' own hp' hp hs)
  exact { h with
    unique := fun t₁ t₂ r₁ r₂ h₁ h₂ p₁ p₂ hs => by
      rcases (proceed_reservation own).mp h₁ with ⟨-, rfl⟩ | ⟨-, q₁⟩
      · exact absurd rfl p₁
      · rcases (proceed_reservation own).mp h₂ with ⟨-, rfl⟩ | ⟨-, q₂⟩
        · exact absurd rfl p₂
        · exact h.unique _ _ _ _ q₁ q₂ p₁ p₂ hs
    writing := fun t' r' hr' hp' => by
      rcases (proceed_reservation own).mp hr' with ⟨-, rfl⟩ | ⟨ht, hr'⟩
      · exact absurd rfl hp'
      · simpa [hother t' r' ht hr' hp'] using h.writing t' r' hr' hp'
    owned := fun j hw => by
      have hj : j ≠ r.slot := fun e => by simp [e] at hw
      obtain ⟨t', r', hr', hp', hs⟩ := h.owned j (by simpa [hj] using hw)
      refine ⟨t', r', (proceed_reservation own).mpr (.inr ⟨fun e => hj ?_, hr'⟩), hp', hs⟩
      rw [e, own] at hr'
      cases hr'
      exact hs.symm
    freeMask := fun j hf => by
      by_cases hj : j = r.slot
      · rw [hj]; exact h.unmasked t r own (.inr (.inr phase))
      · exact h.freeMask j (by simpa [hj] using hf)
    unmasked := fun t' r' hr' hp' => by
      rcases (proceed_reservation own).mp hr' with ⟨-, rfl⟩ | ⟨-, hr'⟩
      · simp at hp'
      · exact h.unmasked _ _ hr' hp'
    captured := fun t' r' hr' hp' => by
      rcases (proceed_reservation own).mp hr' with ⟨-, rfl⟩ | ⟨-, hr'⟩
      · simp at hp'
      · exact h.captured _ _ hr' hp'
    locked := fun t' r' hr' hp' hl => by
      rcases (proceed_reservation own).mp hr' with ⟨rfl, -⟩ | ⟨-, hr'⟩
      · exact locked
      · exact h.locked _ _ hr' hp' hl
    capturing := fun t' r' hr' hp' => by
      rcases (proceed_reservation own).mp hr' with ⟨-, rfl⟩ | ⟨-, hr'⟩
      · simp at hp'
      · exact h.capturing _ _ hr' hp'
    validInHand := fun t' r' hr' hp' => by
      rcases (proceed_reservation own).mp hr' with ⟨-, rfl⟩ | ⟨-, hr'⟩
      · cases hp'
      · exact h.validInHand _ _ hr' hp'
    valid := fun j hc => by
      have hj : j ≠ r.slot := fun e => by simp [e] at hc
      exact h.valid j (by simpa [hj] using hc)
    content := fun j hc => by
      have hj : j ≠ r.slot := fun e => by simp [e] at hc
      exact h.content j (by simpa [hj] using hc) }

theorem forget (h : Inv cap p) {t : Nat} {r : Reservation n} {handedBack : Bool}
    (own : p.hist.reservation t = some r) (phase : r.phase = .returning) :
    Inv cap { p with hist := p.hist.forget t handedBack } :=
  { h with
    unique := fun t₁ t₂ r₁ r₂ h₁ h₂ =>
      h.unique t₁ t₂ r₁ r₂ (drop_reservation.mp h₁).2 (drop_reservation.mp h₂).2
    writing := fun t' r' hr' => h.writing t' r' (drop_reservation.mp hr').2
    owned := fun j hw => by
      obtain ⟨t', r', hr', hp', hs⟩ := h.owned j hw
      refine ⟨t', r', drop_reservation.mpr ⟨fun e => hp' ?_, hr'⟩, hp', hs⟩
      rw [e, own] at hr'
      cases hr'
      exact phase
    unmasked := fun t' r' hr' => h.unmasked t' r' (drop_reservation.mp hr').2
    captured := fun t' r' hr' => h.captured t' r' (drop_reservation.mp hr').2
    locked := fun t' r' hr' => h.locked t' r' (drop_reservation.mp hr').2
    capturing := fun t' r' hr' => h.capturing t' r' (drop_reservation.mp hr').2
    validInHand := fun t' r' hr' => h.validInHand t' r' (drop_reservation.mp hr').2 }

/-- Under the lock of somebody else than a writer nobody alive is capturing. -/
theorem not_capturing (h : Inv cap p) (locked : p.lock = some a)
    (idle : ∀ t, a = .writer t → p.hist.reservation t = none) {t : Nat} {r : Reservation n}
    (hr : p.hist.reservation t = some r) (hp : r.phase ≠ .inHand) : ¬p.alive (.writer t) := by
  intro hl
  have ha := Option.some.inj (locked.symm.trans (h.locked t r hr hp hl))
  rw [idle t ha] at hr
  cases hr

theorem register (h : Inv cap p) {c : Nat} {i : Fin 64} (locked : p.lock = some (.consumer c))
    (free : p.hist.holder i = none) (fresh : p.hist.registration c = none) :
    Inv cap { p with hist := p.hist.register c i } :=
  { h with
    capturing := fun t r hr hp hl =>
      absurd hl (h.not_capturing locked nofun hr (by rintro e; simp [e] at hp))
    registered := fun i' c' hh => by
      by_cases hi : i' = i
      · subst hi
        simp only [Ghost.register, Function.update_self, Option.some.injEq] at hh
        subst hh
        exact ⟨p.hist.registrationNow i', by simp [Ghost.register], rfl⟩
      · simp only [Ghost.register, Function.update_of_ne hi] at hh
        obtain ⟨k, hk, hki⟩ := h.registered i' c' hh
        have hc : c' ≠ c := fun e => by rw [e, fresh] at hk; cases hk
        exact ⟨k, by simpa [Ghost.register, hc] using hk, hki⟩
    active := fun c' k hk hl => by
      by_cases hc : c' = c
      · subst hc
        obtain ⟨hk, -⟩ := hk
        simp only [Ghost.register, Function.update_self, Option.some.injEq] at hk
        subst hk
        simp [Ghost.register, Ghost.registrationNow]
      · have hk' : p.client c' k := by simpa [Proto.client, Ghost.register, hc] using hk
        have hh := h.active c' k hk' hl
        have hi : k.index ≠ i := fun e => by rw [e, free] at hh; cases hh
        simpa [Ghost.register, hi] using hh
    bits := fun i' j hi => by
      by_cases he : i' = i
      · simp [Ghost.register, he]
      · simpa [Ghost.register, he] using h.bits i' j hi }

theorem closing (h : Inv cap p) {c : Nat} : Inv cap { p with hist := p.hist.closing c } :=
  { h with
    registered := fun i c' hh => by
      obtain ⟨k, hk, hki⟩ := h.registered i c' hh
      by_cases hc : c' = c
      · subst hc; exact ⟨{ k with closing := true }, by simp [Ghost.closing, hk], hki⟩
      · exact ⟨k, by simpa [Ghost.closing, hc] using hk, hki⟩
    active := fun c' k hk => by
      by_cases hc : c' = c
      · subst hc
        obtain ⟨hk, hopen⟩ := hk
        simp only [Ghost.closing, Function.update_self, Option.map_eq_some_iff] at hk
        obtain ⟨k₀, -, rfl⟩ := hk
        cases hopen
      · exact h.active c' k (by simpa [Proto.client, Ghost.closing, hc] using hk) }

theorem deregister (h : Inv cap p) {c : Nat} {i : Fin 64} (locked : p.lock = some a)
    (holder : p.hist.holder i = some c) (leaving : p.leaving a c) (clear : ∀ j, i ∉ p.mask j)
    (idle : ∀ t, a = .writer t → p.hist.reservation t = none) :
    Inv cap { p with hist := p.hist.deregister a i } :=
  { h with
    capturing := fun t r hr hp hl =>
      absurd hl (h.not_capturing locked idle hr (by rintro e; simp [e] at hp))
    registered := fun i' c' hh => by
      by_cases hi : i' = i
      · simp [Ghost.deregister, hi] at hh
      · exact h.registered i' c' (by simpa [Ghost.deregister, hi] using hh)
    active := fun c' k hk hl => by
      have hh := h.active c' k hk hl
      by_cases hi : k.index = i
      · rw [hi, holder] at hh
        cases hh
        rcases leaving with ⟨-, k', hk', hcl⟩ | hd
        · have hk₁ : p.hist.registration c = some k := hk.1
          rw [hk₁] at hk'
          cases hk'
          exact absurd hcl (by simp [hk.2])
        · exact absurd hl hd
      · simpa [Ghost.deregister, hi] using hh
    bits := fun i' j hi => by
      have he : i' ≠ i := fun e => clear j (e ▸ hi)
      simpa [Ghost.deregister, he] using h.bits i' j hi }

theorem hand (h : Inv cap p) {c : Nat} {m : TensorMeta n} {leases : Nat → List (TensorMeta n)} :
    Inv cap { p with leases := leases, hist := p.hist.hand c m } :=
  { h with
    registered := fun i c' hh => by
      obtain ⟨k, hk, hki⟩ := h.registered i c' hh
      by_cases hc : c' = c
      · subst hc
        exact ⟨{ k with last := p.hist.num m.slotIndex }, by simp [Ghost.hand, hk], hki⟩
      · exact ⟨k, by simpa [Ghost.hand, hc] using hk, hki⟩
    active := fun c' k hk => by
      by_cases hc : c' = c
      · subst hc
        obtain ⟨hk, hopen⟩ := hk
        simp only [Ghost.hand, Function.update_self, Option.map_eq_some_iff] at hk
        obtain ⟨k₀, hk₀, rfl⟩ := hk
        exact h.active c' k₀ ⟨hk₀, hopen⟩
      · exact h.active c' k (by simpa [Proto.client, Ghost.hand, hc] using hk) }

theorem abandon (h : Inv cap p) {j : Fin n} (empty : p.mask j = ∅) :
    Inv cap { p with
      state := Function.update p.state j .free
      hist := p.hist.abandon j } :=
  { h with
    unique := fun t₁ t₂ r₁ r₂ h₁ h₂ =>
      h.unique t₁ t₂ r₁ r₂ (abandon_reservation.mp h₁).1 (abandon_reservation.mp h₂).1
    writing := fun t r hr hp => by
      obtain ⟨hr, hj⟩ := abandon_reservation.mp hr
      simpa [hj] using h.writing t r hr hp
    owned := fun j' hw => by
      have hj : j' ≠ j := fun e => by simp [e] at hw
      obtain ⟨t, r, hr, hp, hs⟩ := h.owned j' (by simpa [hj] using hw)
      exact ⟨t, r, abandon_reservation.mpr ⟨hr, hs ▸ hj⟩, hp, hs⟩
    freeMask := fun j' hf => by
      by_cases hj : j' = j
      · rw [hj]; exact empty
      · exact h.freeMask j' (by simpa [hj] using hf)
    unmasked := fun t r hr => h.unmasked t r (abandon_reservation.mp hr).1
    captured := fun t r hr => h.captured t r (abandon_reservation.mp hr).1
    locked := fun t r hr => h.locked t r (abandon_reservation.mp hr).1
    capturing := fun t r hr => h.capturing t r (abandon_reservation.mp hr).1
    validInHand := fun t r hr => h.validInHand t r (abandon_reservation.mp hr).1
    valid := fun j' hc => by
      have hj : j' ≠ j := fun e => by simp [e] at hc
      exact h.valid j' (by simpa [hj] using hc)
    content := fun j' hc => by
      have hj : j' ≠ j := fun e => by simp [e] at hc
      exact h.content j' (by simpa [hj] using hc) }

/-! ## all of them -/

/-- A transition of a live actor keeps the invariant. -/
theorem step (h : Inv cap p) (live : p.alive a) (hs : Step G cap a p p') : Inv cap p' := by
  cases hs with
  | idle => exact h
  | acquire _ _ free => exact h.acquire free
  | unlock _ _ locked done => exact h.unlock locked done
  | begin t _ j mask locked idle free captured => exact h.begin locked idle free captured
  | body t _ r header payload own phase valid => exact h.body own phase valid
  | number t _ r locked own phase =>
    have hp : r.phase ≠ .returning := by rw [phase]; nofun
    have h' := h.proceed .numbered own hp nofun (fun _ => locked)
      (fun _ => h.unmasked t r own (.inl phase)) (by simp) (fun _ => .inl phase) nofun
    exact h'.renumber (r := { r with phase := .numbered })
      ((proceed_reservation own).mpr (.inl ⟨rfl, rfl⟩)) nofun
  | setMask t _ r locked own phase =>
    have hp : r.phase ≠ .returning := by rw [phase]; nofun
    have hm : p.mask r.slot = ∅ := h.unmasked t r own (.inr (.inl phase))
    have h' := h.proceed .masked own hp nofun (fun _ => locked) (by simp)
      (fun _ => hm ▸ Finset.empty_subset _) (fun _ => .inr (.inl phase)) nofun
    have hown : (p.hist.proceed t .masked).reservation t = some { r with phase := .masked } :=
      (proceed_reservation own).mpr (.inl ⟨rfl, rfl⟩)
    exact { h'.fill hown rfl live with }
  | advance t _ r locked own phase valid =>
    have hp : r.phase ≠ .returning := by rw [phase]; nofun
    have h' := h.proceed .inHand own hp nofun (fun hn => absurd rfl hn) (by simp)
      (fun _ => h.captured t r own (.inl phase)) (by simp) (fun _ => valid)
    exact { h' with }
  | commit t _ r own phase => exact h.commit own phase
  | cancel t _ r locked own phase =>
    have hp : r.phase ≠ .returning := by rw [phase]; nofun
    have h' := h.shrink (j := r.slot) (Finset.empty_subset _)
    exact { h'.proceed .aborting own hp nofun (fun _ => locked) (by simp) (by simp)
      (by simp) nofun with }
  | free t _ r locked own phase => exact h.free locked own phase
  | forget t _ r handedBack locked own phase exchange => exact h.forget own phase
  | register c _ i locked free fresh => exact h.register locked free fresh
  | refuse c _ locked full => exact { h with }
  | count _ _ locked => exact { h with }
  | closing c _ => exact h.closing
  | dropBit _ _ c i j locked holder leaving reader =>
    exact { h.shrink (Finset.erase_subset _ _) with }
  | deregister _ _ c i locked holder leaving clear idle =>
    exact h.deregister locked holder leaving clear idle
  | beginTry c _ => exact { h with }
  | endTry c _ result answer => exact { h with }
  | validate c _ k m client offers => exact { h with }
  | take c _ k m client grants => exact h.hand
  | release c _ k m client held reader => exact { h.shrink (Finset.erase_subset _ _) with }
  | dropLease c _ k m client held loose => exact { h with }
  | settle _ _ j own => exact { h with }
  | beginSweep _ _ alive locked => exact { h with }
  | endSweep _ _ locked => exact { h with }
  | verdict _ _ v => exact { h with }
  | abandonMask _ _ j locked gone => exact { h.shrink (Finset.empty_subset _) with }
  | abandon _ _ j locked gone empty => exact h.abandon empty

/-- Deaths keep the invariant. -/
theorem fades (h : Inv cap p) (hf : Fades p p') : Inv cap p' := by
  rw [hf.eq]
  exact { h with
    locked := fun t r hr hp hl => h.locked t r hr hp (hf.alive _ hl)
    capturing := fun t r hr hp hl => h.capturing t r hr hp (hf.alive _ hl)
    active := fun c k hk hl => h.active c k hk (hf.alive _ hl) }

end Inv

end TenzorBus
