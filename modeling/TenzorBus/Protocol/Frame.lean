import TenzorBus.Protocol.Invariant

/-!
# What the others cannot touch

While an actor is alive, the transitions of the others and the deaths of the others leave alone
what is its own: the lock it holds, its reservation and the slot of it, its registration and its
leases, and the committed slots that carry its reader bit.

* `Rely` : a transition of somebody else, seen by actor `a`
* `Locked` : what nobody changes while `a` holds the registry lock
* `Untouched` : a slot that keeps its state, its number and its content
-/

namespace TenzorBus

variable {n : Nat}

/-- Somebody else takes a step, or dies; `a` is still alive afterwards. -/
structure Rely (G : Guards n) (cap : Nat) (a : Actor) (p p' : Proto n) : Prop where
  inv : Inv cap p
  live : p'.alive a
  step : (∃ b, b ≠ a ∧ p.alive b ∧ Step G cap b p p') ∨ Fades p p'

/-- A slot that nobody has touched, its readers apart. -/
structure Untouched (p p' : Proto n) (j : Fin n) : Prop where
  state : p'.state j = p.state j
  num : p'.hist.num j = p.hist.num j
  header : p'.header j = p.header j
  payload : p'.payload j = p.payload j
  position : p'.hist.position j = p.hist.position j

/-- What stays as it is while somebody alive holds the lock and others act. -/
structure Locked (p p' : Proto n) : Prop where
  lock : p'.lock = p.lock
  next : p'.hist.next = p.hist.next
  holder : p'.hist.holder = p.hist.holder
  counting : p'.hist.counting = p.hist.counting
  num : p'.hist.num = p.hist.num
  mask : ∀ j, p'.mask j ⊆ p.mask j
  state : ∀ j, p.state j ≠ .writing → p'.state j = p.state j
  reservation : ∀ t r, p'.hist.reservation t = some r → p.hist.reservation t = some r

/-- Whatever is or will be committed in the slot carries the reader bit `i`. -/
def Proto.Addressed (p : Proto n) (i : Fin 64) (j : Fin n) : Prop :=
  (p.state j = .committed → i ∈ p.mask j) ∧
    ∀ t r, p.hist.reservation t = some r → r.slot = j → r.phase ≠ .returning →
      p.alive (.writer t) →
        i ∈ readers r.mask ∧ (r.phase = .masked ∨ r.phase = .inHand → i ∈ p.mask j)

/-- A slot whose mask has the bit is addressed. -/
theorem Inv.addressed {cap : Nat} {p : Proto n} (h : Inv cap p) {i : Fin 64} {j : Fin n}
    (hi : i ∈ p.mask j) : p.Addressed i j := by
  refine ⟨fun _ => hi, fun t r hr hj hp _ => ⟨?_, fun _ => hi⟩⟩
  subst hj
  by_cases hm : r.phase = .masked ∨ r.phase = .inHand
  · exact h.captured t r hr hm hi
  · have hu := h.unmasked t r hr (by revert hm hp; cases r.phase <;> simp)
    simp [hu] at hi

/-- Nobody comes back to life. -/
theorem Step.alive {G : Guards n} {cap : Nat} {a : Actor} {p p' : Proto n}
    (h : Step G cap a p p') : p'.alive = p.alive := by
  cases h <;> rfl

/-- What has been published stays published. -/
theorem Step.published {G : Guards n} {cap : Nat} {a : Actor} {p p' : Proto n}
    (h : Step G cap a p p') : p.hist.published <+: p'.hist.published := by
  cases h with
  | commit => exact List.prefix_append _ _
  | _ => exact List.prefix_rfl

/-- The answers of the liveness check are not forgotten. -/
theorem Step.verdicts {G : Guards n} {cap : Nat} {a : Actor} {p p' : Proto n}
    (h : Step G cap a p p') : p.hist.verdicts <:+ p'.hist.verdicts := by
  cases h with
  | verdict _ _ v => exact List.suffix_cons _ _
  | _ => exact List.suffix_rfl

/-- A registration keeps its entry, and what it has noted. -/
theorem Step.registration {G : Guards n} {cap : Nat} {a : Actor} {p p' : Proto n}
    (h : Step G cap a p p') {c : Nat} {k : Registration} (hk : p.hist.registration c = some k) :
    ∃ last closing,
      p'.hist.registration c = some { k with last := last, closing := closing } := by
  cases h with
  | register c' _ i locked free fresh =>
    have hc : c ≠ c' := fun e => by rw [e, fresh] at hk; cases hk
    exact ⟨k.last, k.closing, by simpa [Ghost.register, hc] using hk⟩
  | closing c' =>
    by_cases hc : c = c'
    · subst hc; exact ⟨k.last, true, by simp [Ghost.closing, hk]⟩
    · exact ⟨k.last, k.closing, by simpa [Ghost.closing, hc] using hk⟩
  | take c' _ k' m =>
    by_cases hc : c = c'
    · subst hc; exact ⟨p.hist.num m.slotIndex, k.closing, by simp [Ghost.hand, hk]⟩
    · exact ⟨k.last, k.closing, by simpa [Ghost.hand, hc] using hk⟩
  | _ => exact ⟨k.last, k.closing, hk⟩

namespace Rely

variable {G : Guards n} {cap : Nat} {a : Actor} {p p' : Proto n}

theorem alive (h : Rely G cap a p p') : p.alive a := by
  rcases h.step with ⟨b, -, -, hs⟩ | hf
  · exact hs.alive ▸ h.live
  · exact hf.alive _ h.live

theorem alive_of (h : Rely G cap a p p') {b : Actor} (hb : p'.alive b) : p.alive b := by
  rcases h.step with ⟨_, -, -, hs⟩ | hf
  · exact hs.alive ▸ hb
  · exact hf.alive _ hb

theorem inv' (h : Rely G cap a p p') : Inv cap p' := by
  rcases h.step with ⟨b, -, hb, hs⟩ | hf
  · exact h.inv.step hb hs
  · exact h.inv.fades hf

/-! ## the lock -/

theorem lock (h : Rely G cap a p p') (hl : p.lock = some a) : p'.lock = some a := by
  have ha := h.alive
  rcases h.step with ⟨b, hb, -, hs⟩ | hf
  · cases hs with
    | acquire _ _ free =>
      rcases free with free | ⟨d, hd, hdead⟩
      · rw [hl] at free; cases free
      · rw [hl] at hd; cases hd; exact absurd ha hdead
    | unlock _ _ locked => rw [hl] at locked; cases locked; exact absurd rfl hb
    | _ => exact hl
  · rw [hf.eq]; exact hl

theorem locked (h : Rely G cap a p p') (hl : p.lock = some a) : Locked p p' := by
  have ha := h.alive
  rcases h.step with ⟨b, hb, -, hs⟩ | hf
  · have hno : p.lock ≠ some b := fun e => hb (Option.some.inj (e.symm.trans hl))
    cases hs with
    | acquire _ _ free =>
      rcases free with free | ⟨d, hd, hdead⟩
      · rw [hl] at free; cases free
      · rw [hl] at hd; cases hd; exact absurd ha hdead
    | commit t _ r own phase =>
      exact ⟨rfl, rfl, rfl, rfl, rfl, fun _ => subset_rfl, fun j hj => by
        have hr : j ≠ r.slot := fun e => hj (e ▸ h.inv.writing t r own (by rw [phase]; nofun))
        simp [hr], fun t' r' hr' => (Inv.drop_reservation.mp hr').2⟩
    | release c _ k m client held =>
      refine ⟨rfl, rfl, rfl, rfl, rfl, fun j => ?_, fun _ _ => rfl, fun _ _ hr => hr⟩
      by_cases hj : j = m.slotIndex
      · subst hj; simpa using Finset.erase_subset _ _
      · simp [hj]
    | idle | body | closing | beginTry | endTry | validate | take | dropLease | settle =>
      exact ⟨rfl, rfl, rfl, rfl, rfl, fun _ => subset_rfl, fun _ _ => rfl, fun _ _ hr => hr⟩
    | _ => contradiction
  · rw [hf.eq]
    exact ⟨rfl, rfl, rfl, rfl, rfl, fun _ => subset_rfl, fun _ _ => rfl, fun _ _ hr => hr⟩

/-- What the dead have left stays as it is while the lock is held. -/
theorem gone (h : Rely G cap a p p') (hl : p.lock = some a) {s : Subject n} (hd : p.gone G s) :
    p'.gone G s := by
  have hL := h.locked hl
  cases s with
  | entry i => exact fun c hc hb => hd c (hL.holder ▸ hc) (h.alive_of hb)
  | slot j =>
    obtain ⟨hd, hw⟩ := hd
    refine ⟨fun t r hr hj hp hb => hd t r (hL.reservation t r hr) hj hp (h.alive_of hb),
      fun hG => ?_⟩
    have hw := hw hG
    rcases h.step with ⟨b, hb, hbl, hs⟩ | hf
    · have hno : p.lock ≠ some b := fun e => hb (Option.some.inj (e.symm.trans hl))
      cases hs with
      | commit t _ r own phase =>
        have hj : j ≠ r.slot := fun e => hd t r own e.symm (by rw [phase]; nofun) hbl
        simpa [hj] using hw
      | acquire | unlock | idle | body | closing | beginTry | endTry | validate | take | release
      | dropLease | settle => exact hw
      | _ => contradiction
    · rw [hf.eq]; exact hw

/-! ## what an actor notes about itself -/

/-- Nobody else begins or ends a sweep of an actor, or a change of a mask. -/
theorem notes (h : Rely G cap a p p') :
    p'.hist.sweeping a = p.hist.sweeping a ∧ p'.hist.changing a = p.hist.changing a := by
  rcases h.step with ⟨b, hb, -, hs⟩ | hf
  · cases hs with
    | setMask | cancel | dropBit | release | abandonMask | settle | beginSweep | endSweep =>
      simp [Ghost.proceed, Ghost.change, Ghost.settle, Ghost.beginSweep, Ghost.endSweep, hb.symm]
    | _ => exact ⟨rfl, rfl⟩
  · rw [hf.eq]; exact ⟨rfl, rfl⟩

theorem verdicts (h : Rely G cap a p p') : p.hist.verdicts <:+ p'.hist.verdicts := by
  rcases h.step with ⟨b, -, -, hs⟩ | hf
  · exact hs.verdicts
  · rw [hf.eq]

/-- Nobody else makes it look as if an actor were counting. -/
theorem counted (h : Rely G cap a p p') (hc : p.counted a) : p'.counted a := by
  rcases h.step with ⟨b, hb, -, hs⟩ | hf
  · intro x hx
    cases hs with
    | register | deregister => exact hb (Prod.mk.inj (Option.some.inj hx)).1
    | count => cases hx
    | _ => exact hc x hx
  · rw [hf.eq]; exact hc

/-- As long as an actor is the last one to have changed the mask of a slot, nobody else changes
it. -/
theorem latest (h : Rely G cap a p p') {j : Fin n} (hj : p'.hist.latest j = some a) :
    p.hist.latest j = some a ∧ p'.mask j = p.mask j := by
  -- a change of another slot's mask by somebody else
  have hother : ∀ {b : Actor} {j' : Fin n} {m : Finset (Fin 64)} {g : Ghost n}, b ≠ a →
      (g.change b j').latest j = some a → g.latest = p.hist.latest →
        p.hist.latest j = some a ∧ Function.update p.mask j' m j = p.mask j :=
    fun {b j' m g} hb hl hg => by
      by_cases he : j = j'
      · subst he
        exact absurd (Option.some.inj (by simpa [Ghost.change] using hl)) hb
      · exact ⟨by simpa [Ghost.change, he, hg] using hl, by simp [he]⟩
  rcases h.step with ⟨b, hb, -, hs⟩ | hf
  · cases hs with
    | setMask | cancel | dropBit | release | abandonMask => exact hother hb hj rfl
    | settle _ _ j' =>
      refine ⟨?_, rfl⟩
      by_cases he : j = j'
      · subst he
        have hj : (p.hist.latest j).filter (· ≠ b) = some a := by simpa [Ghost.settle] using hj
        exact (Option.filter_eq_some_iff.mp hj).1
      · simpa [Ghost.settle, he] using hj
    | _ => exact ⟨hj, rfl⟩
  · rw [hf.eq] at hj ⊢; exact ⟨hj, rfl⟩

/-! ## a writer's own reservation -/

/-- Nobody else begins, moves or ends a reservation of a live writer. -/
theorem reservation {t : Nat} (h : Rely G cap (.writer t) p p') :
    p'.hist.reservation t = p.hist.reservation t := by
  have ha := h.alive
  rcases h.step with ⟨b, hb, -, hs⟩ | hf
  · cases hs with
    | begin t' | number t' | setMask t' | advance t' | commit t' | cancel t' | free t'
    | forget t' =>
      have ht : t ≠ t' := fun e => hb (by rw [e])
      simp [Ghost.begin, Ghost.number, Ghost.advance, Ghost.proceed, Ghost.change, Ghost.commit,
        Ghost.forget, ht]
    | abandon _ _ j locked gone =>
      cases hr : p.hist.reservation t with
      | none => simp [Ghost.abandon, hr]
      | some r =>
        -- a reservation of the living whose slot is swept is past its slot, hence under the lock
        have hj : r.slot ≠ j := fun e => by
          by_cases hp : r.phase = .returning
          · have hl := h.inv.locked t r hr (by simp [hp]) ha
            rw [locked] at hl
            exact hb (Option.some.inj hl)
          · exact gone.1 t r hr e hp ha
        simp [Ghost.abandon, hr, Option.filter, hj]
    | _ => rfl
  · rw [hf.eq]

/-- Nobody else touches the slot of an unfinished reservation; readers may leave it. -/
theorem own {t : Nat} {r : Reservation n} (h : Rely G cap (.writer t) p p')
    (hr : p.hist.reservation t = some r) (hp : r.phase ≠ .returning) :
    Untouched p p' r.slot ∧ p'.mask r.slot ⊆ p.mask r.slot := by
  have ha := h.alive
  have hw := h.inv.writing t r hr hp
  rcases h.step with ⟨b, hb, -, hs⟩ | hf
  · -- the slots of the other writers are other slots
    have hother : ∀ t' r', b = .writer t' → p.hist.reservation t' = some r' →
        r'.phase ≠ .returning → r.slot ≠ r'.slot := fun t' r' hbt hr' hp' e =>
      hb (by rw [hbt, h.inv.unique t t' r r' hr hr' hp hp' e])
    cases hs with
    | begin t' _ j mask locked idle free captured =>
      have hj : r.slot ≠ j := (h.inv.free_of_avail free).2 t r hr hp
      exact ⟨⟨by simp [hj], rfl, rfl, rfl, rfl⟩, subset_rfl⟩
    | body t' _ r' hd pl own phase =>
      have hj := hother t' r' rfl own phase
      exact ⟨⟨rfl, rfl, by simp [hj], by simp [hj], rfl⟩, subset_rfl⟩
    | number t' _ r' locked own phase =>
      have hj := hother t' r' rfl own (by simp [phase])
      exact ⟨⟨rfl, by simp [Ghost.number, hj], rfl, rfl, rfl⟩, subset_rfl⟩
    | setMask t' _ r' locked own phase =>
      have hj := hother t' r' rfl own (by simp [phase])
      exact ⟨⟨rfl, rfl, rfl, rfl, rfl⟩, by simp [hj]⟩
    | commit t' _ r' own phase =>
      have hj := hother t' r' rfl own (by simp [phase])
      exact ⟨⟨by simp [hj], rfl, rfl, rfl, by simp [Ghost.commit, Proto.publication, hj]⟩,
        subset_rfl⟩
    | cancel t' _ r' locked own phase =>
      have hj := hother t' r' rfl own (by simp [phase])
      exact ⟨⟨rfl, rfl, rfl, rfl, rfl⟩, by simp [hj]⟩
    | free t' _ r' locked own phase =>
      have hj := hother t' r' rfl own (by simp [phase])
      exact ⟨⟨by simp [hj], rfl, rfl, rfl, rfl⟩, subset_rfl⟩
    | dropBit _ _ c i j =>
      refine ⟨⟨rfl, rfl, rfl, rfl, rfl⟩, ?_⟩
      by_cases hj : r.slot = j
      · subst hj; simpa using Finset.erase_subset _ _
      · simp [hj]
    | release c _ k m =>
      refine ⟨⟨rfl, rfl, rfl, rfl, rfl⟩, ?_⟩
      by_cases hj : r.slot = m.slotIndex
      · rw [hj]; simpa using Finset.erase_subset _ _
      · simp [hj]
    | abandonMask _ _ j locked gone =>
      have hj : r.slot ≠ j := fun e => gone.1 t r hr e hp ha
      exact ⟨⟨rfl, rfl, rfl, rfl, rfl⟩, by simp [hj]⟩
    | abandon _ _ j locked gone =>
      have hj : r.slot ≠ j := fun e => gone.1 t r hr e hp ha
      exact ⟨⟨by simp [hj], rfl, rfl, rfl, rfl⟩, subset_rfl⟩
    | _ => exact ⟨⟨rfl, rfl, rfl, rfl, rfl⟩, subset_rfl⟩
  · rw [hf.eq]; exact ⟨⟨rfl, rfl, rfl, rfl, rfl⟩, subset_rfl⟩

/-! ## a consumer's own registration -/

/-- Nobody else touches what a consumer has. -/
theorem consumer {c : Nat} (h : Rely G cap (.consumer c) p p') :
    p'.hist.registration c = p.hist.registration c ∧ p'.leases c = p.leases c ∧
      p'.hist.handed c = p.hist.handed c ∧ p'.hist.trying c = p.hist.trying c := by
  rcases h.step with ⟨b, hb, -, hs⟩ | hf
  · cases hs with
    | register c' | closing c' | beginTry c' | take c' | release c' | dropLease c' =>
      have hc : c ≠ c' := fun e => hb (by rw [e])
      simp [Ghost.register, Ghost.closing, Ghost.beginTry, Ghost.hand, Ghost.change,
        Ghost.violate, hc]
    | _ => exact ⟨rfl, rfl, rfl, rfl⟩
  · rw [hf.eq]; exact ⟨rfl, rfl, rfl, rfl⟩

/-- Nobody else clears the reader bit of an open consumer, unless the slot is taken back. -/
theorem bit {c : Nat} {k : Registration} {j : Fin n} (h : Rely G cap (.consumer c) p p')
    (hG : ¬G.careless) (hk : p.client c k) (hb : k.index ∈ p.mask j) :
    k.index ∈ p'.mask j ∨ p.state j = .writing ∧
      ∀ t r, p'.hist.reservation t = some r → r.slot = j → p'.alive (.writer t) →
        r.phase = .aborting ∨ r.phase = .returning := by
  have ha := h.alive
  have hholder := h.inv.active c k hk ha
  rcases h.step with ⟨b, hne, hlive, hs⟩ | hf
  · cases hs with
    | setMask t _ r locked own phase =>
      have hj : j ≠ r.slot := fun e => by
        rw [e, h.inv.unmasked t r own (.inr (.inl phase))] at hb
        simp at hb
      exact .inl (by simpa [hj] using hb)
    | cancel t _ r locked own phase =>
      have hp : r.phase ≠ .returning := by rw [phase]; nofun
      by_cases hj : j = r.slot
      · refine .inr ⟨hj ▸ h.inv.writing t r own hp, fun t' r' hr' hs _ => ?_⟩
        rcases (Inv.proceed_reservation own).mp hr' with ⟨-, rfl⟩ | ⟨ht, hr'⟩
        · exact .inl rfl
        · by_cases hp' : r'.phase = .returning
          · exact .inr hp'
          · exact absurd (h.inv.unique t' t r' r hr' own hp' hp (hs.trans hj)) ht
      · exact .inl (by simpa [hj] using hb)
    | dropBit _ _ c' i j' locked holder leaving =>
      left
      have hi : k.index ≠ i := fun e => by
        rw [e, holder] at hholder
        cases hholder
        rcases leaving with ⟨hbc, -⟩ | hd
        · exact hne hbc
        · exact hd ha
      by_cases hj : j = j'
      · subst hj; simpa [hi] using hb
      · simpa [hj] using hb
    | release c' _ k' m client held =>
      left
      have hi : k.index ≠ k'.index := fun e => by
        have hh := h.inv.active c' k' client hlive
        rw [← e, hholder] at hh
        cases hh
        exact hne rfl
      by_cases hj : j = m.slotIndex
      · rw [hj]; simpa [hi] using hj ▸ hb
      · simpa [hj] using hb
    | abandonMask _ _ j' locked gone =>
      by_cases hj : j = j'
      · refine .inr ⟨hj ▸ gone.2 hG, fun t r hr hs hl => .inr ?_⟩
        by_contra hp
        exact gone.1 t r hr (hs.trans hj) hp hl
      · exact .inl (by simpa [hj] using hb)
    | _ => exact .inl hb
  · rw [hf.eq]; exact .inl hb

/-- Nobody else frees the registry entry of a live consumer. -/
theorem holder {c : Nat} {i : Fin 64} (h : Rely G cap (.consumer c) p p')
    (hi : p.hist.holder i = some c) : p'.hist.holder i = some c := by
  have ha := h.alive
  rcases h.step with ⟨b, hne, -, hs⟩ | hf
  · cases hs with
    | register c' _ i' locked free =>
      have he : i ≠ i' := fun e => by rw [e, free] at hi; cases hi
      simpa [Ghost.register, he] using hi
    | deregister _ _ c' i' locked holder leaving =>
      have he : i ≠ i' := fun e => by
        rw [e, holder] at hi
        cases hi
        rcases leaving with ⟨hb, -⟩ | hd
        · exact hne hb
        · exact hd ha
      simpa [Ghost.deregister, he] using hi
    | _ => exact hi
  · rw [hf.eq]; exact hi

/-- A committed slot that carries the reader bit of an open consumer is not touched. -/
theorem pinned {c : Nat} {k : Registration} {j : Fin n} (h : Rely G cap (.consumer c) p p')
    (hG : ¬G.careless) (hk : p.client c k) (hc : p.state j = .committed)
    (hb : k.index ∈ p.mask j) : Untouched p p' j ∧ k.index ∈ p'.mask j := by
  refine ⟨?_, (h.bit hG hk hb).resolve_right fun hw => by rw [hc] at hw; cases hw.1⟩
  rcases h.step with ⟨b, -, -, hs⟩ | hf
  · -- it belongs to no reservation
    have hother : ∀ t r, p.hist.reservation t = some r → r.phase ≠ .returning → j ≠ r.slot :=
      fun t r hr hp e => h.inv.ne_of_writing hr hp (by simp [hc]) e.symm
    cases hs with
    | begin t _ j' mask locked idle free captured =>
      have hj : j ≠ j' := fun e => by
        have := (h.inv.free_of_avail free).1
        rw [← e] at this
        simp [this] at hb
      exact ⟨by simp [hj], rfl, rfl, rfl, rfl⟩
    | body t _ r hd pl own phase =>
      have hj := hother t r own phase
      exact ⟨rfl, rfl, by simp [hj], by simp [hj], rfl⟩
    | number t _ r locked own phase =>
      have hj := hother t r own (by simp [phase])
      exact ⟨rfl, by simp [Ghost.number, hj], rfl, rfl, rfl⟩
    | commit t _ r own phase =>
      have hj := hother t r own (by simp [phase])
      exact ⟨by simp [hj], rfl, rfl, rfl, by simp [Ghost.commit, Proto.publication, hj]⟩
    | free t _ r locked own phase =>
      have hj := hother t r own (by simp [phase])
      exact ⟨by simp [hj], rfl, rfl, rfl, rfl⟩
    | abandon _ _ j' locked gone =>
      have hj : j ≠ j' := fun e => by rw [e, gone.2 hG] at hc; cases hc
      exact ⟨by simp [hj], rfl, rfl, rfl, rfl⟩
    | _ => exact ⟨rfl, rfl, rfl, rfl, rfl⟩
  · rw [hf.eq]; exact ⟨rfl, rfl, rfl, rfl, rfl⟩

/-- A slot that is addressed to an open consumer stays addressed to it. -/
theorem addressed {c : Nat} {k : Registration} {j : Fin n} (h : Rely G cap (.consumer c) p p')
    (hG : ¬G.careless) (hk : p.client c k) (hA : p.Addressed k.index j) :
    p'.Addressed k.index j := by
  have ha := h.alive
  -- a bit that is there now is lost only with the slot
  have hkeep : ∀ t r, p'.hist.reservation t = some r → r.slot = j → p'.alive (.writer t) →
      r.phase = .masked ∨ r.phase = .inHand → k.index ∈ p.mask j → k.index ∈ p'.mask j :=
    fun t r hr hs hl hm hb => (h.bit hG hk hb).resolve_right fun hw => by
      rcases hw.2 t r hr hs hl with hp | hp <;> rw [hp] at hm <;> simp at hm
  have hcom : p.state j = .committed → k.index ∈ p'.mask j := fun hc =>
    (h.pinned hG hk hc (hA.1 hc)).2
  have hlive : ∀ {b}, p'.alive b → p.alive b := h.alive_of
  rcases h.step with ⟨b, -, hb, hs⟩ | hf
  · cases hs with
    | begin t _ j' mask locked idle free captured =>
      refine ⟨fun hc => hcom ?_, fun t' r' hr' hs hp hl => ?_⟩
      · by_cases hj : j = j'
        · simp [hj] at hc
        · simpa [hj] using hc
      · rcases Inv.begin_reservation.mp hr' with ⟨-, rfl⟩ | ⟨-, hr⟩
        · exact ⟨(captured _).mpr (by rw [h.inv.active c k hk ha]; nofun), by simp⟩
        · exact hA.2 t' r' hr hs hp hl
    | number t _ r locked own phase =>
      refine ⟨hcom, fun t' r' hr' hs hp hl => ?_⟩
      rcases (Inv.proceed_reservation own).mp hr' with ⟨rfl, rfl⟩ | ⟨-, hr⟩
      · exact ⟨(hA.2 t' r own hs (by rw [phase]; nofun) hl).1, by simp⟩
      · exact hA.2 t' r' hr hs hp hl
    | setMask t _ r locked own phase =>
      refine ⟨hcom, fun t' r' hr' hs hp hl => ?_⟩
      rcases (Inv.proceed_reservation own).mp hr' with ⟨rfl, rfl⟩ | ⟨-, hr⟩
      · have hm := (hA.2 t' r own hs (by rw [phase]; nofun) hl).1
        exact ⟨hm, fun _ => by simpa [← hs] using hm⟩
      · obtain ⟨hm, hb'⟩ := hA.2 t' r' hr hs hp hl
        exact ⟨hm, fun hph => hkeep t' r' hr' hs hl hph (hb' hph)⟩
    | advance t _ r locked own phase =>
      refine ⟨hcom, fun t' r' hr' hs hp hl => ?_⟩
      rcases (Inv.proceed_reservation own).mp hr' with ⟨rfl, rfl⟩ | ⟨-, hr⟩
      · obtain ⟨hm, hb'⟩ := hA.2 t' r own hs (by rw [phase]; nofun) hl
        exact ⟨hm, fun _ => hb' (.inl phase)⟩
      · exact hA.2 t' r' hr hs hp hl
    | commit t _ r own phase =>
      refine ⟨fun hc => ?_, fun t' r' hr' hs hp hl => ?_⟩
      · by_cases hj : j = r.slot
        · exact (hA.2 t r own hj.symm (by rw [phase]; nofun) hb).2 (.inr phase)
        · exact hcom (by simpa [hj] using hc)
      · exact hA.2 t' r' (Inv.drop_reservation.mp hr').2 hs hp hl
    | cancel t _ r locked own phase =>
      refine ⟨hcom, fun t' r' hr' hs hp hl => ?_⟩
      rcases (Inv.proceed_reservation own).mp hr' with ⟨rfl, rfl⟩ | ⟨-, hr⟩
      · exact ⟨(hA.2 t' r own hs (by rw [phase]; nofun) hl).1, by simp⟩
      · obtain ⟨hm, hb'⟩ := hA.2 t' r' hr hs hp hl
        exact ⟨hm, fun hph => hkeep t' r' hr' hs hl hph (hb' hph)⟩
    | free t _ r locked own phase =>
      refine ⟨fun hc => hcom ?_, fun t' r' hr' hs hp hl => ?_⟩
      · by_cases hj : j = r.slot
        · simp [hj] at hc
        · simpa [hj] using hc
      · rcases (Inv.proceed_reservation own).mp hr' with ⟨-, rfl⟩ | ⟨-, hr⟩
        · exact absurd rfl hp
        · exact hA.2 t' r' hr hs hp hl
    | forget t _ r handedBack locked own phase =>
      exact ⟨hcom, fun t' r' hr' hs hp hl => hA.2 t' r' (Inv.drop_reservation.mp hr').2 hs hp hl⟩
    | abandon _ _ j' locked gone =>
      refine ⟨fun hc => hcom ?_, fun t' r' hr' hs hp hl => ?_⟩
      · by_cases hj : j = j'
        · simp [hj] at hc
        · simpa [hj] using hc
      · exact hA.2 t' r' (Inv.abandon_reservation.mp hr').1 hs hp hl
    | _ =>
      refine ⟨hcom, fun t' r' hr' hs hp hl => ?_⟩
      obtain ⟨hm, hb'⟩ := hA.2 t' r' hr' hs hp hl
      exact ⟨hm, fun hph => hkeep t' r' hr' hs hl hph (hb' hph)⟩
  · rw [hf.eq] at hcom hkeep hlive ⊢
    exact ⟨hcom, fun t' r' hr' hs hp hl => hA.2 t' r' hr' hs hp (hlive hl)⟩

end Rely

/-! ## a consumer's own transitions -/

/-- A consumer that stays open touches none of the committed slots that carry its bit, but for the
bit of a lease that it releases. -/
theorem Step.own_pinned {G : Guards n} {cap : Nat} {c : Nat} {k : Registration} {j : Fin n}
    {p p' : Proto n} (h : Step G cap (.consumer c) p p') (hG : ¬G.careless) (hi : Inv cap p)
    (hl : p.alive (.consumer c)) (hk : p.client c k) (hopen : ∃ k', p'.client c k')
    (hc : p.state j = .committed) (hb : k.index ∈ p.mask j) :
    Untouched p p' j ∧ (k.index ∈ p'.mask j ∨
      ∃ m ∈ p.leases c, m.slotIndex = j ∧ p'.leases c = (p.leases c).erase m) := by
  have hholder := hi.active c k hk hl
  cases h with
  | dropBit _ _ c' i j' locked holder leaving =>
    refine ⟨⟨rfl, rfl, rfl, rfl, rfl⟩, .inl ?_⟩
    have hne : k.index ≠ i := fun e => by
      rw [e, holder] at hholder
      cases hholder
      rcases leaving with ⟨-, k', hk', hcl⟩ | hd
      · have hk₁ : p.hist.registration c = some k := hk.1
        rw [hk₁] at hk'
        cases hk'
        exact absurd hcl (by simp [hk.2])
      · exact hd hl
    by_cases hj : j = j'
    · subst hj; simpa [hne] using hb
    · simpa [hj] using hb
  | release _ _ k' m client held =>
    refine ⟨⟨rfl, rfl, rfl, rfl, rfl⟩, ?_⟩
    by_cases hj : j = m.slotIndex
    · exact .inr ⟨m, held, hj.symm, by simp⟩
    · exact .inl (by simpa [hj] using hb)
  | abandonMask _ _ j' locked gone =>
    have hj : j ≠ j' := fun e => by rw [e, gone.2 hG] at hc; cases hc
    exact ⟨⟨rfl, rfl, rfl, rfl, rfl⟩, .inl (by simpa [hj] using hb)⟩
  | abandon _ _ j' locked gone =>
    have hj : j ≠ j' := fun e => by rw [e, gone.2 hG] at hc; cases hc
    exact ⟨⟨by simp [hj], rfl, rfl, rfl, rfl⟩, .inl hb⟩
  | _ => exact ⟨⟨rfl, rfl, rfl, rfl, rfl⟩, .inl hb⟩

end TenzorBus
