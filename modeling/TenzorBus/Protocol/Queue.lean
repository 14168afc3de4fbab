import TenzorBus.Protocol.Slots
import TenzorBus.Protocol.Numbers

/-!
# The queue

As long as nobody dies and at most one reservation is unfinished at a time, the publications are
numbered in the order of their commits, and every consumer that has registered between two
reservations stands at one place in that order: it has been handed everything from its registration
up to there, and everything after that waits for it in its slot.

* `Proto.Counter` : the numbers are the positions
* `Proto.Place` : what a consumer has been handed
* `Proto.Waiting` : what waits for it
* `Proto.Fifo.step` : every transition keeps all of it, if the next publication is taken next
-/

namespace TenzorBus

variable {n : Nat}

/-- A reservation is begun only when none is unfinished. -/
def Singly (p p' : Proto n) : Prop :=
  p'.hist.begun ≠ p.hist.begun → ∀ t, p.hist.reservation t = none

/-! ## numbers and positions -/

/-- The counter stands at the number of the next publication, or behind it when a reservation has
taken that. -/
structure Proto.Counter (first : Int) (p : Proto n) : Prop where
  single : ∀ t t' r r', p.hist.reservation t = some r → p.hist.reservation t' = some r' → t = t'
  idle : (∀ t, p.hist.reservation t = none) → p.hist.next = first + p.hist.published.length
  next : ∀ t r, p.hist.reservation t = some r →
    p.hist.next = first + p.hist.published.length + if r.phase.past = true then 1 else 0
  number : ∀ t r, p.hist.reservation t = some r → r.phase ≠ .header →
    p.hist.num r.slot = first + p.hist.published.length
  position : ∀ j, p.state j = .committed → p.hist.num j = first + p.hist.position j

namespace Proto.Counter

variable {first : Int} {G : Guards n} {cap : Nat} {a : Actor} {p p' : Proto n} {t : Nat}
  {r : Reservation n}

/-- Nothing happens to the numbers. -/
theorem same (h : p.Counter first) (hr : p'.hist.reservation = p.hist.reservation)
    (hn : p'.hist.next = p.hist.next) (hp : p'.hist.published = p.hist.published)
    (hnum : p'.hist.num = p.hist.num) (hpos : p'.hist.position = p.hist.position)
    (hs : p'.state = p.state) : p'.Counter first := by
  obtain ⟨single, idle, next, number, position⟩ := h
  rw [← hr] at single idle next number
  rw [← hn, ← hp] at idle next
  rw [← hp, ← hnum] at number
  rw [← hs, ← hnum, ← hpos] at position
  exact ⟨single, idle, next, number, position⟩

theorem begin (h : p.Counter first) (idle : ∀ t, p.hist.reservation t = none) {j : Fin n}
    {mask : UInt64} : Counter first { p with
      state := Function.update p.state j .writing
      hist := p.hist.begin t j mask } where
  single t₁ t₂ r₁ r₂ h₁ h₂ := by
    rcases Inv.begin_reservation.mp h₁ with ⟨rfl, -⟩ | ⟨-, h₁⟩
    · rcases Inv.begin_reservation.mp h₂ with ⟨rfl, -⟩ | ⟨-, h₂⟩
      · rfl
      · rw [idle] at h₂
        cases h₂
    · rw [idle] at h₁
      cases h₁
  idle hn := absurd (hn t) (by simp [Ghost.begin])
  next t' r' hr' := by
    rcases Inv.begin_reservation.mp hr' with ⟨-, rfl⟩ | ⟨-, hr'⟩
    · simpa [Phase.past, Ghost.begin] using h.idle idle
    · rw [idle] at hr'
      cases hr'
  number t' r' hr' hp := by
    rcases Inv.begin_reservation.mp hr' with ⟨-, rfl⟩ | ⟨-, hr'⟩
    · exact absurd rfl hp
    · rw [idle] at hr'
      cases hr'
  position j' hc := by
    have hj : j' ≠ j := fun e => by simp [e] at hc
    exact h.position j' (by simpa [hj] using hc)

/-- The reservation that moves on is the only one. -/
theorem only (h : p.Counter first) (own : p.hist.reservation t = some r) {ph : Phase} {t' : Nat}
    {r' : Reservation n} (hr' : (p.hist.proceed t ph).reservation t' = some r') :
    t' = t ∧ r' = { r with phase := ph } := by
  rcases (Inv.proceed_reservation own).mp hr' with hsame | ⟨ht, hr'⟩
  · exact hsame
  · exact absurd (h.single t' t r' r hr' own) ht

theorem proceed_ne_none (own : p.hist.reservation t = some r) (ph : Phase) :
    (p.hist.proceed t ph).reservation t ≠ none := by
  simp [Ghost.proceed, own]

theorem proceed (h : p.Counter first) (own : p.hist.reservation t = some r) (ph : Phase)
    (hpast : ph.past = r.phase.past) (hhead : ph ≠ .header → r.phase ≠ .header) :
    Counter first { p with hist := p.hist.proceed t ph } where
  single t₁ t₂ r₁ r₂ h₁ h₂ := (h.only own h₁).1.trans (h.only own h₂).1.symm
  idle hn := absurd (hn t) (proceed_ne_none own ph)
  next t' r' hr' := by
    obtain ⟨-, rfl⟩ := h.only own hr'
    rw [hpast]
    exact h.next t r own
  number t' r' hr' hp := by
    obtain ⟨-, rfl⟩ := h.only own hr'
    exact h.number t r own (hhead hp)
  position := h.position

theorem assign (h : p.Counter first) (hi : Inv cap p) (own : p.hist.reservation t = some r)
    (phase : r.phase = .header) : Counter first { p with hist := p.hist.number t r.slot } where
  single t₁ t₂ r₁ r₂ h₁ h₂ := (h.only own h₁).1.trans (h.only own h₂).1.symm
  idle hn := absurd (hn t) (proceed_ne_none own .numbered)
  next t' r' hr' := by
    obtain ⟨-, rfl⟩ := h.only own hr'
    have hnext := h.next t r own
    rwa [phase] at hnext
  number t' r' hr' _ := by
    obtain ⟨-, rfl⟩ := h.only own hr'
    simpa [Ghost.number, Ghost.proceed, Phase.past, phase] using h.next t r own
  position j hc := by
    have hj : j ≠ r.slot := (hi.ne_of_writing own (by rw [phase]; simp)
      (show p.state j ≠ .writing by rw [hc]; simp)).symm
    simpa [Ghost.number, Ghost.proceed, hj] using h.position j hc

theorem advance (h : p.Counter first) (own : p.hist.reservation t = some r)
    (phase : r.phase = .masked) : Counter first { p with hist := p.hist.advance t } where
  single t₁ t₂ r₁ r₂ h₁ h₂ := (h.only own h₁).1.trans (h.only own h₂).1.symm
  idle hn := absurd (hn t) (proceed_ne_none own .inHand)
  next t' r' hr' := by
    obtain ⟨-, rfl⟩ := h.only own hr'
    simpa [Ghost.advance, Ghost.proceed, Phase.past, phase] using h.next t r own
  number t' r' hr' _ := by
    obtain ⟨-, rfl⟩ := h.only own hr'
    exact h.number t r own (by rw [phase]; simp)
  position := h.position

/-- The only reservation ends. -/
theorem none_left (h : p.Counter first) (own : p.hist.reservation t = some r) {t' : Nat}
    {r' : Reservation n}
    (hr' : Function.update p.hist.reservation t none t' = some r') : False := by
  obtain ⟨ht, hr'⟩ := Inv.drop_reservation.mp hr'
  exact ht (h.single t' t r' r hr' own)

theorem commit (h : p.Counter first) (own : p.hist.reservation t = some r)
    (phase : r.phase = .inHand) : Counter first { p with
      state := Function.update p.state r.slot .committed
      hist := p.hist.commit t (p.publication r) } where
  single _ _ _ _ h₁ _ := (h.none_left own h₁).elim
  idle _ := by
    have := h.next t r own
    simp only [Ghost.commit, List.length_append, List.length_singleton, phase, Phase.past,
      ↓reduceIte] at this ⊢
    push_cast
    omega
  next _ _ h₁ := (h.none_left own h₁).elim
  number _ _ h₁ := (h.none_left own h₁).elim
  position j hc := by
    by_cases hj : j = r.slot
    · subst hj
      simpa [Ghost.commit, Proto.publication] using h.number t r own (by rw [phase]; simp)
    · simpa [Ghost.commit, Proto.publication, hj] using h.position j (by simpa [hj] using hc)

/-- An abort always gets its number back. -/
theorem forget (h : p.Counter first) (own : p.hist.reservation t = some r)
    (phase : r.phase = .returning) {handedBack : Bool}
    (exchange : handedBack = true ↔ seqWord p.hist.next = seqWord (p.hist.num r.slot + 1)) :
    Counter first { p with hist := p.hist.forget t handedBack } where
  single _ _ _ _ h₁ _ := (h.none_left own h₁).elim
  idle _ := by
    have hnext := h.next t r own
    simp only [phase, Phase.past, ↓reduceIte] at hnext
    have hback : handedBack = true := exchange.mpr (by
      rw [hnext, h.number t r own (by rw [phase]; simp)])
    simp only [Ghost.forget, hback, ↓reduceIte]
    omega
  next _ _ h₁ := (h.none_left own h₁).elim
  number _ _ h₁ := (h.none_left own h₁).elim
  position := h.position

/-- A slot of the living is never gone. -/
theorem step (h : p.Counter first) (hi : Inv cap p) (hG : ¬G.careless) (live : ∀ a, p.alive a)
    (hs : Step G cap a p p') (hone : Singly p p') : p'.Counter first := by
  cases hs with
  | begin t _ j mask locked idle free captured =>
    exact h.begin (hone (by simp [Ghost.begin]))
  | number t _ r locked own phase => exact h.assign hi own phase
  | setMask t _ r locked own phase =>
    exact (h.proceed own .masked (by rw [phase]; rfl) (by rw [phase]; simp)).same rfl rfl rfl rfl
      rfl rfl
  | advance t _ r locked own phase => exact h.advance own phase
  | commit t _ r own phase => exact h.commit own phase
  | cancel t _ r locked own phase =>
    exact (h.proceed own .aborting (by rw [phase]; rfl) (by rw [phase]; simp)).same rfl rfl rfl rfl
      rfl rfl
  | free t _ r locked own phase =>
    have h' := h.proceed own .returning (by rw [phase]; rfl) (by rw [phase]; simp)
    exact { h' with
      position := fun j hc => by
        have hj : j ≠ r.slot := fun e => by simp [e] at hc
        exact h'.position j (by simpa [hj] using hc) }
  | forget t _ r handedBack locked own phase exchange => exact h.forget own phase exchange
  | abandonMask _ _ j locked gone => exact absurd gone (hi.not_gone hG live)
  | abandon _ _ j locked gone => exact absurd gone (hi.not_gone hG live)
  | _ => exact h.same rfl rfl rfl rfl rfl rfl

/-- The number of a slot changes only when it becomes the next one. -/
theorem num_cases (h : p.Counter first) (hs : Step G cap a p p') (j : Fin n) :
    p'.hist.num j = p.hist.num j ∨ p'.hist.num j = first + p.hist.published.length := by
  cases hs with
  | number t _ r locked own phase =>
    by_cases hj : j = r.slot
    · have hnext := h.next t r own
      simp only [phase, Phase.past] at hnext
      right
      simpa [Ghost.number, hj] using hnext
    · left
      simp [Ghost.number, hj]
  | _ => exact .inl rfl

end Proto.Counter

/-! ## the place of a consumer -/

/-- The tensor is the publication. -/
structure TensorMeta.Of (m : TensorMeta n) (pub : Publication n) : Prop where
  slot : m.slotIndex = pub.slot
  sequence : m.sequence = pub.sequence
  header : m.Describes pub.header

/-- How many publications had been committed when consumer `c` registered, or have been handed to
it since. -/
def Proto.seen (p : Proto n) (c : Nat) (k : Registration) : Nat :=
  k.start + (p.hist.handed c).length

/-- What the consumer has been handed are the publications from its registration up to its place,
and no answer `none` has been wrong. -/
structure Proto.Place (first : Int) (p : Proto n) (c : Nat) (k : Registration) : Prop where
  last : k.last = first + p.seen c k - 1
  le : p.seen c k ≤ p.hist.published.length
  handed : ∀ i m, (p.hist.handed c)[i]? = some m →
    ∃ pub, p.hist.published[k.start + i]? = some pub ∧ m.Of pub
  answered : ∀ x ∈ p.hist.tries c, x.result = none → x.start ≤ k.start + x.handed

/-- Every publication from the consumer's place on is in its slot and addressed to the consumer, and
so will be what is being published. Whatever else carries the consumer's bit is leased. -/
structure Proto.Waiting (p : Proto n) (c : Nat) (k : Registration) : Prop where
  unread : ∀ i pub, p.seen c k ≤ i → p.hist.published[i]? = some pub →
    p.state pub.slot = .committed ∧ p.hist.position pub.slot = i ∧ k.index ∈ p.mask pub.slot
  addressed : ∀ t, p.AddressedBy k.index t
  leased : ∀ j, p.state j = .committed → k.index ∈ p.mask j → p.hist.position j < p.seen c k →
    ∃ m ∈ p.leases c, m.slotIndex = j

/-- The guards of a use of the ring in which the consumers that register between two reservations
take one publication after the other. -/
def Guards.queue (n : Nat) : Guards n where
  take p c m := ∀ k, p.client c k → k.quiet → p.hist.num m.slotIndex = k.last + 1
  answer p c result := ∀ k, p.hist.registration c = some k → k.quiet → result = none →
    p.hist.trying c ≤ p.seen c k
  loose k := ¬k.quiet
  careless := False

/-- Numbers are positions, and every consumer that has registered between two reservations has its
place. -/
structure Proto.Fifo (first : Int) (p : Proto n) : Prop where
  counter : p.Counter first
  place : ∀ c k, p.hist.registration c = some k → k.quiet → p.Place first c k
  waiting : ∀ c k, p.concerns True c k → p.Waiting c k
  fresh : ∀ c, p.hist.registration c = none → p.hist.handed c = []
  trying : ∀ c, p.hist.trying c ≤ p.hist.published.length
  tries : ∀ c, ∀ x ∈ p.hist.tries c, x.start ≤ p.hist.published.length

section

variable {first : Int} {G : Guards n} {cap : Nat} {a : Actor} {p p' : Proto n} {c : Nat}
  {k k' : Registration}

/-! ### what has been handed over -/

/-- More may be published. -/
theorem Proto.Place.same (h : p.Place first c k) (hl : k'.last = k.last)
    (hstart : k'.start = k.start) (hh : p'.hist.handed c = p.hist.handed c)
    (ht : p'.hist.tries c = p.hist.tries c)
    (hp : p.hist.published <+: p'.hist.published) : p'.Place first c k' := by
  have hseen : p'.seen c k' = p.seen c k := by
    unfold Proto.seen
    rw [hstart, hh]
  constructor
  · rw [hl, hseen]
    exact h.last
  · rw [hseen]
    exact h.le.trans hp.length_le
  · intro i m hm
    rw [hh] at hm
    obtain ⟨pub, hpub, hof⟩ := h.handed i m hm
    obtain ⟨hi, rfl⟩ := List.getElem?_eq_some_iff.mp hpub
    rw [hstart]
    exact ⟨_, List.prefix_iff_getElem?.mp hp _ hi, hof⟩
  · rw [ht, hstart]
    exact h.answered

/-- The next publication is handed over. -/
theorem Proto.Place.take (h : p.Place first c k) (hcount : p.Counter first) (hi : Inv cap p)
    {m : TensorMeta n} (good : p.Matches m) (hnext : p.hist.num m.slotIndex = k.last + 1)
    {leases : Nat → List (TensorMeta n)} :
    Place first { p with leases := leases, hist := p.hist.hand c m } c
      { k with last := p.hist.num m.slotIndex } := by
  have hlast := h.last
  have hpos := hcount.position m.slotIndex good.committed
  obtain ⟨mask, hcontent, -⟩ := hi.content m.slotIndex good.committed
  have hseen : p.hist.position m.slotIndex = p.seen c k := by omega
  rw [hseen] at hcontent
  obtain ⟨hlt, -⟩ := List.getElem?_eq_some_iff.mp hcontent
  constructor
  · simp only [Proto.seen, Ghost.hand, Function.update_self, List.length_append,
      List.length_singleton] at hlast ⊢
    omega
  · simp only [Proto.seen, Ghost.hand, Function.update_self, List.length_append,
      List.length_singleton] at hlt ⊢
    omega
  · intro i m' hm'
    simp only [Ghost.hand, Function.update_self] at hm' ⊢
    rcases lt_or_ge i (p.hist.handed c).length with hi' | hi'
    · rw [List.getElem?_append_left hi'] at hm'
      exact h.handed i m' hm'
    · rw [List.getElem?_append_right hi'] at hm'
      obtain ⟨hzero, hm'⟩ := List.getElem?_eq_some_iff.mp hm'
      rw [List.length_singleton] at hzero
      obtain rfl : m = m' := by simpa [Nat.lt_one_iff.mp hzero] using hm'
      have hi'' : i = (p.hist.handed c).length := by omega
      subst hi''
      exact ⟨_, hcontent, rfl, good.sequence, good.header⟩
  · exact h.answered

theorem Proto.Fifo.place_step (h : p.Fifo first) (hi : Inv cap p)
    (hs : Step (Guards.queue n) cap a p p') (hk' : p'.hist.registration c = some k')
    (hq : k'.quiet) : p'.Place first c k' := by
  have hpub := hs.published
  cases hs with
  | register c' _ i locked free fresh =>
    by_cases hc : c = c'
    · subst hc
      obtain rfl : p.hist.registrationNow i = k' := by simpa [Ghost.register] using hk'
      have hhanded := h.fresh c fresh
      have hnext := h.counter.idle hq
      constructor
      · show p.hist.next - 1 =
          first + ((p.hist.published.length + (p.hist.handed c).length : Nat) : Int) - 1
        rw [hhanded, hnext]
        simp
      · show p.hist.published.length + (p.hist.handed c).length ≤ p.hist.published.length
        simp [hhanded]
      · intro j m hm
        have hm : (p.hist.handed c)[j]? = some m := hm
        rw [hhanded] at hm
        simp at hm
      · exact fun x hx _ => (h.tries c x hx).trans (Nat.le_add_right _ _)
    · have hk : p.hist.registration c = some k' := by simpa [Ghost.register, hc] using hk'
      exact (h.place c k' hk hq).same rfl rfl rfl rfl hpub
  | closing c' =>
    by_cases hc : c = c'
    · subst hc
      obtain ⟨k₀, hk₀, rfl⟩ := Option.map_eq_some_iff.mp
        (show (p.hist.registration c).map _ = some k' by simpa [Ghost.closing] using hk')
      exact (h.place c k₀ hk₀ hq).same rfl rfl rfl rfl hpub
    · have hk : p.hist.registration c = some k' := by simpa [Ghost.closing, hc] using hk'
      exact (h.place c k' hk hq).same rfl rfl rfl rfl hpub
  | take c' _ k₀ m client grants =>
    by_cases hc : c = c'
    · subst hc
      obtain rfl : { k₀ with last := p.hist.num m.slotIndex } = k' := by
        simpa [Ghost.hand, client.1] using hk'
      obtain ⟨⟨good, -⟩, -, htake⟩ := grants id
      exact (h.place c k₀ client.1 hq).take h.counter hi good (htake k₀ client hq)
    · have hk : p.hist.registration c = some k' := by simpa [Ghost.hand, hc] using hk'
      exact (h.place c k' hk hq).same rfl rfl (by simp [Ghost.hand, hc]) rfl hpub
  | endTry c' _ result answer =>
    have hplace := h.place c k' hk' hq
    by_cases hc : c = c'
    · subst hc
      refine { hplace with answered := fun x hx hnone => ?_ }
      have hx : x ∈ p.hist.tries c ∨ x =
          { start := p.hist.trying c, handed := (p.hist.handed c).length, result := result } := by
        simpa [Ghost.endTry] using hx
      rcases hx with hx | rfl
      · exact hplace.answered x hx hnone
      · exact answer k' hk' hq hnone
    · exact hplace.same rfl rfl rfl (by simp [Ghost.endTry, hc]) hpub
  | _ => exact (h.place c k' hk' hq).same rfl rfl rfl rfl hpub

/-- Whoever concerns us is handed the next number. -/
theorem Step.taken_next (hs : Step (Guards.queue n) cap a p p') (hk : p.concerns True c k)
    {m : TensorMeta n} (hm : p'.hist.handed c = p.hist.handed c ++ [m]) :
    p.hist.num m.slotIndex = k.last + 1 := by
  cases hs with
  | take c' _ k₀ m₀ client grants =>
    obtain ⟨-, -, htake⟩ := grants id
    have hc : c = c' := by
      by_contra hne
      simp [Ghost.hand, hne] at hm
    subst hc
    obtain rfl : m₀ = m := by simpa [Ghost.hand] using hm
    exact htake k hk.1 (hk.2 trivial)
  | _ => exact absurd hm (by simp [Ghost.begin, Ghost.proceed, Ghost.number, Ghost.advance,
      Ghost.commit, Ghost.forget, Ghost.register, Ghost.closing, Ghost.deregister, Ghost.beginTry,
      Ghost.endTry, Ghost.validate, Ghost.abandon, Ghost.change, Ghost.settle, Ghost.count,
      Ghost.refuse, Ghost.violate, Ghost.beginSweep, Ghost.endSweep])

theorem Step.ascends (hs : Step (Guards.queue n) cap a p p') : Ascends True p p' :=
  fun _ _ _ hk hm => by
    have := hs.taken_next hk hm
    omega

/-! ### what waits -/

/-- A lease is on something that the consumer has been handed. -/
theorem Proto.Fifo.lt_seen (h : p.Fifo first) (hk : p.concerns True c k) {m : TensorMeta n}
    (hm : p.Held k m) : p.hist.position m.slotIndex < p.seen c k := by
  have hlast := (h.place c k hk.1.1 (hk.2 trivial)).last
  have hpos := h.counter.position m.slotIndex hm.good.committed
  have := hm.seen
  omega

/-- Nothing is handed to the consumer. -/
theorem Proto.Fifo.waiting_stayed (h : p.Fifo first) (hi : Inv cap p) (live : ∀ a, p.alive a)
    (hl : Leasing True p) (hs : Step (Guards.queue n) cap a p p') (hk : p.concerns True c k)
    (hk' : p'.client c k) (hh : p'.hist.handed c = p.hist.handed c) : p'.Waiting c k := by
  have hw := h.waiting c k hk
  have hseen : p'.seen c k = p.seen c k := by
    unfold Proto.seen
    rw [hh]
  constructor
  · intro i pub hle hpub
    rw [hseen] at hle
    rcases hs.published_cases hpub with hold | ⟨t, r, own, phase, rfl, rfl, hc, hpos, hmask⟩
    · obtain ⟨hc, hpos, hb⟩ := hw.unread i pub hle hold
      obtain ⟨hu, hb'⟩ := hs.pinned id hi live hk.1 ⟨k, hk'⟩ hc hb
      refine ⟨hu.state.trans hc, hu.position.trans hpos, hb'.resolve_right ?_⟩
      rintro ⟨m, hm, hslot, -⟩
      have := h.lt_seen hk (hl.held c k hk (live _) m hm)
      rw [hslot, hpos] at this
      omega
    · refine ⟨hc, hpos, ?_⟩
      rw [hmask]
      exact (hw.addressed t r own (by rw [phase]; simp) (by rw [phase]; simp)).2 (.inr phase)
  · exact fun t => hs.addressed_by hi id live hl hk (hw.addressed t)
  · intro j hc hb hlt
    rw [hseen] at hlt
    rcases hs.committed_cases hi hc hb with ⟨hc₀, hb₀, hpos, -⟩ | ⟨t, r, own, -, rfl, -, hpos⟩
    · rw [hpos] at hlt
      obtain ⟨m, hm, rfl⟩ := hw.leased j hc₀ hb₀ hlt
      exact ⟨m, hs.keeps_lease hk.1 (not_not.mpr (hk.2 trivial)) hm hb, rfl⟩
    · have := (h.place c k hk.1.1 (hk.2 trivial)).le
      rw [hpos] at hlt
      simp only [Ghost.commit, Proto.publication, Function.update_self] at hlt
      omega

/-- The consumer takes the next publication. -/
theorem Proto.Fifo.waiting_took (h : p.Fifo first) (hi : Inv cap p) (hk : p.concerns True c k)
    {m : TensorMeta n} (good : p.Matches m) (hnext : p.hist.num m.slotIndex = k.last + 1) :
    Waiting { p with
      leases := Function.update p.leases c (m :: p.leases c)
      hist := p.hist.hand c m } c { k with last := p.hist.num m.slotIndex } := by
  have hw := h.waiting c k hk
  have hlast := (h.place c k hk.1.1 (hk.2 trivial)).last
  have hseen : ∀ q : Proto n, q.hist = p.hist.hand c m →
      q.seen c { k with last := p.hist.num m.slotIndex } = p.seen c k + 1 := by
    intro q hq
    simp only [Proto.seen, hq, Ghost.hand, Function.update_self, List.length_append,
      List.length_singleton]
    omega
  constructor
  · intro i pub hle hpub
    rw [hseen _ rfl] at hle
    exact hw.unread i pub (by omega) hpub
  · exact hw.addressed
  · intro j hc hb hlt
    rw [hseen _ rfl] at hlt
    have hc : p.state j = .committed := hc
    have hlt : p.hist.position j < p.seen c k + 1 := hlt
    by_cases hold : p.hist.position j < p.seen c k
    · obtain ⟨m', hm', hslot⟩ := hw.leased j hc hb hold
      exact ⟨m', by simp [hm'], hslot⟩
    · -- one publication is in one slot
      have hpos := h.counter.position m.slotIndex good.committed
      obtain ⟨mask, hcontent, -⟩ := hi.content j hc
      obtain ⟨mask', hcontent', -⟩ := hi.content m.slotIndex good.committed
      have hsame : p.hist.position m.slotIndex = p.hist.position j := by omega
      rw [hsame] at hcontent'
      have hslot := congrArg Publication.slot (Option.some.inj (hcontent'.symm.trans hcontent))
      exact ⟨m, by simp, hslot⟩

/-- Nothing waits for a consumer that has just registered between two reservations. -/
theorem Proto.waiting_registered (hi : Inv cap p) {i : Fin 64} (free : p.hist.holder i = none)
    (hq : (p.hist.registrationNow i).quiet) :
    Waiting { p with hist := p.hist.register c i } c (p.hist.registrationNow i) where
  unread j pub hle hpub := by
    have hlen : p.hist.published.length ≤ j := le_trans (Nat.le_add_right _ _) hle
    have hpub : p.hist.published[j]? = some pub := hpub
    rw [List.getElem?_eq_none hlen] at hpub
    cases hpub
  addressed t r hr := by
    have hr : p.hist.reservation t = some r := hr
    rw [hq t] at hr
    cases hr
  leased j _ hb := absurd free (hi.bits i j hb)

theorem Proto.Fifo.waiting_step (h : p.Fifo first) (hi : Inv cap p) (live : ∀ a, p.alive a)
    (hl : Leasing True p) (hs : Step (Guards.queue n) cap a p p') (hk' : p'.concerns True c k') :
    p'.Waiting c k' := by
  rcases hs.client id hk'.1 with ⟨i, -, -, free, rfl, rfl⟩ | ⟨client, -, hh⟩ |
    ⟨k₀, m, client, good, -, -, rfl, rfl⟩
  · exact Proto.waiting_registered hi free (hk'.2 trivial)
  · exact h.waiting_stayed hi live hl hs ⟨client, hk'.2⟩ hk'.1 hh
  · refine h.waiting_took hi ⟨client, hk'.2⟩ good ?_
    exact hs.taken_next ⟨client, hk'.2⟩ (by simp [Ghost.hand])

theorem Proto.Fifo.step (h : p.Fifo first) (hi : Inv cap p) (live : ∀ a, p.alive a)
    (hl : Leasing True p) (hs : Step (Guards.queue n) cap a p p') (hone : Singly p p') :
    p'.Fifo first where
  counter := h.counter.step hi id live hs hone
  place _ _ hk hq := h.place_step hi hs hk hq
  waiting _ _ hk := h.waiting_step hi live hl hs hk
  fresh c hc := by
    have hold : p.hist.registration c = none := by
      by_contra hne
      obtain ⟨k, hk⟩ := Option.ne_none_iff_exists'.mp hne
      obtain ⟨last, closing, hk'⟩ := hs.registration hk
      rw [hk'] at hc
      cases hc
    cases hs with
    | take c' _ k m client =>
      have hne : c ≠ c' := fun e => by rw [e, client.1] at hold; cases hold
      simpa [Ghost.hand, hne] using h.fresh c hold
    | _ => exact h.fresh c hold
  trying := hs.trying_le h.trying
  tries c x hx := by
    have hlen := hs.published.length_le
    cases hs with
    | endTry c' _ result answer =>
      by_cases hc : c = c'
      · subst hc
        have hx : x ∈ p.hist.tries c ∨ x =
            { start := p.hist.trying c, handed := (p.hist.handed c).length, result := result } := by
          simpa [Ghost.endTry] using hx
        rcases hx with hx | rfl
        · exact h.tries c x hx
        · exact h.trying c
      · exact h.tries c x (by simpa [Ghost.endTry, hc] using hx)
    | _ => exact (h.tries c x hx).trans hlen

/-- Processes may die. -/
theorem Proto.Fifo.fades (h : p.Fifo first) (hf : Fades p p') : p'.Fifo first := by
  rw [hf.eq]
  exact {
    counter := h.counter.same rfl rfl rfl rfl rfl rfl
    place := fun c k hk hq => (h.place c k hk hq).same rfl rfl rfl rfl (List.prefix_refl _)
    waiting := fun c k hk =>
      have hw := h.waiting c k hk
      ⟨hw.unread, hw.addressed, hw.leased⟩
    fresh := h.fresh
    trying := h.trying
    tries := h.tries }

/-! ## the window -/

/-- No lease of an open consumer spans more than `2 ^ 63` publications. -/
def Proto.Near (p : Proto n) : Prop :=
  ∀ c k m, p.client c k → m ∈ p.leases c → k.last - p.hist.num m.slotIndex ≤ 2 ^ 63

/-- No more publications wait than there are slots. -/
theorem Proto.Waiting.few (h : p.Waiting c k) :
    p.hist.published.length - p.seen c k ≤ n := by
  have hpos : ∀ i pub, (p.hist.published.drop (p.seen c k))[i]? = some pub →
      p.hist.position pub.slot = p.seen c k + i := fun i pub hpub => by
    rw [List.getElem?_drop] at hpub
    exact (h.unread _ pub (Nat.le_add_right _ _) hpub).2.1
  -- two of them in one slot have one position
  have hnodup : ((p.hist.published.drop (p.seen c k)).map (·.slot)).Nodup := by
    refine List.nodup_iff_getElem?_ne_getElem?.mpr fun i j hij hj he => ?_
    rw [List.length_map] at hj
    rw [List.getElem?_map, List.getElem?_map, List.getElem?_eq_getElem hj,
      List.getElem?_eq_getElem (hij.trans hj)] at he
    have hi' := hpos i _ (List.getElem?_eq_getElem (hij.trans hj))
    have hj' := hpos j _ (List.getElem?_eq_getElem hj)
    have hslot : ((p.hist.published.drop (p.seen c k))[i]).slot =
        ((p.hist.published.drop (p.seen c k))[j]).slot := Option.some.inj he
    rw [hslot] at hi'
    omega
  have hle := (hnodup.subperm fun j _ => List.mem_finRange j).length_le
  simpa using hle

/-- Of what carries its bit a consumer finds new what waits for it. -/
theorem Proto.Fifo.seqNewer_iff (h : p.Fifo first) (hn : n < 2 ^ 62) (hnear : p.Near)
    (hi : Inv cap p) (hk : p.concerns True c k) {j : Fin n} (hc : p.state j = .committed)
    (hb : k.index ∈ p.mask j) :
    seqNewer (seqWord (p.hist.num j)) (seqWord k.last) = true ↔ p.seen c k ≤ p.hist.position j := by
  have hplace := h.place c k hk.1.1 (hk.2 trivial)
  have hw := h.waiting c k hk
  have hlast := hplace.last
  have hle := hplace.le
  have hpos := h.counter.position j hc
  have hfew := hw.few
  obtain ⟨mask, hcontent, -⟩ := hi.content j hc
  obtain ⟨hlt, -⟩ := List.getElem?_eq_some_iff.mp hcontent
  have hspan : k.last - p.hist.num j ≤ 2 ^ 63 := by
    by_cases hold : p.hist.position j < p.seen c k
    · obtain ⟨m, hm, rfl⟩ := hw.leased j hc hb hold
      exact hnear c k m hk.1 hm
    · omega
  rw [seqNewer_seqWord hspan (by omega)]
  omega

end

end TenzorBus
