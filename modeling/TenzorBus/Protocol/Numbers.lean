import TenzorBus.Protocol.Frame
import TenzorBus.Word.Ledger
import Mathlib.Data.Finset.Insert

/-!
# Where the sequence numbers are

As long as nobody dies, every sequence number that the counter has gone past is that of a
publication, or of a reservation whose slot is in hand or being given back, or it was lost when an
abort did not hand it back.

* `Proto.counts` : the reservations whose number the counter has gone past
* `Numbered` : the ledger of the numbers
* `Numbered.step` : every transition keeps it, if those who return a number may lose it
-/

namespace TenzorBus

variable {n : Nat}

/-- The counter has gone past the number of the reservation. -/
def Phase.past : Phase → Bool
  | .inHand | .aborting | .returning => true
  | _ => false

/-- The sequence of the slot that writer `t` has reserved. -/
def Ghost.word (g : Ghost n) (t : Nat) : UInt64 :=
  ((g.reservation t).map fun r => seqWord (g.num r.slot)).getD 0

theorem Ghost.word_eq {g : Ghost n} {t : Nat} {r : Reservation n} (hr : g.reservation t = some r) :
    g.word t = seqWord (g.num r.slot) := by
  simp [Ghost.word, hr]

/-- The ledger of the numbers: those of the publications, those of the writers in `held`, and
those that are lost. -/
def Ghost.ledger (g : Ghost n) (m : Nat) (held : Finset Nat) (lost : Multiset UInt64) :
    Ledger UInt64 :=
  ⟨m, (g.published.map (·.sequence) : List UInt64), held.val.map g.word, lost⟩

/-- The numbers that the counter has gone past, since it was at `k`, are accounted for. -/
structure Numbered (k : UInt64) (p : Proto n) (held : Finset Nat) (lost : Multiset UInt64) :
    Prop where
  alive : ∀ a, p.alive a
  mem : ∀ t, t ∈ held ↔ ∃ r, p.hist.reservation t = some r ∧ r.phase.past = true
  next : (k.toNat : Int) ≤ p.hist.next
  balanced : (p.hist.ledger (p.hist.next - k.toNat).toNat held lost).Balanced
    fun i => seqWord (k.toNat + i)
  /-- A number is assigned before the counter goes past it. -/
  current : ∀ t r, p.hist.reservation t = some r → r.phase = .numbered ∨ r.phase = .masked →
    p.hist.num r.slot = p.hist.next
  /-- Every reservation advances the counter once. -/
  begun : p.hist.next - k.toNat ≤ p.hist.begun
  beginning : ∀ t r, p.hist.reservation t = some r → r.phase.past = false →
    p.hist.next - k.toNat < p.hist.begun

/-- A number that an abort does not hand back is lost. -/
def Loses (p p' : Proto n) : Prop :=
  ∃ t r, p.hist.reservation t = some r ∧ r.phase = .returning ∧ p'.hist.reservation t = none ∧
    seqWord p.hist.next ≠ seqWord (p.hist.num r.slot + 1)

namespace Numbered

variable {k : UInt64} {G : Guards n} {cap : Nat} {a : Actor} {p p' : Proto n} {held : Finset Nat}
  {lost : Multiset UInt64} {t : Nat} {r : Reservation n}

/-- Nothing happens to the numbers. -/
theorem same (h : Numbered k p held lost) (ha : ∀ a, p'.alive a)
    (hr : p'.hist.reservation = p.hist.reservation) (hn : p'.hist.next = p.hist.next)
    (hnum : p'.hist.num = p.hist.num) (hp : p'.hist.published = p.hist.published)
    (hb : p'.hist.begun = p.hist.begun) : Numbered k p' held lost := by
  have hword : p'.hist.word = p.hist.word := by
    funext t
    unfold Ghost.word
    rw [hr, hnum]
  have hledger : p'.hist.ledger = p.hist.ledger := by
    funext m held lost
    unfold Ghost.ledger
    rw [hword, hp]
  exact {
    alive := ha
    mem := hr ▸ h.mem
    next := hn ▸ h.next
    balanced := by rw [hledger, hn]; exact h.balanced
    current := by rw [hr, hnum, hn]; exact h.current
    begun := by rw [hn, hb]; exact h.begun
    beginning := by rw [hr, hn, hb]; exact h.beginning }

/-- Under the lock of `t` all other reservations have their slots in hand. -/
theorem inHand_of_ne (h : Numbered k p held lost) (hi : Inv cap p)
    (locked : p.lock = some (.writer t)) {t' : Nat} {r' : Reservation n} (ht : t' ≠ t)
    (hr' : p.hist.reservation t' = some r') : r'.phase = .inHand := by
  by_contra hp
  have hl := hi.locked t' r' hr' hp (h.alive _)
  rw [locked] at hl
  exact ht (Actor.writer.inj (Option.some.inj hl)).symm

/-- Under the lock of `t` the slots of the others are other slots. -/
theorem slot_ne (h : Numbered k p held lost) (hi : Inv cap p)
    (locked : p.lock = some (.writer t)) (own : p.hist.reservation t = some r)
    (hp : r.phase ≠ .returning) {t' : Nat} {r' : Reservation n} (ht : t' ≠ t)
    (hr' : p.hist.reservation t' = some r') : r'.slot ≠ r.slot := by
  intro hs
  have hp' : r'.phase ≠ .returning := by
    rw [h.inHand_of_ne hi locked ht hr']
    nofun
  exact ht (hi.unique t' t r' r hr' own hp' hp hs)

/-- The ledger depends on the reservations that are held only. -/
theorem balanced_congr {g g' : Ghost n} {m : Nat} {f : Nat → UInt64}
    (h : (g.ledger m held lost).Balanced f) (hp : g'.published = g.published)
    (hw : ∀ t ∈ held, g'.word t = g.word t) : (g'.ledger m held lost).Balanced f := by
  have hmap : held.val.map g'.word = held.val.map g.word := Multiset.map_congr rfl hw
  unfold Ghost.ledger at h ⊢
  rwa [hmap, hp]

/-! ## reservations that move on -/

theorem begin (h : Numbered k p held lost) (idle : p.hist.reservation t = none) {j : Fin n}
    {mask : UInt64} {state : Fin n → SlotState} :
    Numbered k { p with state := state, hist := p.hist.begin t j mask } held lost := by
  have hne : ∀ t' ∈ held, t' ≠ t := by
    intro t' ht' he
    obtain ⟨r', hr', -⟩ := (h.mem t').mp ht'
    rw [he, idle] at hr'
    cases hr'
  exact { h with
    mem := fun t' => by
      rw [h.mem]
      constructor
      · rintro ⟨r', hr', hp⟩
        refine ⟨r', Inv.begin_reservation.mpr (.inr ⟨?_, hr'⟩), hp⟩
        rintro rfl
        rw [idle] at hr'
        cases hr'
      · rintro ⟨r', hr', hp⟩
        rcases Inv.begin_reservation.mp hr' with ⟨-, rfl⟩ | ⟨-, hr'⟩
        · cases hp
        · exact ⟨r', hr', hp⟩
    balanced := balanced_congr h.balanced rfl fun t' ht' => by
      simp [Ghost.word, Ghost.begin, hne t' ht']
    current := fun t' r' hr' hp => by
      rcases Inv.begin_reservation.mp hr' with ⟨-, rfl⟩ | ⟨-, hr'⟩
      · simp at hp
      · exact h.current t' r' hr' hp
    begun := by
      have := h.begun
      simp only [Ghost.begin]
      omega
    beginning := fun t' r' hr' hp => by
      have := h.begun
      simp only [Ghost.begin]
      omega }

/-- A reservation moves on, on the same side of the counter. -/
theorem proceed (h : Numbered k p held lost) (own : p.hist.reservation t = some r) (ph : Phase)
    (hpast : ph.past = r.phase.past)
    (hcur : ph = .numbered ∨ ph = .masked → p.hist.num r.slot = p.hist.next) :
    Numbered k { p with hist := p.hist.proceed t ph } held lost := by
  exact { h with
    mem := fun t' => by
      rw [h.mem]
      constructor
      · rintro ⟨r', hr', hp⟩
        by_cases ht : t' = t
        · subst ht
          obtain rfl := Option.some.inj (own.symm.trans hr')
          exact ⟨_, (Inv.proceed_reservation own).mpr (.inl ⟨rfl, rfl⟩), hpast.trans hp⟩
        · exact ⟨r', (Inv.proceed_reservation own).mpr (.inr ⟨ht, hr'⟩), hp⟩
      · rintro ⟨r', hr', hp⟩
        rcases (Inv.proceed_reservation own).mp hr' with ⟨rfl, rfl⟩ | ⟨-, hr'⟩
        · exact ⟨r, own, hpast.symm.trans hp⟩
        · exact ⟨r', hr', hp⟩
    balanced := balanced_congr h.balanced rfl fun t' _ => by
      by_cases ht : t' = t
      · subst ht
        simp [Ghost.word, Ghost.proceed, own]
      · simp [Ghost.word, Ghost.proceed, ht]
    current := fun t' r' hr' hp => by
      rcases (Inv.proceed_reservation own).mp hr' with ⟨-, rfl⟩ | ⟨-, hr'⟩
      · exact hcur hp
      · exact h.current t' r' hr' hp
    beginning := fun t' r' hr' hp => by
      rcases (Inv.proceed_reservation own).mp hr' with ⟨rfl, rfl⟩ | ⟨-, hr'⟩
      · exact h.beginning t' r own (hpast.symm.trans hp)
      · exact h.beginning t' r' hr' hp }

theorem number (h : Numbered k p held lost) (hi : Inv cap p)
    (locked : p.lock = some (.writer t)) (own : p.hist.reservation t = some r)
    (phase : r.phase = .header) :
    Numbered k { p with hist := p.hist.number t r.slot } held lost := by
  have hslot : ∀ t' r', t' ≠ t → p.hist.reservation t' = some r' → r'.slot ≠ r.slot :=
    fun t' r' ht hr' => h.slot_ne hi locked own (by rw [phase]; nofun) ht hr'
  exact { h with
    mem := fun t' => by
      rw [h.mem]
      constructor
      · rintro ⟨r', hr', hp⟩
        refine ⟨r', (Inv.proceed_reservation own).mpr (.inr ⟨?_, hr'⟩), hp⟩
        intro e
        rw [e, own] at hr'
        cases hr'
        rw [phase] at hp
        cases hp
      · rintro ⟨r', hr', hp⟩
        rcases (Inv.proceed_reservation own).mp hr' with ⟨-, rfl⟩ | ⟨-, hr'⟩
        · cases hp
        · exact ⟨r', hr', hp⟩
    balanced := balanced_congr h.balanced rfl fun t' ht' => by
      obtain ⟨r', hr', hp⟩ := (h.mem t').mp ht'
      have ht : t' ≠ t := by
        intro e
        rw [e, own] at hr'
        cases hr'
        rw [phase] at hp
        cases hp
      have hsame : (p.hist.number t r.slot).reservation t' = some r' :=
        (Inv.proceed_reservation own).mpr (.inr ⟨ht, hr'⟩)
      refine (Ghost.word_eq hsame).trans ?_
      rw [Ghost.word_eq hr']
      simp [Ghost.number, hslot t' r' ht hr']
    current := fun t' r' hr' hp => by
      rcases (Inv.proceed_reservation own).mp hr' with ⟨-, rfl⟩ | ⟨ht, hr'⟩
      · simp [Ghost.number, Ghost.proceed]
      · rw [h.inHand_of_ne hi locked ht hr'] at hp
        simp at hp
    beginning := fun t' r' hr' hp => by
      rcases (Inv.proceed_reservation own).mp hr' with ⟨rfl, rfl⟩ | ⟨-, hr'⟩
      · exact h.beginning t' r own (by rw [phase]; rfl)
      · exact h.beginning t' r' hr' hp }

/-- Whoever has advanced the counter has its number from there. -/
theorem advance (h : Numbered k p held lost) (hi : Inv cap p)
    (locked : p.lock = some (.writer t)) (own : p.hist.reservation t = some r)
    (phase : r.phase = .masked) :
    Numbered k { p with hist := p.hist.advance t } (insert t held) lost := by
  have hnum := h.current t r own (.inr phase)
  have hbegun := h.beginning t r own (by rw [phase]; rfl)
  have hnext := h.next
  have ht : t ∉ held := by
    intro ht
    obtain ⟨r', hr', hp⟩ := (h.mem t).mp ht
    rw [own] at hr'
    cases hr'
    rw [phase] at hp
    cases hp
  have hword : (p.hist.advance t).word t = seqWord (k.toNat + (p.hist.next - k.toNat).toNat) := by
    rw [Int.toNat_of_nonneg (by omega), ← hnum]
    have hr : (p.hist.advance t).reservation t = some { r with phase := .inHand } :=
      (Inv.proceed_reservation own).mpr (.inl ⟨rfl, rfl⟩)
    rw [Ghost.word_eq hr]
    congr 1
    simp [Ghost.advance, Ghost.proceed]
  exact { h with
    mem := fun t' => by
      rw [Finset.mem_insert, h.mem]
      constructor
      · rintro (rfl | ⟨r', hr', hp⟩)
        · exact ⟨_, (Inv.proceed_reservation own).mpr (.inl ⟨rfl, rfl⟩), rfl⟩
        · refine ⟨r', (Inv.proceed_reservation own).mpr (.inr ⟨?_, hr'⟩), hp⟩
          rintro rfl
          exact ht ((h.mem _).mpr ⟨r', hr', hp⟩)
      · rintro ⟨r', hr', hp⟩
        rcases (Inv.proceed_reservation own).mp hr' with ⟨rfl, -⟩ | ⟨-, hr'⟩
        · exact .inl rfl
        · exact .inr ⟨r', hr', hp⟩
    next := by
      simp only [Ghost.advance]
      omega
    balanced := by
      have hold : ((p.hist.advance t).ledger (p.hist.next - k.toNat).toNat held lost).Balanced
          fun i => seqWord (k.toNat + i) := balanced_congr h.balanced rfl fun t' ht' => by
        have hne : t' ≠ t := fun e => ht (e ▸ ht')
        simp [Ghost.word, Ghost.advance, Ghost.proceed, hne]
      have hcount : (p.hist.next + 1 - k.toNat).toNat = (p.hist.next - k.toNat).toNat + 1 := by
        omega
      show Ledger.Balanced _ (Ghost.ledger (p.hist.advance t) (p.hist.next + 1 - k.toNat).toNat _ _)
      rw [hcount]
      unfold Ghost.ledger at hold ⊢
      rw [Finset.insert_val_of_notMem ht, Multiset.map_cons, hword]
      exact Ledger.balanced_issue_iff.mpr hold
    current := fun t' r' hr' hp => by
      rcases (Inv.proceed_reservation own).mp hr' with ⟨-, rfl⟩ | ⟨ht', hr'⟩
      · simp at hp
      · rw [h.inHand_of_ne hi locked ht' hr'] at hp
        simp at hp
    begun := by
      show p.hist.next + 1 - k.toNat ≤ p.hist.begun
      omega
    beginning := fun t' r' hr' hp => by
      rcases (Inv.proceed_reservation own).mp hr' with ⟨-, rfl⟩ | ⟨ht', hr'⟩
      · cases hp
      · rw [h.inHand_of_ne hi locked ht' hr'] at hp
        cases hp }

/-! ## reservations that end -/

/-- What is held without `t`. -/
theorem mem_erase (h : Numbered k p held lost) (t' : Nat) :
    t' ∈ held.erase t ↔ ∃ r,
      Function.update p.hist.reservation t none t' = some r ∧ r.phase.past = true := by
  rw [Finset.mem_erase, h.mem]
  constructor
  · rintro ⟨ht, r', hr', hp⟩
    exact ⟨r', Inv.drop_reservation.mpr ⟨ht, hr'⟩, hp⟩
  · rintro ⟨r', hr', hp⟩
    obtain ⟨ht, hr'⟩ := Inv.drop_reservation.mp hr'
    exact ⟨ht, r', hr', hp⟩

/-- The ledger before a reservation ends, with its number in front. -/
theorem balanced_cons (h : Numbered k p held lost) (own : p.hist.reservation t = some r)
    (hp : r.phase.past = true) :
    Ledger.Balanced (fun i => seqWord (k.toNat + i)) ⟨(p.hist.next - k.toNat).toNat,
      (p.hist.published.map (·.sequence) : List UInt64),
      seqWord (p.hist.num r.slot) ::ₘ (held.erase t).val.map p.hist.word, lost⟩ := by
  have ht : t ∈ held := (h.mem t).mpr ⟨r, own, hp⟩
  have hbal := h.balanced
  unfold Ghost.ledger at hbal
  rw [← Finset.insert_erase ht, Finset.insert_val_of_notMem (Finset.notMem_erase t held),
    Multiset.map_cons, Ghost.word_eq own] at hbal
  exact hbal

/-- The words of the others stay when `t` ends. -/
theorem balanced_drop {g g' : Ghost n} {m : Nat} {f : Nat → UInt64} (hn : g'.num = g.num)
    (hr : g'.reservation = Function.update g.reservation t none)
    (h : Ledger.Balanced f ⟨m, (g'.published.map (·.sequence) : List UInt64),
      (held.erase t).val.map g.word, lost⟩) : (g'.ledger m (held.erase t) lost).Balanced f := by
  have hmap : (held.erase t).val.map g'.word = (held.erase t).val.map g.word := by
    refine Multiset.map_congr rfl fun t' ht' => ?_
    have hne : t' ≠ t := Finset.ne_of_mem_erase ht'
    simp [Ghost.word, hr, hn, hne]
  unfold Ghost.ledger
  rwa [hmap]

theorem commit (h : Numbered k p held lost) (own : p.hist.reservation t = some r)
    (phase : r.phase = .inHand) {state : Fin n → SlotState} :
    Numbered k { p with state := state, hist := p.hist.commit t (p.publication r) }
      (held.erase t) lost := by
  have hbal := h.balanced_cons own (by rw [phase]; rfl)
  exact { h with
    mem := h.mem_erase
    balanced := by
      have hpub : (((p.hist.commit t (p.publication r)).published.map (·.sequence) :
          List UInt64) : Multiset UInt64) =
            seqWord (p.hist.num r.slot) ::ₘ (p.hist.published.map (·.sequence) : List UInt64) := by
        simp [Ghost.commit, Proto.publication, ← Multiset.coe_add, Multiset.add_comm,
          Multiset.singleton_add]
      refine balanced_drop (g := p.hist) rfl rfl ?_
      rw [hpub]
      exact hbal.spend
    current := fun t' r' hr' => h.current t' r' (Inv.drop_reservation.mp hr').2
    beginning := fun t' r' hr' => h.beginning t' r' (Inv.drop_reservation.mp hr').2 }

/-- An abort whose exchange succeeds takes its number back to the counter. -/
theorem giveBack (h : Numbered k p held lost) (hi : Inv cap p)
    (locked : p.lock = some (.writer t)) (own : p.hist.reservation t = some r)
    (phase : r.phase = .returning)
    (exchange : seqWord p.hist.next = seqWord (p.hist.num r.slot + 1)) :
    Numbered k { p with hist := p.hist.forget t true } (held.erase t) lost := by
  have hbal := h.balanced_cons own (by rw [phase]; rfl)
  have hpos := hbal.count_pos
  have hbegun := h.begun
  have hnum : seqWord (p.hist.num r.slot) =
      seqWord (k.toNat + (p.hist.next - 1 - k.toNat).toNat) := by
    have hsub := congrArg (· - 1) exchange
    simp only [seqWord_sub_one] at hsub
    rw [Int.toNat_of_nonneg (by omega)]
    refine Eq.trans ?_ (hsub.symm.trans ?_)
    · congr 1; omega
    · congr 1; omega
  exact { h with
    mem := h.mem_erase
    next := by
      simp only [Ghost.forget]
      split <;> omega
    balanced := by
      have hcount : (p.hist.next - k.toNat).toNat = (p.hist.next - 1 - k.toNat).toNat + 1 := by
        omega
      rw [hnum, hcount] at hbal
      exact balanced_drop (g := p.hist) rfl rfl (Ledger.balanced_issue_iff.mp hbal)
    current := fun t' r' hr' hp => by
      obtain ⟨ht', hr'⟩ := Inv.drop_reservation.mp hr'
      rw [h.inHand_of_ne hi locked ht' hr'] at hp
      simp at hp
    begun := by
      simp only [Ghost.forget]
      split <;> omega
    beginning := fun t' r' hr' hp => by
      obtain ⟨ht', hr'⟩ := Inv.drop_reservation.mp hr'
      rw [h.inHand_of_ne hi locked ht' hr'] at hp
      cases hp }

/-- An abort whose exchange fails loses its number. -/
theorem lose (h : Numbered k p held lost) (own : p.hist.reservation t = some r)
    (phase : r.phase = .returning) :
    Numbered k { p with hist := p.hist.forget t false } (held.erase t)
      (seqWord (p.hist.num r.slot) ::ₘ lost) := by
  have hbal := h.balanced_cons own (by rw [phase]; rfl)
  exact { h with
    mem := h.mem_erase
    balanced := balanced_drop (g := p.hist) rfl rfl hbal.lose
    current := fun t' r' hr' => h.current t' r' (Inv.drop_reservation.mp hr').2
    beginning := fun t' r' hr' => h.beginning t' r' (Inv.drop_reservation.mp hr').2 }

/-! ## all of them -/

/-- No slot is taken back from the living. -/
theorem not_gone (h : Numbered k p held lost) (hi : Inv cap p) (hG : ¬G.careless) {j : Fin n}
    (gone : p.gone G (.slot j)) : False := by
  obtain ⟨hd, hw⟩ := gone
  obtain ⟨t, r, hr, hp, hs⟩ := hi.owned j (hw hG)
  exact hd t r hr hs hp (h.alive _)

theorem step (h : Numbered k p held lost) (hi : Inv cap p) (hG : ¬G.careless)
    (hs : Step G cap a p p') :
    ∃ held' lost', Numbered k p' held' lost' ∧ (lost' = lost ∨ Loses p p') := by
  cases hs with
  | begin t _ j mask locked idle free captured => exact ⟨_, _, h.begin idle, .inl rfl⟩
  | number t _ r locked own phase => exact ⟨_, _, h.number hi locked own phase, .inl rfl⟩
  | setMask t _ r locked own phase =>
    have h' := h.proceed own .masked (by rw [phase]; rfl) fun _ => h.current t r own (.inl phase)
    exact ⟨_, _, h'.same h.alive rfl rfl rfl rfl rfl, .inl rfl⟩
  | advance t _ r locked own phase => exact ⟨_, _, h.advance hi locked own phase, .inl rfl⟩
  | commit t _ r own phase => exact ⟨_, _, h.commit own phase, .inl rfl⟩
  | cancel t _ r locked own phase =>
    have h' := h.proceed own .aborting (by rw [phase]; rfl) (by simp)
    exact ⟨_, _, h'.same h.alive rfl rfl rfl rfl rfl, .inl rfl⟩
  | free t _ r locked own phase =>
    have h' := h.proceed own .returning (by rw [phase]; rfl) (by simp)
    exact ⟨_, _, h'.same h.alive rfl rfl rfl rfl rfl, .inl rfl⟩
  | forget t _ r handedBack locked own phase exchange =>
    cases handedBack with
    | true => exact ⟨_, _, h.giveBack hi locked own phase (exchange.mp rfl), .inl rfl⟩
    | false =>
      refine ⟨_, _, h.lose own phase, .inr ⟨t, r, own, phase, by simp [Ghost.forget], ?_⟩⟩
      intro he
      exact absurd (exchange.mpr he) (by simp)
  | abandon _ _ j locked gone => exact (h.not_gone hi hG gone).elim
  | _ => exact ⟨held, lost, h.same h.alive rfl rfl rfl rfl rfl, .inl rfl⟩

end Numbered

end TenzorBus
