import TenzorBus.Arrival.Notes

/-!
# Outlines for commits and their signals

* `Mild.observe`, `Kind.looked` : what becomes of the notes
* `Guar.inv` : the invariant
* `Keeping` : a proof outline of an actor who is awake before and after
-/

namespace TenzorBus.Arrival

open Conc

variable {P : Platform} {n : Nat} {L : RingLayout} {strict : Prop}

section

variable {a b : Actor} {m m' : State P n × Ghost n} {w : Notes} {c : Nat}

/-! ## what becomes of the notes -/

/-- A consumer that is neither registered nor handed anything nor woken up does not stir. -/
theorem not_stirs (hr : m'.2.registration c = m.2.registration c)
    (hh : m'.2.handed c = m.2.handed c)
    (ha : m'.1.asleep (.consumer c) = m.1.asleep (.consumer c)) : stirs c m m' = false := by
  simp only [stirs, hr, hh, ha, ne_eq, not_true_eq_false, decide_false, Bool.or_false]
  cases m.2.registration c <;> cases m.1.asleep (.consumer c) <;> rfl

/-- Whoever is not asleep is not woken up. -/
theorem not_stirs_of_awake (hr : m'.2.registration c = m.2.registration c)
    (hh : m'.2.handed c = m.2.handed c) (ha : m.1.asleep (.consumer c) = none) :
    stirs c m m' = false := by
  simp only [stirs, hr, hh, ha, ne_eq, not_true_eq_false, decide_false, Bool.or_false]
  cases m.2.registration c <;> rfl

/-- A mild action is noted only as the stir of a consumer. -/
theorem Mild.observe (h : Mild a m m') : observe a m m' w =
    { w with since := fun c => if stirs c m m' then w.signals else w.since c } := by
  have hp : commits m m' = false := by simp [commits, h.published]
  have hc : counts m m' = false := by simp [counts, h.count]
  have hf : bumps m m' = false := by simp [bumps, h.futex]
  unfold Arrival.observe stillDue
  simp only [hp, hc, hf]
  cases a <;> simp

/-- Nothing is noted where nothing happens. -/
theorem observe_self (a : Actor) (m : State P n × Ghost n) (w : Notes) : observe a m m w = w := by
  have hs : ∀ c, stirs c m m = false := fun c => not_stirs rfl rfl rfl
  simp only [observe, commits, counts, bumps, hs, stillDue]
  cases a <;> simp

section

variable {t : Nat} {pub : Publication n} {ring : Ring n}

/-- A commit: the writer has to count and to signal. -/
theorem observe_commit (hc : ring.publishCount = m.1.ring.publishCount)
    (hf : ring.publishFutex = m.1.ring.publishFutex) :
    observe (.writer t) m ({ m.1 with ring := ring }, m.2.commit t pub) w = { w with
      unsignalled := insert t w.unsignalled
      uncounted := insert t w.uncounted
      position := Function.update w.position t m.2.published.length } := by
  have hp : commits m (({ m.1 with ring := ring } : State P n), m.2.commit t pub) = true := by
    simp [commits, Ghost.commit]
  have hs : ∀ c, stirs c m (({ m.1 with ring := ring } : State P n), m.2.commit t pub) = false :=
    fun c => not_stirs rfl rfl rfl
  have hposition : (fun u => if Actor.writer t = Actor.writer u ∧ True then
      m.2.published.length else w.position u) =
        Function.update w.position t m.2.published.length := by
    funext u
    by_cases hu : u = t
    · simp [hu]
    · simp [hu, Ne.symm hu]
  simp only [observe, counts, bumps, hp, hs, hc, hf, stillDue]
  simp [← hposition]

/-- The writer has counted. -/
theorem observe_count : observe (.writer t) m
    ({ m.1 with ring := { m.1.ring with publishCount := m.1.ring.publishCount + 1 } }, m.2) w =
      { w with counts := w.counts + 1, uncounted := w.uncounted.erase t } := by
  have hs : ∀ c, stirs c m (({ m.1 with ring := { m.1.ring with
      publishCount := m.1.ring.publishCount + 1 } } : State P n), m.2) = false :=
    fun c => not_stirs rfl rfl rfl
  simp [observe, hs, commits, counts, bumps, stillDue]

/-- The writer has signalled. -/
theorem observe_signal : observe (.writer t) m
    ({ m.1 with ring := { m.1.ring with publishFutex := m.1.ring.publishFutex + 1 } }, m.2) w =
      { w with signals := w.signals + 1, unsignalled := w.unsignalled.erase t } := by
  have hs : ∀ c, stirs c m (({ m.1 with ring := { m.1.ring with
      publishFutex := m.1.ring.publishFutex + 1 } } : State P n), m.2) = false :=
    fun c => not_stirs rfl rfl rfl
  simp [observe, hs, commits, counts, bumps, stillDue]

end

/-- That somebody falls asleep is not noted. -/
theorem observe_sleep {word : FutexWord} {v : UInt32} (ha : m.1.asleep a = none) :
    observe a m ({ m.1 with asleep := Function.update m.1.asleep a (some (word, v)) }, m.2) w =
      w := by
  have hs : ∀ c, stirs c m (({ m.1 with
      asleep := Function.update m.1.asleep a (some (word, v)) } : State P n), m.2) = false := by
    intro c
    by_cases hc : Actor.consumer c = a
    · exact not_stirs_of_awake rfl rfl (hc ▸ ha)
    · exact not_stirs rfl rfl (by simp [hc])
  simp [observe, hs, commits, counts, bumps, stillDue]
  cases a <;> rfl

/-! ## what a consumer knows survives -/

/-- What a consumer has looked at stays looked at as long as it does not stir: a commit adds
somebody who has to signal, and a signal ends what was said about the number of signals. -/
theorem Kind.looked {s l : Nat} (h : Kind strict a w m m') (hs : stirs c m m' = false)
    (hl : Looked c s l (m.1, m.2, w)) :
    Looked c s l (m'.1, m'.2, observe a m m' w) := by
  obtain ⟨since, le, due⟩ := hl
  dsimp only at since le due
  cases h with
  | mild h =>
    rw [h.observe]
    refine ⟨by simpa [hs] using since, le, fun hsig i hi hlt => due hsig i hi ?_⟩
    rwa [h.published] at hlt
  | commit t actor pub ring count futex signalled counted =>
    subst actor
    rw [observe_commit count futex]
    refine ⟨since, le, fun hsig i hi hlt => ?_⟩
    have hlt : i < m.2.published.length + 1 := by simpa [Ghost.commit] using hlt
    rcases Nat.lt_succ_iff_lt_or_eq.mp hlt with hlt | rfl
    · obtain ⟨t', ht', hpos⟩ := due hsig i hi hlt
      have hne : t' ≠ t := fun e => signalled (e ▸ ht')
      exact ⟨t', by simp [ht'], by simpa [hne] using hpos⟩
    · exact ⟨t, by simp, by simp⟩
  | count t actor hdue =>
    subst actor
    rw [observe_count]
    exact ⟨since, le, due⟩
  | signal t actor hdue _ =>
    subst actor
    rw [observe_signal]
    exact ⟨since, le.trans (Nat.le_succ _), fun hsig => absurd (show w.signals + 1 = s from hsig)
      (by have : s ≤ w.signals := le; omega)⟩
  | sleep word awake looked =>
    rw [observe_sleep awake]
    exact ⟨since, le, due⟩

/-- Actions of the others leave alone what a consumer has been handed. -/
theorem Kind.apart (h : Kind strict a w m m') (hc : a ≠ .consumer c) :
    m'.2.trying c = m.2.trying c ∧ m'.2.handed c = m.2.handed c ∧
      m'.2.registration c = m.2.registration c := by
  cases h with
  | mild h => exact ⟨h.trying c hc, h.handed c hc, h.registration c hc⟩
  | commit => exact ⟨rfl, rfl, rfl⟩
  | count => exact ⟨rfl, rfl, rfl⟩
  | signal => exact ⟨rfl, rfl, rfl⟩
  | sleep => exact ⟨rfl, rfl, rfl⟩

theorem Kind.os (h : Kind strict a w m m') : m'.1.os = m.1.os := by
  cases h with
  | mild h => exact h.os
  | _ => rfl

/-- Nothing that has been committed is taken back. -/
theorem Kind.published (h : Kind strict a w m m') :
    m.2.published.length ≤ m'.2.published.length := by
  cases h with
  | mild h => rw [h.published]
  | commit => simp [Ghost.commit]
  | _ => exact le_rfl

/-- Who sleeps was asleep, or is `a`, who has just fallen asleep. -/
theorem Kind.asleep (h : Kind strict a w m m') (b : Actor) :
    m'.1.asleep b = m.1.asleep b ∨ m'.1.asleep b = none ∨ b = a ∧ m.1.asleep b = none := by
  cases h with
  | mild h => exact (h.asleep b).imp_right .inl
  | sleep word awake looked =>
    by_cases hb : b = a
    · exact .inr (.inr ⟨hb, hb ▸ awake⟩)
    · exact .inl (by simp [hb])
  | _ => exact .inl rfl

theorem Behind.kept {l : Nat} (h : Behind c l (m.1, m.2, w))
    (hh : m'.2.handed c = m.2.handed c) (hr : m'.2.registration c = m.2.registration c)
    {w' : Notes} : Behind c l (m'.1, m'.2, w') := by
  intro k hk hq
  dsimp only at hk ⊢
  rw [hr] at hk
  rw [hh]
  exact h k hk hq

end

/-! ## the invariant -/

section

variable {a : Actor} {m m' : Watched P n}

/-- A commit adds one to what is due, and a bump takes it away. -/
theorem Guar.inv_counts (hg : Guar strict a m m') (h : Inv strict m) :
    m'.1.ring.publishFutex = UInt32.ofNat m'.2.2.signals ∧
      m'.1.ring.publishCount = UInt64.ofNat m'.2.2.counts ∧
        m'.2.1.published.length = m'.2.2.signals + m'.2.2.unsignalled.card ∧
          m'.2.1.published.length = m'.2.2.counts + m'.2.2.uncounted.card ∧
            m'.2.2.uncounted ⊆ m'.2.2.unsignalled := by
  obtain ⟨s, g, w⟩ := m
  obtain ⟨s', g', w'⟩ := m'
  obtain ⟨hnoted, -, hk⟩ := hg
  dsimp only at hnoted
  subst hnoted
  obtain ⟨futex, count, signals, counts, before, -, -⟩ := h
  dsimp only at *
  cases hk with
  | mild h =>
    rw [h.observe]
    have hf : s'.ring.publishFutex = s.ring.publishFutex := h.futex
    have hc : s'.ring.publishCount = s.ring.publishCount := h.count
    have hp : g'.published = g.published := h.published
    rw [hf, hc, hp]
    exact ⟨futex, count, signals, counts, before⟩
  | commit t actor pub ring hcount hfutex signalled counted =>
    subst actor
    rw [observe_commit hcount hfutex]
    refine ⟨hfutex.trans futex, hcount.trans count, ?_, ?_, Finset.insert_subset_insert t before⟩
    · simp only [Ghost.commit, List.length_append, List.length_singleton,
        Finset.card_insert_of_notMem signalled]
      omega
    · simp only [Ghost.commit, List.length_append, List.length_singleton,
        Finset.card_insert_of_notMem counted]
      omega
  | count t actor due =>
    subst actor
    rw [observe_count]
    refine ⟨futex, ?_, signals, ?_, (Finset.erase_subset t _).trans before⟩
    · simp [count]
    · have := Finset.card_erase_add_one due
      dsimp only
      omega
  | signal t actor due counted =>
    subst actor
    rw [observe_signal]
    refine ⟨?_, count, ?_, counts, Finset.subset_erase.mpr ⟨before, counted⟩⟩
    · simp [futex]
    · have := Finset.card_erase_add_one due
      dsimp only
      omega
  | sleep word awake looked =>
    rw [observe_sleep awake]
    exact ⟨futex, count, signals, counts, before⟩

theorem Guar.signals_le (hg : Guar strict a m m') : m.2.2.signals ≤ m'.2.2.signals := by
  rw [hg.noted]
  simp only [observe]
  split <;> omega

/-- Whoever stirs does so at the present number of signals. -/
theorem Guar.inv_since (hg : Guar strict a m m') (h : Inv strict m) (c : Nat) :
    m'.2.2.since c ≤ m'.2.2.signals := by
  have hle := hg.signals_le
  have hc : m'.2.2.since c =
      if stirs c (m.1, m.2.1) (m'.1, m'.2.1) then m.2.2.signals else m.2.2.since c := by
    rw [hg.noted]
    rfl
  rw [hc]
  split
  · exact hle
  · exact (h.since c).trans hle

/-- Whoever sleeps goes on knowing what it knew, and whoever falls asleep has looked. -/
theorem Guar.inv_asleep (hg : Guar strict a m m') (h : Inv strict m) (hstrict : strict) {c : Nat}
    {v : UInt32} (hv : m'.1.asleep (.consumer c) = some (.publish, v)) : Expects c v m' := by
  obtain ⟨s, g, w⟩ := m
  obtain ⟨s', g', w'⟩ := m'
  obtain ⟨hnoted, hawake, hk⟩ := hg
  dsimp only at hnoted hv hawake hk
  subst hnoted
  -- a consumer that was asleep before does nothing itself
  have hold : s.asleep (.consumer c) = some (.publish, v) →
      Expects c v (s', g', observe a (s, g) (s', g') w) := by
    intro hv₀
    have hne : a ≠ .consumer c := by
      rintro rfl
      rcases hawake with hawake | hawake
      · rw [hawake] at hv₀
        cases hv₀
      · rw [hawake] at hv
        cases hv
    obtain ⟨x, l, rfl, hl, hb⟩ := h.asleep hstrict c v hv₀
    obtain ⟨-, hh, hr⟩ := hk.apart hne
    have hs : stirs c (s, g) (s', g') = false := not_stirs hr hh (hv.trans hv₀.symm)
    have hb' : Behind c l (s', g', observe a (s, g) (s', g') w) :=
      Behind.kept (show Behind c l ((s, g).1, (s, g).2, w) from hb) hh hr
    exact ⟨x, l, rfl, hk.looked hs hl, hb'⟩
  rcases hk.asleep (.consumer c) with hsame | hnone | ⟨rfl, hnone⟩
  · exact hold (hsame.symm.trans hv)
  · exact absurd (hv.symm.trans hnone) (by simp)
  · cases hk with
    | mild h =>
      rcases h.asleep (.consumer c) with hsame | hno
      · exact absurd (hv.symm.trans (hsame.trans hnone)) (by simp)
      · exact absurd (hv.symm.trans hno) (by simp)
    | commit => exact absurd (hv.symm.trans hnone) (by simp)
    | count => exact absurd (hv.symm.trans hnone) (by simp)
    | signal => exact absurd (hv.symm.trans hnone) (by simp)
    | sleep word awake looked =>
      simp only [Function.update_self, Option.some.injEq, Prod.mk.injEq] at hv
      obtain ⟨rfl, rfl⟩ := hv
      rw [observe_sleep awake]
      obtain ⟨x, l, hx, hl, hb⟩ := looked hstrict c rfl rfl
      exact ⟨x, l, hx, ⟨hl.since, hl.le, hl.due⟩, hb⟩

/-- An action keeps the invariant. -/
theorem Guar.inv (hg : Guar strict a m m') (h : Inv strict m) : Inv strict m' := by
  obtain ⟨futex, count, signals, counts, before⟩ := hg.inv_counts h
  exact ⟨futex, count, signals, counts, before, hg.inv_since h, fun hs c v hv =>
    hg.inv_asleep h hs hv⟩

end

/-! ## assertions -/

/-- Of writer `t`: whether it has still to signal, and to count, what it has committed. -/
def Owes (t : Nat) (x y : Prop) (m : Watched P n) : Prop :=
  (t ∈ m.2.2.unsignalled ↔ x) ∧ (t ∈ m.2.2.uncounted ↔ y)

theorem settled_iff {t : Nat} {m : Watched P n} :
    Settled (.writer t) m ↔ Owes t False False m := by
  simp [Settled, Owes]

/-- The others leave the assertion alone, and so does an action of `a` that is one of `K`. -/
structure Kept (P : Platform) (L : RingLayout) (strict : Prop)
    (K : State P L.slotCount × Ghost L.slotCount → State P L.slotCount × Ghost L.slotCount → Prop)
    (a : Actor) (Φ : Watched P L.slotCount → Prop) : Prop where
  stable : (rules P L strict).Stable a fun m => Awake a m ∧ Φ m
  acts : ∀ m m' w, K m m' → Awake a (m.1, m.2, w) → Φ (m.1, m.2, w) →
    Φ (m'.1, m'.2, observe a m m' w)

section

variable {a b : Actor} {Φ Ψ : Watched P L.slotCount → Prop}
  {K : State P L.slotCount × Ghost L.slotCount → State P L.slotCount × Ghost L.slotCount → Prop}

/-- Nobody puts another actor to sleep. -/
theorem Guar.stays_awake {m m' : Watched P n} (hg : Guar strict b m m') (hb : b ≠ a)
    (hm : Awake a m) : Awake a m' := by
  rcases hg.kind.asleep a with h | h | ⟨h, -⟩
  · exact h.trans hm
  · exact h
  · exact absurd h.symm hb

/-- An assertion is stable if no action of another actor falsifies it. -/
theorem stable_of (hguar : ∀ b m m', b ≠ a → Guar strict b m m' → Awake a m → Φ m → Φ m')
    (henv : ∀ (m : Watched P L.slotCount) os, Φ m → Φ ({ m.1 with os := os }, m.2)) :
    (rules P L strict).Stable a fun m => Awake a m ∧ Φ m := by
  intro m m' h hm
  rcases h.step with ⟨b, hb, hg⟩ | he
  · exact ⟨Guar.stays_awake hg hb hm.1, hguar b m m' hb hg hm.1 hm.2⟩
  · obtain ⟨os, -, rfl⟩ := env_watched he
    exact ⟨hm.1, henv m os hm.2⟩

theorem mem_stillDue {t : Nat} {due done : Bool} {ts : Finset Nat} (h : b ≠ .writer t) :
    t ∈ stillDue b due done ts ↔ t ∈ ts := by
  cases b with
  | writer u =>
    have hu : t ≠ u := fun e => h (by rw [e])
    cases due <;> cases done <;> simp [stillDue, hu]
  | consumer c => rfl
  | sweeper k => rfl

/-- What a writer owes does not change through the others. -/
theorem Guar.owes {m m' : Watched P n} (hg : Guar strict b m m') {t : Nat} (hb : b ≠ .writer t)
    {x y : Prop} (hm : Owes t x y m) : Owes t x y m' := by
  unfold Owes
  rw [hg.noted]
  exact ⟨(mem_stillDue hb).trans hm.1, (mem_stillDue hb).trans hm.2⟩

/-- What a writer owes is kept by what is mild. -/
theorem kept_owes (t : Nat) (x y : Prop) :
    Kept P L strict (Mild (.writer t)) (.writer t) (Owes t x y) where
  stable := stable_of (fun _ _ _ hb hg _ hm => hg.owes hb hm) fun _ _ hm => hm
  acts m m' w h _ hm := by
    rw [h.observe]
    exact hm

theorem kept_true : Kept P L strict K a fun _ => True where
  stable := stable_of (fun _ _ _ _ _ _ _ => trivial) fun _ _ _ => trivial
  acts _ _ _ _ _ _ := trivial

/-- So is that nothing is owed. -/
theorem kept_settled : Kept P L strict (Mild a) a (Settled a) := by
  cases a with
  | writer t =>
    have h : Kept P L strict (Mild (.writer t)) (.writer t) (Owes t False False) := kept_owes t _ _
    exact {
      stable := fun s u hr hm =>
        (h.stable s u hr (hm.imp_right settled_iff.mp)).imp_right settled_iff.mpr
      acts := fun m m' w hk ha hm => settled_iff.mpr (h.acts m m' w hk ha (settled_iff.mp hm)) }
  | consumer c =>
    exact {
      stable := stable_of (fun _ _ _ _ _ _ _ => nofun) fun _ _ _ => nofun
      acts := fun _ _ _ _ _ _ => nofun }
  | sweeper k =>
    exact {
      stable := stable_of (fun _ _ _ _ _ _ _ => nofun) fun _ _ _ => nofun
      acts := fun _ _ _ _ _ _ => nofun }

end

/-! ## outlines -/

/-- Actor `a` is awake before and after. -/
abbrev Keeping (P : Platform) (L : RingLayout) (strict : Prop) (a : Actor) {α : Type}
    (p : RingM P L.slotCount α) (Φ : Watched P L.slotCount → Prop)
    (Ψ : α → Watched P L.slotCount → Prop) : Prop :=
  (rules P L strict).Outline a (p.watch observe a) (fun m => Awake a m ∧ Φ m) fun x m =>
    Awake a m ∧ Ψ x m

section

variable {a : Actor} {α β : Type} {Φ Φ' : Watched P L.slotCount → Prop}
  {Ψ Ψ' : α → Watched P L.slotCount → Prop}
  {K : State P L.slotCount × Ghost L.slotCount → State P L.slotCount × Ghost L.slotCount → Prop}

namespace Keeping

theorem bind {p : RingM P L.slotCount α} {q : α → RingM P L.slotCount β}
    {Ψ' : β → Watched P L.slotCount → Prop} (hp : Keeping P L strict a p Φ Ψ)
    (hq : ∀ x, Keeping P L strict a (q x) (Ψ x) Ψ') : Keeping P L strict a (p >>= q) Φ Ψ' :=
  Rules.Outline.watchBind hp hq

theorem ret {x : α} (h : ∀ m, Φ m → Ψ x m) : Keeping P L strict a (pure x) Φ Ψ :=
  Rules.Outline.ret fun m _ hm => ⟨hm.1, h m hm.2⟩

theorem pre {p : RingM P L.slotCount α} (h : Keeping P L strict a p Φ Ψ)
    (hΦ : ∀ m, Inv strict m → Φ' m → Φ m) : Keeping P L strict a p Φ' Ψ :=
  Rules.Outline.pre h fun m hi hm => ⟨hm.1, hΦ m hi hm.2⟩

theorem post {p : RingM P L.slotCount α} (h : Keeping P L strict a p Φ Ψ)
    (hΨ : ∀ x m, Ψ x m → Ψ' x m) : Keeping P L strict a p Φ Ψ' :=
  Rules.Outline.post h fun x m _ hm => ⟨hm.1, hΨ x m hm.2⟩

/-- One action. -/
theorem act {f : State P L.slotCount → Option (α × State P L.slotCount)}
    {aux : α → State P L.slotCount → Ghost L.slotCount → Ghost L.slotCount}
    (hΨ : ∀ x, Kept P L strict K a (Ψ x))
    (h : ∀ s g w, Inv strict (s, g, w) → Φ (s, g, w) → ∀ x s', f s = some (x, s') →
      Kind strict a w (s, g) (s', aux x s g) ∧ (s'.asleep a = s.asleep a ∨ s'.asleep a = none) ∧
        ((strict → Answered (aux x s g)) →
          Ψ x (s', aux x s g, observe a (s, g) (s', aux x s g) w))) :
    Keeping P L strict a (Prog.atomicWith f aux) Φ Ψ := by
  refine Rules.Outline.watchAct (fun x => (hΨ x).stable) ?_
  intro s g w hi _ hm x s' hs
  obtain ⟨hkind, hsleep, hpost⟩ := h s g w hi hm.2 x s' hs
  refine ⟨⟨rfl, .inl hm.1, hkind⟩, fun _ hok => ⟨?_, hpost hok⟩⟩
  rcases hsleep with hsame | hnone
  · exact hsame.trans hm.1
  · exact hnone

/-- A program all of whose actions are of one mild kind. -/
theorem acts {p : RingM P L.slotCount α} (hp : p.Acts K) (hK : ∀ m m', K m m' → Mild a m m')
    (hΦ : Kept P L strict K a Φ) : Keeping P L strict a p Φ fun _ => Φ := by
  refine Rules.Outline.ofActs hΦ.stable ?_ hp
  intro s g w s' g' _ _ h hm
  have hmild := hK (s, g) (s', g') h
  refine ⟨⟨rfl, .inl hm.1, .mild hmild⟩, fun _ _ => ⟨?_, hΦ.acts (s, g) (s', g') w h hm.1 hm.2⟩⟩
  rcases hmild.asleep a with hsame | hnone
  · exact hsame.trans hm.1
  · exact hnone

/-- A program that is mild throughout. -/
theorem mild {p : RingM P L.slotCount α} (hp : p.Acts (Mild a))
    (hΦ : Kept P L strict (Mild a) a Φ) : Keeping P L strict a p Φ fun _ => Φ :=
  acts hp (fun _ _ h => h) hΦ

theorem loop {body : RingM P L.slotCount (Option α)}
    (hΦ : (rules P L strict).Stable a fun m => Awake a m ∧ Φ m)
    (hΨ : ∀ x, (rules P L strict).Stable a fun m => Awake a m ∧ Ψ x m)
    (h : Keeping P L strict a body Φ fun r m => match r with
      | none => Φ m
      | some x => Ψ x m) : Keeping P L strict a (Prog.loop body) Φ Ψ :=
  Rules.Outline.watchLoop hΦ hΨ (Rules.Outline.post h fun r m _ hm => by cases r <;> exact hm)

end Keeping

end

end TenzorBus.Arrival
