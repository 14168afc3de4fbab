import TenzorBus.Wakeup.Notes

/-!
# Outlines for watched operations

* `Does`, `Still` : what actions do to the words that matter
* `Kept` : assertions that the others leave alone, and most actions too
* `Keeping` : a proof outline of an actor who is awake before and after
-/

namespace TenzorBus.Wakeup

open Conc

variable {P : Platform} {n : Nat} {L : RingLayout}

/-! ## kinds of actions -/

/-- What every action does except for a producer that falls asleep. -/
structure Does (a : Actor) (s s' : State P n) : Prop where
  os : s'.os = s.os
  lock : s'.lock = s.lock ∨ s.lockFree = true ∧ s'.lock = some a ∨
    s.lock = some a ∧ s'.lock = none
  state : ∀ j, (s'.ring.slots j).state = (s.ring.slots j).state ∨
    (s'.ring.slots j).state = .committed ∨ s.lock = some a
  reclaim : s'.ring.reclaimFutex = s.ring.reclaimFutex ∨
    s'.ring.reclaimFutex = s.ring.reclaimFutex + 1
  asleep : ∀ b, s'.asleep b = s.asleep b ∨ s'.asleep b = none

/-- What most actions do: no slot becomes reclaimable, no signal, no lock. -/
structure Still (s s' : State P n) : Prop where
  os : s'.os = s.os
  lock : s'.lock = s.lock
  state : ∀ j, (s'.ring.slots j).state = (s.ring.slots j).state
  mask : ∀ j, (s'.ring.slots j).readersMask = (s.ring.slots j).readersMask
  reclaim : s'.ring.reclaimFutex = s.ring.reclaimFutex
  asleep : ∀ b, s'.asleep b = s.asleep b ∨ s'.asleep b = none

section

variable {a : Actor} {s s' : State P n} {g g' : Ghost n} {w : Notes n}

theorem Does.guar (h : Does a s s') (ha : s.asleep a = none) :
    Guar a (s, g, w) (s', g', observe a (s, g) (s', g') w) where
  noted := rfl
  os := h.os
  lock := h.lock
  state := h.state
  reclaim := h.reclaim
  awake := .inl ha
  asleep b := (h.asleep b).imp_right .inl

/-- Most actions do nothing that would have to be noted. -/
theorem Still.does (h : Still s s') : Does a s s' where
  os := h.os
  lock := .inl h.lock
  state j := .inl (h.state j)
  reclaim := .inl h.reclaim
  asleep := h.asleep

theorem Still.refl (s : State P n) : Still s s where
  os := rfl
  lock := rfl
  state _ := rfl
  mask _ := rfl
  reclaim := rfl
  asleep _ := .inl rfl

/-- The same of the memory with its history. -/
def Stills (m m' : State P n × Ghost n) : Prop := Still m.1 m'.1

theorem Stills.refl (m : State P n × Ghost n) : Stills m m := Still.refl m.1

/-- No slot becomes reclaimable, and none stops being so. -/
theorem Still.reclaimable (h : Still s s') (j : Fin n) :
    Reclaimable (s'.ring.slots j) ↔ Reclaimable (s.ring.slots j) := by
  unfold Reclaimable
  rw [h.state, h.mask]

/-- The notes on the slots stay as they are. -/
theorem Still.mark (h : Still s s') (t : Nat) (j : Fin n) :
    (observe a (s, g) (s', g') w).mark t j = w.mark t j := by
  simp [observe, takesLock, frees, bumps, h.lock, h.reclaimable, h.reclaim]

theorem Still.busy (h : Still s s') {t : Nat} (hb : w.busy t = true) :
    (observe a (s, g) (s', g') w).busy t = true := by
  simp [observe, takesLock, h.lock, hb]

/-- An action that changes nothing leaves the notes alone. -/
theorem observe_self (a : Actor) (m : State P n × Ghost n) (w : Notes n) :
    observe a m m w = w := by
  have hslept : ∀ t, fallsAsleep a m.1 m.1 t = false := fun t => by
    cases h : m.1.asleep a <;> simp [fallsAsleep, h]
  cases w
  simp [observe, takesLock, frees, bumps, hslept]

end

/-! ## assertions -/

/-- Actor `a` is not asleep. -/
def Awake (a : Actor) (m : Watched P n) : Prop := m.1.asleep a = none

/-- Actor `a` has the registry lock. -/
def Locked (a : Actor) (m : Watched P n) : Prop := m.1.lock = some a

/-- A reservation has been begun, or something committed, since any of the writers took the lock. -/
def Busy (m : Watched P n) : Prop := ∀ t, m.2.2.busy t = true

/-- Whichever of these slots is reclaimable has become so since writer `t` took the lock. -/
def Searched (t : Nat) (js : List (Fin n)) (m : Watched P n) : Prop :=
  ∀ j ∈ js, Reclaimable (m.1.ring.slots j) → m.2.2.mark t j ≠ .same

/-- The others leave the assertion alone, and so does an action of `a` that is `Still`. -/
structure Kept (a : Actor) (Φ : Watched P L.slotCount → Prop) : Prop where
  stable : (rules P L).Stable a Φ
  still : ∀ s g w s' g', Still s s' → Φ (s, g, w) → Φ (s', g', observe a (s, g) (s', g') w)

section

variable {a b : Actor} {m m' : Watched P L.slotCount} {Φ Ψ : Watched P L.slotCount → Prop}

theorem Kept.and (hΦ : Kept a Φ) (hΨ : Kept a Ψ) : Kept a fun m => Φ m ∧ Ψ m where
  stable := hΦ.stable.and hΨ.stable
  still s g w s' g' h hm := ⟨hΦ.still s g w s' g' h hm.1, hΨ.still s g w s' g' h hm.2⟩

theorem Kept.imp {φ : Prop} (hΦ : Kept a Φ) : Kept a fun m => φ → Φ m where
  stable := .imp_const fun _ => hΦ.stable
  still s g w s' g' h hm hφ := hΦ.still s g w s' g' h (hm hφ)

theorem kept_true : Kept a fun _ : Watched P L.slotCount => True where
  stable := .const True
  still _ _ _ _ _ _ _ := trivial

/-- An assertion is stable if no action of another actor falsifies it, and if it does not depend
on the system. -/
theorem stable_of (hguar : ∀ b m m', b ≠ a → m.1.aliveActor a → Guar b m m' → Φ m → Φ m')
    (henv : ∀ (m : Watched P L.slotCount) os, Φ m → Φ ({ m.1 with os := os }, m.2)) :
    (rules P L).Stable a Φ := by
  intro m m' h hm
  rcases h.step with ⟨b, hb, hg⟩ | he
  · refine hguar b m m' hb ?_ hg hm
    have hl : m'.1.aliveActor a := h.live
    unfold State.aliveActor at hl ⊢
    rwa [← (hg : Guar b m m').os]
  · obtain ⟨os, -, rfl⟩ := env_watched he
    exact henv m os hm

/-- Nobody puts another actor to sleep. -/
theorem Guar.stays_awake (hg : Guar b m m') (hb : b ≠ a) (hm : Awake a m) : Awake a m' := by
  rcases hg.asleep a with h | h | ⟨h, -⟩
  · exact h.trans hm
  · exact h
  · exact absurd h.symm hb

/-- Nobody owes a signal for what another actor does. -/
theorem Guar.stays_clear (hg : Guar b m m') (hb : b ≠ a) (hm : Clear a m) : Clear a m' := by
  intro t j hj
  obtain ⟨hmark, hbusy⟩ := hg.mark_owed (Ne.symm hb) hj
  exact hbusy (hm t j hmark)

theorem kept_awake : Kept a (Awake a : Watched P L.slotCount → Prop) where
  stable := stable_of (fun _ _ _ hb _ hg hm => hg.stays_awake hb hm) fun _ _ hm => hm
  still s g w s' g' h hm := by
    rcases h.asleep a with h | h
    · exact h.trans hm
    · exact h

/-- Nobody takes the lock from an actor that is alive. -/
theorem Guar.locked (hg : Guar b m m') (hb : b ≠ a) (hl : m.1.aliveActor a) (hm : Locked a m) :
    Locked a m' := by
  unfold Locked at hm
  rcases hg.lock with h | ⟨h, -⟩ | ⟨h, -⟩
  · exact h.trans hm
  · simp only [State.lockFree, hm, show P.alive m.1.os (P.proc a) = true from hl] at h
    cases h
  · exact absurd (Option.some.inj (h.symm.trans hm)) hb

theorem kept_locked : Kept a (Locked a : Watched P L.slotCount → Prop) where
  stable := stable_of (fun _ _ _ hb hl hg hm => hg.locked hb hl hm) fun _ _ hm => hm
  still _ _ _ _ _ h hm := h.lock.trans hm

/-- What has been signalled for stays signalled for. -/
theorem kept_clear : Kept a (Clear a : Watched P L.slotCount → Prop) where
  stable := stable_of (fun _ _ _ hb _ hg hm => hg.stays_clear hb hm) fun _ _ hm => hm
  still s g w s' g' h hm t j hj := by
    refine h.busy (hm t j ?_)
    rwa [h.mark] at hj

/-- Under the lock of `a` nobody takes the lock, so that a reservation of `a` stays noted. -/
theorem kept_busy : Kept a fun m : Watched P L.slotCount => Locked a m ∧ Busy m where
  stable := by
    refine stable_of (fun b m m' hb hl hg hm => ?_) fun m os hm => hm
    have hlocked := hg.locked hb hl hm.1
    refine ⟨hlocked, fun t => ?_⟩
    have htake : takesLock b m.1 m'.1 t = false := by
      have : m'.1.lock ≠ some b := fun h => hb (Option.some.inj (h.symm.trans hlocked))
      simp [takesLock, this]
    rw [hg.busy, htake, hm.2 t]
    rfl
  still s g w s' g' h hm := ⟨h.lock.trans hm.1, fun t => h.busy (hm.2 t)⟩

/-- A slot that has been seen taken was taken since the lock, whatever becomes of it. -/
theorem kept_searched {t : Nat} (js : List (Fin L.slotCount)) :
    Kept (.writer t) (Searched t js : Watched P L.slotCount → Prop) where
  stable := by
    refine stable_of (fun b m m' hb _ hg hm j hj hr hsame => ?_) fun m os hm => hm
    obtain ⟨hmark, hrec⟩ := hg.mark_same (takesLock_of_ne hb) hsame
    exact hm j hj (hrec hr) hmark
  still s g w s' g' h hm j hj hr hsame := by
    rw [h.mark] at hsame
    exact hm j hj ((h.reclaimable j).mp hr) hsame

/-- Under the lock of `a` a committed slot stays committed. -/
theorem kept_committed (j : Fin L.slotCount) : Kept a fun m : Watched P L.slotCount =>
    Locked a m ∧ (m.1.ring.slots j).state = .committed where
  stable := by
    refine stable_of (fun b m m' hb hl hg hm => ?_) fun m os hm => hm
    refine ⟨hg.locked hb hl hm.1, ?_⟩
    rcases hg.state j with h | h | h
    · exact h.trans hm.2
    · exact h
    · exact absurd (Option.some.inj (h.symm.trans hm.1)) hb
  still s g w s' g' h hm := ⟨h.lock.trans hm.1, (h.state j).trans hm.2⟩

end

/-! ## outlines -/

/-- Actor `a` is awake before and after. -/
abbrev Keeping (a : Actor) {α : Type} (p : RingM P L.slotCount α)
    (Φ : Watched P L.slotCount → Prop) (Ψ : α → Watched P L.slotCount → Prop) : Prop :=
  (rules P L).Outline a (p.watch observe a) (fun m => Awake a m ∧ Φ m) fun x m =>
    Awake a m ∧ Ψ x m

section

variable {a : Actor} {α β : Type} {Φ Φ' : Watched P L.slotCount → Prop}
  {Ψ Ψ' : α → Watched P L.slotCount → Prop}

namespace Keeping

theorem bind {p : RingM P L.slotCount α} {q : α → RingM P L.slotCount β}
    {Ψ' : β → Watched P L.slotCount → Prop} (hp : Keeping a p Φ Ψ)
    (hq : ∀ x, Keeping a (q x) (Ψ x) Ψ') : Keeping a (p >>= q) Φ Ψ' :=
  Rules.Outline.watchBind hp hq

theorem ret {x : α} (h : ∀ m, Φ m → Ψ x m) : Keeping a (pure x) Φ Ψ :=
  Rules.Outline.ret fun m _ hm => ⟨hm.1, h m hm.2⟩

theorem pre {p : RingM P L.slotCount α} (h : Keeping a p Φ Ψ) (hΦ : ∀ m, Φ' m → Φ m) :
    Keeping a p Φ' Ψ :=
  Rules.Outline.pre h fun m _ hm => ⟨hm.1, hΦ m hm.2⟩

theorem post {p : RingM P L.slotCount α} (h : Keeping a p Φ Ψ) (hΨ : ∀ x m, Ψ x m → Ψ' x m) :
    Keeping a p Φ Ψ' :=
  Rules.Outline.post h fun x m _ hm => ⟨hm.1, hΨ x m hm.2⟩

/-- One action. -/
theorem act {f : State P L.slotCount → Option (α × State P L.slotCount)}
    {aux : α → State P L.slotCount → Ghost L.slotCount → Ghost L.slotCount}
    (hΨ : ∀ x, Kept a (Ψ x))
    (h : ∀ s g w, s.aliveActor a → Φ (s, g, w) → ∀ x s', f s = some (x, s') →
      Does a s s' ∧ Ψ x (s', aux x s g, observe a (s, g) (s', aux x s g) w)) :
    Keeping a (Prog.atomicWith f aux) Φ Ψ := by
  refine Rules.Outline.watchAct (fun x => (kept_awake.and (hΨ x)).stable) ?_
  intro s g w _ hl hm x s' hs
  obtain ⟨hd, hx⟩ := h s g w hl hm.2 x s' hs
  refine ⟨hd.guar hm.1, fun _ _ => ⟨?_, hx⟩⟩
  rcases hd.asleep a with ha | ha
  · exact ha.trans hm.1
  · exact ha

/-- One action that answers nothing. -/
theorem store {f : State P L.slotCount → State P L.slotCount}
    {aux : State P L.slotCount → Ghost L.slotCount → Ghost L.slotCount}
    {Ψ : Watched P L.slotCount → Prop} (hΨ : Kept a Ψ)
    (h : ∀ s g w, s.aliveActor a → Φ (s, g, w) →
      Does a s (f s) ∧ Ψ (f s, aux s g, observe a (s, g) (f s, aux s g) w)) :
    Keeping a (Prog.modifyWith f aux) Φ fun _ => Ψ :=
  act (fun _ => hΨ) fun s g w hl hm x s' hs => by
    cases hs
    exact h s g w hl hm

/-- A program that does nothing of interest. -/
theorem still {p : RingM P L.slotCount α} (hp : p.Acts Stills) (hΦ : Kept a Φ) :
    Keeping a p Φ fun _ => Φ := by
  refine Rules.Outline.ofActs (kept_awake.and hΦ).stable ?_ hp
  intro s g w s' g' _ _ h hm
  exact ⟨h.does.guar hm.1, fun _ _ => ⟨kept_awake.still s g w s' g' h hm.1,
    hΦ.still s g w s' g' h hm.2⟩⟩

/-- Something is read. -/
theorem look {f : State P L.slotCount → α} (hΨ : ∀ x, Kept a (Ψ x))
    (h : ∀ m, Φ m → Ψ (f m.1) m) : Keeping a (Prog.read f) Φ Ψ :=
  act hΨ fun s g w _ hm x s' hs => by
    cases hs
    refine ⟨(Still.refl s).does, ?_⟩
    rw [observe_self]
    exact h _ hm

theorem loop {body : RingM P L.slotCount (Option α)} (hΦ : Kept a Φ) (hΨ : ∀ x, Kept a (Ψ x))
    (h : Keeping a body Φ fun r m => match r with
      | none => Φ m
      | some x => Ψ x m) : Keeping a (Prog.loop body) Φ Ψ :=
  Rules.Outline.watchLoop (kept_awake.and hΦ).stable (fun x => (kept_awake.and (hΨ x)).stable)
    (Rules.Outline.post h fun r m _ hm => by cases r <;> exact hm)

/-- A loop over a list whose invariant may speak of what is done. -/
theorem foldlM {f : α → β → RingM P L.slotCount α} (J : List β → α → Watched P L.slotCount → Prop)
    (hf : ∀ done x y, Keeping a (f y x) (J done y) (J (done ++ [x]))) (xs : List β) (y : α) :
    Keeping a (xs.foldlM f y) (J [] y) (J xs) :=
  Rules.Outline.watchFoldlM (fun done y m => Awake a m ∧ J done y m) hf xs [] y

end Keeping

end

end TenzorBus.Wakeup
