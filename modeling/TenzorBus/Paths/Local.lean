import TenzorBus.Conc.Outcome
import TenzorBus.Ring.Inner

/-!
# What a process holds is its own

The programs that both ways to publish have in common change the mapping, the lock and who sleeps.
What the processes hold stays as it is.
-/

namespace TenzorBus

open Conc

variable {P : Platform} {n : Nat}

/-- What the operating system does on its own. -/
def OsStep (m m' : State P n × Ghost n) : Prop :=
  ∃ os, P.step m.1.os os ∧ m' = ({ m.1 with os := os }, m.2)

/-- A condition on what the processes hold. -/
structure Local (Φ : State P n → Prop) : Prop where
  ring : ∀ s r, Φ s → Φ { s with ring := r }
  lock : ∀ s l, Φ s → Φ { s with lock := l }
  os : ∀ s os, Φ s → Φ { s with os := os }
  asleep : ∀ s a, Φ s → Φ { s with asleep := a }

/-- The writer `t` has nothing in hand. -/
theorem Local.unwritten (t : Nat) : Local fun s : State P n => s.writer t = none :=
  ⟨fun _ _ h => h, fun _ _ h => h, fun _ _ h => h, fun _ _ h => h⟩

namespace Local

variable {Φ : State P n → Prop} (hΦ : Local Φ)

include hΦ

theorem env : EnvKeeps OsStep Φ := by
  rintro m m' ⟨os, -, rfl⟩ hm
  exact hΦ.os _ os hm

/-- Inside the operations only the mapping, the lock and who sleeps change. -/
theorem inner {m m' : State P n × Ghost n} (h : Inner m m') (hm : Φ m.1) : Φ m'.1 := by
  obtain ⟨⟨ring, lock, os, asleep, consumer, leases, writer⟩, g⟩ := m'
  obtain rfl : consumer = m.1.consumer := h.consumer
  obtain rfl : leases = m.1.leases := h.leases
  obtain rfl : writer = m.1.writer := h.writer
  exact hΦ.asleep _ asleep (hΦ.os _ os (hΦ.lock _ lock (hΦ.ring _ ring hm)))

theorem keeps {α : Type} {p : RingM P n α} (h : p.Acts Inner) : Conc.Keeps OsStep Φ p :=
  .of_acts hΦ.env h fun _ _ => hΦ.inner

/-- Whoever falls asleep holds what it held. -/
theorem backOff {α : Type} (t : Nat) (policy : Backpressure) (deadline : Nat) :
    Conc.Keeps OsStep Φ (Producer.backOff t policy deadline :
      RingM P n (Option (Except Error (Option α)))) := by
  unfold Producer.backOff
  split
  · exact hΦ.keeps (.bind (.modifyWith fun s g => { Inner.refl (s, g) with }) fun _ => .ret _)
  · refine .bind (hΦ.keeps inner_read) fun time => ?_
    split
    · exact hΦ.keeps (.ret _)
    · refine .bind (hΦ.keeps inner_read) fun observed => .bind ?_ fun _ => hΦ.keeps (.ret _)
      refine .bind (.modifyWith hΦ.env fun s hs => ?_) fun _ => hΦ.keeps (inner_wake _)
      split
      · exact hΦ.asleep s _ hs
      · exact hs

end Local

end TenzorBus
