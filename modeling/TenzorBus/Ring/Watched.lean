import TenzorBus.Conc.Watch
import TenzorBus.Ring.Script

/-!
# The ring under observation

What does not depend on what the observer notes.

* `env_watched` : what the operating system does
* `FreshWatched` : where a watched run begins
* `Script.reachWatched` : watched runs that are written down
-/

namespace TenzorBus

open Conc

variable {P : Platform} {L : RingLayout} {μ : Type}

theorem env_watched {o : Observer Actor (State P L.slotCount) (Ghost L.slotCount) μ}
    {m m' : State P L.slotCount × (Ghost L.slotCount × μ)}
    (h : ((ringSystem P L).watch o).env m m') :
    ∃ os, P.step m.1.os os ∧ m' = ({ m.1 with os := os }, m.2) := by
  obtain ⟨⟨os, hos, he⟩, hw⟩ := h
  obtain ⟨hs, hg⟩ := Prod.mk.inj he
  exact ⟨os, hos, Prod.ext hs (Prod.ext hg hw)⟩

/-- A fresh ring, and the notes `w` of an observer. -/
def FreshWatched (P : Platform) (L : RingLayout)
    (o : Observer Actor (State P L.slotCount) (Ghost L.slotCount) μ) (w : μ) (k : UInt64)
    (start : P.Os → Prop)
    (d : Config Actor (State P L.slotCount) (Ghost L.slotCount × μ)) : Prop :=
  ∃ c, Fresh P L k start c ∧ d = c.watched o w

/-- A run of a ring in one process, under observation, written down from its beginning. -/
theorem Script.reachWatched (L : RingLayout)
    (o : Observer Actor (State .single L.slotCount) (Ghost L.slotCount) μ) (w : μ)
    (start : Unit → Prop) (hstart : start ())
    (ok : State .single L.slotCount × (Ghost L.slotCount × μ) →
      State .single L.slotCount × (Ghost L.slotCount × μ) → Prop)
    (chk : State .single L.slotCount × (Ghost L.slotCount × μ) →
      State .single L.slotCount × (Ghost L.slotCount × μ) → Bool)
    (hchk : ∀ c m',
      ((ringSystem .single L).watch o).Reach ok (FreshWatched .single L o w 0 start) c →
        chk c.mem m' = true → ok c.mem m')
    (moves : List (System.Move (ringSystem .single L)))
    (test : Config Actor (State .single L.slotCount) (Ghost L.slotCount × μ) → Bool)
    (h : (System.play Script.alive chk (moves.map fun x => x.watch o)
      (Config.watched o
        { mem := (State.init 0 (), Ghost.init _ 0), pool := fun _ => .ret () } w)).any test =
          true) :
    ∃ d, ((ringSystem .single L).watch o).Reach ok (FreshWatched .single L o w 0 start) d ∧
      test d = true := by
  have hwithin : (moves.map fun x => x.watch o).all
      (System.Move.within fun _ => true) = true := by
    rw [List.all_eq_true]
    intro move _
    cases move <;> rfl
  obtain ⟨d, hd, -, ht⟩ := System.Reach.playAmong (fun _ _ h => h)
    (fun c d hc _ _ => hchk c d.mem hc) _ hwithin (.init ⟨_, ⟨(), hstart, rfl⟩, rfl⟩)
    (fun _ hi => absurd hi (by simp)) h
  exact ⟨d, hd, ht⟩

end TenzorBus
