import TenzorBus.Ring.Inner
import TenzorBus.Ring.Watched

/-!
# Commits and their signals

Notes on a run: which writers have committed a publication and have still to count it in
`G_PUBLISH_COUNT` and to bump `G_PUBLISH_FUTEX` for it.

* `Notes`, `observe` : the notes
* `Kind` : what an action can be
* `Looked` : what a consumer knows that has loaded the futex word and has looked for publications
* `rules` : what every actor may do, and what holds between any two actions
-/

namespace TenzorBus.Arrival

open Conc

variable {P : Platform} {n : Nat} {L : RingLayout}

/-! ## the notes -/

/-- What is noted of a run. -/
structure Notes where
  /-- How often `G_PUBLISH_FUTEX` and `G_PUBLISH_COUNT` have been bumped. -/
  signals : Nat
  counts : Nat
  /-- The writers that have committed and have still to bump them. -/
  unsignalled : Finset Nat
  uncounted : Finset Nat
  /-- The position of what writer `t` has committed last. -/
  position : Nat → Nat
  /-- `signals` when consumer `c` last registered, was handed something or was woken up. -/
  since : Nat → Nat

/-- The notes at the beginning: nothing has been committed. -/
def Notes.init : Notes :=
  { signals := 0, counts := 0, unsignalled := ∅, uncounted := ∅, position := fun _ => 0,
    since := fun _ => 0 }

/-- A publication is committed. -/
def commits (m m' : State P n × Ghost n) : Bool :=
  decide (m'.2.published.length ≠ m.2.published.length)

/-- `G_PUBLISH_COUNT` is bumped. -/
def counts (m m' : State P n × Ghost n) : Bool :=
  decide (m'.1.ring.publishCount ≠ m.1.ring.publishCount)

/-- `G_PUBLISH_FUTEX` is bumped. -/
def bumps (m m' : State P n × Ghost n) : Bool :=
  decide (m'.1.ring.publishFutex ≠ m.1.ring.publishFutex)

/-- Consumer `c` registers, is handed something, or is woken up. -/
def stirs (c : Nat) (m m' : State P n × Ghost n) : Bool :=
  (m.2.registration c).isNone && (m'.2.registration c).isSome ||
    decide ((m'.2.handed c).length ≠ (m.2.handed c).length) ||
      (m.1.asleep (.consumer c)).isSome && (m'.1.asleep (.consumer c)).isNone

/-- Who has still to do something after it has become due, or has been done. -/
def stillDue (a : Actor) (due done : Bool) (ts : Finset Nat) : Finset Nat :=
  match a with
  | .writer t => if due then insert t ts else if done then ts.erase t else ts
  | _ => ts

/-- What an action of `a` adds to the notes. -/
def observe : Observer Actor (State P n) (Ghost n) Notes := fun a m m' w =>
  { signals := if bumps m m' then w.signals + 1 else w.signals
    counts := if counts m m' then w.counts + 1 else w.counts
    unsignalled := stillDue a (commits m m') (bumps m m') w.unsignalled
    uncounted := stillDue a (commits m m') (counts m m') w.uncounted
    position := fun t =>
      if a = .writer t ∧ commits m m' = true then m.2.published.length else w.position t
    since := fun c => if stirs c m m' then w.signals else w.since c }

/-- The memory, the history and the notes. -/
abbrev Watched (P : Platform) (n : Nat) := State P n × (Ghost n × Notes)

/-- The ring under observation. -/
abbrev watchedRing (P : Platform) (L : RingLayout) :
    System Actor (State P L.slotCount) (Ghost L.slotCount × Notes) :=
  (ringSystem P L).watch observe

/-! ## what a consumer knows -/

/-- The word was loaded after `s` signals. As long as there has been no other, everything from
position `l` on that has been committed has still to be signalled. -/
structure Looked (c s l : Nat) (m : Watched P n) : Prop where
  since : m.2.2.since c ≤ s
  le : s ≤ m.2.2.signals
  due : m.2.2.signals = s → ∀ i, l ≤ i → i < m.2.1.published.length →
    ∃ t ∈ m.2.2.unsignalled, m.2.2.position t = i

/-- Everything before position `l` has been handed to consumer `c`, or was not meant for it. -/
def Behind (c l : Nat) (m : Watched P n) : Prop :=
  ∀ k, m.2.1.registration c = some k → k.quiet → l ≤ k.start + (m.2.1.handed c).length

/-- Consumer `c` has loaded the value `v`; about the position `l` something is known. -/
def Loaded (c : Nat) (v : UInt32) (X : Nat → Watched P n → Prop) (m : Watched P n) : Prop :=
  ∃ s l, v = UInt32.ofNat s ∧ Looked c s l m ∧ X l m

/-- Consumer `c` may sleep on the value `v`. -/
abbrev Expects (c : Nat) (v : UInt32) : Watched P n → Prop := Loaded c v (Behind c)

/-! ## what an action can be -/

/-- An action of `a` that is none of the others below. -/
structure Mild (a : Actor) (m m' : State P n × Ghost n) : Prop where
  os : m'.1.os = m.1.os
  count : m'.1.ring.publishCount = m.1.ring.publishCount
  futex : m'.1.ring.publishFutex = m.1.ring.publishFutex
  asleep : ∀ b, m'.1.asleep b = m.1.asleep b ∨ m'.1.asleep b = none
  published : m'.2.published = m.2.published
  trying : ∀ c, a ≠ .consumer c → m'.2.trying c = m.2.trying c
  handed : ∀ c, a ≠ .consumer c → m'.2.handed c = m.2.handed c
  registration : ∀ c, a ≠ .consumer c → m'.2.registration c = m.2.registration c

/-- A commit, the bump of `G_PUBLISH_COUNT`, that of `G_PUBLISH_FUTEX`, an actor that falls asleep,
or something else. A consumer falls asleep when it has looked. -/
inductive Kind (strict : Prop) (a : Actor) (w : Notes) (m : State P n × Ghost n) :
    State P n × Ghost n → Prop
  | mild {m' : State P n × Ghost n} (h : Mild a m m') : Kind strict a w m m'
  | commit (t : Nat) (actor : a = .writer t) (pub : Publication n) (ring : Ring n)
      (count : ring.publishCount = m.1.ring.publishCount)
      (futex : ring.publishFutex = m.1.ring.publishFutex) (signalled : t ∉ w.unsignalled)
      (counted : t ∉ w.uncounted) : Kind strict a w m ({ m.1 with ring := ring }, m.2.commit t pub)
  | count (t : Nat) (actor : a = .writer t) (due : t ∈ w.uncounted) : Kind strict a w m
      ({ m.1 with ring := { m.1.ring with publishCount := m.1.ring.publishCount + 1 } }, m.2)
  | signal (t : Nat) (actor : a = .writer t) (due : t ∈ w.unsignalled)
      (counted : t ∉ w.uncounted) : Kind strict a w m
      ({ m.1 with ring := { m.1.ring with publishFutex := m.1.ring.publishFutex + 1 } }, m.2)
  | sleep (word : FutexWord) (awake : m.1.asleep a = none)
      (looked : strict → ∀ c, a = .consumer c → word = .publish →
        Expects c m.1.ring.publishFutex (m.1, m.2, w)) : Kind strict a w m
      ({ m.1 with
        asleep := Function.update m.1.asleep a (some (word, m.1.ring.futexWord word)) }, m.2)

/-- What an action of `a` does: it is of one of the kinds, it is noted, and nobody acts who is
asleep. -/
structure Guar (strict : Prop) (a : Actor) (m m' : Watched P n) : Prop where
  noted : m'.2.2 = observe a (m.1, m.2.1) (m'.1, m'.2.1) m.2.2
  awake : m.1.asleep a = none ∨ m'.1.asleep a = none
  kind : Kind strict a m.2.2 (m.1, m.2.1) (m'.1, m'.2.1)

/-- The words agree with the notes, and so does the number of commits; whoever is asleep may sleep
on what it sleeps on. -/
structure Inv (strict : Prop) (m : Watched P n) : Prop where
  futex : m.1.ring.publishFutex = UInt32.ofNat m.2.2.signals
  count : m.1.ring.publishCount = UInt64.ofNat m.2.2.counts
  signals : m.2.1.published.length = m.2.2.signals + m.2.2.unsignalled.card
  counts : m.2.1.published.length = m.2.2.counts + m.2.2.uncounted.card
  before : m.2.2.uncounted ⊆ m.2.2.unsignalled
  since : ∀ c, m.2.2.since c ≤ m.2.2.signals
  asleep : strict → ∀ c v, m.1.asleep (.consumer c) = some (.publish, v) → Expects c v m

/-- Writer `t` has counted and signalled whatever it has committed. -/
def Settled (a : Actor) (m : Watched P n) : Prop :=
  ∀ t, a = .writer t → t ∉ m.2.2.unsignalled ∧ t ∉ m.2.2.uncounted

/-- Actor `a` is not asleep. -/
def Awake (a : Actor) (m : Watched P n) : Prop := m.1.asleep a = none

/-- No `try_take` of a consumer that registered between two reservations has come back with nothing
when something was due. -/
def Answered (g : Ghost n) : Prop :=
  ∀ c k, g.registration c = some k → k.quiet → ∀ x ∈ g.tries c, x.result = none →
    x.start ≤ k.start + x.handed

/-- What holds in every run under observation. Who is idle is awake and has settled. -/
def rules (P : Platform) (L : RingLayout) (strict : Prop) : Rules (watchedRing P L) where
  inv := Inv strict
  guar := Guar strict
  ok _ m' := strict → Answered m'.2.1
  rest a m := Awake a m ∧ Settled a m

end TenzorBus.Arrival
