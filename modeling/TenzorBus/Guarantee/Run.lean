import TenzorBus.Refine.Delivery
import TenzorBus.Ring.Script

/-!
# Conditions on a run

What the guarantees of the ring presuppose of a run, one step at a time.

* `TrustedChecks` : the liveness check takes nobody alive for dead
* `Timely` : nor does it report a slot that has been committed meanwhile
* `HonestChecks` : it does neither
* `Calm` : every process is alive and reported alive
* `Windowed` : no consumer runs half the range of the counter ahead of a slot that waits for it
-/

namespace TenzorBus

open Conc Refine

variable {P : Platform} {L : RingLayout} {n : Nat}

/-- The liveness check reports nobody as gone who is still alive. -/
def TrustedChecks (m m' : State P n × Ghost n) : Prop :=
  Believes (.lax n True) (view m) (view m')

/-- What `reap_dead` asks: `pid_alive` of the pid in a registry entry, `pid_alive_with_token` of
the pid and the token in a slot. -/
def State.check (s : State P n) : Subject n → Bool
  | .entry i => P.pidAliveWithToken s.os (s.ring.entries i).pid 0
  | .slot j =>
    P.pidAliveWithToken s.os (s.ring.slots j).producerPid (s.ring.slots j).producerStartToken

theorem check_view (m : State P n × Ghost n) (s : Subject n) : (view m).check s = m.1.check s := by
  cases s <;> rfl

/-- When the liveness check is asked about a slot that has left `STATE_WRITING` since the sweep
looked at it, it says alive. -/
def Timely (m m' : State P n × Ghost n) : Prop :=
  ∀ y j, m'.2.verdicts = y :: m.2.verdicts → y.subject = .slot j →
    (m.1.ring.slots j).state ≠ .writing → m.1.check (.slot j) = true

/-- The liveness check reports nobody as gone who is still alive, and no slot as abandoned but one
that a dead writer has left in `STATE_WRITING`. -/
def HonestChecks (m m' : State P n × Ghost n) : Prop := Honest (view m) (view m')

/-- Every process is alive. -/
def Platform.allAlive (P : Platform) (os : P.Os) : Prop := ∀ p, P.alive os p = true

/-- Every process is alive, and reported alive. -/
structure Calm (m m' : State P n × Ghost n) : Prop where
  alive : P.allAlive m'.1.os
  verdict : ∀ x, m'.2.verdicts = x :: m.2.verdicts → x.alive = true

/-- Sweeps that may take back what has been committed need no more than that. -/
theorem Believes.careless {G : Guards n} {v v' : View P n} (h : Believes (.lax n True) v v')
    (hG : G.careless) : Believes G v v' := by
  intro y hy hdead
  have hgone := h y hy hdead
  cases hs : y.subject with
  | entry i => rwa [hs] at hgone
  | slot j =>
    rw [hs] at hgone
    exact ⟨hgone.1, fun hn => absurd hG hn⟩

/-- Where nobody asks the liveness check, nothing is believed. -/
theorem believes_same {G : Guards n} {v v' : View P n} (h : v'.proto.hist = v.proto.hist) :
    Believes G v v' := by
  intro x hx
  rw [h] at hx
  exact absurd hx.symm (List.cons_ne_self x _)

/-- A slot that is reported dead in time is still in `STATE_WRITING`. -/
theorem TrustedChecks.believes {G : Guards n} {a : Actor} {m m' : State P n × Ghost n}
    (h : TrustedChecks m m') (ht : Timely m m') (hg : Private a (view m) (view m')) :
    Believes G (view m) (view m') := by
  intro y hy hdead
  have hgone := h y hy hdead
  have hcheck := (hg.verdict y hy).1
  rw [hdead, check_view] at hcheck
  cases hs : y.subject with
  | entry i => rwa [hs] at hgone
  | slot j =>
    rw [hs] at hgone hcheck
    refine ⟨hgone.1, fun _ => ?_⟩
    by_contra hw
    rw [ht y j hy hs hw] at hcheck
    cases hcheck

theorem Calm.honest {m m' : State P n × Ghost n} (h : Calm m m') : HonestChecks m m' :=
  fun x hx hd => by rw [h.verdict x hx] at hd; cases hd

/-- No open consumer has taken anything more than `2 ^ 63` sequence numbers ahead of a committed
publication on which its reader bit is still set. -/
def Windowed (p : Proto n) : Prop :=
  ∀ c k j, p.client c k → p.state j = .committed → k.index ∈ p.mask j →
    k.last - p.hist.num j ≤ 2 ^ 63

/-- A slot that the liveness check is asked about is being written. -/
def Script.asksInTime (m m' : State P L.slotCount × Ghost L.slotCount) : Bool :=
  unasked m m' || m'.2.verdicts.head?.all fun y =>
    match y.subject with
    | .entry _ => true
    | .slot j => decide ((m.1.ring.slots j).state = .writing)

theorem Script.timely_of_asksInTime {m m' : State P L.slotCount × Ghost L.slotCount}
    (h : asksInTime m m' = true) : Timely m m' := by
  intro y j hy hs hw
  rcases Bool.or_eq_true_iff.mp h with hun | hall
  · exact (verdicts_of_unasked hun hy).elim
  · rw [hy, List.head?_cons, Option.all_some, hs] at hall
    exact absurd (of_decide_eq_true hall) hw

/-- On a platform where nothing happens every run is calm. -/
theorem reach_calm {L : RingLayout} {k : UInt64} {c : RingConfig .single L}
    (h : (ringSystem .single L).Reach (fun _ _ => True)
      (Fresh .single L k Platform.single.allAlive) c) :
    (ringSystem .single L).Reach Calm (Fresh .single L k Platform.single.allAlive) c := by
  induction h with
  | init h => exact .init h
  | @step c d _ hs _ ih =>
    refine ih.step hs ⟨fun _ => rfl, fun x hx => ?_⟩
    rcases (plainMode_lawful .single L k Platform.single.allAlive).sound.step (ih.mono fun _ _ hc =>
      ⟨hc.honest.believes, trivial⟩) hs with ⟨a, -, hg⟩ | ⟨os, -, he⟩ | he
    · rw [(hg.private'.verdict x hx).1]
      cases x.subject <;> rfl
    · rw [he] at hx
      exact absurd hx.symm (List.cons_ne_self x _)
    · rw [he] at hx
      exact absurd hx.symm (List.cons_ne_self x _)

/-- What a use of the ring may presuppose of a run whose liveness check can be trusted and is asked
in time. -/
theorem Mode.Lawful.reach_trusted {M : Mode P L.slotCount} {k : UInt64}
    {start : P.Os → Prop} (hM : M.Lawful k start)
    {ok : State P L.slotCount × Ghost L.slotCount → State P L.slotCount × Ghost L.slotCount → Prop}
    (hok : ∀ m m', ok m m' → TrustedChecks m m' ∧ Timely m m' ∧ M.ok (view m) (view m'))
    {c : RingConfig P L} (h : (ringSystem P L).Reach ok (Fresh P L k start) c) :
    (ringSystem P L).Reach M.rules.ok (Fresh P L k start) c := by
  refine hM.sound.reach (fun m m' _ hm hs => ⟨?_, (hok m m' hm).2.2⟩) h
  rcases hs with ⟨a, -, hg⟩ | ⟨os, -, rfl⟩ | rfl
  · exact (hok m m' hm).1.believes (hok m m' hm).2.1 hg.private'
  · exact believes_same rfl
  · exact believes_same rfl

/-- In any run with honest checks the protocol keeps its invariant. -/
theorem inv_of_reach {k : UInt64} {start : P.Os → Prop} {c : RingConfig P L}
    (h : (ringSystem P L).Reach HonestChecks (Fresh P L k start) c) :
    Inv L.slotCapacity (view c.mem).proto :=
  ((plainMode_lawful P L k start).inv (h.mono fun _ _ hc => ⟨Honest.believes hc, trivial⟩)).proto

/-! ## short runs -/

/-- The counter stays within a range in which every comparison is the one of the numbers. -/
def Short (m : State P n × Ghost n) : Prop := 0 ≤ m.2.next ∧ m.2.next ≤ 2 ^ 62

instance (m : State P n × Ghost n) : Decidable (Short m) :=
  inferInstanceAs (Decidable (0 ≤ m.2.next ∧ m.2.next ≤ 2 ^ 62))

/-- What a short run has numbered and what its consumers have seen. -/
structure Narrow (p : Proto n) : Prop where
  num : ∀ j, 0 ≤ p.hist.num j ∧ p.hist.num j ≤ 2 ^ 62
  last : ∀ c k, p.hist.registration c = some k → -1 ≤ k.last ∧ k.last ≤ 2 ^ 62

theorem Narrow.windowed {p : Proto n} (h : Narrow p) : Windowed p := fun c k j hk _ _ => by
  have := (h.last c k hk.1).2
  have := (h.num j).1
  omega

theorem Narrow.step {G : Guards n} {cap : Nat} {a : Actor} {p p' : Proto n} (h : Narrow p)
    (hs : Step G cap a p p') (hn : 0 ≤ p.hist.next ∧ p.hist.next ≤ 2 ^ 62) : Narrow p' := by
  cases hs with
  | number t _ r locked own phase =>
    refine ⟨fun j => ?_, h.last⟩
    by_cases hj : j = r.slot
    · subst hj; simpa [Ghost.number] using hn
    · simpa [Ghost.number, hj] using h.num j
  | register c _ i locked free fresh =>
    refine ⟨h.num, fun c' k hk => ?_⟩
    by_cases hc : c' = c
    · subst hc
      have hk : p.hist.registrationNow i = k := by simpa [Ghost.register] using hk
      subst hk
      simp only [Ghost.registrationNow]
      omega
    · exact h.last c' k (by simpa [Ghost.register, hc] using hk)
  | closing c _ =>
    refine ⟨h.num, fun c' k hk => ?_⟩
    by_cases hc : c' = c
    · subst hc
      obtain ⟨k₀, hk₀, rfl⟩ := Option.map_eq_some_iff.mp
        (show (p.hist.registration c').map _ = some k by simpa [Ghost.closing] using hk)
      exact h.last c' k₀ hk₀
    · exact h.last c' k (by simpa [Ghost.closing, hc] using hk)
  | take c _ k₀ m client grants =>
    refine ⟨h.num, fun c' k hk => ?_⟩
    by_cases hc : c' = c
    · subst hc
      obtain ⟨k₁, hk₁, rfl⟩ := Option.map_eq_some_iff.mp
        (show (p.hist.registration c').map _ = some k by simpa [Ghost.hand] using hk)
      have := h.num m.slotIndex
      exact ⟨show (-1 : Int) ≤ p.hist.num m.slotIndex by omega, this.2⟩
    · exact h.last c' k (by simpa [Ghost.hand, hc] using hk)
  | _ => exact ⟨h.num, h.last⟩

/-- The use of the ring in which the counter stays small. -/
def shortMode (P : Platform) (n : Nat) (careless : Prop) : Mode P n where
  guards := .lax n careless
  inv v := Narrow v.proto ∧ 0 ≤ v.proto.hist.next ∧ v.proto.hist.next ≤ 2 ^ 62
  ok _ v' := 0 ≤ v'.proto.hist.next ∧ v'.proto.hist.next ≤ 2 ^ 62

theorem shortMode_lawful (P : Platform) (L : RingLayout) (careless : Prop)
    (start : P.Os → Prop) : (shortMode P L.slotCount careless).Lawful (L := L) 0 start where
  initial _ _ :=
    have hz : (0 : Int) ≤ 0 ∧ (0 : Int) ≤ 2 ^ 62 := by decide
    ⟨⟨fun _ => hz, nofun⟩, hz⟩
  delivers := delivers_lax rfl
  step _ _ _ hi hg _ hok _ := ⟨hi.mode.1.step hg.step hi.mode.2, hok⟩
  env _ _ hi hp hok := by
    refine ⟨?_, hok⟩
    rw [hp.fades.eq]
    exact ⟨hi.mode.1.num, hi.mode.1.last⟩

/-- Nobody dies, and no consumer runs too far ahead. -/
def CalmAndWindowed (m m' : State P n × Ghost n) : Prop :=
  Calm m m' ∧ Windowed (view m').proto

theorem windowed_of_short {start : P.Os → Prop} (careless : Prop) {c : RingConfig P L}
    (h : (ringSystem P L).Reach (shortMode P L.slotCount careless).rules.ok
      (Fresh P L 0 start) c) : Windowed (view c.mem).proto :=
  ((shortMode_lawful P L careless start).inv h).mode.1.windowed

/-- A short run is inside the window, whatever else is asked of it. -/
theorem reach_of_short {start : P.Os → Prop} (careless : Prop)
    (ok : State P L.slotCount × Ghost L.slotCount → State P L.slotCount × Ghost L.slotCount → Prop)
    (hshort : ∀ d, (ringSystem P L).Reach (fun m m' => ok m m' ∧ Short m') (Fresh P L 0 start) d →
      (ringSystem P L).Reach (shortMode P L.slotCount careless).rules.ok (Fresh P L 0 start) d)
    {c : RingConfig P L}
    (h : (ringSystem P L).Reach (fun m m' => ok m m' ∧ Short m') (Fresh P L 0 start) c) :
    (ringSystem P L).Reach (fun m m' => ok m m' ∧ Windowed (view m').proto)
      (Fresh P L 0 start) c := by
  induction h with
  | init h => exact .init h
  | step hr hs hok ih =>
    exact ih.step hs ⟨hok.1, windowed_of_short careless (hshort _ (hr.step hs hok))⟩

theorem reach_windowed {start : P.Os → Prop} {c : RingConfig P L}
    (h : (ringSystem P L).Reach (fun m m' => Calm m m' ∧ Short m') (Fresh P L 0 start) c) :
    (ringSystem P L).Reach CalmAndWindowed (Fresh P L 0 start) c :=
  reach_of_short False Calm
    (fun _ hd => hd.mono fun _ _ hc => ⟨Honest.believes hc.1.honest, hc.2⟩) h

end TenzorBus
