import TenzorBus.Guarantee.Run
import TenzorBus.Ring.Table

/-!
# Exact liveness checks

A platform whose liveness check is right about every pid and every start token. What it reports
dead is what a sweep may take back.

* `Platform.Exact` : the check is right
* `trusted_exact` : whoever may die, no slot of the living is taken for abandoned
* `Mode.Lawful.reach_exact`, `Mode.Lawful.reach_exact_careless`, `reach_trusted_exact` : what that
  means for runs
-/

namespace TenzorBus

open Conc Refine

variable {P : Platform} {L : RingLayout} {n : Nat} {token : Nat → UInt32}

/-- Running processes have different pids, and `pid_alive_with_token` says whether a running
process has this pid and, if one is given, this start token. -/
structure Platform.Exact (P : Platform) (token : Nat → UInt32) : Prop where
  alive : ∀ os p, P.running os p = true → P.alive os p = true
  distinct : ∀ os p q, P.running os p = true → P.running os q = true → P.pid p = P.pid q → p = q
  startToken : ∀ os p, P.running os p = true → P.pidStartToken os (P.pid p) = token p
  check : ∀ os pid tok, P.pidAliveWithToken os pid tok = true ↔
    ∃ p, P.running os p = true ∧ P.pid p = pid ∧ (tok = 0 ∨ token p = tok)

theorem Platform.table_exact (T : ProcessTable) (proc : Actor → Nat) :
    (Platform.table T proc).Exact T.token where
  alive _ _ h := (Bool.and_eq_true_iff.mp h).2
  distinct os p q hp hq h := os.2 p q hp hq h
  startToken os _ h := Processes.startToken_eq os.2 h
  check _ _ _ := Processes.check_iff

section

variable {G : Guards n} {cap : Nat} {a : Actor} {v v' : View P n} {p p' : Proto n}

/-- A running consumer is found under the pid in its registry entry. -/
theorem Platform.Exact.check_entry (hP : P.Exact token) (hc : Coupled G v) {i : Fin 64} {c : Nat}
    (hh : v.proto.hist.holder i = some c) (hl : v.proto.alive (.consumer c)) :
    v.check (.entry i) = true := by
  show P.pidAliveWithToken v.os (v.entryPid i) 0 = true
  rw [hc.entryPid i c hh]
  exact (hP.check _ _ _).mpr ⟨_, hc.holding i c hh hl, rfl, .inl rfl⟩

/-- A running writer is found under the pid and the token that it has left in a slot. -/
theorem Platform.Exact.check_slot (hP : P.Exact token) {j : Fin n} {t : Nat}
    (hs : v.Stamped j t) (hr : v.running (.writer t)) : v.check (.slot j) = true := by
  obtain ⟨hpid, os, hos, htoken⟩ := hs
  show P.pidAliveWithToken v.os (v.slotPid j) (v.slotToken j) = true
  rw [hpid, htoken]
  refine (hP.check _ _ _).mpr ⟨_, hr, rfl, .inr ?_⟩
  exact (hP.startToken _ _ hos).symm

/-- An entry that is reported dead is that of a dead consumer. -/
theorem Platform.Exact.orphaned_entry (hP : P.Exact token) (hc : Coupled G v) {i : Fin 64}
    (h : v.check (.entry i) = false) : v.proto.orphaned (.entry i) := by
  intro c hh hl
  rw [hP.check_entry hc hh hl] at h
  cases h

/-- The liveness check is asked under the lock, by somebody who has no reservation. -/
theorem Step.verdict_inv (hs : Step G cap a p p') {x : Verdict n}
    (hx : p'.hist.verdicts = x :: p.hist.verdicts) :
    p.lock = some a ∧ ∀ t, a = .writer t → p.hist.reservation t = none := by
  cases hs with
  | verdict _ _ _ locked idle => exact ⟨locked, idle⟩
  | _ => exact absurd hx.symm (List.cons_ne_self x _)

/-- A slot that is reported dead is not that of a living writer, who would have stamped it. -/
theorem Platform.Exact.orphaned_slot (hP : P.Exact token) (hc : Coupled G v) (hi : Inv cap v.proto)
    (hl : v.proto.lock = some a)
    (idle : ∀ t, a = .writer t → v.proto.hist.reservation t = none) {j : Fin n}
    (h : v.check (.slot j) = false) : v.proto.orphaned (.slot j) := by
  rintro t r hr rfl hp hlive
  have hheader : r.phase ≠ .header := by
    intro hh
    have hlock := hi.locked t r hr (by rw [hh]; nofun) hlive
    have hnone := idle t (Option.some.inj (hl.symm.trans hlock))
    rw [hr] at hnone
    cases hnone
  have hstamped := hc.stamped t r hr hheader hp
  rw [hP.check_slot hstamped (hc.reserving t r hr hlive)] at h
  cases h

/-- Nobody is reported dead who lives. -/
theorem trusted_exact (hP : P.Exact token) (hc : Coupled G v) (hi : Inv cap v.proto)
    (hg : Guar G cap a v v') : Believes (.lax n True) v v' := by
  intro x hx hdead
  obtain ⟨hcheck, -⟩ := hg.private'.verdict x hx
  obtain ⟨hl, idle⟩ := hg.step.verdict_inv hx
  rw [hdead] at hcheck
  cases hs : x.subject with
  | entry i =>
    rw [hs] at hcheck
    exact hP.orphaned_entry hc hcheck.symm
  | slot j =>
    rw [hs] at hcheck
    exact ⟨hP.orphaned_slot hc hi hl idle hcheck.symm, fun hn => absurd trivial hn⟩

end

/-! ## runs -/

namespace Mode

variable {M : Mode P L.slotCount} {k : UInt64} {start : P.Os → Prop} {c : RingConfig P L}
  {ok : State P L.slotCount × Ghost L.slotCount → State P L.slotCount × Ghost L.slotCount → Prop}

/-- A run on an exact platform that is asked in time. -/
theorem Lawful.reach_exact (hM : M.Lawful k start) (hP : P.Exact token)
    (hok : ∀ m m', ok m m' → Timely m m' ∧ M.ok (view m) (view m'))
    (h : (ringSystem P L).Reach ok (Fresh P L k start) c) :
    (ringSystem P L).Reach M.rules.ok (Fresh P L k start) c := by
  refine hM.sound.reach (fun m m' hi hm hs => ⟨?_, (hok m m' hm).2⟩) h
  rcases hs with ⟨a, -, hg⟩ | ⟨os, -, rfl⟩ | rfl
  · have ht : TrustedChecks m m' := trusted_exact hP hi.coupled hi.proto hg
    exact ht.believes (hok m m' hm).1 hg.private'
  · exact believes_same rfl
  · exact believes_same rfl

/-- A run on an exact platform where sweeps may take back what has been committed. -/
theorem Lawful.reach_exact_careless (hM : M.Lawful k start) (hP : P.Exact token)
    (hG : M.guards.careless) (hok : ∀ m m', M.Inv L.slotCapacity (view m) → ok m m' →
      ((∃ a, Guar M.guards L.slotCapacity a (view m) (view m')) ∨ Passes (view m) (view m') ∨
        view m' = view m) → M.ok (view m) (view m'))
    (h : (ringSystem P L).Reach ok (Fresh P L k start) c) :
    (ringSystem P L).Reach M.rules.ok (Fresh P L k start) c := by
  refine hM.sound.reach (fun m m' hi hm hs => ?_) h
  rcases hs with ⟨a, -, hg⟩ | ⟨os, hstep, rfl⟩ | rfl
  · exact ⟨(trusted_exact hP hi.coupled hi.proto hg).careless hG, hok m m' hi hm (.inl ⟨a, hg⟩)⟩
  · exact ⟨believes_same rfl, hok m _ hi hm (.inr (.inl (passes_env hstep)))⟩
  · exact ⟨believes_same rfl, hok _ _ hi hm (.inr (.inr rfl))⟩

end Mode

/-- On an exact platform the liveness check can be trusted in any run. -/
theorem reach_trusted_exact {k : UInt64} {start : P.Os → Prop} {c : RingConfig P L}
    {ok : State P L.slotCount × Ghost L.slotCount → State P L.slotCount × Ghost L.slotCount → Prop}
    (hP : P.Exact token) (h : (ringSystem P L).Reach ok (Fresh P L k start) c) :
    (ringSystem P L).Reach (fun m m' => TrustedChecks m m' ∧ ok m m') (Fresh P L k start) c := by
  have hM := carelessMode_lawful P L k start
  induction h with
  | init h => exact .init h
  | step hr hs hok ih =>
    have hrun : (ringSystem P L).Reach (carelessMode P L.slotCount).rules.ok _ _ :=
      ih.mono fun _ _ hm => ⟨hm.1, trivial⟩
    refine ih.step hs ⟨?_, hok⟩
    rcases hM.sound.step hrun hs with ⟨a, -, hg⟩ | ⟨os, -, he⟩ | he
    · have hi := hM.inv hrun
      exact trusted_exact hP hi.coupled hi.proto hg
    · exact believes_same (by rw [he]; rfl)
    · exact believes_same (by rw [he])

/-! ## a slot that is committed meanwhile -/

open Script in
/-- A consumer registers. A sweep has looked at a slot that is being written, when its writer
commits it and dies. -/
def Script.committedMeanwhile : List (System.Move (ringSystem .each .two)) :=
  whole (.consumer 0) (register 0) ++
    [publish 0 (.byte 5), .steps (.writer 0) 172, sweep 0, .steps (.sweeper 0) 71,
      .steps (.writer 0) 4000, kill 1]

end TenzorBus
