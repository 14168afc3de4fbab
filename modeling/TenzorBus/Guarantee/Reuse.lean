import TenzorBus.Guarantee.Recovery
import TenzorBus.Role.Single

/-!
# Pids that are used again

A registry entry is recognized by its pid alone, and so is the producer. A process that has been
given the pid of a dead one is taken for it.

* `KeepsEntries` : the entries of the living stay as they are
* `Cleared` : nothing is left of the registrations of the dead
* `pids_unused` : in which runs the living are not taken for the dead
-/

namespace TenzorBus

open Conc Refine

variable {P : Platform} {L : RingLayout} {n : Nat} {T : ProcessTable} {proc : Actor → Nat}
  {k : UInt64}

/-- The entry of a registration that is not being closed, and whose process is alive, keeps its
state, its pid, its generation and its start token. -/
def KeepsEntries (m m' : State P n × Ghost n) : Prop :=
  ∀ i c r, m.2.holder i = some c → m.2.registration c = some r → r.closing = false →
    m'.1.aliveActor (.consumer c) →
      (m.1.ring.entries i).state = .active ∧ (m'.1.ring.entries i).state = .active ∧
        (m'.1.ring.entries i).pid = (m.1.ring.entries i).pid ∧
          (m'.1.ring.entries i).generation = (m.1.ring.entries i).generation ∧
            (m'.1.ring.entries i).flags = (m.1.ring.entries i).flags

/-- An entry that is held only by the dead is not active, and no mask has its bit. -/
def Cleared (x : Sweep n) (m : State P n × Ghost n) : Prop :=
  ∀ i, (∀ c, m.2.holder i = some c → x.alive (.consumer c) = false) →
    (m.1.ring.entries i).state ≠ .active ∧
      ∀ j, (m.1.ring.slots j).readersMask &&& bit i = 0

/-! ## the entries of the living -/

/-- Nobody takes away the registry entry of a registration that is not leaving. -/
theorem Step.holder_of_staying {G : Guards n} {cap : Nat} {a : Actor} {p p' : Proto n}
    (hs : Step G cap a p p') {i : Fin 64} {c : Nat} (hh : p.hist.holder i = some c)
    (hn : ¬p.leaving a c) : p'.hist.holder i = some c := by
  cases hs with
  | register c' _ i' locked free =>
    have hi : i ≠ i' := by
      rintro rfl
      rw [free] at hh
      cases hh
    simpa [Ghost.register, hi] using hh
  | deregister _ _ c' i' locked holder leaving =>
    have hi : i ≠ i' := by
      rintro rfl
      rw [hh] at holder
      exact hn (Option.some.inj holder ▸ leaving)
    simpa [Ghost.deregister, hi] using hh
  | _ => exact hh

theorem Guar.keepsEntries {G : Guards n} {cap : Nat} {a : Actor} {m m' : State P n × Ghost n}
    (hg : Guar G cap a (view m) (view m')) (hc : Coupled G (view m)) : KeepsEntries m m' := by
  intro i c r hh hr hcl hl
  have hlive : (view m).proto.alive (.consumer c) := by
    rw [← hg.step.alive]
    exact hl
  have hn : ¬(view m).proto.leaving a c := by
    rintro (⟨-, r', hr', hcl'⟩ | hdead)
    · cases hr.symm.trans hr'
      rw [hcl] at hcl'
      cases hcl'
    · exact hdead hlive
  have hh' : m'.2.holder i = some c := hg.step.holder_of_staying hh hn
  have hid := hg.private'.entryIdentity i c hh hn
  refine ⟨(hc.entryState i).mpr ?_, (hg.coupled.entryState i).mpr ?_, ?_,
    congrArg Prod.fst hid, congrArg Prod.snd hid⟩
  · exact fun hnone => absurd (hh.symm.trans hnone) nofun
  · exact fun hnone => absurd (hh'.symm.trans hnone) nofun
  · exact (hg.coupled.entryPid i c hh').trans (hc.entryPid i c hh).symm

/-- Where nothing happens to the words, the entries stay as they are. -/
theorem KeepsEntries.same {G : Guards n} {m m' : State P n × Ghost n} (hc : Coupled G (view m))
    (h : m'.1.ring = m.1.ring) : KeepsEntries m m' := by
  intro i c r hh _ _ _
  have ha : (m.1.ring.entries i).state = .active :=
    (hc.entryState i).mpr fun hnone => absurd (hh.symm.trans hnone) nofun
  rw [h]
  exact ⟨ha, ha, rfl, rfl, rfl⟩

/-! ## runs -/

/-- In every process table history the entries of the living stay as they are; a sweep leaves
nothing of the registrations of the dead, and `Ring::producer` refuses nobody for the sake of a
producer that is dead, as long as no running process has the pid of a dead registration or producer
when it is asked for, and no sweeper has. -/
theorem pids_unused (T : ProcessTable) (proc : Actor → Nat) (L : RingLayout) (k : UInt64)
    (start : (Platform.table T proc).Os → Prop) :
    (∀ c d : RingConfig (.table T proc) L,
      (ringSystem _ L).Reach (Recognizes Subject.isEntry) (Fresh _ L k start) c →
        (ringSystem _ L).Step c d → Recognizes Subject.isEntry c.mem d.mem →
          KeepsEntries c.mem d.mem ∧ ∀ a x, c.mem.2.sweeping a = some x →
            d.mem.2.sweeping a = none → Cleared x d.mem) ∧
    ∀ c : Role.RoleConfig,
      (Role.roleSystem T).Reach (fun m _ => Role.PidUnused T m) (· = Role.RoleConfig.init) c →
        ∀ r ∈ c.mem.2.refusals, ∀ p, r.claimant = some p → r.alive = true := by
  refine ⟨fun c d h hs hok => ⟨?_, fun a x hx hx' i hdead => ?_⟩, fun c h => ?_⟩
  · have hM := recoveryMode_lawful (.table T proc) L Subject.isEntry k start
    have hr := reach_recoveryMode (Platform.table_exact T proc) h
    rcases hM.sound.step hr hs with ⟨a, -, hg⟩ | ⟨os, -, he⟩ | he
    · exact hg.keepsEntries (hM.inv hr).coupled
    · exact KeepsEntries.same (hM.inv hr).coupled (by rw [he])
    · exact KeepsEntries.same (hM.inv hr).coupled (by rw [he])
  · obtain ⟨hp, hc, hi, hentry, -⟩ := sweep_ends (Platform.table_exact T proc) h hs hok hx hx'
    have hr := reach_recoveryMode (Platform.table_exact T proc) h
    have hb := ((recoveryMode_lawful (.table T proc) L Subject.isEntry k start).inv hr).coupled
    have hholder : d.mem.2.holder = c.mem.2.holder := by
      show (view d.mem).proto.hist.holder = _
      rw [hp]
      rfl
    have hfree : (view d.mem).proto.hist.holder i = none := by
      by_contra hne
      obtain ⟨cn, hcn⟩ := Option.ne_none_iff_exists'.mp hne
      have hheld : c.mem.2.holder i = some cn := by
        rw [← hholder]
        exact hcn
      have hact : (c.mem.1.ring.entries i).state = .active :=
        (hb.entryState i).mpr fun hnone => absurd (hheld.symm.trans hnone) nofun
      have hlive := hentry i _ trivial hact ⟨cn, rfl, hheld⟩
      rw [hdead cn hcn] at hlive
      cases hlive
    refine ⟨fun ha => (hc.entryState i).mp ha hfree, fun j => ?_⟩
    rw [and_bit_eq_zero]
    exact fun hbit => hi.bits i j hbit hfree
  · exact ((Role.role_sound T False True).inv
      (h.mono fun _ _ hok => ⟨False.elim, fun _ => hok⟩)).2.2 trivial

/-- Process 0, that of consumer 0, is the only one that has died, and what it has left in its entry
names neither a running process nor whoever has the lock. -/
def entryRecognized (m : State .each n × Ghost n) : Bool :=
  decide (∀ p ∈ m.1.os.1.died, p = 0) && (!m.1.os.1.died.contains 0 ||
    decide (∀ i, m.2.holder i = some 0 → m.1.check (.entry i) = false ∧
      m.1.lock.all (fun a => m.1.ring.recordedPid (.entry i) != Platform.me .each a) = true))

theorem recognizes_of_entryRecognized {m m' : State .each n × Ghost n}
    (h : entryRecognized m = true) : Recognizes Subject.isEntry m m' := by
  simp only [entryRecognized, Bool.and_eq_true, decide_eq_true_eq, Bool.or_eq_true] at h
  obtain ⟨hdied, hleft⟩ := h
  refine .of_dead fun b s hS hh hn => ?_
  have hproc : Platform.each.proc b ∈ m.1.os.1.died := by
    by_contra hnot
    refine hn ?_
    show (!m.1.os.1.died.contains (Platform.each.proc b)) = true
    simpa using hnot
  cases s with
  | slot j => exact hS.elim
  | entry i =>
    obtain ⟨c, rfl, hc⟩ := hh
    have hc0 : c = 0 := by
      have h0 : 3 * c = 0 := hdied _ hproc
      omega
    subst hc0
    rcases hleft with ha | hleft
    · have hproc : 0 ∈ m.1.os.1.died := hproc
      exact absurd hproc (by simpa using ha)
    · obtain ⟨hcheck, hlock⟩ := hleft i hc
      refine ⟨hcheck, fun a ha => ?_⟩
      rw [ha] at hlock
      simpa using hlock

open Script in
/-- A consumer dies and is swept; a producer is refused because another one is alive. -/
theorem pids_unused_reaped :
    (∃ (c d : RingConfig .each (.small 2 (by decide) (by decide))) (x : Sweep _),
      (ringSystem _ _).Reach (Recognizes Subject.isEntry)
        (Fresh _ _ 0 (· = Platform.eachOf [0, 1, 2])) c ∧ (ringSystem _ _).Step c d ∧
          c.mem.2.sweeping (.sweeper 0) = some x ∧ d.mem.2.sweeping (.sweeper 0) = none ∧
            d.mem.1.ring.reapedCount = 1 ∧ KeepsEntries c.mem d.mem ∧ Cleared x d.mem) ∧
    ∃ c : Role.RoleConfig, (Role.roleSystem Role.Script.table).Reach
      (fun m _ => Role.PidUnused Role.Script.table m) (· = Role.RoleConfig.init) c ∧
        ∃ r ∈ c.mem.2.refusals, r.claimant = some 0 ∧ r.alive = true := by
  constructor
  · obtain ⟨c, d, hc, hs, ht⟩ := Script.stepFrom (.small 2 (by decide) (by decide)) 0
      (Platform.eachOf [0, 1, 2]) (Recognizes Subject.isEntry) (fun m _ => entryRecognized m)
      (fun m m' h => recognizes_of_entryRecognized h)
      (whole (.consumer 0) (register 0) ++ whole (.writer 0) (publish 0 (.byte 5)) ++
        [kill 0, sweep 0, .steps (.sweeper 0) 79]) (.sweeper 0)
      (fun c d => entryRecognized c.mem && sweepEnds (.sweeper 0) c d &&
        decide (d.mem.1.ring.reapedCount = 1)) (by decide +kernel)
    simp only [sweepEnds, Bool.and_eq_true, decide_eq_true_eq, Option.isSome_iff_exists,
      Option.isNone_iff_eq_none] at ht
    obtain ⟨⟨hrec, ⟨x, hx⟩, hx'⟩, hreaped⟩ := ht
    obtain ⟨hkeep, hclear⟩ := (pids_unused .hundred _ _ 0 _).1 c d hc hs
      (recognizes_of_entryRecognized hrec)
    exact ⟨c, d, x, hc, hs, hx, hx', hreaped, hkeep, hclear _ x hx hx'⟩
  · obtain ⟨c, hc, ht⟩ := Role.Script.reach
      (fun m _ => Role.PidUnused Role.Script.table m)
      (fun m _ => m.1.procs.died.isEmpty && decide (m.2.claimant.all m.1.procs.alive))
      (fun m m' h x p _ _ hp hdead => by
        simp only [Bool.and_eq_true, decide_eq_true_eq] at h
        rw [hp, Option.all_some, hdead] at h
        cases h.2)
      ([Role.Script.start 0, Role.Script.start 1] ++
        Role.Script.whole (Role.Script.handle 0 0 0) (Role.Script.attach 0 0) ++
        Role.Script.whole (Role.Script.handle 0 0 0) (Role.Script.claim 0 0 0) ++
        Role.Script.whole (Role.Script.handle 1 0 0) (Role.Script.attach 1 0) ++
        Role.Script.whole (Role.Script.handle 1 0 0) (Role.Script.claim 1 0 0))
      (fun d => d.mem.2.refusals.any fun r => decide (r.claimant = some 0)) (by decide +kernel)
    simp only [List.any_eq_true, decide_eq_true_eq] at ht
    obtain ⟨r, hr, hp⟩ := ht
    exact ⟨c, hc, r, hr, hp, (pids_unused Role.Script.table (fun _ => 0)
      (.small 2 (by decide) (by decide)) 0 fun _ => True).2 c hc r hr 0 hp⟩

open Script in
/-- A consumer dies and another process, with another start token, is started under its pid. The
next sweep leaves the entry of the dead active. A producer dies and another process is started
under its pid. Whoever then claims the role is refused. -/
theorem taken_for_the_dead :
    Platform.each.pid 300 = Platform.each.pid 0 ∧
      ProcessTable.hundred.token 300 ≠ ProcessTable.hundred.token 0 ∧
    (∃ (c d : RingConfig .each (.small 2 (by decide) (by decide))) (x : Sweep _),
      (ringSystem _ _).Reach (fun _ _ => True) (Fresh _ _ 0 (· = Platform.eachOf [0, 2])) c ∧
        (ringSystem _ _).Step c d ∧ c.mem.2.sweeping (.sweeper 0) = some x ∧
          d.mem.2.sweeping (.sweeper 0) = none ∧
            d.mem.2.holder 0 = some 0 ∧ x.alive (.consumer 0) = false ∧
              (d.mem.1.ring.entries 0).state = .active) ∧
    ∃ c : Role.RoleConfig, (Role.roleSystem Role.Script.table).Reach (fun _ _ => True)
      (· = Role.RoleConfig.init) c ∧
        ∃ r ∈ c.mem.2.refusals, r.claimant = some 2 ∧ r.alive = false := by
  refine ⟨by decide, by decide, ?_, ?_⟩
  · obtain ⟨c, d, hc, hs, ht⟩ := Script.stepFrom (.small 2 (by decide) (by decide)) 0
      (Platform.eachOf [0, 2]) (fun _ _ => True) (fun _ _ => true) (fun _ _ _ => trivial)
      (whole (.consumer 0) (register 0) ++ [kill 0, start 300, sweep 0, .steps (.sweeper 0) 70])
      (.sweeper 0)
      (fun c d => sweepEnds (.sweeper 0) c d && decide (d.mem.2.holder 0 = some 0) &&
        decide ((d.mem.1.ring.entries 0).state = .active) &&
          (c.mem.2.sweeping (.sweeper 0)).all fun x : Sweep 2 => !x.alive (.consumer 0))
      (by decide +kernel)
    simp only [sweepEnds, Bool.and_eq_true, decide_eq_true_eq, Option.isSome_iff_exists,
      Option.isNone_iff_eq_none] at ht
    obtain ⟨⟨⟨⟨⟨x, hx⟩, hx'⟩, hh⟩, hact⟩, hdead⟩ := ht
    rw [hx] at hdead
    exact ⟨c, d, x, hc, hs, hx, hx', hh, by simpa using hdead, hact⟩
  · obtain ⟨c, hc, ht⟩ := Role.Script.reach (fun _ _ => True) (fun _ _ => true)
      (fun _ _ _ => trivial)
      ([Role.Script.start 2] ++
        Role.Script.whole (Role.Script.handle 2 0 0) (Role.Script.attach 2 0) ++
        Role.Script.whole (Role.Script.handle 2 0 0) (Role.Script.claim 2 0 0) ++
        [Role.Script.die 2, Role.Script.start 3, Role.Script.start 0] ++
        Role.Script.whole (Role.Script.handle 0 0 0) (Role.Script.attach 0 0) ++
        Role.Script.whole (Role.Script.handle 0 0 0) (Role.Script.claim 0 0 0))
      (fun d => d.mem.2.refusals.any fun r => decide (r.claimant = some 2) && !r.alive)
      (by decide +kernel)
    simp only [List.any_eq_true, Bool.and_eq_true, decide_eq_true_eq, Bool.not_eq_true'] at ht
    obtain ⟨r, hr, hp, hdead⟩ := ht
    exact ⟨c, hc, r, hr, hp, hdead⟩

end TenzorBus
