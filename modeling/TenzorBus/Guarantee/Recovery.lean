import TenzorBus.Guarantee.Registry
import TenzorBus.Guarantee.Ownership

/-!
# What a sweep recovers

A sweep finds out from the words that a dead process has left that it is dead. It does as long as
those words do not name somebody who is running.

* `Ghost.Holds` : who has a registry entry, or the slot of a reservation
* `Recognizes` : the condition on a run, for slots or for entries
* `Recovers` : what has been spared belonged to somebody alive when the sweep began
* `abandoned_recovered` : after a sweep every slot in `STATE_WRITING` has a living owner
-/

namespace TenzorBus

open Conc Refine

variable {P : Platform} {L : RingLayout} {n : Nat} {token : Nat → UInt32} {k : UInt64}
  {start : P.Os → Prop} {S : Subject n → Prop}

/-- The registry entry is that of `b`, or `b` has an unfinished reservation of the slot. -/
def Ghost.Holds (g : Ghost n) (b : Actor) : Subject n → Prop
  | .entry i => ∃ c, b = .consumer c ∧ g.holder i = some c
  | .slot j => ∃ t, b = .writer t ∧ g.Owns t j

def Subject.isEntry : Subject n → Prop
  | .entry _ => True
  | .slot _ => False

def Subject.isSlot : Subject n → Prop
  | .entry _ => False
  | .slot _ => True

/-- The pid that is recorded in the registry entry, or in the slot. -/
def Ring.recordedPid (r : Ring n) : Subject n → UInt32
  | .entry i => (r.entries i).pid
  | .slot j => (r.slots j).producerPid

/-- Whoever is dead is recognized by what it has left: when the liveness check is asked it does not
find the recorded words alive, and in a sweep the recorded pid is not the sweeper's own. -/
structure Recognizes (S : Subject n → Prop) (m m' : State P n × Ghost n) : Prop where
  asked : ∀ b y, m'.2.verdicts = y :: m.2.verdicts → S y.subject → m.2.Holds b y.subject →
    ¬m.1.aliveActor b → m.1.check y.subject = false
  own : ∀ a b s, m.1.lock = some a → m.2.sweeping a ≠ none → S s → m.2.Holds b s →
    ¬m.1.aliveActor b → m.1.ring.recordedPid s ≠ P.me a

/-! ## who holds what -/

/-- Whoever comes to hold something does so itself. -/
theorem Step.holds {G : Guards n} {cap : Nat} {a b : Actor} {p p' : Proto n} {s : Subject n}
    (hs : Step G cap a p p') (h : p'.hist.Holds b s) : p.hist.Holds b s ∨ a = b := by
  cases s with
  | entry i =>
    obtain ⟨c, rfl, hc⟩ := h
    rcases hs.registers with ⟨holder, -, -⟩ | ⟨c', i', rfl, -, -, -, -, -, hist⟩ |
      ⟨i', -, -, -, -, hist⟩ | ⟨b', -, -, hist⟩
    · rw [holder] at hc
      exact .inl ⟨c, rfl, hc⟩
    · rw [hist] at hc
      by_cases hi : i = i'
      · subst hi
        have he : c' = c := by simpa [Ghost.register] using hc
        exact .inr (by rw [he])
      · exact .inl ⟨c, rfl, by simpa [Ghost.register, hi] using hc⟩
    · rw [hist] at hc
      by_cases hi : i = i'
      · simp [Ghost.deregister, hi] at hc
      · exact .inl ⟨c, rfl, by simpa [Ghost.deregister, hi] using hc⟩
    · rw [hist] at hc
      exact .inl ⟨c, rfl, hc⟩
  | slot j =>
    obtain ⟨t, rfl, r, hr, hp, hj⟩ := h
    cases hs with
    | begin t' | number t' | setMask t' | advance t' | commit t' | cancel t' | free t'
    | forget t' =>
      by_cases ht : t = t'
      · exact .inr (by rw [ht])
      · refine .inl ⟨t, rfl, r, ?_, hp, hj⟩
        simpa [Ghost.begin, Ghost.number, Ghost.advance, Ghost.proceed, Ghost.change,
          Ghost.commit, Ghost.forget, ht] using hr
    | abandon _ _ j' =>
      exact .inl ⟨t, rfl, r, (Inv.abandon_reservation.mp hr).1, hp, hj⟩
    | _ => exact .inl ⟨t, rfl, r, hr, hp, hj⟩

/-! ## what a sweep spares -/

/-- Whoever is alive was alive when the sweep began, and so was whoever has been spared. -/
structure Recovers (S : Subject n → Prop) (v : View P n) : Prop where
  since : ∀ a x b, v.proto.hist.sweeping a = some x → v.proto.alive b → x.alive b = true
  spared : ∀ a x b s, v.proto.hist.sweeping a = some x → S s → v.proto.Spared x s →
    v.proto.hist.Holds b s → x.alive b = true

/-- Where the liveness check is asked about what the dead have left, it recognizes that. -/
def Asked (S : Subject n → Prop) (v v' : View P n) : Prop :=
  ∀ b y, v'.proto.hist.verdicts = y :: v.proto.hist.verdicts → S y.subject →
    v.proto.hist.Holds b y.subject → ¬v.proto.alive b → v.check y.subject = false

/-- A sweep that is going on was going on before, or has just begun. -/
theorem Step.sweeping {G : Guards n} {cap : Nat} {a b : Actor} {p p' : Proto n} {x : Sweep n}
    (hs : Step G cap a p p') (h : p'.hist.sweeping b = some x) :
    p.hist.sweeping b = some x ∨
      x.before = p'.hist.verdicts ∧ ∀ e, p.alive e → x.alive e = true := by
  cases hs with
  | beginSweep _ _ alive locked exact' =>
    by_cases hb : b = a
    · subst hb
      have hx : { alive := alive, before := p.hist.verdicts } = x := by
        simpa [Ghost.beginSweep] using h
      subst hx
      exact .inr ⟨rfl, fun e he => (exact' e).mpr he⟩
    · exact .inl (by simpa [Ghost.beginSweep, hb] using h)
  | endSweep =>
    by_cases hb : b = a
    · simp [Ghost.endSweep, hb] at h
    · exact .inl (by simpa [Ghost.endSweep, hb] using h)
  | _ => exact .inl h

/-- Nothing has been spared by a sweep before the liveness check has been asked. -/
theorem Proto.not_spared {p : Proto n} {x : Sweep n} (h : x.before = p.hist.verdicts)
    (s : Subject n) : ¬p.Spared x s := by
  rintro ⟨new, hnew, y, hy, -⟩
  rw [h] at hnew
  rw [List.self_eq_append_left.mp hnew] at hy
  cases hy

/-- What is spared after a step was spared before, or the step has asked. -/
theorem Step.spared {G : Guards n} {cap : Nat} {a : Actor} {p p' : Proto n} {x : Sweep n}
    {s : Subject n} (hs : Step G cap a p p') (h : p'.Spared x s) :
    p.Spared x s ∨
      ∃ y, p'.hist.verdicts = y :: p.hist.verdicts ∧ y.subject = s ∧ y.alive = true := by
  obtain ⟨new, hnew, y, hy, hsub, hlive⟩ := h
  cases hs with
  | verdict _ _ z =>
    have hnew : z :: p.hist.verdicts = new ++ x.before := hnew
    cases new with
    | nil => cases hy
    | cons z' new =>
      obtain ⟨rfl, htail⟩ := List.cons.inj hnew
      rcases List.mem_cons.mp hy with rfl | hy
      · exact .inr ⟨y, rfl, hsub, hlive⟩
      · exact .inl ⟨new, htail, y, hy, hsub, hlive⟩
  | _ => exact .inl ⟨new, hnew, y, hy, hsub, hlive⟩

theorem Recovers.step {G : Guards n} {cap : Nat} {a : Actor} {v v' : View P n}
    (h : Recovers S v) (hg : Guar G cap a v v') (hok : Asked S v v') : Recovers S v' where
  since b x e hx he := by
    rw [hg.step.alive] at he
    rcases hg.step.sweeping hx with hx | ⟨-, halive⟩
    · exact h.since b x e hx he
    · exact halive e he
  spared b x e s hx hS hs hh := by
    rcases hg.step.sweeping hx with hx | ⟨hbefore, -⟩
    · rcases hg.step.holds hh with hh | rfl
      · rcases hg.step.spared hs with hs | ⟨y, hy, rfl, hlive⟩
        · exact h.spared b x e s hx hS hs hh
        · -- the check has found alive what a living actor has left
          by_contra hdead
          have hn : ¬v.proto.alive e := fun he => hdead (h.since b x e hx he)
          rw [(hg.private'.verdict y hy).1, hok e y hy hS hh hn] at hlive
          cases hlive
      · exact h.since b x a hx hg.live
    · exact absurd hs (Proto.not_spared hbefore s)

theorem Recovers.env {v v' : View P n} (h : Recovers S v) (hp : Passes v v') : Recovers S v' := by
  have hf := hp.fades
  constructor
  · intro a x b hx hb
    have hx : v.proto.hist.sweeping a = some x := by rwa [hf.eq] at hx
    exact h.since a x b hx (hf.alive b hb)
  · intro a x b s hx hS hs hh
    rw [hf.eq] at hx hs hh
    exact h.spared a x b s hx hS hs hh

/-- The use of the ring in which the dead are recognized. -/
def recoveryMode (P : Platform) (n : Nat) (S : Subject n → Prop) : Mode P n where
  guards := .lax n True
  inv := Recovers S
  ok := Asked S

theorem recoveryMode_lawful (P : Platform) (L : RingLayout) (S : Subject L.slotCount → Prop)
    (k : UInt64) (start : P.Os → Prop) :
    (recoveryMode P L.slotCount S).Lawful (L := L) k start where
  initial _ _ := ⟨nofun, nofun⟩
  delivers := delivers_lax rfl
  step _ _ _ hi hg _ hok _ := hi.mode.step hg hok
  env _ _ hi hp _ := hi.mode.env hp

/-! ## runs -/

section

variable {S : Subject L.slotCount → Prop} {c d : RingConfig P L} {a : Actor}
  {x : Sweep L.slotCount}

theorem reach_recoveryMode (hP : P.Exact token)
    (h : (ringSystem P L).Reach (Recognizes S) (Fresh P L k start) c) :
    (ringSystem P L).Reach (recoveryMode P L.slotCount S).rules.ok (Fresh P L k start) c := by
  refine (recoveryMode_lawful P L S k start).reach_exact_careless hP trivial ?_ h
  intro m m' _ hok _ b y hy hS hh hn
  rw [check_view]
  exact hok.asked b y hy hS hh hn

/-- What a sweep that ends has left as it is belongs to somebody who was alive when the sweep
began. -/
theorem sweep_ends (hP : P.Exact token)
    (h : (ringSystem P L).Reach (Recognizes S) (Fresh P L k start) c)
    (hs : (ringSystem P L).Step c d) (hok : Recognizes S c.mem d.mem)
    (hx : c.mem.2.sweeping a = some x) (hx' : d.mem.2.sweeping a = none) :
    (view d.mem).proto = { (view c.mem).proto with hist := c.mem.2.endSweep a } ∧
      Coupled (.lax _ True) (view d.mem) ∧ Inv L.slotCapacity (view d.mem).proto ∧
      (∀ i b, S (.entry i) → (c.mem.1.ring.entries i).state = .active →
        c.mem.2.Holds b (.entry i) → x.alive b = true) ∧
      ∀ j b, S (.slot j) → (c.mem.1.ring.slots j).state = .writing →
        c.mem.2.Holds b (.slot j) → x.alive b = true := by
  have hM := recoveryMode_lawful P L S k start
  have hr := reach_recoveryMode hP h
  have hi := hM.inv hr
  rcases hM.sound.step hr hs with ⟨b, -, hg⟩ | ⟨os, -, he⟩ | he
  · obtain ⟨rfl, locked, -, hp⟩ := hg.step.endSweep_inv hx hx'
    have hswept := hg.private'.swept x hx hx'
    -- the words of the dead are not those of the sweeper
    have key : ∀ e s, S s → c.mem.2.Holds e s →
        c.mem.1.ring.recordedPid s = P.me b ∨ (view c.mem).proto.Spared x s →
          x.alive e = true := by
      intro e s hS hh hleft
      rcases hleft with hme | hspared
      · by_contra hdead
        refine hok.own b e s locked ?_ hS hh ?_ hme
        · rw [hx]
          nofun
        · intro he
          exact hdead (hi.mode.since b x e hx he)
      · exact hi.mode.spared b x e s hx hS hspared hh
    refine ⟨hp, hg.coupled, hi.proto.step hg.live hg.step, ?_, ?_⟩
    · intro i e hS ha hh
      exact key e _ hS hh (hswept.entry i ha)
    · intro j e hS hw hh
      exact key e _ hS hh (hswept.slot j hw)
  · rw [he] at hx'
    exact absurd (hx.symm.trans hx') nofun
  · rw [he] at hx'
    exact absurd (hx.symm.trans hx') nofun

end

/-- With an exact liveness check: when a sweep ends, every slot in `STATE_WRITING` has an owner who
was alive when the sweep began, in every run in which the check finds nobody alive under the words
that a dead owner has left in its slot, and no sweeper finds its own pid there. -/
theorem abandoned_recovered (hP : P.Exact token) {c d : RingConfig P L}
    (h : (ringSystem P L).Reach (Recognizes Subject.isSlot) (Fresh P L k start) c)
    (hs : (ringSystem P L).Step c d) (hok : Recognizes Subject.isSlot c.mem d.mem) {a : Actor}
    {x : Sweep L.slotCount} (hx : c.mem.2.sweeping a = some x)
    (hx' : d.mem.2.sweeping a = none) {j : Fin L.slotCount}
    (hj : (d.mem.1.ring.slots j).state = .writing) :
    ∃ t, d.mem.2.Owns t j ∧ x.alive (.writer t) = true := by
  obtain ⟨hp, -, hi, -, hslot⟩ := sweep_ends hP h hs hok hx hx'
  obtain ⟨t, r, hr, hphase, hrj⟩ := hi.owned j hj
  have hown : c.mem.2.Owns t j := by
    rw [hp] at hr
    exact ⟨r, hr, hphase, hrj⟩
  have hw : (c.mem.1.ring.slots j).state = .writing := by
    have hstate : (d.mem.1.ring.slots j).state = (c.mem.1.ring.slots j).state :=
      congrFun (congrArg Proto.state hp) j
    exact hstate.symm.trans hj
  exact ⟨t, ⟨r, hr, hphase, hrj⟩, hslot j _ trivial hw ⟨t, rfl, hown⟩⟩

/-- Where nobody asks or sweeps in vain, the dead are recognized. -/
theorem Recognizes.of_dead {m m' : State P n × Ghost n}
    (h : ∀ b s, S s → m.2.Holds b s → ¬m.1.aliveActor b → m.1.check s = false ∧
      ∀ a, m.1.lock = some a → m.1.ring.recordedPid s ≠ P.me a) : Recognizes S m m' where
  asked b y _ hS hh hn := (h b y.subject hS hh hn).1
  own a b s hl _ hS hh hn := (h b s hS hh hn).2 a hl

/-- Process 4, that of writer 1, is the only one that has died, and what it has left in its slot
names neither a running process nor whoever has the lock. -/
def recognized (m : State .each n × Ghost n) : Bool :=
  decide (∀ p ∈ m.1.os.1.died, p = 4) && (!m.1.os.1.died.contains 4 ||
    (m.2.reservation 1).all fun r => !m.1.check (.slot r.slot) &&
      m.1.lock.all fun a => m.1.ring.recordedPid (.slot r.slot) != Platform.me .each a)

theorem recognizes_of_recognized {m m' : State .each n × Ghost n} (h : recognized m = true) :
    Recognizes Subject.isSlot m m' := by
  simp only [recognized, Bool.and_eq_true, decide_eq_true_eq, Bool.or_eq_true] at h
  obtain ⟨hdied, hleft⟩ := h
  refine .of_dead fun b s hS hh hn => ?_
  have hproc : Platform.each.proc b ∈ m.1.os.1.died := by
    by_contra hnot
    refine hn ?_
    show (!m.1.os.1.died.contains (Platform.each.proc b)) = true
    simpa using hnot
  cases s with
  | entry i => exact hS.elim
  | slot j =>
    obtain ⟨t, rfl, r, hr, hp, rfl⟩ := hh
    have ht : t = 1 := by
      have h4 : 3 * t + 1 = 4 := hdied _ hproc
      omega
    subst ht
    rcases hleft with ha | hleft
    · exact absurd ha hn
    · rw [hr] at hleft
      simp only [Option.all_some, Bool.and_eq_true, Bool.not_eq_true'] at hleft
      refine ⟨hleft.1, fun a ha => ?_⟩
      have hne := hleft.2
      rw [ha] at hne
      simpa using hne

open Script in
/-- One writer dies with a slot in hand, another one lives. The sweep takes back the slot of the
dead. -/
theorem abandoned_recovered_reserved :
    ∃ (c d : RingConfig .each (.small 2 (by decide) (by decide))) (a : Actor) (x : Sweep _),
      (ringSystem _ _).Reach (Recognizes Subject.isSlot)
        (Fresh _ _ 0 (· = Platform.eachOf [1, 4, 2])) c ∧ (ringSystem _ _).Step c d ∧
          c.mem.2.sweeping a = some x ∧ d.mem.2.sweeping a = none ∧
            (d.mem.1.ring.slots 1).state = .free ∧
              ∃ t, d.mem.2.Owns t 0 ∧ x.alive (.writer t) = true := by
  obtain ⟨c, d, hc, hs, ht⟩ := Script.stepFrom (.small 2 (by decide) (by decide)) 0
    (Platform.eachOf [1, 4, 2]) (Recognizes Subject.isSlot) (fun m _ => recognized m)
    (fun m m' h => recognizes_of_recognized h)
    (whole (.writer 0) (reserve 0 .u8 [1]) ++ whole (.writer 1) (reserve 1 .u8 [1]) ++
      [kill 4, sweep 0, .steps (.sweeper 0) 77]) (.sweeper 0)
    (fun c d => recognized c.mem && sweepEnds (.sweeper 0) c d &&
      decide ((d.mem.1.ring.slots 0).state = .writing) &&
        decide ((d.mem.1.ring.slots 1).state = .free)) (by decide +kernel)
  simp only [sweepEnds, Bool.and_eq_true, decide_eq_true_eq, Option.isSome_iff_exists,
    Option.isNone_iff_eq_none] at ht
  obtain ⟨⟨⟨hrec, ⟨x, hx⟩, hx'⟩, hw⟩, hfree⟩ := ht
  exact ⟨c, d, .sweeper 0, x, hc, hs, hx, hx', hfree, abandoned_recovered
    (Platform.table_exact _ _) hc hs (recognizes_of_recognized hrec) hx hx' hw⟩

open Script in
/-- A writer dies between making a slot `STATE_WRITING` and storing its pid there. The slot still
names the writer that has published in it before, who is alive, and no sweep takes it back. -/
theorem unrecognized :
    ∃ (c d : RingConfig .each (.small 2 (by decide) (by decide))) (a : Actor) (x : Sweep _),
      (ringSystem _ _).Reach (fun _ _ => True) (Fresh _ _ 0 (· = Platform.eachOf [1, 4, 2])) c ∧
        (ringSystem _ _).Step c d ∧ c.mem.2.sweeping a = some x ∧ d.mem.2.sweeping a = none ∧
          ∃ j, (d.mem.1.ring.slots j).state = .writing ∧
            ∀ t, d.mem.2.Owns t j → x.alive (.writer t) = false := by
  obtain ⟨c, d, hc, hs, ht⟩ := Script.stepFrom (.small 2 (by decide) (by decide)) 0
    (Platform.eachOf [1, 4, 2]) (fun _ _ => True) (fun _ _ => true) (fun _ _ _ => trivial)
    (whole (.writer 0) (publish 0 (.byte 5)) ++ whole (.writer 0) (publish 0 (.byte 6)) ++
      [publish 1 (.byte 7), .steps (.writer 1) 143, kill 4, sweep 0, .steps (.sweeper 0) 71])
    (.sweeper 0)
    (fun c d => sweepEnds (.sweeper 0) c d && decide ((d.mem.1.ring.slots 0).state = .writing) &&
      ((c.mem.2.sweeping (.sweeper 0)).all fun x : Sweep 2 => !x.alive (.writer 1)) &&
        (d.mem.2.reservation 1).any fun r : Reservation 2 =>
          decide (r.slot = 0 ∧ r.phase ≠ .returning))
    (by decide +kernel)
  simp only [sweepEnds, Bool.and_eq_true, decide_eq_true_eq, Option.isSome_iff_exists,
    Option.isNone_iff_eq_none, Option.any_eq_true] at ht
  obtain ⟨⟨⟨⟨⟨x, hx⟩, hx'⟩, hw⟩, hdead⟩, r, hr, hj, hp⟩ := ht
  rw [hx] at hdead
  refine ⟨c, d, .sweeper 0, x, hc, hs, hx, hx', 0, hw, ?_⟩
  rintro t ⟨r', hr', hp', hj'⟩
  -- nobody else owns the slot
  have hi : Inv _ (view d.mem).proto :=
    ((carelessMode_lawful .each _ 0 (· = Platform.eachOf [1, 4, 2])).inv
      ((carelessMode_lawful .each _ 0 _).reach_exact_careless (Platform.table_exact _ _) trivial
        (fun _ _ _ _ _ => trivial) (hc.step hs trivial))).proto
  have ht : t = 1 := hi.unique t 1 r' r hr' hr hp' hp (hj'.trans hj.symm)
  rw [ht]
  simpa using hdead

end TenzorBus
