import TenzorBus.Guarantee.Count

/-!
# Registry and masks agree

* `RegistryAgrees` : bits, free slots, the count and the handles, when the lock is free
* `Decides` : what a registration finds
* `registry_agrees` : both hold in every run in which nobody dies inside a critical section
* `count_after_sweep` : the count is right after a sweep, if nobody has died while counting
-/

namespace TenzorBus

open Conc Refine

variable {P : Platform} {L : RingLayout} {n : Nat} {token : Nat → UInt32} {k : UInt64}
  {start : P.Os → Prop}

/-- How many registry entries are active. -/
def Ring.activeEntries (r : Ring n) : Nat :=
  (Finset.univ.filter fun i => (r.entries i).state = .active).card

/-- Registry, masks, count and handles agree. -/
structure RegistryAgrees (s : State P n) : Prop where
  bits : ∀ j i, (s.ring.slots j).readersMask &&& bit i ≠ 0 → (s.ring.entries i).state = .active
  free : ∀ j, (s.ring.slots j).state = .free → (s.ring.slots j).readersMask = 0
  count : s.ring.consumers.toNat = s.ring.activeEntries
  atMost : s.ring.consumers.toNat ≤ 64
  active : ∀ c h, s.isOpen c h → s.aliveActor (.consumer c) →
    (s.ring.entries h.index).state = .active ∧ (s.ring.entries h.index).pid = P.me (.consumer c)
  own : ∀ c c' h h', s.isOpen c h → s.isOpen c' h' → s.aliveActor (.consumer c) →
    s.aliveActor (.consumer c') → h.index = h'.index → c = c'

/-- In this step a registration is decided: it is refused where all entries are active, it is
granted in an entry that was not active, and no slot has the bit of an entry that becomes active. -/
structure Decides (m m' : State P n × Ghost n) : Prop where
  refused : ∀ c, m'.2.refused = c :: m.2.refused →
    m.1.lock = some (.consumer c) ∧ ∀ i, (m.1.ring.entries i).state = .active
  granted : ∀ c k, m.2.registration c = none → m'.2.registration c = some k →
    m.1.lock = some (.consumer c) ∧ (m.1.ring.entries k.index).state ≠ .active ∧
      (m'.1.ring.entries k.index).state = .active ∧
      (m'.1.ring.entries k.index).pid = P.me (.consumer c)
  registered : ∀ i, (m.1.ring.entries i).state ≠ .active → (m'.1.ring.entries i).state = .active →
    ∀ j, (m'.1.ring.slots j).readersMask &&& bit i = 0

/-- Nobody who is inside a critical section is dead. -/
def HoldersAlive (m : State P n × Ghost n) : Prop := ∀ a, m.1.lock = some a → m.1.aliveActor a

/-- Nobody is dead who has made an entry active or free and has not stored the count. -/
def NobodyDiesCounting (m : State P n × Ghost n) : Prop :=
  ∀ a b, m.2.counting = some (a, b) → m.1.aliveActor a

section

variable {G : Guards n} {cap : Nat} {a : Actor} {p p' : Proto n} {m m' : State P n × Ghost n}

theorem Coupled.active_iff {v : View P n} (hc : Coupled G v) {i : Fin 64} :
    v.entryState i = .active ↔ i ∈ v.proto.hist.heldEntries :=
  (hc.entryState i).trans Ghost.mem_heldEntries.symm

theorem activeEntries_eq (hc : Coupled G (view m)) :
    m.1.ring.activeEntries = m.2.heldEntries.card := by
  unfold Ring.activeEntries
  congr 1
  ext i
  rw [Finset.mem_filter, and_iff_right (Finset.mem_univ i)]
  exact hc.active_iff

/-- An open handle of the living is that of a registration. -/
theorem Coupled.client_of_isOpen (hc : Coupled G (view m)) {c : Nat} {h : Consumer}
    (ho : m.1.isOpen c h) :
    ∃ r, (view m).proto.client c r ∧ h.index = r.index := by
  obtain ⟨r, hr, hidx, hcl⟩ := hc.consumer c h ho.1
  exact ⟨r, ⟨hr, hcl ▸ ho.2⟩, hidx⟩

theorem Counted.agrees (hm : Counted (view m)) (hc : Coupled G (view m))
    (hi : Inv cap (view m).proto) (hl : m.1.lock = none) : RegistryAgrees m.1 := by
  have hidle : m.2.counting = none := by
    by_contra hne
    obtain ⟨⟨x, b⟩, hx⟩ := Option.ne_none_iff_exists'.mp hne
    have hlock : m.1.lock = some x := (hm.counting x b hx).1
    rw [hl] at hlock
    cases hlock
  have hcount : m.1.ring.consumers.toNat = m.2.heldEntries.card := hm.exact' hidle
  -- the entry of an open consumer that is alive is its own
  have hown : ∀ c h, m.1.isOpen c h → m.1.aliveActor (.consumer c) →
      m.2.holder h.index = some c := by
    intro c h ho hlive
    obtain ⟨r, hr, hidx⟩ := hc.client_of_isOpen ho
    rw [hidx]
    exact hi.active c r hr hlive
  exact {
    bits := fun j i hb => by
      rw [Ne, and_bit_eq_zero, not_not] at hb
      exact (hc.entryState i).mpr (hi.bits i j hb)
    free := fun j hf => readers_eq_empty.mp (hi.freeMask j hf)
    count := by rw [hcount, activeEntries_eq hc]
    atMost := by rw [hcount]; exact m.2.card_heldEntries_le
    active := fun c h ho hlive => by
      have hh := hown c h ho hlive
      exact ⟨(hc.entryState h.index).mpr (fun hn => absurd (hh.symm.trans hn) nofun),
        hc.entryPid h.index c hh⟩
    own := fun c c' h h' ho ho' hlive hlive' he => by
      have hh := hown c h ho hlive
      rw [he, hown c' h' ho' hlive'] at hh
      exact (Option.some.inj hh).symm }

theorem Step.refused_inv (hs : Step G cap a p p') {c : Nat}
    (hr : p'.hist.refused = c :: p.hist.refused) :
    p.lock = some (.consumer c) ∧ ∀ i, p.hist.holder i ≠ none := by
  cases hs with
  | refuse c' _ locked full =>
    cases List.head_eq_of_cons_eq hr
    exact ⟨locked, full⟩
  | _ => exact absurd hr.symm (List.cons_ne_self c _)

theorem Step.granted_inv (hs : Step G cap a p p') {c : Nat} {k : Registration}
    (hn : p.hist.registration c = none) (hk : p'.hist.registration c = some k) :
    p.lock = some (.consumer c) ∧ p.hist.holder k.index = none ∧
      p'.hist.holder k.index = some c := by
  cases hs with
  | register c' _ i locked free =>
    by_cases hc : c = c'
    · subst hc
      obtain rfl : p.hist.registrationNow i = k := by simpa [Ghost.register] using hk
      exact ⟨locked, free, by simp [Ghost.register, Ghost.registrationNow]⟩
    · simp [Ghost.register, hc, hn] at hk
  | closing c' =>
    by_cases hc : c = c'
    · subst hc
      simp [Ghost.closing, hn] at hk
    · simp [Ghost.closing, hc, hn] at hk
  | take c' =>
    by_cases hc : c = c'
    · subst hc
      simp [Ghost.hand, hn] at hk
    · simp [Ghost.hand, hc, hn] at hk
  | _ => cases hn.symm.trans hk

theorem Guar.decides (hg : Guar G cap a (view m) (view m')) (hc : Coupled G (view m))
    (hi : Inv cap (view m).proto) : Decides m m' where
  refused c hr := by
    obtain ⟨hl, hfull⟩ := hg.step.refused_inv hr
    exact ⟨hl, fun i => (hc.entryState i).mpr (hfull i)⟩
  granted c k hn hk := by
    obtain ⟨hl, hfree, hheld⟩ := hg.step.granted_inv hn hk
    refine ⟨hl, fun ha => (hc.entryState k.index).mp ha hfree, ?_, hg.coupled.entryPid _ c hheld⟩
    exact (hg.coupled.entryState k.index).mpr fun h => absurd (hheld.symm.trans h) nofun
  registered i hn ha j := by
    have hfree : m.2.holder i = none := by
      by_contra hh
      exact hn ((hc.entryState i).mpr hh)
    have hheld : m'.2.holder i ≠ none := (hg.coupled.entryState i).mp ha
    rw [and_bit_eq_zero]
    rcases hg.step.registers with ⟨holder, -, -⟩ | ⟨c, i', -, -, -, -, -, mask, hist⟩ |
      ⟨i', -, -, -, -, hist⟩ | ⟨b, -, -, hist⟩
    · exact absurd (congrFun holder i |>.trans hfree) hheld
    · intro hb
      have hb : i ∈ (view m').proto.mask j := hb
      rw [mask] at hb
      exact hi.bits i j hb hfree
    · have hholder : m'.2.holder = (m.2.deregister a i').holder := congrArg Ghost.holder hist
      rw [hholder] at hheld
      by_cases he : i = i'
      · simp [Ghost.deregister, he] at hheld
      · simp [Ghost.deregister, he, hfree] at hheld
    · have hholder : m'.2.holder = m.2.count.holder := congrArg Ghost.holder hist
      exact absurd (congrFun hholder i |>.trans hfree) hheld

/-- A step in which nothing happens to registry and history decides nothing. -/
theorem Decides.same (hr : m'.2.refused = m.2.refused) (hk : m'.2.registration = m.2.registration)
    (he : m'.1.ring = m.1.ring) : Decides m m' where
  refused c h := by
    rw [hr] at h
    exact absurd h.symm (List.cons_ne_self c _)
  granted c k hn h := by
    rw [hk, hn] at h
    cases h
  registered i hn ha := by
    rw [he] at ha
    exact absurd ha hn

end

/-! ## runs -/

/-- Whoever is counting lives on in a step of somebody. -/
theorem Counted.alive_of_guar {G : Guards n} {cap : Nat} {a : Actor} {v v' : View P n}
    (h : Counted v) (hg : Guar G cap a v v') : CountersAlive v' := by
  intro x b hx
  rw [hg.step.alive]
  rcases hg.step.registers with ⟨-, counting, -⟩ | ⟨c, i, rfl, -, -, -, -, -, hist⟩ |
    ⟨i, -, -, -, -, hist⟩ | ⟨b', -, -, hist⟩
  · rw [counting] at hx
    exact (h.counting x b hx).2
  · rw [hist] at hx
    have hx : (Actor.consumer c, true) = (x, b) := Option.some.inj hx
    cases hx
    exact hg.live
  · rw [hist] at hx
    have hx : (a, false) = (x, b) := Option.some.inj hx
    cases hx
    exact hg.live
  · rw [hist] at hx
    cases hx

/-- In a run in which nobody dies inside a critical section nobody dies while counting. -/
theorem reach_countMode (hP : P.Exact token) {c : RingConfig P L}
    (h : (ringSystem P L).Reach (fun _ m => HoldersAlive m) (Fresh P L k start) c) :
    (ringSystem P L).Reach (countMode P L.slotCount).rules.ok (Fresh P L k start) c := by
  refine (countMode_lawful P L k start).reach_exact_careless hP trivial ?_ h
  rintro m m' hi hok (⟨a, hg⟩ | hp | he)
  · exact hi.mode.alive_of_guar hg
  · intro x b hx
    have hcount : m'.2.counting = m.2.counting := congrArg (fun p => p.hist.counting) hp.fades.eq
    have hlock : m'.1.lock = m.1.lock := congrArg Proto.lock hp.fades.eq
    refine hok x (hlock.trans (hi.mode.counting x b ?_).1)
    exact hcount.symm.trans hx
  · intro x b hx
    rw [he] at hx ⊢
    exact (hi.mode.counting x b hx).2

/-- With an exact liveness check, in a run in which nobody dies inside a critical section: whenever
the lock is free, registry, masks, `G_CONSUMERS` and handles agree; every handle is that of a
registration; and a registration is refused only where all 64 entries are active, granted only in an
entry that is not, and finds no bit of its entry in any slot. -/
theorem registry_agrees (hP : P.Exact token) {c : RingConfig P L}
    (h : (ringSystem P L).Reach (fun _ m => HoldersAlive m) (Fresh P L k start) c) :
    (c.mem.1.lock = none → RegistryAgrees c.mem.1) ∧
      (∀ x self, c.mem.1.consumer x = some self →
        ∃ k, c.mem.2.registration x = some k ∧ k.index = self.index) ∧
      ∀ d, (ringSystem P L).Step c d → Decides c.mem d.mem := by
  have hM := countMode_lawful P L k start
  have hr := reach_countMode hP h
  have hi := hM.inv hr
  refine ⟨hi.mode.agrees hi.coupled hi.proto, fun x self hself => ?_, fun d hs => ?_⟩
  · obtain ⟨k, hk, hidx, -⟩ := hi.coupled.consumer x self hself
    exact ⟨k, hk, hidx.symm⟩
  rcases hM.sound.step hr hs with ⟨a, -, hg⟩ | ⟨os, -, he⟩ | he
  · exact hg.decides hi.coupled hi.proto
  · rw [he]
    exact .same rfl rfl rfl
  · rw [he]
    exact .same rfl rfl rfl

open Script in
/-- A consumer dies with a lease, and the next registration finds its entry free. -/
theorem registry_agrees_reaped :
    ∃ c : RingConfig .apart (.small 2 (by decide) (by decide)),
      (ringSystem _ _).Reach (fun _ m => HoldersAlive m) (Fresh _ _ 0 (· = Platform.apartly)) c ∧
        c.mem.1.ring.reapedCount = 1 ∧ RegistryAgrees c.mem.1 := by
  obtain ⟨c, hc, ht⟩ := Script.reachFrom (.small 2 (by decide) (by decide)) 0 Platform.apartly
    (fun _ m => HoldersAlive m) (fun _ m => m.1.lock.all fun a => alive a m.1)
    (fun m m' h a ha => by
      rw [ha] at h
      exact h)
    (whole (.consumer 0) (register 0) ++ whole (.writer 0) (publish 0 (.byte 5)) ++
      whole (.consumer 0) (next 0) ++ [kill 1] ++ whole (.consumer 1) (register 1))
    (fun d => decide (d.mem.1.ring.reapedCount = 1) && decide (d.mem.1.lock = none))
    (by decide +kernel)
  simp only [Bool.and_eq_true, decide_eq_true_eq] at ht
  exact ⟨c, hc, ht.1, (registry_agrees (Platform.table_exact _ _) hc).1 ht.2⟩

/-! ## deaths while counting -/

theorem Step.endSweep_inv {G : Guards n} {cap : Nat} {b : Actor} {p p' : Proto n}
    (hs : Step G cap b p p') {a : Actor} {x : Sweep n} (hx : p.hist.sweeping a = some x)
    (hx' : p'.hist.sweeping a = none) :
    b = a ∧ p.lock = some a ∧ p.counted a ∧ p' = { p with hist := p.hist.endSweep a } := by
  cases hs with
  | endSweep _ _ locked counted =>
    have ha : a = b := by
      by_contra hne
      simp [Ghost.endSweep, hne, hx] at hx'
    subst ha
    exact ⟨rfl, locked, counted, rfl⟩
  | beginSweep =>
    by_cases ha : a = b
    · subst ha
      simp [Ghost.beginSweep] at hx'
    · simp [Ghost.beginSweep, ha, hx] at hx'
  | _ => exact absurd (hx.symm.trans hx') (Option.some_ne_none _)

/-- With an exact liveness check, in a run in which nobody dies between making an entry active or
free and storing the count: whenever a sweep ends, `G_CONSUMERS` is the number of the active
entries. -/
theorem count_after_sweep (hP : P.Exact token) {c d : RingConfig P L}
    (h : (ringSystem P L).Reach (fun _ m => NobodyDiesCounting m) (Fresh P L k start) c)
    (hs : (ringSystem P L).Step c d) {a : Actor} {x : Sweep L.slotCount}
    (hx : c.mem.2.sweeping a = some x) (hx' : d.mem.2.sweeping a = none) :
    d.mem.1.ring.consumers.toNat = d.mem.1.ring.activeEntries := by
  have hM := countMode_lawful P L k start
  have hr := hM.reach_exact_careless hP trivial (fun _ _ _ hok _ => hok) h
  have hi := hM.inv hr
  rcases hM.sound.step hr hs with ⟨b, -, hg⟩ | ⟨os, -, he⟩ | he
  · obtain ⟨-, locked, counted, hp⟩ := hg.step.endSweep_inv hx hx'
    have hcounted : Counted (view d.mem) := hi.mode.step hg (hi.mode.alive_of_guar hg)
    have hidle : d.mem.2.counting = none := by
      have hcount : d.mem.2.counting = c.mem.2.counting :=
        congrArg (fun p => p.hist.counting) hp
      exact hcount.trans (hi.mode.idle locked counted)
    rw [activeEntries_eq hg.coupled]
    exact hcounted.exact' hidle
  · rw [he] at hx'
    exact absurd (hx.symm.trans hx') nofun
  · rw [he] at hx'
    exact absurd (hx.symm.trans hx') nofun

/-- In this step a sweep ends. -/
def sweepEnds (a : Actor) (c d : RingConfig P L) : Bool :=
  (c.mem.2.sweeping a).isSome && (d.mem.2.sweeping a).isNone

open Script in
/-- A consumer dies, and is reaped. -/
theorem count_after_sweep_reaped :
    ∃ c d : RingConfig .apart (.small 2 (by decide) (by decide)),
      (ringSystem _ _).Reach (fun _ m => NobodyDiesCounting m)
        (Fresh _ _ 0 (· = Platform.apartly)) c ∧ (ringSystem _ _).Step c d ∧
          d.mem.1.ring.reapedCount = 1 ∧
            d.mem.1.ring.consumers.toNat = d.mem.1.ring.activeEntries := by
  obtain ⟨c, d, hc, hs, ht⟩ := Script.stepFrom (.small 2 (by decide) (by decide)) 0
    Platform.apartly (fun _ m => NobodyDiesCounting m)
    (fun _ m => m.2.counting.all fun x => alive x.1 m.1)
    (fun m m' h a b hb => by
      rw [hb] at h
      exact h)
    (whole (.consumer 0) (register 0) ++ [kill 1, sweep 0, .steps (.sweeper 0) 78]) (.sweeper 0)
    (fun c d => sweepEnds (.sweeper 0) c d && decide (d.mem.1.ring.reapedCount = 1))
    (by decide +kernel)
  simp only [sweepEnds, Bool.and_eq_true, decide_eq_true_eq, Option.isSome_iff_exists,
    Option.isNone_iff_eq_none] at ht
  obtain ⟨⟨⟨x, hx⟩, hx'⟩, hreaped⟩ := ht
  exact ⟨c, d, hc, hs, hreaped, count_after_sweep (Platform.table_exact _ _) hc hs hx hx'⟩

open Script in
/-- A consumer dies in `close` between making its entry free and storing the count. No sweep puts
the count right. -/
theorem miscounted :
    ∃ (c d : RingConfig .apart (.small 2 (by decide) (by decide))) (a : Actor) (x : Sweep _),
      (ringSystem _ _).Reach (fun _ _ => True) (Fresh _ _ 0 (· = Platform.apartly)) c ∧
        (ringSystem _ _).Step c d ∧ c.mem.2.sweeping a = some x ∧ d.mem.2.sweeping a = none ∧
          d.mem.1.ring.consumers.toNat ≠ d.mem.1.ring.activeEntries := by
  obtain ⟨c, d, hc, hs, ht⟩ := Script.stepFrom (.small 2 (by decide) (by decide)) 0
    Platform.apartly (fun _ _ => True) (fun _ _ => true) (fun _ _ _ => trivial)
    (whole (.consumer 0) (register 0) ++ [close 0, .steps (.consumer 0) 5, kill 1, sweep 0,
      .steps (.sweeper 0) 68]) (.sweeper 0)
    (fun c d => sweepEnds (.sweeper 0) c d && decide (d.mem.1.ring.consumers.toNat = 1) &&
      decide (∀ i, (d.mem.1.ring.entries i).state ≠ .active))
    (by decide +kernel)
  simp only [sweepEnds, Bool.and_eq_true, decide_eq_true_eq, Option.isSome_iff_exists,
    Option.isNone_iff_eq_none] at ht
  obtain ⟨⟨⟨⟨x, hx⟩, hx'⟩, hcount⟩, hfree⟩ := ht
  refine ⟨c, d, .sweeper 0, x, hc, hs, hx, hx', ?_⟩
  have hnone : d.mem.1.ring.activeEntries = 0 := by
    unfold Ring.activeEntries
    rw [Finset.card_eq_zero, Finset.filter_eq_empty_iff]
    exact fun i _ => hfree i
  rw [hcount, hnone]
  decide

end TenzorBus
