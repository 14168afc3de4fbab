import TenzorBus.Conc.RelyGuarantee
import TenzorBus.Role.Script

/-!
# One producer

The pid word names the process of every live handle, as long as the role is handed back only by a
process that has no other handle.

* `Move` : what a thread does, one move for each action
* `Named` : the invariant of runs in which the role is handed back like that
* `Claimed`, `Truthful` : what holds of the claimant and of the refusals
* `single_producer` : the claim about runs
* `handed_back_early` : two attachments of one process
-/

namespace TenzorBus.Role

open Conc

variable {T : ProcessTable} {alone fresh : Prop} {x y : Handle} {m m' : State × Ghost}
  {c : RoleConfig}

/-! ## the moves -/

/-- Nobody alive has a handle, or is about to get one, under another pid. -/
def Vacant (T : ProcessTable) (x : Handle) (s : State) : Prop :=
  ∀ y, s.procs.alive y.proc = true → (s.phase y).engaged = true → T.pid y.proc = T.pid x.proc

/-- A move of the thread that has the place `x`; what it knows if the role is handed back only by
processes that have no other handle. -/
inductive Move (T : ProcessTable) (alone : Prop) (x : Handle) : State × Ghost → State × Ghost → Prop
  | idle (m : State × Ghost) : Move T alone x m m
  | attach (s : State) (g : Ghost) (attached : Nat → Nat → Bool) (producers : Nat → Nat → Nat) :
      Move T alone x (s, g) ({ s with attached := attached, producers := producers }, g)
  | acquire (s : State) (g : Ghost)
      (free : ∀ y, s.lock = some y → s.procs.alive y.proc = false) :
      Move T alone x (s, g) ({ s with lock := some x }, g)
  | unlock (s : State) (g : Ghost) (locked : s.lock = some x) :
      Move T alone x (s, g) ({ s with lock := none }, g)
  | refuse (s : State) (g : Ghost) (r : Refusal) (held : UInt32) (locked : s.lock = some x)
      (word : s.producerPid = held ∨ s.producerPid = 0) (check : s.procs.check T held 0 = true)
      (eq : r = { claimant := g.claimant, alive := s.claimantAlive g }) :
      Move T alone x (s, g) (s, { g with refusals := r :: g.refusals })
  | claim (s : State) (g : Ghost) (locked : s.lock = some x) (vacant : alone → Vacant T x s) :
      Move T alone x (s, g) ({ s with producerPid := T.pid x.proc }.goto x .claimed,
        { g with claimant := some x.proc })
  | count (s : State) (g : Ghost) (producers : Nat → Nat → Nat) (phase : s.phase x = .claimed) :
      Move T alone x (s, g) ({ s with producers := producers }.goto x .counted, g)
  | ready (s : State) (g : Ghost) (phase : s.phase x = .counted) :
      Move T alone x (s, g) (s.goto x .live, g)
  | leave (s : State) (g : Ghost) (producers : Nat → Nat → Nat) (ph : Phase)
      (hph : ph.engaged = false) :
      Move T alone x (s, g) ({ s with producers := producers }.goto x ph, g)
  | handBack (s : State) (g : Ghost) (word : s.producerPid = T.pid x.proc) :
      Move T alone x (s, g) ({ s with producerPid := 0 }.goto x .none,
        { g with claimant := none, handbacks := x :: g.handbacks })

@[simp] theorem State.goto_phase (s : State) (ph : Phase) : (s.goto x ph).phase x = ph := by
  simp [State.goto]

@[simp] theorem State.goto_phase_ne (s : State) (ph : Phase) (h : y ≠ x) :
    (s.goto x ph).phase y = s.phase y := by
  simp [State.goto, h]

theorem Move.phase (h : Move T alone x m m') (hy : y ≠ x) : m'.1.phase y = m.1.phase y := by
  cases h <;> simp [hy]

theorem Move.procs (h : Move T alone x m m') : m'.1.procs = m.1.procs := by
  cases h <;> rfl

/-! ## the invariant -/

/-- The role is handed back by a process that has no handle left and is about to get none. -/
def HandsBackAlone (m m' : State × Ghost) : Prop :=
  ∀ x, m'.2.handbacks = x :: m.2.handbacks →
    ∀ y : Handle, y.proc = x.proc → (m.1.phase y).engaged = false

/-- The pid word names the process of every handle. -/
structure Named (T : ProcessTable) (m : State × Ghost) : Prop where
  distinct : m.1.procs.Distinct T
  started : ∀ y, (m.1.phase y).engaged = true → m.1.procs.born.contains y.proc = true
  named : ∀ y, m.1.procs.alive y.proc = true → (m.1.phase y).engaged = true →
    m.1.producerPid = T.pid y.proc

/-- A handle comes nearer, under a pid word that names its process. -/
theorem Named.engage (h : Named T m) (hl : m.1.procs.alive x.proc = true) {s : State} {g : Ghost}
    {ph : Phase} (hprocs : s.procs = m.1.procs) (hphase : s.phase = Function.update m.1.phase x ph)
    (hx : s.producerPid = T.pid x.proc)
    (hothers : ∀ y, m.1.procs.alive y.proc = true → (m.1.phase y).engaged = true →
      s.producerPid = T.pid y.proc) : Named T (s, g) where
  distinct := by rw [hprocs]; exact h.distinct
  started y he := by
    rw [hprocs]
    by_cases hy : y = x
    · rw [hy]; exact Processes.alive_born hl
    · exact h.started y (by simpa [hphase, hy] using he)
  named y ha he := by
    by_cases hy : y = x
    · rw [hy]; exact hx
    · exact hothers y (by rwa [hprocs] at ha) (by simpa [hphase, hy] using he)

theorem Named.step (h : Named T m) (hl : m.1.procs.alive x.proc = true)
    (hm : Move T alone x m m') (hok : HandsBackAlone m m') (ha : alone) : Named T m' := by
  cases hm with
  | idle | attach | acquire | unlock | refuse => exact { h with }
  | claim s g locked vacant =>
    exact h.engage hl rfl rfl rfl fun y hy he => (vacant ha y hy he).symm
  | count s g producers phase =>
    exact h.engage hl rfl rfl (h.named x hl (by simp [phase, Phase.engaged])) h.named
  | ready s g phase =>
    exact h.engage hl rfl rfl (h.named x hl (by simp [phase, Phase.engaged])) h.named
  | leave s g producers ph hph =>
    have hne : ∀ y, (({ s with producers := producers }.goto x ph).phase y).engaged = true →
        y ≠ x := fun y he e => by rw [e, State.goto_phase, hph] at he; cases he
    exact {
      distinct := h.distinct
      started := fun y he => h.started y (by simpa [hne y he] using he)
      named := fun y ha he => h.named y ha (by simpa [hne y he] using he) }
  | handBack s g word =>
    have halone := hok x rfl
    have hne : ∀ y, (({ s with producerPid := 0 }.goto x .none).phase y).engaged = true →
        y ≠ x := fun y he e => by rw [e, State.goto_phase] at he; cases he
    exact {
      distinct := h.distinct
      started := fun y he => h.started y (by simpa [hne y he] using he)
      named := fun y ha he => by
        have he' : (s.phase y).engaged = true := by simpa [hne y he] using he
        -- whoever has a handle is of the process that hands the role back
        have hproc : y.proc = x.proc :=
          h.distinct _ _ ha hl ((h.named y ha he').symm.trans word)
        rw [halone y hproc] at he'
        cases he' }

theorem Named.env {procs : Processes} (h : Named T m) (hs : Processes.Step T m.1.procs procs) :
    Named T ({ m.1 with procs := procs }, m.2) where
  distinct := h.distinct.step hs
  started y he := hs.born (h.started y he)
  named y ha he := h.named y ((hs.alive ha).resolve_right (by rw [h.started y he]; nofun)) he

/-- The pid word is that of the claimant. -/
def Claimed (T : ProcessTable) (m : State × Ghost) : Prop :=
  m.1.producerPid = (m.2.claimant.map T.pid).getD 0

/-- Whoever has been refused was refused because the claimant was alive. -/
def Truthful (m : State × Ghost) : Prop :=
  ∀ r ∈ m.2.refusals, ∀ p, r.claimant = some p → r.alive = true

/-- As long as somebody is inside `producer`, no living process has been given the pid of a claimant
that is dead. -/
def PidUnused (T : ProcessTable) (m : State × Ghost) : Prop :=
  ∀ x p, m.1.lock = some x → m.1.procs.alive x.proc = true → m.2.claimant = some p →
    m.1.procs.alive p = false → ∀ q, m.1.procs.alive q = true → T.pid q ≠ T.pid p

theorem Claimed.step (h : Claimed T m) (hm : Move T alone x m m') : Claimed T m' := by
  cases hm with
  | claim | handBack => rfl
  | _ => exact h

theorem Truthful.step (h : Truthful m) (hc : Claimed T m) (hl : m.1.procs.alive x.proc = true)
    (hm : Move T alone x m m') (hok : PidUnused T m) : Truthful m' := by
  cases hm with
  | refuse s g r held locked word check eq =>
    intro r' hr' p hp
    rcases List.mem_cons.mp hr' with rfl | hr'
    · rw [eq] at hp ⊢
      have hp : g.claimant = some p := hp
      have hword : s.producerPid = T.pid p := by
        have hc : s.producerPid = (g.claimant.map T.pid).getD 0 := hc
        rw [hc, hp]
        rfl
      show g.claimant.any s.procs.alive = true
      rw [hp, Option.any_some]
      by_contra hdead
      -- the pid that was asked for is that of the claimant
      have hheld : held = T.pid p := by
        rcases word with hw | hw
        · exact hw.symm.trans hword
        · exact absurd (hword.symm.trans hw) (T.pid_ne p)
      obtain ⟨q, hq, hpid, -⟩ := Processes.check_iff.mp check
      exact hok x p locked hl hp (by simpa using hdead) q hq (hpid.trans hheld)
    · exact h r' hr' p hp
  | _ => exact h

/-! ## the programs -/

/-- The rules of runs in which the role is handed back only by a process without another handle, if
`alone`, and in which pids of claimants are not used again, if `fresh`. -/
def rules (T : ProcessTable) (alone fresh : Prop) : Rules (roleSystem T) where
  inv m := (alone → Named T m) ∧ Claimed T m ∧ (fresh → Truthful m)
  guar x m m' := m.1.procs.alive x.proc = true ∧ Move T alone x m m'
  ok m m' := (alone → HandsBackAlone m m') ∧ (fresh → PidUnused T m)
  rest _ _ := True

/-- The process of `x` has been started. -/
def Started (x : Handle) (m : State × Ghost) : Prop := m.1.procs.born.contains x.proc = true

theorem stable_started : (rules T alone fresh).Stable x (Started x) := by
  rintro m m' ⟨-, -, -, -, hs⟩ hm
  rcases hs with ⟨y, -, -, hmove⟩ | ⟨procs, hp, rfl⟩
  · rw [Started, hmove.procs]; exact hm
  · exact hp.born hm

theorem stable_phase (ph : Phase) : (rules T alone fresh).Stable x fun m => m.1.phase x = ph := by
  rintro m m' ⟨-, -, -, -, hs⟩ hm
  rcases hs with ⟨y, hy, -, hmove⟩ | ⟨procs, hp, rfl⟩
  · exact (hmove.phase (Ne.symm hy)).trans hm
  · exact hm

/-- In a critical section of `producer`. -/
structure Locked (x : Handle) (m : State × Ghost) : Prop where
  started : Started x m
  lock : m.1.lock = some x

/-- Whoever is started and has not died is alive. -/
theorem Started.alive {m : State × Ghost} (h : Started x m)
    (hl : m.1.procs.died.contains x.proc = false) : m.1.procs.alive x.proc = true := by
  have h : m.1.procs.born.contains x.proc = true := h
  rw [Processes.alive, hl, h]
  rfl

theorem died_of_step {s s' : Processes} {p : Nat} (h : Processes.Step T s s')
    (hp : s'.died.contains p = false) : s.died.contains p = false := by
  cases h with
  | start q => exact hp
  | die q =>
    rw [List.contains_cons, Bool.or_eq_false_iff] at hp
    exact hp.2

theorem stable_locked : (rules T alone fresh).Stable x (Locked x) := by
  intro m m' hr hm
  refine ⟨stable_started m m' hr hm.started, ?_⟩
  obtain ⟨-, -, -, hl, hs⟩ := hr
  rcases hs with ⟨y, hy, -, hmove⟩ | ⟨procs, hp, rfl⟩
  · have hl : m'.1.procs.died.contains x.proc = false := hl
    rw [hmove.procs] at hl
    cases hmove with
    | acquire s g free =>
      have := free x hm.lock
      rw [hm.started.alive hl] at this
      cases this
    | unlock s g locked => exact absurd (Option.some.inj (locked.symm.trans hm.lock)) hy
    | _ => exact hm.lock
  · exact hm.lock

/-- What the others leave of the pid word while `x` has the lock. -/
theorem stable_word (held : UInt32) : (rules T alone fresh).Stable x fun m =>
    Locked x m ∧ (m.1.producerPid = held ∨ m.1.producerPid = 0) := by
  intro m m' hr hm
  refine ⟨stable_locked m m' hr hm.1, ?_⟩
  rcases hr.step with ⟨y, hy, -, hmove⟩ | ⟨procs, hp, rfl⟩
  · cases hmove with
    | claim s g locked => exact absurd (Option.some.inj (locked.symm.trans hm.1.lock)) hy
    | handBack s g word => exact .inr rfl
    | _ => exact hm.2
  · exact hm.2

/-- Nobody gets a handle while `x` has the lock. -/
theorem stable_vacant :
    (rules T alone fresh).Stable x fun m => Locked x m ∧ (alone → Vacant T x m.1) := by
  intro m m' hr hm
  refine ⟨stable_locked m m' hr hm.1, fun hal y ha he => ?_⟩
  have hb : Named T m := hr.before.1 hal
  rcases hr.step with ⟨z, hz, -, hmove⟩ | ⟨procs, hp, rfl⟩
  · refine hm.2 hal y (by rwa [hmove.procs] at ha) ?_
    by_cases hyz : y = z
    · -- whoever moves on with a handle had one before
      subst hyz
      cases hmove with
      | claim s g locked => exact absurd (Option.some.inj (locked.symm.trans hm.1.lock)) hz
      | count s g producers phase => simp [phase, Phase.engaged]
      | ready s g phase => simp [phase, Phase.engaged]
      | leave s g producers ph hph => rw [State.goto_phase, hph] at he; cases he
      | handBack s g word => rw [State.goto_phase] at he; cases he
      | _ => exact he
    · rwa [hmove.phase hyz] at he
  · exact hm.2 hal y ((hp.alive ha).resolve_right (by rw [hb.started y he]; nofun)) he

section

variable {β : Type} {P Q : State × Ghost → Prop}

/-- A change of the words, as a move. -/
theorem move {f : State → State} {aux : State → Ghost → Ghost} (hP : ∀ m, P m → Started x m)
    (hQ : (rules T alone fresh).Stable x Q)
    (h : ∀ s g, P (s, g) → Move T alone x (s, g) (f s, aux s g) ∧ Q (f s, aux s g)) :
    (rules T alone fresh).Outline x (Prog.modifyWith f aux) P fun _ => Q :=
  Rules.Outline.modifyWith hQ fun s g _ hl hs =>
    ⟨⟨(hP _ hs).alive hl, (h s g hs).1⟩, fun _ _ => (h s g hs).2⟩

theorem unlockRegistry_outline (hQ : (rules T alone fresh).Stable x Q)
    (h : ∀ s g, Q (s, g) → Q ({ s with lock := none }, g)) :
    (rules T alone fresh).Outline x unlockRegistry (fun m => Locked x m ∧ Q m) fun _ => Q :=
  move (fun _ hs => hs.1.started) hQ fun s g hs => ⟨.unlock s g hs.1.lock, h s g hs.2⟩

theorem claim_outline :
    (rules T alone fresh).Outline x (claim T x)
      (fun m => Locked x m ∧ (alone → Vacant T x m.1)) fun _ _ => True := by
  refine Rules.Outline.bind (M := fun _ m => Locked x m ∧ m.1.phase x = .claimed) ?_ fun _ =>
    Rules.Outline.bind (M := fun _ m => Locked x m ∧ Started x m ∧ m.1.phase x = .counted) ?_
      fun _ => Rules.Outline.bind (M := fun _ m => Started x m ∧ m.1.phase x = .counted) ?_
        fun _ => Rules.Outline.bind (M := fun _ _ => True) ?_ fun _ =>
          Rules.Outline.ret fun _ _ _ => trivial
  · exact move (fun _ hs => hs.1.started) (stable_locked.and (stable_phase _)) fun s g hs =>
      ⟨.claim s g hs.1.lock hs.2, ⟨hs.1.started, hs.1.lock⟩, by simp⟩
  · exact move (fun _ hs => hs.1.started)
      (stable_locked.and (stable_started.and (stable_phase _))) fun s g hs =>
        ⟨.count s g _ hs.2, ⟨hs.1.started, hs.1.lock⟩, hs.1.started, by simp⟩
  · exact unlockRegistry_outline (stable_started.and (stable_phase _)) fun _ _ h => h
  · exact move (fun _ hs => hs.1) (Rules.Stable.const True) fun s g hs =>
      ⟨.ready s g hs.2, trivial⟩

theorem producer_outline :
    (rules T alone fresh).Outline x (producer T x) (Started x) fun _ _ => True := by
  refine Rules.Outline.bind (M := fun _ => Locked x) ?_ fun _ =>
    Rules.Outline.bind (M := fun held m =>
      (Locked x m ∧ (m.1.producerPid = held ∨ m.1.producerPid = 0)) ∧
        ((held = 0 ∨ held = T.pid x.proc) → Locked x m ∧ (alone → Vacant T x m.1))) ?_
      fun held => ?_
  · refine Rules.Outline.atomicWith (fun _ => stable_locked) fun s g _ hl hs b t ht => ?_
    obtain ⟨hfree, ht⟩ := Option.ite_none_right_eq_some.mp ht
    cases ht
    have hs : Started x (s, g) := hs
    refine ⟨⟨hs.alive hl, .acquire s g fun y hy => ?_⟩, fun _ _ => ⟨hs, rfl⟩⟩
    simpa [hy] using hfree
  · refine Rules.Outline.atomicWith
      (fun held => (stable_word held).and (Rules.Stable.imp_const fun _ => stable_vacant))
      fun s g hi hl hs b t ht => ?_
    cases Option.some.inj ht
    refine ⟨⟨hs.started.alive hl, .idle _⟩, fun _ _ => ⟨⟨hs, .inl rfl⟩, fun hh => ⟨hs, ?_⟩⟩⟩
    intro hal y ha he
    have hn := (hi.1 hal).named y ha he
    rcases hh with hh | hh
    · exact absurd (hn.symm.trans hh) (T.pid_ne _)
    · exact hn.symm.trans hh
  split
  · refine Rules.Outline.bind (M := fun alive m => Locked x m ∧
      (alive = false → Locked x m ∧ (alone → Vacant T x m.1))) ?_ fun alive => ?_
    · refine Rules.Outline.atomicWith
        (fun _ => stable_locked.and (Rules.Stable.imp_const fun _ => stable_vacant))
        fun s g hi hl hs b t ht => ?_
      cases Option.some.inj ht
      refine ⟨⟨hs.1.1.started.alive hl, ?_⟩, fun _ _ => ⟨⟨hs.1.1.started, hs.1.1.lock⟩,
        fun hdead => ⟨⟨hs.1.1.started, hs.1.1.lock⟩, fun hal y ha he => ?_⟩⟩⟩
      · by_cases hc : s.procs.check T held 0 = true
        · rw [if_pos hc]; exact .refuse s g _ held hs.1.1.lock hs.1.2 hc rfl
        · rw [if_neg hc]; exact .idle _
      · -- a handle under the pid that was asked for would have been found alive
        have hn := (hi.1 hal).named y ha he
        have hheld : held = T.pid y.proc := by
          rcases hs.1.2 with hw | hw
          · exact hw.symm.trans hn
          · exact absurd (hn.symm.trans hw) (T.pid_ne _)
        have hc := Processes.check_pid (T := T) ha
        rw [← hheld, show s.procs.check T held 0 = false from hdead] at hc
        cases hc
    · split
      · refine Rules.Outline.bind ((unlockRegistry_outline (Rules.Stable.const True)
          fun _ _ h => h).pre fun m _ hs => ⟨hs.1, trivial⟩) fun _ =>
            Rules.Outline.ret fun _ _ _ => trivial
      · next ha => exact claim_outline.pre fun m _ hs => hs.2 (by simpa using ha)
  · next hh =>
    exact claim_outline.pre fun m _ hs => hs.2 (by
      by_cases h0 : held = 0
      · exact .inl h0
      · exact .inr (not_not.mp fun hne => hh ⟨h0, hne⟩))

theorem drop_outline : (rules T alone fresh).Outline x (drop T x) (Started x) fun _ _ => True := by
  refine Rules.Outline.bind (M := fun _ => Started x) ?_ fun previous => ?_
  · refine Rules.Outline.atomicWith (fun _ => stable_started) fun s g _ hl hs b t ht => ?_
    cases Option.some.inj ht
    have hs : Started x (s, g) := hs
    refine ⟨⟨hs.alive hl, .leave s g _ _ ?_⟩, fun _ _ => hs⟩
    split <;> rfl
  split
  · exact Rules.Outline.ret fun _ _ _ => trivial
  · refine move (fun _ hs => hs) (Rules.Stable.const True) fun s g hs => ⟨?_, trivial⟩
    by_cases hw : s.producerPid = T.pid x.proc
    · rw [if_pos hw, if_pos hw]; exact .handBack s g hw
    · rw [if_neg hw, if_neg hw]; exact .leave s g s.producers .none rfl

theorem attach_outline : (rules T alone fresh).Outline x (attach x) (Started x) fun _ _ => True :=
  move (fun _ hs => hs) (Rules.Stable.const True) fun s g _ => ⟨.attach s g _ _, trivial⟩

end

theorem role_sound (T : ProcessTable) (alone fresh : Prop) :
    (rules T alone fresh).Sound (· = RoleConfig.init) where
  initial := by
    rintro _ rfl
    exact ⟨⟨fun _ => ⟨nofun, nofun, nofun⟩, rfl, fun _ => nofun⟩, fun _ => ⟨rfl, trivial⟩⟩
  restStable _ := Rules.Stable.const True
  starts x m p h _ _ _ := by
    obtain ⟨hb, hp⟩ := h
    refine ⟨_, stable_started, hb, ?_⟩
    cases hp with
    | attach h => exact attach_outline
    | producer h hp => exact Rules.Outline.bind producer_outline fun _ =>
        Rules.Outline.ret fun _ _ _ => trivial
    | drop hp => exact drop_outline
  guarInv x m m' hi _ hok hg :=
    ⟨fun h => (hi.1 h).step hg.1 hg.2 (hok.1 h) h, hi.2.1.step hg.2,
      fun h => (hi.2.2 h).step hi.2.1 hg.1 hg.2 (hok.2 h)⟩
  envInv m m' hi _ := by
    rintro ⟨procs, hp, rfl⟩
    exact ⟨fun h => (hi.1 h).env hp, hi.2.1, hi.2.2⟩
  guarLive x y m m' hg hl := by
    have hl : m'.1.procs.died.contains x.proc = false := hl
    rwa [hg.2.procs] at hl
  envLive x m m' := by
    rintro ⟨procs, hp, rfl⟩ hl
    exact died_of_step hp hl

/-! ## runs -/

/-- The thread has a `Producer` handle, and its process is alive. -/
def Live (x : Handle) (m : State × Ghost) : Prop :=
  m.1.phase x = .live ∧ m.1.procs.alive x.proc = true

/-- The pid word names the process of every live handle, and there are no two such processes, in
every run in which the role is handed back only by processes without another handle. -/
theorem single_producer (h : (roleSystem T).Reach HandsBackAlone (· = RoleConfig.init) c) :
    (∀ x, Live x c.mem → c.mem.1.producerPid = T.pid x.proc) ∧
      ∀ x y, Live x c.mem → Live y c.mem → x.proc = y.proc := by
  have hi : Named T c.mem := ((role_sound T True False).inv
    (h.mono fun _ _ hok => ⟨fun _ => hok, False.elim⟩)).1 trivial
  have hn : ∀ x, Live x c.mem → c.mem.1.producerPid = T.pid x.proc := fun x hx =>
    hi.named x hx.2 (by rw [hx.1]; rfl)
  exact ⟨hn, fun x y hx hy => hi.distinct _ _ hx.2 hy.2 ((hn x hx).symm.trans (hn y hy))⟩

/-- If the role is handed back, the process has none of these handles. -/
def handsBackAlone (xs : List Handle) (m m' : State × Ghost) : Bool :=
  m'.2.handbacks.length == m.2.handbacks.length ||
    m'.2.handbacks.head?.all fun x => xs.all fun y => y.proc != x.proc || !(m.1.phase y).engaged

/-- The role is handed back alone, and the other handles neither come nor go. -/
def AloneAmong (xs : List Handle) (m m' : State × Ghost) : Prop :=
  HandsBackAlone m m' ∧ ∀ y, y ∉ xs → m'.1.phase y = m.1.phase y

/-- What is checked of some handles holds of all. -/
theorem aloneAmong_of_check {xs : List Handle} {d : RoleConfig}
    (hc : (roleSystem T).Reach (AloneAmong xs) (· = RoleConfig.init) c)
    (ha : System.Among (fun x => decide (x ∈ xs)) c) (hs : (roleSystem T).Step c d)
    (hchk : handsBackAlone xs c.mem d.mem = true) : AloneAmong xs c.mem d.mem := by
  have hnone : ∀ y, y ∉ xs → c.mem.1.phase y = .none := by
    intro y hy
    clear ha hs hchk
    induction hc with
    | init h => rw [h]; rfl
    | step _ _ hok ih => rw [hok.2 y hy, ih]
  refine ⟨fun x hx y hyx => ?_, fun y hy => ?_⟩
  · by_cases hy : y ∈ xs
    · rcases Bool.or_eq_true_iff.mp hchk with hb | hb
      · rw [hx] at hb; simp at hb
      · rw [hx, List.head?_cons, Option.all_some, List.all_eq_true] at hb
        simpa [hyx] using hb y hy
    · rw [hnone y hy]; rfl
  · rcases ha.step hs with hm | ⟨procs, -, hm⟩ | ⟨x, p, hx, hl, hn⟩
    · rw [hm]
    · rw [hm]
    · have hyx : y ≠ x := by
        rintro rfl
        exact hy (of_decide_eq_true hx)
      rcases (role_sound T False False).acts
        (hc.mono fun _ _ _ => ⟨False.elim, False.elim⟩) hl hn with hg | hm
      · exact hg.2.phase hyx
      · rw [hm]

/-- A script in which only these handles come and go. -/
theorem Script.reachAlone (xs : List Handle)
    (moves : List (System.Move (roleSystem Script.table)))
    (hb : moves.all (System.Move.within fun x => decide (x ∈ xs)) = true)
    (test : RoleConfig → Bool)
    (h : (System.play Script.running (handsBackAlone xs) moves RoleConfig.init).any test = true) :
    ∃ d, (roleSystem Script.table).Reach HandsBackAlone (· = RoleConfig.init) d ∧
      test d = true := by
  obtain ⟨d, hd, -, ht⟩ := System.Reach.playAmong
    (fun x s hl => by simpa [Script.running, roleSystem] using hl)
    (fun _ _ hc ha hs hchk => aloneAmong_of_check hc ha hs hchk) moves hb (.init rfl)
    (fun _ _ => rfl) h
  exact ⟨d, hd.mono fun _ _ hok => hok.1, ht⟩

open Script in
/-- A process makes two handles and drops both. The second drop hands the role back, and another
process takes it. -/
theorem single_producer_handed_over : ∃ c,
    (roleSystem table).Reach HandsBackAlone (· = RoleConfig.init) c ∧
      c.mem.2.handbacks = [handle 0 0 1] ∧ Live (handle 1 0 0) c.mem ∧
        c.mem.1.producerPid = table.pid 1 ∧ ∀ y, Live y c.mem → y.proc = 1 := by
  obtain ⟨c, hc, ht⟩ := Script.reachAlone [handle 0 0 0, handle 0 0 1, handle 1 0 0]
    ([start 0, start 1] ++ whole (handle 0 0 0) (Script.attach 0 0) ++
      whole (handle 1 0 0) (Script.attach 1 0) ++
      whole (handle 0 0 0) (Script.claim 0 0 0) ++ whole (handle 0 0 1) (Script.claim 0 0 1) ++
      whole (handle 0 0 0) (Script.release 0 0 0) ++ whole (handle 0 0 1) (Script.release 0 0 1) ++
      whole (handle 1 0 0) (Script.claim 1 0 0))
    (by decide)
    (fun d => decide (d.mem.2.handbacks = [handle 0 0 1]) &&
      (decide (d.mem.1.phase (handle 1 0 0) = .live) && d.mem.1.procs.alive 1))
    (by decide +kernel)
  simp only [Bool.and_eq_true, decide_eq_true_eq] at ht
  have hl : Live (handle 1 0 0) c.mem := ht.2
  obtain ⟨hn, hu⟩ := single_producer hc
  exact ⟨c, hc, ht.1, hl, hn _ hl, fun y hy => hu y _ hy hl⟩

open Script in
/-- One process attaches twice and makes a handle through each attachment. Dropping one of them
hands the role back, and another process gets it. -/
theorem handed_back_early : ∃ c,
    (roleSystem table).Reach (fun m m' => m'.1.procs.died = m.1.procs.died)
      (· = RoleConfig.init) c ∧
      Live (handle 0 1 0) c.mem ∧ c.mem.1.producerPid ≠ table.pid 0 ∧
        Live (handle 1 0 0) c.mem := by
  obtain ⟨c, hc, ht⟩ := Script.reach (fun m m' => m'.1.procs.died = m.1.procs.died)
    (fun m m' => m'.1.procs.died == m.1.procs.died) (fun _ _ => eq_of_beq)
    ([start 0, start 1] ++ whole (handle 0 0 0) (Script.attach 0 0) ++
      whole (handle 0 1 0) (Script.attach 0 1) ++
      whole (handle 0 0 0) (Script.claim 0 0 0) ++ whole (handle 0 1 0) (Script.claim 0 1 0) ++
      whole (handle 0 0 0) (Script.release 0 0 0) ++
      whole (handle 1 0 0) (Script.attach 1 0) ++ whole (handle 1 0 0) (Script.claim 1 0 0))
    (fun d => decide (d.mem.1.phase (handle 0 1 0) = .live) && d.mem.1.procs.alive 0 &&
      decide (d.mem.1.phase (handle 1 0 0) = .live) && d.mem.1.procs.alive 1 &&
        decide (d.mem.1.producerPid ≠ table.pid 0)) (by decide +kernel)
  simp only [Bool.and_eq_true, decide_eq_true_eq] at ht
  exact ⟨c, hc, ⟨ht.1.1.1.1, ht.1.1.1.2⟩, ht.2, ht.1.1.2, ht.1.2⟩

end TenzorBus.Role
