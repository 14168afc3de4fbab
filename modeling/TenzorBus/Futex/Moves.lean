import TenzorBus.Conc.RelyGuarantee
import TenzorBus.Futex.Lock

/-!
# The moves of the lock

What a thread does to the words, to its own phase and to the history, one move for each action.

* `Move` : the moves, each with what entitles the thread to it
* `moves_sound` : the programs do nothing else
* `reach_move` : what a step of a run is
-/

namespace TenzorBus.Futex

open Conc

variable {T : StartTokens} {i j : Thread} {m m' : State × Ghost}

/-- A move of thread `i`. -/
inductive Move (T : StartTokens) (i : Thread) : State × Ghost → State × Ghost → Prop
  | idle (m : State × Ghost) : Move T i m m
  | wait (s : State) (g : Ghost) (phase : s.phase i = .idle) :
      Move T i (s, g) (s.goto i .waiting, g)
  | take (s : State) (g : Ghost) (w : UInt32) (phase : (s.phase i).engaged = false)
      (free : s.word = unlocked) (hw : w ≠ unlocked) :
      Move T i (s, g) ({ s with word := w }.goto i .taken, { g with holder := some i })
  | contend (s : State) (g : Ghost) (taken : s.word ≠ unlocked) :
      Move T i (s, g) ({ s with word := contended }, g)
  | record (s : State) (g : Ghost) (phase : s.phase i = .taken) :
      Move T i (s, g) ({ s with owner := i.pid }.goto i .recorded, g)
  | enter (s : State) (g : Ghost) (phase : s.phase i = .recorded) :
      Move T i (s, g) ({ s with ownerToken := T.token i.pid }.goto i .inside, g)
  | check (s : State) (g : Ghost) (holder token : UInt32) :
      Move T i (s, g) (s, { g with
        checks := { holder, token, alive := pidAliveWithToken T s holder token } :: g.checks })
  | takeOver (s : State) (g : Ghost) (phase : s.phase i = .waiting)
      (dead : ∃ x ∈ g.checks, x.alive = false) :
      Move T i (s, g) ({ s with owner := i.pid }.goto i .recovering,
        { g with takeovers := s.owner :: g.takeovers, holder := some i })
  | token (s : State) (g : Ghost) (phase : s.phase i = .recovering) :
      Move T i (s, g) ({ s with ownerToken := T.token i.pid }, g)
  | restore (s : State) (g : Ghost) (phase : s.phase i = .recovering) :
      Move T i (s, g) ({ s with word := contended }.goto i .inside, g)
  | clear (s : State) (g : Ghost) (phase : s.phase i = .inside) :
      Move T i (s, g) ({ s with owner := 0 }.goto i .clearing, g)
  | erase (s : State) (g : Ghost) (phase : s.phase i = .clearing) :
      Move T i (s, g) ({ s with ownerToken := 0 }, g)
  | release (s : State) (g : Ghost) (phase : s.phase i = .clearing) :
      Move T i (s, g) ({ s with word := unlocked }.goto i .leaving, { g with holder := none })
  | leave (s : State) (g : Ghost) (phase : s.phase i = .leaving) :
      Move T i (s, g) (s.goto i .idle, g)

@[simp] theorem State.goto_phase (s : State) (ph : Phase) : (s.goto i ph).phase i = ph := by
  simp [State.goto]

@[simp] theorem State.goto_phase_ne (s : State) (ph : Phase) (h : j ≠ i) :
    (s.goto i ph).phase j = s.phase j := by
  simp [State.goto, h]

/-- A thread changes its own phase only. -/
theorem Move.phase (h : Move T i m m') (hj : j ≠ i) : m'.1.phase j = m.1.phase j := by
  cases h <;> simp [hj]

theorem Move.dead (h : Move T i m m') : m'.1.dead = m.1.dead := by
  cases h <;> rfl

theorem Move.alive (h : Move T i m m') : m'.1.alive = m.1.alive := by
  funext p
  simp only [State.alive, h.dead]

/-- The dead stay dead. -/
theorem State.alive_of_kill {s : State} {p q : UInt32} (h : (s.kill p).alive q = true) :
    s.alive q = true := by
  simp only [State.alive, State.kill, List.contains_cons, Bool.and_eq_true, Bool.not_eq_true',
    Bool.or_eq_false_iff] at h ⊢
  exact ⟨h.1, h.2.2⟩

theorem Move.checks (h : Move T i m m') : m.2.checks ⊆ m'.2.checks := by
  cases h with
  | check => exact List.subset_cons_self _ _
  | _ => exact List.Subset.refl _

/-! ## the programs -/

/-- A thread may move; between two operations it is outside or has the lock. -/
def rules (T : StartTokens) : Rules (lockSystem T) where
  inv _ := True
  guar i m m' := Move T i m m'
  ok _ _ := True
  rest i m := m.1.phase i = .idle ∨ m.1.phase i = .inside

/-- The thread is in this phase. -/
def At (i : Thread) (ph : Phase) (m : State × Ghost) : Prop := m.1.phase i = ph

theorem stable_at (ph : Phase) : (rules T).Stable i (At i ph) := by
  rintro m m' ⟨-, -, -, -, hs⟩ hm
  rcases hs with ⟨j, hj, hmove⟩ | ⟨p, rfl⟩
  · exact (hmove.phase (Ne.symm hj)).trans hm
  · exact hm

theorem stable_dead : (rules T).Stable i fun m => ∃ x ∈ m.2.checks, x.alive = false := by
  rintro m m' ⟨-, -, -, -, hs⟩ ⟨x, hx, hd⟩
  rcases hs with ⟨j, -, hmove⟩ | ⟨p, rfl⟩
  · exact ⟨x, hmove.checks hx, hd⟩
  · exact ⟨x, hx, hd⟩

section

variable {α β : Type} {P Q : State × Ghost → Prop} {Ψ : α → State × Ghost → Prop}

/-- A change of the words, as a move. -/
theorem move {f : State → State} {aux : State → Ghost → Ghost} (hQ : (rules T).Stable i Q)
    (h : ∀ s g, P (s, g) → Move T i (s, g) (f s, aux s g) ∧ Q (f s, aux s g)) :
    (rules T).Outline i (Prog.modifyWith f aux) P fun _ => Q :=
  Rules.Outline.modifyWith hQ fun s g _ _ hs => ⟨(h s g hs).1, fun _ _ => (h s g hs).2⟩

/-- A load of a word. -/
theorem look {f : State → β} (hP : (rules T).Stable i P) :
    (rules T).Outline i (Prog.read f) P fun _ => P :=
  Rules.Outline.read (fun _ => hP) (fun m _ => .idle m) fun _ _ _ hs => hs

theorem record_outline :
    (rules T).Outline i (record T i) (At i .taken) fun _ => At i .inside := by
  refine Rules.Outline.bind (M := fun _ => At i .recorded) ?_ fun _ => ?_
  · exact move (stable_at _) fun s g hs => ⟨.record s g hs, by simp [At]⟩
  · exact move (stable_at _) fun s g hs => ⟨.enter s g hs, by simp [At]⟩

theorem takeOver_outline :
    (rules T).Outline i (takeOver T i)
      (fun m => At i .waiting m ∧ ∃ x ∈ m.2.checks, x.alive = false)
      fun _ => At i .inside := by
  refine Rules.Outline.bind (M := fun _ => At i .recovering) ?_ fun _ =>
    Rules.Outline.bind (M := fun _ => At i .recovering) ?_ fun _ => ?_
  · exact move (stable_at _) fun s g hs => ⟨.takeOver s g hs.1 hs.2, by simp [At]⟩
  · exact move (stable_at _) fun s g hs => ⟨.token s g hs, hs⟩
  · exact move (stable_at _) fun s g hs => ⟨.restore s g hs, by simp [At]⟩

theorem recover_outline :
    (rules T).Outline i (recover T i) (At i .waiting) fun r =>
      At i (if r then .inside else .waiting) := by
  have hout : (rules T).Outline i (pure false) (At i .waiting) fun r =>
      At i (if r then .inside else .waiting) := Rules.Outline.ret fun _ _ hs => hs
  refine Rules.Outline.bind (look (stable_at _)) fun word => ?_
  split
  · refine Rules.Outline.bind (look (stable_at _)) fun holder =>
      Rules.Outline.bind (look (stable_at _)) fun holderToken => ?_
    split
    · refine Rules.Outline.bind (M := fun alive m => At i .waiting m ∧
        (alive = false → ∃ x ∈ m.2.checks, x.alive = false)) ?_ fun alive => ?_
      · refine Rules.Outline.atomicWith
          (fun _ => (stable_at _).and (Rules.Stable.imp_const fun _ => stable_dead))
          fun s g _ _ hs b t ht => ⟨?_, fun _ _ => ⟨?_, fun hb => ?_⟩⟩
        · cases Option.some.inj ht; exact .check s g _ _
        · cases Option.some.inj ht; exact hs
        · cases Option.some.inj ht; exact ⟨_, List.mem_cons_self .., hb⟩
      · split
        · exact Rules.Outline.ret fun _ _ hs => hs.1
        · next ha =>
          refine Rules.Outline.bind (takeOver_outline.pre fun m _ hs =>
            ⟨hs.1, hs.2 (by simpa using ha)⟩) fun _ => Rules.Outline.ret fun _ _ hs => hs
    · exact hout
  · exact hout

theorem lock_outline :
    (rules T).Outline i (lock T i) (At i .idle) fun _ => At i .inside := by
  refine Rules.Outline.bind (M := fun ok => At i (if ok then .taken else .waiting)) ?_
    fun ok => ?_
  · refine Rules.Outline.atomicWith (fun _ => stable_at _) fun s g _ _ hs b t ht => ?_
    have hs : s.phase i = .idle := hs
    by_cases hfree : s.word = unlocked
    · rw [if_pos hfree] at ht
      cases Option.some.inj ht
      exact ⟨.take s g locked (by rw [hs]; rfl) hfree (by decide), fun _ _ => by simp [At]⟩
    · rw [if_neg hfree] at ht
      cases Option.some.inj ht
      exact ⟨.wait s g hs, fun _ _ => by simp [At]⟩
  cases ok with
  | true => exact record_outline
  | false =>
    refine Rules.Outline.loop (stable_at _) (fun _ => stable_at _) ?_
    refine Rules.Outline.bind (M := fun (previous : UInt32) =>
      At i (if previous = unlocked then .taken else .waiting)) ?_ fun previous => ?_
    · refine Rules.Outline.atomicWith (fun _ => stable_at _) fun s g _ _ hs b t ht => ?_
      have hs : s.phase i = .waiting := hs
      by_cases hfree : s.word = unlocked
      · rw [if_pos hfree] at ht
        cases Option.some.inj ht
        rw [if_pos hfree, if_pos hfree]
        exact ⟨.take s g contended (by rw [hs]; rfl) hfree (by decide), fun _ _ => by simp [At]⟩
      · rw [if_neg hfree] at ht
        cases Option.some.inj ht
        rw [if_neg hfree, if_neg hfree]
        exact ⟨.contend s g hfree, fun _ _ => hs⟩
    · split
      · exact Rules.Outline.bind record_outline fun _ => Rules.Outline.ret fun _ _ hs => hs
      · refine Rules.Outline.bind (M := fun _ => At i .waiting)
          (move (stable_at _) fun s g hs => ⟨.idle _, hs⟩) fun _ =>
            Rules.Outline.bind recover_outline fun r => Rules.Outline.ret fun _ _ hs => ?_
        cases r <;> exact hs

theorem unlock_outline :
    (rules T).Outline i (unlock i) (At i .inside) fun _ => At i .idle := by
  refine Rules.Outline.bind (M := fun _ => At i .clearing) ?_ fun _ =>
    Rules.Outline.bind (M := fun _ => At i .clearing) ?_ fun _ =>
      Rules.Outline.bind (M := fun _ => At i .leaving) ?_ fun previous => ?_
  · exact move (stable_at _) fun s g hs => ⟨.clear s g hs, by simp [At]⟩
  · exact move (stable_at _) fun s g hs => ⟨.erase s g hs, hs⟩
  · refine Rules.Outline.atomicWith (fun _ => stable_at _) fun s g _ _ hs b t ht => ?_
    cases Option.some.inj ht
    exact ⟨.release s g hs, fun _ _ => by simp [At]⟩
  · have hleave : (rules T).Outline i (Prog.modify fun s => s.goto i .idle) (At i .leaving)
        fun _ => At i .idle := move (stable_at _) fun s g hs => ⟨.leave s g hs, by simp [At]⟩
    dsimp only
    split
    · exact Rules.Outline.bind (M := fun _ => At i .leaving)
        (move (stable_at _) fun s g hs => ⟨.idle _, hs⟩) fun _ => hleave
    · exact hleave

end

theorem moves_sound (T : StartTokens) : (rules T).Sound (· = LockConfig.init) where
  initial := by
    rintro _ rfl
    exact ⟨trivial, fun i => ⟨rfl, .inl rfl⟩⟩
  restStable i := (stable_at .idle).or (stable_at .inside)
  starts i m p h _ _ _ := by
    cases h with
    | lock h => exact ⟨_, stable_at _, h, lock_outline.post fun _ _ _ hs => .inr hs⟩
    | unlock h => exact ⟨_, stable_at _, h, unlock_outline.post fun _ _ _ hs => .inl hs⟩
  guarInv _ _ _ _ _ _ _ := trivial
  envInv _ _ _ _ _ := trivial
  guarLive i j m m' h hl := by
    have hl : m'.1.alive i.pid = true := hl
    rwa [Move.alive h] at hl
  envLive i m m' := by
    rintro ⟨p, rfl⟩ hl
    exact State.alive_of_kill hl

/-- A step of a run: a thread of a live process moves, or a process dies. -/
theorem reach_move {ok : State × Ghost → State × Ghost → Prop} {c d : LockConfig}
    (h : (lockSystem T).Reach ok (· = LockConfig.init) c) (hs : (lockSystem T).Step c d) :
    (∃ i, c.mem.1.alive i.pid = true ∧ Move T i c.mem d.mem) ∨
      ∃ p, d.mem = (c.mem.1.kill p, c.mem.2) := by
  rcases (moves_sound T).step (h.mono fun _ _ _ => trivial) hs with ⟨i, hl, hm⟩ | he | he
  · exact .inl ⟨i, hl, hm⟩
  · exact .inr he
  · rw [he]
    -- a thread that starts an operation is alive
    cases hs with
    | start i p idle hl hp => exact .inl ⟨i, hl, .idle _⟩
    | act i p m hl hn => exact .inl ⟨i, hl, .idle _⟩
    | env m h => obtain ⟨p, hp⟩ := h; exact .inr ⟨p, he.symm.trans hp⟩

end TenzorBus.Futex
