import TenzorBus.Futex.Moves

/-!
# Mutual exclusion

The lock is exclusive as long as it is taken over from dead processes only. A waiter decides that
from three loads, between which the lock may change hands.

* `Exclusive` : the invariant, who has the lock and what the words say of it
* `exclusive_of_takesFromDead` : one live thread at a time, if every takeover is from a dead owner
* `exclusive_of_sincere` : the same, if no waiter mixes up two owners
* `stolen`, `recovered_twice` : runs in which two live threads have the lock
-/

namespace TenzorBus.Futex

open Conc

variable {T : StartTokens} {i j : Thread} {m m' : State × Ghost} {c : LockConfig}

/-- The thread is between the return of `lock` and its `unlock`. -/
def Inside (i : Thread) (m : State × Ghost) : Prop := m.1.phase i = .inside

/-! ## conditions on a step -/

/-- Nobody dies between entering `lock` and leaving `unlock`. -/
def NoDeathInside (m m' : State × Ghost) : Prop :=
  ∀ p, m'.1.dead = p :: m.1.dead → ∀ i : Thread, i.pid = p → m.1.phase i = .idle

/-- A liveness check is asked about a live process and its own start token, or no token: the lock
has not changed hands since the waiter loaded the owner. -/
def Sincere (T : StartTokens) (m m' : State × Ghost) : Prop :=
  ∀ x, m'.2.checks = x :: m.2.checks →
    m.1.alive x.holder = true ∧ (x.token = 0 ∨ x.token = T.token x.holder)

/-- Whoever takes the lock over stores its pid over the one of a dead process. -/
def TakesFromDead (m m' : State × Ghost) : Prop :=
  ∀ p, m'.2.takeovers = p :: m.2.takeovers → p ≠ 0 ∧ m.1.alive p = false

/-! ## the invariant -/

/-- The word is free exactly if nobody has the lock. The owner word names the thread that has it,
unless that thread is about to store its pid or has cleared it. Nobody else who is alive has taken
the lock and not released it. -/
structure Exclusive (m : State × Ghost) : Prop where
  free : m.1.word = unlocked ↔ m.2.holder = none
  noOwner : m.2.holder = none → m.1.owner = 0
  held : ∀ i, m.2.holder = some i → (m.1.phase i).engaged = true ∧
    m.1.owner = if m.1.phase i = .taken ∨ m.1.phase i = .clearing then 0 else i.pid
  live : ∀ i, m.1.alive i.pid = true → (m.1.phase i).engaged = true → m.2.holder = some i

theorem exclusive_init : Exclusive LockConfig.init.mem where
  free := ⟨fun _ => rfl, fun _ => rfl⟩
  noOwner _ := rfl
  held _ h := nomatch h
  live _ _ h := nomatch h

namespace Exclusive

/-- Only the thread that has the lock moves on with it. -/
theorem proceed (h : Exclusive m) (ph : Phase) {s : State} (hi : m.2.holder = some i)
    (hw : s.word ≠ unlocked) (hph : ph.engaged = true) (hd : s.dead = m.1.dead)
    (hp : s.phase = Function.update m.1.phase i ph)
    (ho : s.owner = if ph = .taken ∨ ph = .clearing then 0 else i.pid) : Exclusive (s, m.2) where
  free := by simp [hw, hi]
  noOwner hn := by rw [hi] at hn; cases hn
  held j hj := by
    obtain rfl := Option.some.inj (hi.symm.trans hj)
    simp [hp, hph, ho]
  live j hl he := by
    by_cases hj : j = i
    · exact hj ▸ hi
    · exact h.live j (by simpa [State.alive, hd] using hl) (by simpa [hp, hj] using he)

/-- The threads without the lock go where they like. -/
theorem stroll (h : Exclusive m) {ph : Phase} (hi : (m.1.phase i).engaged = false)
    (hph : ph.engaged = false) : Exclusive (m.1.goto i ph, m.2) where
  free := h.free
  noOwner := h.noOwner
  held j hj := by
    have hji : j ≠ i := fun e => by
      have := (h.held j hj).1
      rw [e, hi] at this
      cases this
    simpa [hji, State.goto] using h.held j hj
  live j hl he := by
    by_cases hj : j = i
    · subst hj; simp [hph] at he
    · exact h.live j hl (by simpa [hj] using he)

/-- A thread gets the lock, when nobody alive has it. -/
theorem acquire (ph : Phase) {s : State} {g : Ghost}
    (hnone : ∀ j, m.1.alive j.pid = true → (m.1.phase j).engaged = false)
    (hg : g.holder = some i) (hw : s.word ≠ unlocked) (hph : ph.engaged = true)
    (hd : s.dead = m.1.dead) (hp : s.phase = Function.update m.1.phase i ph)
    (ho : s.owner = if ph = .taken ∨ ph = .clearing then 0 else i.pid) : Exclusive (s, g) where
  free := by simp [hw, hg]
  noOwner hn := by rw [hg] at hn; cases hn
  held j hj := by
    obtain rfl := Option.some.inj (hg.symm.trans hj)
    simp [hp, hph, ho]
  live j hl he := by
    by_cases hj : j = i
    · exact hj ▸ hg
    · have := hnone j (by simpa [State.alive, hd] using hl)
      simp [hp, hj, this] at he

theorem step (h : Exclusive m) (hl : m.1.alive i.pid = true) (hm : Move T i m m')
    (htake : TakesFromDead m m') : Exclusive m' := by
  -- a thread that moves on with the lock has it
  have own : ∀ {ph}, m.1.phase i = ph → ph.engaged = true → m.2.holder = some i := fun hp he =>
    h.live i hl (by rw [hp]; exact he)
  have taken : m.2.holder = some i → m.1.word ≠ unlocked := fun hi hw => by
    rw [h.free.mp hw] at hi; cases hi
  have word : ∀ {ph}, m.1.phase i = ph → ph.engaged = true → m.1.word ≠ unlocked := fun hp he =>
    taken (own hp he)
  cases hm with
  | idle => exact h
  | wait s g phase => exact h.stroll (by rw [phase]; rfl) rfl
  | take s g w phase free hw =>
    have hn : g.holder = none := h.free.mp free
    refine acquire (m := (s, g)) _ (fun j hj => ?_) rfl hw rfl rfl rfl (h.noOwner hn)
    by_contra he
    have := h.live j hj (by simpa using he)
    simp [hn] at this
  | contend s g htaken =>
    exact {
      free := ⟨fun hc => absurd (show contended = unlocked from hc) (by decide),
        fun hn => absurd (h.free.mpr hn) htaken⟩
      noOwner := h.noOwner
      held := h.held
      live := h.live }
  | record s g phase =>
    exact h.proceed .recorded (own phase rfl) (word phase rfl) rfl rfl rfl rfl
  | enter s g phase =>
    have ho := (h.held i (own phase rfl)).2
    rw [show s.phase i = .recorded from phase] at ho
    exact h.proceed .inside (own phase rfl) (word phase rfl) rfl rfl rfl ho
  | check s g holder token => exact { h with }
  | takeOver s g phase dead =>
    obtain ⟨hne, hdead⟩ := htake s.owner rfl
    -- the owner word is not empty, so that it names whoever has the lock
    obtain ⟨k, hk⟩ : ∃ k, g.holder = some k := Option.ne_none_iff_exists'.mp fun hn =>
      hne (h.noOwner hn)
    have ho : s.owner = k.pid := by
      have := (h.held k hk).2
      split at this
      · exact absurd this hne
      · exact this
    refine acquire (m := (s, g)) .recovering (fun j hj => ?_) rfl (fun hw => ?_) rfl rfl rfl rfl
    · by_contra he
      have hj' := h.live j hj (by simpa using he)
      rw [Option.some.inj (hk.symm.trans hj')] at ho
      rw [ho] at hdead
      exact absurd hj (by simp [hdead])
    · rw [h.free.mp hw] at hk; cases hk
  | token s g phase => exact { h with }
  | restore s g phase =>
    have ho := (h.held i (own phase rfl)).2
    rw [show s.phase i = .recovering from phase] at ho
    exact h.proceed .inside (s := { s with word := contended }.goto i .inside) (own phase rfl)
      (show contended ≠ unlocked by decide) rfl rfl rfl ho
  | clear s g phase =>
    exact h.proceed .clearing (own phase rfl) (word phase rfl) rfl rfl rfl rfl
  | erase s g phase => exact { h with }
  | release s g phase =>
    have hi := own phase rfl
    have ho := (h.held i hi).2
    rw [show s.phase i = .clearing from phase] at ho
    exact {
      free := ⟨fun _ => rfl, fun _ => rfl⟩
      noOwner := fun _ => ho
      held := nofun
      live := fun j hj he => by
        by_cases hji : j = i
        · subst hji; simp [Phase.engaged] at he
        · have := h.live j hj (by simpa [hji] using he)
          exact absurd (Option.some.inj (this.symm.trans hi)) hji }
  | leave s g phase => exact h.stroll (by rw [phase]; rfl) rfl

theorem kill (h : Exclusive m) (p : UInt32) : Exclusive (m.1.kill p, m.2) :=
  { h with live := fun i hl => h.live i (State.alive_of_kill hl) }

/-- No two live threads have the lock. -/
theorem unique (h : Exclusive m) (hi : Inside i m) (hj : Inside j m)
    (hli : m.1.alive i.pid = true) (hlj : m.1.alive j.pid = true) : i = j := by
  have hi' := h.live i hli (by rw [hi]; rfl)
  have hj' := h.live j hlj (by rw [hj]; rfl)
  exact Option.some.inj (hi'.symm.trans hj')

end Exclusive

/-! ## runs -/

theorem exclusive_of_reach (h : (lockSystem T).Reach TakesFromDead (· = LockConfig.init) c) :
    Exclusive c.mem := by
  induction h with
  | init h => rw [h]; exact exclusive_init
  | step hr hs hok ih =>
    rcases reach_move hr hs with ⟨i, hl, hm⟩ | ⟨p, he⟩
    · exact ih.step hl hm hok
    · rw [he]; exact ih.kill p

/-- Whatever dies wherever: if every takeover is from a process that is dead, then no two live
threads have the lock. -/
theorem exclusive_of_takesFromDead
    (h : (lockSystem T).Reach TakesFromDead (· = LockConfig.init) c) (hi : Inside i c.mem)
    (hj : Inside j c.mem) (hli : c.mem.1.alive i.pid = true) (hlj : c.mem.1.alive j.pid = true) :
    i = j :=
  (exclusive_of_reach h).unique hi hj hli hlj

/-- A takeover follows a check that has found somebody dead. -/
theorem Move.takeovers (h : Move T i m m') {p : UInt32}
    (hp : m'.2.takeovers = p :: m.2.takeovers) : ∃ x ∈ m.2.checks, x.alive = false := by
  cases h with
  | takeOver s g phase dead => exact dead
  | _ => exact absurd hp.symm (List.cons_ne_self _ _)

/-- A sincere check finds nobody dead. -/
theorem Move.sincere (h : Move T i m m') (hs : Sincere T m m')
    (hall : ∀ x ∈ m.2.checks, x.alive = true) : ∀ x ∈ m'.2.checks, x.alive = true := by
  cases h with
  | check s g holder token =>
    rintro x (_ | ⟨_, hx⟩)
    · obtain ⟨hl, ht⟩ := hs _ rfl
      have hne : holder ≠ 0 := fun e => by simp [e, State.alive] at hl
      rcases ht with ht | ht <;> simp_all [pidAliveWithToken]
    · exact hall x hx
  | _ => exact hall

/-- In a run in which every check is sincere none has found anybody dead, and nobody has taken the
lock over. -/
theorem takesFromDead_of_sincere {ok : State × Ghost → State × Ghost → Prop}
    (hok : ∀ m m', ok m m' → Sincere T m m')
    (h : (lockSystem T).Reach ok (· = LockConfig.init) c) :
    (lockSystem T).Reach TakesFromDead (· = LockConfig.init) c ∧
      ∀ x ∈ c.mem.2.checks, x.alive = true := by
  induction h with
  | init h => exact ⟨.init h, by rw [h]; exact nofun⟩
  | @step c d hr hs hk ih =>
    obtain ⟨hr', hall⟩ := ih
    rcases reach_move hr hs with ⟨i, hl, hm⟩ | ⟨p, he⟩
    · refine ⟨hr'.step hs fun p hp => ?_, hm.sincere (hok _ _ hk) hall⟩
      obtain ⟨x, hx, hd⟩ := hm.takeovers hp
      rw [hall x hx] at hd
      cases hd
    · refine ⟨hr'.step hs fun q hq => ?_, ?_⟩
      · rw [he] at hq
        exact absurd hq.symm (List.cons_ne_self _ _)
      · rw [he]; exact hall

/-- As long as nobody dies on the way, whoever is on its way is alive. -/
theorem alive_of_noDeathInside {ok : State × Ghost → State × Ghost → Prop}
    (hok : ∀ m m', ok m m' → NoDeathInside m m')
    (h : (lockSystem T).Reach ok (· = LockConfig.init) c) (hi : c.mem.1.phase i ≠ .idle) :
    c.mem.1.alive i.pid = true := by
  induction h with
  | init h => rw [h] at hi; exact absurd rfl hi
  | @step c d hr hs hk ih =>
    rcases reach_move hr hs with ⟨j, hl, hm⟩ | ⟨p, he⟩
    · rw [hm.alive]
      by_cases hij : i = j
      · exact hij ▸ hl
      · exact ih (by rwa [hm.phase hij] at hi)
    · rw [he] at hi ⊢
      have hp : i.pid ≠ p := fun e => hi (hok _ _ hk p (by rw [he]; rfl) i e)
      simpa [State.alive, State.kill, hp] using ih hi

/-- Nobody dies between entering `lock` and leaving `unlock`, and every waiter asks the liveness
check about one and the same live owner: then no two threads have the lock. -/
theorem exclusive_of_sincere
    (h : (lockSystem T).Reach (fun m m' => NoDeathInside m m' ∧ Sincere T m m')
      (· = LockConfig.init) c)
    (hi : Inside i c.mem) (hj : Inside j c.mem) : i = j := by
  have hlive : ∀ {k}, Inside k c.mem → c.mem.1.alive k.pid = true := fun hk =>
    alive_of_noDeathInside (fun _ _ ho => ho.1) h (by rw [hk]; nofun)
  exact (exclusive_of_reach (takesFromDead_of_sincere (fun _ _ ho => ho.2) h).1).unique hi hj
    (hlive hi) (hlive hj)

/-! ## concrete runs -/

namespace Script

/-- Every process has its own pid for a start token. -/
def tokens : StartTokens := { token := id, distinct := Function.injective_id }

/-- The only thread of a process. -/
def thread (p : UInt32) : Thread := { pid := p, id := 0 }

def enter (p : UInt32) : System.Move (lockSystem tokens) :=
  .start (thread p)
    (fun s => if s.phase (thread p) = .idle then some (lock tokens (thread p)) else none)
    fun s q hq => by
      obtain ⟨hp, hq⟩ := Option.ite_none_right_eq_some.mp hq
      cases hq
      exact .lock _ hp

def leave (p : UInt32) : System.Move (lockSystem tokens) :=
  .start (thread p)
    (fun s => if s.phase (thread p) = .inside then some (unlock (thread p)) else none)
    fun s q hq => by
      obtain ⟨hp, hq⟩ := Option.ite_none_right_eq_some.mp hq
      cases hq
      exact .unlock _ hp

def steps (p : UInt32) (count : Nat) : System.Move (lockSystem tokens) := .steps (thread p) count

def die (p : UInt32) : System.Move (lockSystem tokens) :=
  .env (fun m => (m.1.kill p, m.2)) fun _ => ⟨p, rfl⟩

/-- The thread of a live process runs. -/
def alive (i : Thread) (s : State) : Bool := s.alive i.pid

/-- Nobody dies. -/
def undying (m m' : State × Ghost) : Bool := m'.1.dead == m.1.dead

theorem noDeath_of_undying {m m' : State × Ghost} (h : undying m m' = true) :
    NoDeathInside m m' := fun p hp => by
  rw [beq_iff_eq.mp h] at hp
  exact absurd hp.symm (List.cons_ne_self _ _)

/-- Where a script leads. -/
theorem reach (ok : State × Ghost → State × Ghost → Prop)
    (chk : State × Ghost → State × Ghost → Bool) (hchk : ∀ m m', chk m m' = true → ok m m')
    (moves : List (System.Move (lockSystem tokens))) (test : LockConfig → Bool)
    (h : (System.play alive chk moves LockConfig.init).any test = true) :
    ∃ d, (lockSystem tokens).Reach ok (· = LockConfig.init) d ∧ test d = true :=
  System.Reach.play (fun _ _ h => h) hchk moves (.init rfl) h

end Script

open Script in
/-- A thread has the lock, and a thread of another process waits for it and asks whether the owner
is alive. The answer is yes, and the waiter gets the lock when it is released. -/
theorem exclusive_of_sincere_handover : ∃ c,
    (lockSystem tokens).Reach (fun m m' => NoDeathInside m m' ∧ Sincere tokens m m')
      (· = LockConfig.init) c ∧
        c.mem.2.checks = [{ holder := 1, token := 1, alive := true }] ∧
          Inside (thread 2) c.mem ∧ ∀ i, Inside i c.mem → i = thread 2 := by
  obtain ⟨c, hc, ht⟩ := Script.reach
    (fun m m' => NoDeathInside m m' ∧ Sincere tokens m m')
    (fun m m' => undying m m' && (m'.2.checks.length == m.2.checks.length ||
      m'.2.checks.all fun x =>
        m.1.alive x.holder && (x.token == 0 || x.token == tokens.token x.holder)))
    (fun m m' h => by
      rw [Bool.and_eq_true] at h
      refine ⟨noDeath_of_undying h.1, fun x hx => ?_⟩
      rcases Bool.or_eq_true_iff.mp h.2 with h | h
      · rw [hx] at h; simp at h
      · rw [hx, List.all_cons, Bool.and_eq_true] at h
        simpa using h.1)
    [enter 1, steps 1 9, enter 2, steps 2 10, leave 1, steps 1 9, steps 2 20]
    (fun d => decide (d.mem.1.phase (thread 2) = .inside) &&
      decide (d.mem.2.checks = [{ holder := 1, token := 1, alive := true }])) (by decide +kernel)
  simp only [Bool.and_eq_true, decide_eq_true_eq] at ht
  exact ⟨c, hc, ht.2, ht.1, fun i hi => exclusive_of_sincere hc hi ht.1⟩

open Script in
/-- A waiter loads the pid of one owner and the start token of the next one. -/
theorem stolen : ∃ c i j,
    (lockSystem tokens).Reach NoDeathInside (· = LockConfig.init) c ∧
      Inside i c.mem ∧ Inside j c.mem ∧ i.pid ≠ j.pid := by
  obtain ⟨c, hc, ht⟩ := Script.reach NoDeathInside undying
    (fun _ _ => noDeath_of_undying)
    [enter 1, steps 1 9,
      -- the third process finds the lock taken, waits, and loads the owner
      enter 3, steps 3 6,
      leave 1, steps 1 9, enter 2, steps 2 9,
      steps 3 9]
    (fun d => decide (d.mem.1.phase (thread 2) = .inside) &&
      decide (d.mem.1.phase (thread 3) = .inside)) (by decide +kernel)
  simp only [Bool.and_eq_true, decide_eq_true_eq] at ht
  exact ⟨c, thread 2, thread 3, hc, ht.1, ht.2, by decide⟩

/-- The process that has the lock dies with its pid and start token recorded. -/
def DiesInside (T : StartTokens) (m m' : State × Ghost) : Prop :=
  ∀ p, m'.1.dead = p :: m.1.dead → (∃ i : Thread, i.pid = p ∧ m.1.phase i = .inside) ∧
    m.1.owner = p ∧ m.1.ownerToken = T.token p

open Script in
/-- The process that has the lock dies, and a waiter takes the lock over. -/
theorem exclusive_of_takesFromDead_recovery : ∃ c,
    (lockSystem tokens).Reach TakesFromDead (· = LockConfig.init) c ∧
      c.mem.1.alive 1 = false ∧ Inside (thread 2) c.mem ∧
        ∀ i, c.mem.1.alive i.pid = true → Inside i c.mem → i = thread 2 := by
  obtain ⟨c, hc, ht⟩ := Script.reach TakesFromDead
    (fun m m' => m'.2.takeovers.length == m.2.takeovers.length ||
      m'.2.takeovers.all fun p => decide (p ≠ 0) && !m.1.alive p)
    (fun m m' h p hp => by
      rcases Bool.or_eq_true_iff.mp h with h | h
      · rw [hp] at h; simp at h
      · rw [hp, List.all_cons, Bool.and_eq_true, Bool.and_eq_true] at h
        exact ⟨of_decide_eq_true h.1.1, by simpa using h.1.2⟩)
    [enter 1, steps 1 9, enter 2, steps 2 5, die 1, steps 2 20]
    (fun d => !d.mem.1.alive 1 && decide (d.mem.1.phase (thread 2) = .inside) &&
      d.mem.1.alive 2) (by decide +kernel)
  simp only [Bool.and_eq_true, Bool.not_eq_true', decide_eq_true_eq] at ht
  exact ⟨c, hc, ht.1.1, ht.1.2, fun i hl hi =>
    exclusive_of_takesFromDead hc hi ht.1.2 hl ht.2⟩

open Script in
/-- Two waiters find the owner dead, and both take the lock over. -/
theorem recovered_twice : ∃ c i j,
    (lockSystem tokens).Reach (DiesInside tokens) (· = LockConfig.init) c ∧
      Inside i c.mem ∧ Inside j c.mem ∧ c.mem.1.alive i.pid = true ∧ c.mem.1.alive j.pid = true ∧
        i.pid ≠ j.pid := by
  obtain ⟨c, hc, ht⟩ := Script.reach (DiesInside tokens)
    (fun m m' => undying m m' || (m'.1.dead == 1 :: m.1.dead &&
      decide (m.1.phase (thread 1) = .inside ∧ m.1.owner = 1 ∧ m.1.ownerToken = 1)))
    (fun m m' h p hp => by
      rcases Bool.or_eq_true_iff.mp h with h | h
      · rw [beq_iff_eq.mp h] at hp
        exact absurd hp.symm (List.cons_ne_self _ _)
      · simp only [Bool.and_eq_true, beq_iff_eq, decide_eq_true_eq] at h
        obtain rfl := (List.cons.inj (h.1.symm.trans hp)).1
        exact ⟨⟨thread 1, rfl, h.2.1⟩, h.2.2⟩)
    [enter 1, steps 1 9, enter 2, steps 2 5, enter 3, steps 3 5, die 1,
      -- both have loaded the owner and its token and find it dead
      steps 2 3, steps 3 3, steps 2 9, steps 3 9]
    (fun d => decide (d.mem.1.phase (thread 2) = .inside) &&
      decide (d.mem.1.phase (thread 3) = .inside) && d.mem.1.alive 2 && d.mem.1.alive 3)
    (by decide +kernel)
  simp only [Bool.and_eq_true, decide_eq_true_eq] at ht
  exact ⟨c, thread 2, thread 3, hc, ht.1.1.1, ht.1.1.2, ht.1.2, ht.2, by decide⟩

end TenzorBus.Futex
