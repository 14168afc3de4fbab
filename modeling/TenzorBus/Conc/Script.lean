import TenzorBus.Conc.System

/-!
# Scripts

A run that is written down: who starts what, who takes how many steps, what the environment does.
The function that plays a script can be evaluated, so that a concrete run is checked by computing
it.

* `System.Move` : one entry of a script
* `System.play` : the configuration that a script leads to
* `System.Reach.play` : it is reachable, if every step passes a check that implies the condition
* `System.advance` : one more step
-/

namespace TenzorBus.Conc

variable {ι σ γ : Type} [DecidableEq ι]

/-- At most `fuel` steps of a program, each of which passes the check. -/
def Prog.walk {α : Type} (chk : σ × γ → σ × γ → Bool) :
    Nat → Prog σ γ α → σ × γ → Option (Prog σ γ α × (σ × γ))
  | 0, p, m => some (p, m)
  | _ + 1, .ret a, m => some (.ret a, m)
  | fuel + 1, p, m => (p.next? m).bind fun r => if chk m r.2 then walk chk fuel r.1 r.2 else none

/-- What every step that passes the check keeps holds at the end. -/
theorem Prog.walk_keeps {α : Type} {chk : σ × γ → σ × γ → Bool}
    {motive : Prog σ γ α → σ × γ → Prop}
    (step : ∀ p q m m', motive p m → p.next? m = some (q, m') → chk m m' = true → motive q m') :
    ∀ (count : Nat) {p q : Prog σ γ α} {m m' : σ × γ}, motive p m →
      p.walk chk count m = some (q, m') → motive q m'
  | 0, _, _, _, _, h, hw => by cases hw; exact h
  | _ + 1, .ret _, _, _, _, h, hw => by cases hw; exact h
  | count + 1, .act .., _, _, _, h, hw | count + 1, .iter .., _, _, _, h, hw => by
    obtain ⟨r, hr, hw⟩ := Option.bind_eq_some_iff.mp hw
    obtain ⟨hc, hw⟩ := Option.ite_none_right_eq_some.mp hw
    exact walk_keeps step count (step _ _ _ _ h hr hc) hw

/-- The program has nothing left to do. -/
def Prog.isDone {α : Type} : Prog σ γ α → Bool
  | .ret _ => true
  | _ => false

/-- The result of a program that has come to its end. -/
def Prog.result? {α : Type} : Prog σ γ α → Option α
  | .ret a => some a
  | _ => none

theorem Prog.eq_ret_of_result? {α : Type} {p : Prog σ γ α} {a : α} (h : p.result? = some a) :
    p = .ret a := by
  cases p with
  | ret b => exact congrArg Prog.ret (Option.some.inj h)
  | act f aux k => cases h
  | iter body k => cases h

theorem Prog.eq_ret_of_isDone {p : Prog σ γ Unit} (h : p.isDone = true) : p = .ret () := by
  cases p with
  | ret a => rfl
  | act f aux k => cases h
  | iter body k => cases h

namespace System

variable (S : System ι σ γ)

/-- An entry of a script. -/
inductive Move (S : System ι σ γ)
  /-- `i` starts an operation. -/
  | start (i : ι) (p : σ → Option (Prog σ γ Unit))
      (legal : ∀ s q, p s = some q → S.starts i s q)
  /-- `i` takes this many steps, or as many as it has left. -/
  | steps (i : ι) (count : Nat)
  /-- The environment does something. -/
  | env (f : σ × γ → σ × γ) (legal : ∀ m, S.env m (f m))

variable {S} (live : ι → σ → Bool) (chk : σ × γ → σ × γ → Bool)

/-- What a move does. -/
def Move.apply (c : Config ι σ γ) : Move S → Option (Config ι σ γ)
  | .start i p _ =>
    if (c.pool i).isDone && live i c.mem.1 && chk c.mem c.mem then
      (p c.mem.1).map fun q => { c with pool := Function.update c.pool i q }
    else none
  | .steps i count =>
    ((c.pool i).walk (fun m m' => live i m.1 && chk m m') count c.mem).map fun r =>
      { mem := r.2, pool := Function.update c.pool i r.1 }
  | .env f _ => if chk c.mem (f c.mem) then some { c with mem := f c.mem } else none

/-- The configuration that a script leads to. -/
def play (moves : List (Move S)) (c : Config ι σ γ) : Option (Config ι σ γ) :=
  moves.foldlM (Move.apply live chk) c

/-- Only actors that may be busy have something left to do. -/
def Among (busy : ι → Bool) (c : Config ι σ γ) : Prop := ∀ i, busy i = false → c.pool i = .ret ()

/-- The move is one of an actor that may be busy, or of the environment. -/
def Move.within (busy : ι → Bool) : Move S → Bool
  | .start i _ _ => busy i
  | .steps i _ => busy i
  | .env _ _ => true

variable {live chk} {ok : σ × γ → σ × γ → Prop} {init : Config ι σ γ → Prop} {busy : ι → Bool}

theorem Among.update {m : σ × γ} {pool : ι → Prog σ γ Unit} {i : ι} {p : Prog σ γ Unit}
    {c : Config ι σ γ} (h : Among busy c) (hi : busy i = true) (hp : c.pool = pool) :
    Among busy { mem := m, pool := Function.update pool i p } := by
  intro j hj
  have hji : j ≠ i := by
    rintro rfl
    rw [hi] at hj
    cases hj
  rw [← hp]
  simpa [hji] using h j hj

/-- What changes is changed by the environment or by an actor that may be busy. -/
theorem Among.step {c d : Config ι σ γ} (h : Among busy c) (hs : S.Step c d) :
    d.mem = c.mem ∨ S.env c.mem d.mem ∨ ∃ i p, busy i = true ∧ S.live i c.mem.1 ∧
      (c.pool i).next? c.mem = some (p, d.mem) := by
  cases hs with
  | start i p idle live hp => exact .inl rfl
  | env m he => exact .inr (.inl he)
  | act i p m live hn =>
    refine .inr (.inr ⟨i, p, ?_, live, hn⟩)
    by_contra hb
    rw [h i (by simpa using hb)] at hn
    cases hn

/-- The steps of one actor. -/
theorem Reach.walk (hlive : ∀ i s, live i s = true → S.live i s)
    (hchk : ∀ c d, S.Reach ok init c → Among busy c → S.Step c d → chk c.mem d.mem = true →
      ok c.mem d.mem)
    (i : ι) (hi : busy i = true) (count : Nat) {p q : Prog σ γ Unit} {m m' : σ × γ}
    {pool : ι → Prog σ γ Unit} (h : S.Reach ok init { mem := m, pool := Function.update pool i p })
    (ha : Among busy { mem := m, pool := Function.update pool i p })
    (hw : p.walk (fun m m' => live i m.1 && chk m m') count m = some (q, m')) :
    S.Reach ok init { mem := m', pool := Function.update pool i q } := by
  refine (Prog.walk_keeps (motive := fun p m =>
    S.Reach ok init { mem := m, pool := Function.update pool i p } ∧
      Among busy { mem := m, pool := Function.update pool i p })
    (fun p q m m' h hn hc => ?_) count ⟨h, ha⟩ hw).1
  obtain ⟨h, ha⟩ := h
  rw [Bool.and_eq_true] at hc
  have hact := Step.act (c := { mem := m, pool := Function.update pool i p }) i q m'
    (hlive _ _ hc.1) (by simpa using hn)
  have hstep := h.step hact (hchk _ _ h ha hact hc.2)
  have hamong : Among busy
      { mem := m', pool := Function.update (Function.update pool i p) i q } := ha.update hi rfl
  rw [Function.update_idem] at hstep hamong
  exact ⟨hstep, hamong⟩

theorem Reach.apply (hlive : ∀ i s, live i s = true → S.live i s)
    (hchk : ∀ c d, S.Reach ok init c → Among busy c → S.Step c d → chk c.mem d.mem = true →
      ok c.mem d.mem)
    {move : Move S} (hb : move.within busy = true) {c d : Config ι σ γ} (h : S.Reach ok init c)
    (ha : Among busy c) (hm : move.apply live chk c = some d) :
    S.Reach ok init d ∧ Among busy d := by
  cases move with
  | start i p legal =>
    obtain ⟨hc, hm⟩ := Option.ite_none_right_eq_some.mp hm
    obtain ⟨q, hq, rfl⟩ := Option.map_eq_some_iff.mp hm
    simp only [Bool.and_eq_true] at hc
    have hstart := Step.start i q (Prog.eq_ret_of_isDone hc.1.1) (hlive _ _ hc.1.2) (legal _ _ hq)
    exact ⟨h.step hstart (hchk _ _ h ha hstart hc.2), ha.update hb rfl⟩
  | steps i count =>
    obtain ⟨r, hr, rfl⟩ := Option.map_eq_some_iff.mp hm
    have hsame : c = { mem := c.mem, pool := Function.update c.pool i (c.pool i) } := by
      rw [Function.update_eq_self]
    exact ⟨Reach.walk hlive hchk i hb count (hsame ▸ h) (hsame ▸ ha) hr, ha.update hb rfl⟩
  | env f legal =>
    obtain ⟨hc, hm⟩ := Option.ite_none_right_eq_some.mp hm
    cases hm
    have henv := Step.env _ (legal c.mem)
    exact ⟨h.step henv (hchk _ _ h ha henv hc), ha⟩

/-- Where a script leads is reachable, and what holds there is found by computing it. Whoever is
not in the script stays idle. -/
theorem Reach.playAmong (hlive : ∀ i s, live i s = true → S.live i s)
    (hchk : ∀ c d, S.Reach ok init c → Among busy c → S.Step c d → chk c.mem d.mem = true →
      ok c.mem d.mem)
    {test : Config ι σ γ → Bool} :
    ∀ (moves : List (Move S)), moves.all (Move.within busy) = true → ∀ {c : Config ι σ γ},
      S.Reach ok init c → Among busy c → (play live chk moves c).any test = true →
        ∃ d, S.Reach ok init d ∧ Among busy d ∧ test d = true
  | [], _, c, h, ha, ht => ⟨c, h, ha, by simpa [System.play] using ht⟩
  | move :: moves, hb, c, h, ha, ht => by
    rw [System.play, List.foldlM_cons] at ht
    rw [List.all_cons, Bool.and_eq_true] at hb
    cases hm : move.apply live chk c with
    | none => rw [hm] at ht; cases ht
    | some d =>
      rw [hm] at ht
      obtain ⟨hd, had⟩ := Reach.apply hlive hchk hb.1 h ha hm
      exact Reach.playAmong hlive hchk moves hb.2 hd had ht

theorem Reach.play (hlive : ∀ i s, live i s = true → S.live i s)
    (hchk : ∀ m m', chk m m' = true → ok m m') {test : Config ι σ γ → Bool}
    (moves : List (Move S)) {c : Config ι σ γ} (h : S.Reach ok init c)
    (ht : (play live chk moves c).any test = true) : ∃ d, S.Reach ok init d ∧ test d = true := by
  have hb : moves.all (Move.within fun _ => true) = true := by
    rw [List.all_eq_true]
    intro move _
    cases move <;> rfl
  obtain ⟨d, hd, -, htest⟩ := Reach.playAmong hlive
    (fun c d _ _ _ hc => hchk c.mem d.mem hc) moves hb h (fun _ hi => nomatch hi) ht
  exact ⟨d, hd, htest⟩

/-- The next step of actor `i`. -/
def advance (live : ι → σ → Bool) (i : ι) (c : Config ι σ γ) : Option (Config ι σ γ) :=
  if live i c.mem.1 then
    ((c.pool i).next? c.mem).map fun r => { mem := r.2, pool := Function.update c.pool i r.1 }
  else none

theorem step_of_advance (hlive : ∀ i s, live i s = true → S.live i s) {i : ι}
    {c d : Config ι σ γ} (h : advance live i c = some d) : S.Step c d := by
  unfold advance at h
  obtain ⟨hl, h⟩ := Option.ite_none_right_eq_some.mp h
  obtain ⟨r, hr, rfl⟩ := Option.map_eq_some_iff.mp h
  exact .act i r.1 r.2 (hlive _ _ hl) hr

end System

end TenzorBus.Conc
