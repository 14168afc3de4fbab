import TenzorBus.Conc.Acts
import Mathlib.Logic.Relation

/-!
# Outcomes of programs, and programs that cannot be told apart

One program run to its end, with steps of an environment in between wherever they come. Two
programs are the same if they have the same outcomes from every memory of a kind.

* `Prog.Outcome` : a run to the end
* `Rounds` : the rounds of a loop
* `Keeps` : a program does not leave a condition
* `Same` : the same outcomes, wherever a condition holds
* `Straight` : a program that only stores, and what it stores
-/

namespace TenzorBus.Conc

variable {σ γ α β δ : Type}

/-- The program ends with this result in the second memory if it begins in the first one and the
environment takes steps of `E` in between. -/
inductive Prog.Outcome (E : σ × γ → σ × γ → Prop) :
    {α : Type} → Prog σ γ α → σ × γ → α → σ × γ → Prop
  | ret {α : Type} (a : α) (m : σ × γ) : Outcome E (.ret a) m a m
  | act {α β : Type} {f : σ → Option (β × σ)} {aux : β → σ → γ → γ} {k : β → Prog σ γ α} {s : σ}
      {g : γ} {b : β} {s' : σ} {a : α} {m : σ × γ} (hf : f s = some (b, s'))
      (h : Outcome E (k b) (s', aux b s g) a m) : Outcome E (.act f aux k) (s, g) a m
  | iter {α β : Type} {body : Prog σ γ (Option β)} {k : β → Prog σ γ α} {m m' : σ × γ} {a : α}
      (h : Outcome E (body.bind (Prog.again body k)) m a m') : Outcome E (.iter body k) m a m'
  | env {α : Type} {p : Prog σ γ α} {m m₁ m' : σ × γ} {a : α} (he : E m m₁)
      (h : Outcome E p m₁ a m') : Outcome E p m a m'

namespace Prog.Outcome

variable {E : σ × γ → σ × γ → Prop} {m m₁ m₂ m' : σ × γ}

/-- The environment may go on when the program has ended. -/
theorem snoc {p : Prog σ γ α} {a : α} (h : Outcome E p m a m₁) (he : E m₁ m₂) :
    Outcome E p m a m₂ := by
  induction h with
  | ret a m => exact .env he (.ret a _)
  | act hf h ih => exact .act hf (ih he)
  | iter h ih => exact .iter (ih he)
  | env he' h ih => exact .env he' (ih he)

theorem bind {p : Prog σ γ α} {q : α → Prog σ γ β} {a : α} {b : β} (hp : Outcome E p m a m₁)
    (hq : Outcome E (q a) m₁ b m₂) : Outcome E (p.bind q) m b m₂ := by
  induction hp with
  | ret a m => exact hq
  | act hf h ih => exact .act hf (ih hq)
  | @iter β' body k m m' a h ih =>
    have := ih hq
    rw [Prog.bind_assoc, Prog.again_bind] at this
    exact .iter this
  | env he h ih => exact .env he (ih hq)

/-- A run of two programs one after the other is a run of each. -/
theorem split {r : Prog σ γ β} {b : β} (h : Outcome E r m b m') :
    ∀ {α : Type} (p : Prog σ γ α) (q : α → Prog σ γ β), r = p.bind q →
      ∃ a m₁, Outcome E p m a m₁ ∧ Outcome E (q a) m₁ b m' := by
  induction h with
  | ret b m =>
    intro α p q hr
    cases p with
    | ret a => exact ⟨a, m, .ret a m, by rw [show q a = _ from hr.symm]; exact .ret b m⟩
    | act f aux k => cases hr
    | iter body k => cases hr
  | @act β' f aux k s g d s' b m hf h ih =>
    intro α p q hr
    cases p with
    | ret a => exact ⟨a, (s, g), .ret a _, by rw [show q a = _ from hr.symm]; exact .act hf h⟩
    | act f' aux' k' =>
      cases hr
      obtain ⟨a, m₁, h₁, h₂⟩ := ih (k' d) q rfl
      exact ⟨a, m₁, .act hf h₁, h₂⟩
    | iter body k' => cases hr
  | @iter β' body k m m' b h ih =>
    intro α p q hr
    cases p with
    | ret a => exact ⟨a, m, .ret a _, by rw [show q a = _ from hr.symm]; exact .iter h⟩
    | act f' aux' k' => cases hr
    | iter body' k' =>
      cases hr
      obtain ⟨a, m₁, h₁, h₂⟩ := ih (body.bind (Prog.again body k')) q (by
        rw [Prog.bind_assoc, Prog.again_bind])
      exact ⟨a, m₁, .iter h₁, h₂⟩
  | env he h ih =>
    intro α p q hr
    obtain ⟨a, m₁, h₁, h₂⟩ := ih p q hr
    exact ⟨a, m₁, .env he h₁, h₂⟩

theorem bind_iff {p : Prog σ γ α} {q : α → Prog σ γ β} {b : β} :
    Outcome E (p.bind q) m b m' ↔ ∃ a m₁, Outcome E p m a m₁ ∧ Outcome E (q a) m₁ b m' :=
  ⟨fun h => h.split p q rfl, fun ⟨_, _, h₁, h₂⟩ => h₁.bind h₂⟩

/-- A loop begins with a round of its body. -/
theorem iter_iff {body : Prog σ γ (Option β)} {k : β → Prog σ γ α} {a : α} :
    Outcome E (.iter body k) m a m' ↔ Outcome E (body.bind (Prog.again body k)) m a m' := by
  refine ⟨fun h => ?_, .iter⟩
  generalize hr : Prog.iter body k = r at h
  induction h with
  | ret a m => cases hr
  | act hf h ih => cases hr
  | iter h ih => cases hr; exact h
  | env he h ih => exact .env he (ih hr)

theorem ret_iff {a b : α} :
    Outcome E (.ret a) m b m' ↔ b = a ∧ Relation.ReflTransGen E m m' := by
  constructor
  · intro h
    generalize hr : Prog.ret a = r at h
    induction h with
    | ret b m => cases hr; exact ⟨rfl, .refl⟩
    | act hf h ih => cases hr
    | iter h ih => cases hr
    | env he h ih => exact ⟨(ih hr).1, .head he (ih hr).2⟩
  · rintro ⟨rfl, h⟩
    induction h with
    | refl => exact .ret _ _
    | tail _ he ih => exact ih.snoc he

theorem snocs {p : Prog σ γ α} {a : α} (h : Outcome E p m a m₁)
    (he : Relation.ReflTransGen E m₁ m₂) : Outcome E p m a m₂ := by
  induction he with
  | refl => exact h
  | tail _ he ih => exact ih.snoc he

theorem envs {p : Prog σ γ α} {a : α} (he : Relation.ReflTransGen E m m₁)
    (h : Outcome E p m₁ a m₂) : Outcome E p m a m₂ := by
  induction he using Relation.ReflTransGen.head_induction_on with
  | refl => exact h
  | head he _ ih => exact .env he ih

theorem act_iff {f : σ → Option (β × σ)} {aux : β → σ → γ → γ} {k : β → Prog σ γ α} {a : α} :
    Outcome E (.act f aux k) m a m' ↔ ∃ m₁ b s, Relation.ReflTransGen E m m₁ ∧
      f m₁.1 = some (b, s) ∧ Outcome E (k b) (s, aux b m₁.1 m₁.2) a m' := by
  constructor
  · intro h
    generalize hr : Prog.act f aux k = r at h
    induction h with
    | ret a m => cases hr
    | act hf h ih => cases hr; exact ⟨_, _, _, .refl, hf, h⟩
    | iter h ih => cases hr
    | env he h ih =>
      obtain ⟨m₁, b, s, hm, hf, hk⟩ := ih hr
      exact ⟨m₁, b, s, .head he hm, hf, hk⟩
  · rintro ⟨m₁, b, s, hm, hf, hk⟩
    exact envs hm (.act hf hk)

end Prog.Outcome

/-! ## loops -/

/-- Rounds without an answer, and one that has an answer. -/
inductive Rounds (R : σ × γ → Option β → σ × γ → Prop) : σ × γ → β → σ × γ → Prop
  | last {m m' : σ × γ} {b : β} (h : R m (some b) m') : Rounds R m b m'
  | more {m m₁ m' : σ × γ} {b : β} (h : R m none m₁) (ht : Rounds R m₁ b m') : Rounds R m b m'

section

variable {E : σ × γ → σ × γ → Prop} {m m₁ m₂ m' : σ × γ}

/-- What follows a round of a loop. -/
def After (E : σ × γ → σ × γ → Prop) (body : Prog σ γ (Option β)) (k : β → Prog σ γ α) (a : α)
    (m' : σ × γ) : Option β → σ × γ → Prop
  | some b, m => (k b).Outcome E m a m'
  | none, m => ∃ b m₂, Rounds (body.Outcome E) m b m₂ ∧ (k b).Outcome E m₂ a m'

theorem Prog.Outcome.rounds {r : Prog σ γ α} {a : α} (h : r.Outcome E m a m') :
    ∀ {β : Type} (body : Prog σ γ (Option β)) (k : β → Prog σ γ α) (q : Prog σ γ (Option β)),
      r = q.bind (Prog.again body k) →
        ∃ x m₁, q.Outcome E m x m₁ ∧ After E body k a m' x m₁ := by
  induction h with
  | ret a m =>
    intro β body k q hr
    match q with
    | .ret (some b) => exact ⟨_, m, .ret _ m, by rw [After, ← show _ = k b from hr]; exact .ret a m⟩
    | .ret none => cases hr
    | .act .. => cases hr
    | .iter .. => cases hr
  | @act β' f aux k' s g d s' a m hf h ih =>
    intro β body k q hr
    match q with
    | .ret (some b) =>
      exact ⟨_, _, .ret _ _, by rw [After, ← show _ = k b from hr]; exact .act hf h⟩
    | .ret none => cases hr
    | .act f aux k'' =>
      cases hr
      obtain ⟨x, m₁, hx, ha⟩ := ih body k (k'' d) rfl
      exact ⟨x, m₁, .act hf hx, ha⟩
    | .iter .. => cases hr
  | @iter β' body' k' m m' a h ih =>
    intro β body k q hr
    match q with
    | .ret (some b) =>
      exact ⟨_, _, .ret _ _, by rw [After, ← show _ = k b from hr]; exact .iter h⟩
    | .ret none =>
      cases hr
      obtain ⟨x, m₁, hx, ha⟩ := ih body' k' body' rfl
      refine ⟨none, m, .ret none m, ?_⟩
      match x with
      | some b => exact ⟨b, m₁, .last hx, ha⟩
      | none =>
        obtain ⟨b, m₂, hr, hk⟩ := ha
        exact ⟨b, m₂, .more hx hr, hk⟩
    | .act .. => cases hr
    | .iter body'' k'' =>
      cases hr
      obtain ⟨x, m₁, hx, ha⟩ := ih body k (body'.bind (Prog.again body' k'')) (by
        rw [Prog.bind_assoc, Prog.again_bind])
      exact ⟨x, m₁, .iter hx, ha⟩
  | env he h ih =>
    intro β body k q hr
    obtain ⟨x, m₁, hx, ha⟩ := ih body k q hr
    exact ⟨x, m₁, .env he hx, ha⟩

/-- A loop and what comes after it. -/
theorem outcome_iter {body : Prog σ γ (Option β)} {k : β → Prog σ γ α} {a : α} :
    (Prog.iter body k).Outcome E m a m' ↔
      ∃ b m₁, Rounds (body.Outcome E) m b m₁ ∧ (k b).Outcome E m₁ a m' := by
  constructor
  · intro h
    obtain ⟨x, m₁, hx, ha⟩ := (Prog.Outcome.iter_iff.mp h).rounds body k body rfl
    match x with
    | some b => exact ⟨b, m₁, .last hx, ha⟩
    | none =>
      obtain ⟨b, m₂, hr, hk⟩ := ha
      exact ⟨b, m₂, .more hx hr, hk⟩
  · rintro ⟨b, m₁, hr, hk⟩
    induction hr with
    | last h => exact .iter (h.bind hk)
    | more h _ ih => exact .iter (h.bind (ih hk))

/-! ## conditions that a program does not leave -/

/-- Where `Φ` holds at the beginning it holds at the end. -/
def Keeps (E : σ × γ → σ × γ → Prop) (Φ : σ → Prop) (p : Prog σ γ α) : Prop :=
  ∀ m a m', Φ m.1 → p.Outcome E m a m' → Φ m'.1

/-- The environment does not leave `Φ`. -/
def EnvKeeps (E : σ × γ → σ × γ → Prop) (Φ : σ → Prop) : Prop := ∀ m m', E m m' → Φ m.1 → Φ m'.1

variable {Φ : σ → Prop}

theorem EnvKeeps.star (hE : EnvKeeps E Φ) (h : Relation.ReflTransGen E m m') (hm : Φ m.1) :
    Φ m'.1 := by
  induction h with
  | refl => exact hm
  | tail _ he ih => exact hE _ _ he ih

namespace Keeps

/-- A condition that no action of the program leaves. -/
theorem of_acts (hE : EnvKeeps E Φ) {K : σ × γ → σ × γ → Prop} {p : Prog σ γ α} (hp : p.Acts K)
    (hK : ∀ m m', K m m' → Φ m.1 → Φ m'.1) : Keeps E Φ p := by
  intro m a m' hm h
  induction h with
  | ret a m => exact hm
  | act hf h ih => exact ih (hp.2 _) (hK _ _ (hp.1 _ _ _ _ hf) hm)
  | iter h ih =>
    refine ih (hp.1.bind fun r => ?_) hm
    cases r with
    | none => exact hp
    | some b => exact hp.2 b
  | env he h ih => exact ih hp (hE _ _ he hm)

theorem bind {p : Prog σ γ α} {q : α → Prog σ γ β} (hp : Keeps E Φ p)
    (hq : ∀ a, Keeps E Φ (q a)) : Keeps E Φ (p >>= q) := by
  intro m b m' hm h
  obtain ⟨a, m₁, h₁, h₂⟩ := Prog.Outcome.bind_iff.mp h
  exact hq a m₁ b m' (hp m a m₁ hm h₁) h₂

theorem act (hE : EnvKeeps E Φ) {f : σ → Option (β × σ)} {aux : β → σ → γ → γ}
    (hf : ∀ s b s', Φ s → f s = some (b, s') → Φ s') : Keeps E Φ (Prog.atomicWith f aux) := by
  intro m b m' hm h
  obtain ⟨m₁, c, s, he, hs, hk⟩ := Prog.Outcome.act_iff.mp h
  exact hE.star (Prog.Outcome.ret_iff.mp hk).2 (hf _ _ _ (hE.star he hm) hs)

theorem read (hE : EnvKeeps E Φ) (f : σ → β) : Keeps E Φ (Prog.read f : Prog σ γ β) :=
  act hE fun _ _ _ hs h => by cases h; exact hs

theorem modifyWith (hE : EnvKeeps E Φ) {f : σ → σ} {aux : σ → γ → γ} (hf : ∀ s, Φ s → Φ (f s)) :
    Keeps E Φ (Prog.modifyWith f aux) :=
  act hE fun s _ _ hs h => by cases h; exact hf s hs

end Keeps

/-! ## programs that cannot be told apart -/

/-- Go on with `k` when there is an answer. -/
def Prog.andThen (k : β → Prog σ γ α) : Option β → Prog σ γ (Option α)
  | none => pure none
  | some b => k b >>= fun a => pure (some a)

/-- The same outcomes from every memory in which `Φ` holds. -/
def Same (E : σ × γ → σ × γ → Prop) (Φ : σ → Prop) (p q : Prog σ γ α) : Prop :=
  ∀ m a m', Φ m.1 → (p.Outcome E m a m' ↔ q.Outcome E m a m')

namespace Same

theorem refl (p : Prog σ γ α) : Same E Φ p p := fun _ _ _ _ => Iff.rfl

theorem symm {p q : Prog σ γ α} (h : Same E Φ p q) : Same E Φ q p :=
  fun m a m' hm => (h m a m' hm).symm

theorem trans {p q r : Prog σ γ α} (h : Same E Φ p q) (h' : Same E Φ q r) : Same E Φ p r :=
  fun m a m' hm => (h m a m' hm).trans (h' m a m' hm)

/-- The same beginning, and endings that are the same. -/
theorem bind {p : Prog σ γ α} {q q' : α → Prog σ γ β} (hp : Keeps E Φ p)
    (hq : ∀ a, Same E Φ (q a) (q' a)) : Same E Φ (p >>= q) (p >>= q') := by
  intro m b m' hm
  refine Prog.Outcome.bind_iff.trans (Iff.trans ?_ Prog.Outcome.bind_iff.symm)
  constructor
  · rintro ⟨a, m₁, h₁, h₂⟩
    exact ⟨a, m₁, h₁, (hq a m₁ b m' (hp m a m₁ hm h₁)).mp h₂⟩
  · rintro ⟨a, m₁, h₁, h₂⟩
    exact ⟨a, m₁, h₁, (hq a m₁ b m' (hp m a m₁ hm h₁)).mpr h₂⟩

/-- Beginnings that are the same, and one ending. -/
theorem before {p p' : Prog σ γ α} (h : Same E Φ p p') (q : α → Prog σ γ β) :
    Same E Φ (p >>= q) (p' >>= q) := by
  intro m b m' hm
  refine Prog.Outcome.bind_iff.trans (Iff.trans ?_ Prog.Outcome.bind_iff.symm)
  exact exists_congr fun a => exists_congr fun m₁ => and_congr_left fun _ => h m a m₁ hm

/-- A read whose result is not used. -/
theorem unread {f : σ → β} {p : Prog σ γ α} :
    Same E Φ (Prog.read f >>= fun _ => p) p := by
  intro m a m' _
  constructor
  · intro h
    obtain ⟨m₁, b, s, he, hs, hk⟩ := Prog.Outcome.act_iff.mp h
    cases hs
    exact .envs he hk
  · intro h
    exact Prog.Outcome.act_iff.mpr ⟨m, _, _, .refl, rfl, h⟩

/-- What comes after a loop may as well be a part of the round that has the answer. -/
theorem loop {body : Prog σ γ (Option α)} {body' : Prog σ γ (Option β)} {k : β → Prog σ γ α}
    (hbody : Same E Φ body (body' >>= Prog.andThen k))
    (hkeep : ∀ m m', Φ m.1 → body'.Outcome E m none m' → Φ m'.1) :
    Same E Φ (Prog.loop body) (Prog.loop body' >>= k) := by
  have hnone : ∀ {m m₁ : σ × γ}, Φ m.1 → (body.Outcome E m none m₁ ↔
      body'.Outcome E m none m₁) := by
    intro m m₁ hm
    refine (hbody m none m₁ hm).trans (Prog.Outcome.bind_iff.trans ?_)
    constructor
    · rintro ⟨r, m₂, h₁, h₂⟩
      match r with
      | none => exact h₁.snocs (Prog.Outcome.ret_iff.mp h₂).2
      | some b =>
        obtain ⟨a, m₃, -, h₃⟩ := Prog.Outcome.bind_iff.mp h₂
        cases (Prog.Outcome.ret_iff.mp h₃).1
    · intro h
      exact ⟨none, m₁, h, .ret _ _⟩
  have hsome : ∀ {m m₁ : σ × γ} {a : α}, Φ m.1 → (body.Outcome E m (some a) m₁ ↔
      ∃ b m₂, body'.Outcome E m (some b) m₂ ∧ (k b).Outcome E m₂ a m₁) := by
    intro m m₁ a hm
    refine (hbody m (some a) m₁ hm).trans (Prog.Outcome.bind_iff.trans ?_)
    constructor
    · rintro ⟨r, m₂, h₁, h₂⟩
      match r with
      | none => cases (Prog.Outcome.ret_iff.mp h₂).1
      | some b =>
        obtain ⟨a', m₃, h₃, h₄⟩ := Prog.Outcome.bind_iff.mp h₂
        obtain ⟨ha, he⟩ := Prog.Outcome.ret_iff.mp h₄
        cases ha
        exact ⟨b, m₂, h₁, h₃.snocs he⟩
    · rintro ⟨b, m₂, h₁, h₂⟩
      exact ⟨some b, m₂, h₁, h₂.bind (.ret _ _)⟩
  intro m a m' hm
  refine Iff.trans outcome_iter (Iff.trans ?_ outcome_iter.symm)
  constructor
  · rintro ⟨b, m₁, hr, hk⟩
    obtain ⟨rfl, he⟩ := Prog.Outcome.ret_iff.mp hk
    induction hr with
    | last h =>
      obtain ⟨b, m₂, h₁, h₂⟩ := (hsome hm).mp h
      exact ⟨b, m₂, .last h₁, h₂.snocs he⟩
    | more h _ ih =>
      have h' := (hnone hm).mp h
      obtain ⟨b, m₂, h₁, h₂⟩ := ih (hkeep _ _ hm h') he hk
      exact ⟨b, m₂, .more h' h₁, h₂⟩
  · rintro ⟨b, m₁, hr, hk⟩
    induction hr with
    | last h => exact ⟨a, m', .last ((hsome hm).mpr ⟨_, _, h, hk⟩), .ret _ _⟩
    | more h _ ih =>
      obtain ⟨b, m₂, h₁, h₂⟩ := ih (hkeep _ _ hm h) hk
      exact ⟨b, m₂, .more ((hnone hm).mpr h) h₁, h₂⟩

end Same

/-! ## straight lines -/

/-- The program only stores: `f` is what all its stores make of the memory, and the environment
takes the same steps before and after them. -/
structure Straight (E : σ × γ → σ × γ → Prop) (p : Prog σ γ Unit) (f : σ × γ → σ × γ) : Prop where
  calm : ∀ m m', E m m' → E (f m) (f m')
  ends : ∀ m a m', p.Outcome E m a m' ↔ Relation.ReflTransGen E (f m) m'

namespace Straight

theorem star {p : Prog σ γ Unit} {f : σ × γ → σ × γ} (h : Straight E p f)
    (hm : Relation.ReflTransGen E m m') : Relation.ReflTransGen E (f m) (f m') :=
  hm.lift f h.calm

theorem congr {p : Prog σ γ Unit} {f f' : σ × γ → σ × γ} (h : Straight E p f)
    (hf : ∀ m, f m = f' m) : Straight E p f' :=
  (funext hf : f = f') ▸ h

theorem ret : Straight E (pure () : Prog σ γ Unit) id where
  calm _ _ h := h
  ends _ _ _ := Prog.Outcome.ret_iff.trans ⟨fun h => h.2, fun h => ⟨rfl, h⟩⟩

theorem store {f : σ → σ} {aux : σ → γ → γ}
    (calm : ∀ m m', E m m' → E (f m.1, aux m.1 m.2) (f m'.1, aux m'.1 m'.2)) :
    Straight E (Prog.modifyWith f aux) fun m => (f m.1, aux m.1 m.2) where
  calm := calm
  ends m a m' := by
    refine Prog.Outcome.act_iff.trans ⟨?_, fun h => ?_⟩
    · rintro ⟨m₁, b, s, he, hs, hk⟩
      cases hs
      exact (he.lift (fun m => (f m.1, aux m.1 m.2)) calm).trans (Prog.Outcome.ret_iff.mp hk).2
    · exact ⟨m, (), _, .refl, rfl, Prog.Outcome.ret_iff.mpr ⟨rfl, h⟩⟩

theorem seq {p q : Prog σ γ Unit} {f f' : σ × γ → σ × γ} (hp : Straight E p f)
    (hq : Straight E q f') : Straight E (p >>= fun _ => q) fun m => f' (f m) where
  calm m m' h := hq.calm _ _ (hp.calm _ _ h)
  ends m a m' := by
    refine Prog.Outcome.bind_iff.trans ⟨?_, fun h => ?_⟩
    · rintro ⟨b, m₁, h₁, h₂⟩
      exact (hq.star ((hp.ends _ _ _).mp h₁)).trans ((hq.ends _ _ _).mp h₂)
    · exact ⟨(), f m, (hp.ends _ _ _).mpr .refl, (hq.ends _ _ _).mpr h⟩

theorem forM {g : β → Prog σ γ PUnit} {f : β → σ × γ → σ × γ} (h : ∀ x, Straight E (g x) (f x)) :
    ∀ xs : List β, Straight E (xs.forM g) fun m => xs.foldl (fun m x => f x m) m
  | [] => ret
  | x :: xs => (h x).seq (forM h xs)

/-- Stores that make the same of the memory. -/
theorem same {p q : Prog σ γ Unit} {f f' : σ × γ → σ × γ} (hp : Straight E p f)
    (hq : Straight E q f') (h : ∀ m, Φ m.1 → f m = f' m) : Same E Φ p q := by
  intro m a m' hm
  rw [hp.ends, hq.ends, h m hm]

end Straight

end

end TenzorBus.Conc
