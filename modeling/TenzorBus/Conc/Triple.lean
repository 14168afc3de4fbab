import TenzorBus.Conc.Outcome

/-!
# What a program does among others

Preconditions and postconditions of programs whose environment may do whatever does not falsify
them, and programs that only look.

* `Kept` : a condition that the environment does not falsify
* `Triple` : precondition and postcondition, and the rules
* `Reads` : the answer of a program that only looks
-/

namespace TenzorBus.Conc

variable {σ γ α β δ : Type} {E : σ × γ → σ × γ → Prop}

/-- The environment does not falsify `Φ`. -/
def Kept (E : σ × γ → σ × γ → Prop) (Φ : σ × γ → Prop) : Prop := ∀ m m', E m m' → Φ m → Φ m'

theorem Kept.star {Φ : σ × γ → Prop} (hΦ : Kept E Φ) {m m' : σ × γ}
    (h : Relation.ReflTransGen E m m') (hm : Φ m) : Φ m' := by
  induction h with
  | refl => exact hm
  | tail _ he ih => exact hΦ _ _ he ih

theorem Kept.and {Φ Φ' : σ × γ → Prop} (hΦ : Kept E Φ) (hΦ' : Kept E Φ') :
    Kept E fun m => Φ m ∧ Φ' m :=
  fun m m' he hm => ⟨hΦ m m' he hm.1, hΦ' m m' he hm.2⟩

theorem Kept.const (φ : Prop) : Kept E fun _ : σ × γ => φ := fun _ _ _ h => h

/-- A run from where `Φ` holds ends where `Ψ` holds. -/
def Triple (E : σ × γ → σ × γ → Prop) (Φ : σ × γ → Prop) (p : Prog σ γ α)
    (Ψ : α → σ × γ → Prop) : Prop :=
  ∀ m a m', Φ m → p.Outcome E m a m' → Ψ a m'

namespace Triple

variable {Φ Φ' : σ × γ → Prop}

theorem post {p : Prog σ γ α} {Ψ Ψ' : α → σ × γ → Prop} (h : Triple E Φ p Ψ)
    (hΨ : ∀ a m, Ψ a m → Ψ' a m) : Triple E Φ p Ψ' :=
  fun m a m' hm ho => hΨ a m' (h m a m' hm ho)

theorem ret {a : α} {Ψ : α → σ × γ → Prop} (hΦ : Kept E Φ) (h : ∀ m, Φ m → Ψ a m) :
    Triple E Φ (pure a : Prog σ γ α) Ψ := by
  intro m b m' hm ho
  obtain ⟨rfl, he⟩ := Prog.Outcome.ret_iff.mp ho
  exact h m' (hΦ.star he hm)

theorem bind {p : Prog σ γ α} {q : α → Prog σ γ β} {X : α → σ × γ → Prop}
    {Ψ : β → σ × γ → Prop} (hp : Triple E Φ p X) (hq : ∀ a, Triple E (X a) (q a) Ψ) :
    Triple E Φ (p >>= q) Ψ := by
  intro m b m' hm ho
  obtain ⟨a, m₁, h₁, h₂⟩ := Prog.Outcome.bind_iff.mp ho
  exact hq a m₁ b m' (hp m a m₁ hm h₁) h₂

theorem act {f : σ → Option (β × σ)} {aux : β → σ → γ → γ} {Ψ : β → σ × γ → Prop}
    (hΦ : Kept E Φ) (hΨ : ∀ b, Kept E (Ψ b))
    (h : ∀ s g b s', Φ (s, g) → f s = some (b, s') → Ψ b (s', aux b s g)) :
    Triple E Φ (Prog.atomicWith f aux) Ψ := by
  intro m c m' hm ho
  obtain ⟨m₁, b, s, he, hs, hk⟩ := Prog.Outcome.act_iff.mp ho
  obtain ⟨rfl, hrest⟩ := Prog.Outcome.ret_iff.mp hk
  exact (hΨ c).star hrest (h _ _ _ _ (hΦ.star he hm) hs)

/-- A loop over a list keeps its invariant, which may speak of what is done. -/
theorem foldl {f : δ → β → Prog σ γ δ} (J : List β → δ → σ × γ → Prop)
    (hJ : ∀ done d, Kept E (J done d))
    (hf : ∀ done x d, Triple E (J done d) (f d x) (J (done ++ [x]))) :
    ∀ (xs done : List β) (d : δ), Triple E (J done d) (xs.foldlM f d) (J (done ++ xs)) := by
  intro xs
  induction xs with
  | nil =>
    intro done d
    exact ret (hJ done d) fun m hm => by simpa using hm
  | cons x xs ih =>
    intro done d
    rw [List.foldlM_cons]
    refine bind (hf done x d) fun d' => ?_
    have := ih (done ++ [x]) d'
    rwa [List.append_assoc, List.singleton_append] at this

/-- A loop that ends when its body has an answer. -/
theorem loop {body : Prog σ γ (Option β)} {Ψ : β → σ × γ → Prop} (hΨ : ∀ b, Kept E (Ψ b))
    (h : Triple E Φ body fun r m => match r with
      | none => Φ m
      | some b => Ψ b m) : Triple E Φ (Prog.loop body) Ψ := by
  intro m b m' hm ho
  obtain ⟨c, m₁, hrounds, hret⟩ := outcome_iter.mp ho
  obtain ⟨rfl, he⟩ := Prog.Outcome.ret_iff.mp hret
  refine (hΨ b).star he ?_
  clear ho hret he
  induction hrounds with
  | last hround => exact h _ _ _ hm hround
  | more hround _ ih => exact ih (h _ _ _ hm hround)

/-- A fact that does not depend on the memory. -/
theorem given {p : Prog σ γ α} {Ψ : α → σ × γ → Prop} {φ : Prop} (h : φ → Triple E Φ p Ψ) :
    Triple E (fun m => φ ∧ Φ m) p Ψ :=
  fun m a m' hm => h hm.1 m a m' hm.2

end Triple

/-! ## programs that only look -/

variable {Φ : σ → Prop}

/-- Where `Φ` holds at the beginning it holds at the end, and `a` is returned. -/
def Reads (E : σ × γ → σ × γ → Prop) (Φ : σ → Prop) (p : Prog σ γ α) (a : α) : Prop :=
  Triple E (fun m => Φ m.1) p fun b m => b = a ∧ Φ m.1

theorem EnvKeeps.answer (hE : EnvKeeps E Φ) (a b : α) :
    Kept E fun m : σ × γ => b = a ∧ Φ m.1 :=
  (Kept.const _).and hE

namespace Reads

theorem ret (hE : EnvKeeps E Φ) (a : α) : Reads E Φ (pure a : Prog σ γ α) a :=
  Triple.ret hE fun _ hm => ⟨rfl, hm⟩

theorem bind {p : Prog σ γ α} {q : α → Prog σ γ β} {a : α} {b : β} (hp : Reads E Φ p a)
    (hq : Reads E Φ (q a) b) : Reads E Φ (p >>= q) b :=
  Triple.bind hp fun _ => .given fun h => h ▸ hq

/-- An action whose answer is the same wherever `Φ` holds. -/
theorem act (hE : EnvKeeps E Φ) {f : σ → Option (β × σ)} {aux : β → σ → γ → γ} {b : β}
    (hf : ∀ s c s', Φ s → f s = some (c, s') → c = b ∧ Φ s') :
    Reads E Φ (Prog.atomicWith f aux) b :=
  Triple.act hE (hE.answer b) fun s _ c s' hs h => hf s c s' hs h

theorem read (hE : EnvKeeps E Φ) {f : σ → β} {b : β} (hf : ∀ s, Φ s → f s = b) :
    Reads E Φ (Prog.read f : Prog σ γ β) b :=
  act hE fun s c s' hs h => by cases h; exact ⟨hf s hs, hs⟩

theorem modifyWith (hE : EnvKeeps E Φ) {f : σ → σ} {aux : σ → γ → γ} (hf : ∀ s, Φ s → Φ (f s)) :
    Reads E Φ (Prog.modifyWith f aux) () :=
  act hE fun s c s' hs h => by cases h; exact ⟨rfl, hf s hs⟩

theorem foldl (hE : EnvKeeps E Φ) {f : δ → β → Prog σ γ δ} {h : δ → β → δ}
    (hf : ∀ d x, Reads E Φ (f d x) (h d x)) :
    ∀ (xs : List β) (d : δ), Reads E Φ (xs.foldlM f d) (xs.foldl h d)
  | [], d => ret hE d
  | x :: xs, d => by
    rw [List.foldlM_cons, List.foldl_cons]
    exact bind (hf d x) (foldl hE hf xs (h d x))

end Reads

end TenzorBus.Conc
