import TenzorBus.Conc.Alone
import TenzorBus.Conc.Outcome
import TenzorBus.Conc.Script

/-!
# What a program run alone yields

The result of a program that nobody disturbs, and the state it leaves, whatever the history is.

* `Prog.Yields` : the result and the state
* `Prog.Yields.unique` : there is only one
* `Prog.Yields.outcome` : a program that runs alone runs among others
* `Prog.Outcome.computed` : an outcome that is found by computing it
-/

namespace TenzorBus.Conc

variable {σ γ α β δ : Type}

/-- Run alone from `s`, the program returns `a` and leaves `s'`. -/
def Prog.Yields (p : Prog σ γ α) (s : σ) (a : α) (s' : σ) : Prop :=
  ∀ g, ∃ g', p.Ends (s, g) a (s', g')

namespace Prog.Yields

variable {s s₁ s₂ s' : σ} {a : α} {b : β}

theorem ret (a : α) (s : σ) : (pure a : Prog σ γ α).Yields s a s :=
  fun g => ⟨g, .ret a _⟩

theorem bind {p : Prog σ γ α} {q : α → Prog σ γ β} (hp : p.Yields s a s₁)
    (hq : (q a).Yields s₁ b s₂) : (p >>= q).Yields s b s₂ := by
  intro g
  obtain ⟨g₁, h₁⟩ := hp g
  obtain ⟨g₂, h₂⟩ := hq g₁
  exact ⟨g₂, h₁.bind h₂⟩

theorem act {f : σ → Option (α × σ)} {aux : α → σ → γ → γ} (h : f s = some (a, s')) :
    (Prog.atomicWith f aux).Yields s a s' :=
  fun _ => ⟨_, .act h (.ret a _)⟩

theorem read (f : σ → α) (s : σ) : (Prog.read f : Prog σ γ α).Yields s (f s) s :=
  act rfl

theorem store (f : σ → σ) (aux : σ → γ → γ) (s : σ) :
    (Prog.modifyWith f aux).Yields s () (f s) :=
  act rfl

/-- A read, and what follows it. -/
theorem get {f : σ → α} {k : α → Prog σ γ β} (h : (k (f s)).Yields s b s') :
    (Prog.read f >>= k).Yields s b s' :=
  (read f s).bind h

/-- A store, and what follows it. -/
theorem put {f : σ → σ} {aux : σ → γ → γ} {k : Unit → Prog σ γ β} (h : (k ()).Yields (f s) b s') :
    (Prog.modifyWith f aux >>= k).Yields s b s' :=
  (store f aux s).bind h

theorem congr {p : Prog σ γ α} (h : p.Yields s a s₁) (hs : s₁ = s₂) : p.Yields s a s₂ := hs ▸ h

/-- A loop that only looks. -/
theorem foldl {f : δ → β → Prog σ γ δ} {h : δ → β → δ} (hf : ∀ d x, (f d x).Yields s (h d x) s) :
    ∀ (xs : List β) (d : δ), (xs.foldlM f d).Yields s (xs.foldl h d) s
  | [], d => ret d s
  | x :: xs, d => by
    rw [List.foldlM_cons, List.foldl_cons]
    exact (hf d x).bind (foldl hf xs (h d x))

/-- A loop that only acts. -/
theorem forM {f : β → Prog σ γ PUnit} {h : σ → β → σ} (hf : ∀ s x, (f x).Yields s ⟨⟩ (h s x)) :
    ∀ (xs : List β) (s : σ), (xs.forM f).Yields s ⟨⟩ (xs.foldl h s)
  | [], s => ret _ s
  | x :: xs, s => (hf s x).bind (forM hf xs (h s x))

/-- A loop that has an answer in its first round. -/
theorem loop {body : Prog σ γ (Option α)} (h : body.Yields s (some a) s') :
    (Prog.loop body).Yields s a s' := by
  intro g
  obtain ⟨g', he⟩ := h g
  exact ⟨g', .iter (he.bind (.ret a _))⟩

/-- There is only one way to run alone. -/
theorem unique {p : Prog σ γ α} {a' : α} (g : γ) (h : p.Yields s a s₁) (h' : p.Yields s a' s₂) :
    a = a' ∧ s₁ = s₂ := by
  obtain ⟨g₁, h₁⟩ := h g
  obtain ⟨g₂, h₂⟩ := h' g
  obtain ⟨ha, hm⟩ := h₁.unique h₂
  exact ⟨ha, congrArg Prod.fst hm⟩

end Prog.Yields

theorem Prog.Ends.outcome {E : σ × γ → σ × γ → Prop} {p : Prog σ γ α} {m m' : σ × γ} {a : α}
    (h : p.Ends m a m') : p.Outcome E m a m' := by
  induction h with
  | ret a m => exact .ret a m
  | act hf _ ih => exact .act hf ih
  | iter _ ih => exact .iter ih

/-- A program that runs alone runs among others who wait. -/
theorem Prog.Yields.outcome {E : σ × γ → σ × γ → Prop} {p : Prog σ γ α} {s s' : σ} {a : α}
    (h : p.Yields s a s') (g : γ) : ∃ g', p.Outcome E (s, g) a (s', g') := by
  obtain ⟨g', he⟩ := h g
  exact ⟨g', he.outcome⟩

theorem Prog.Outcome.walk {E : σ × γ → σ × γ → Prop} {chk : σ × γ → σ × γ → Bool} :
    ∀ (fuel : Nat) {p q : Prog σ γ α} {m m₁ m' : σ × γ} {a : α},
      p.walk chk fuel m = some (q, m₁) → q.Outcome E m₁ a m' → p.Outcome E m a m'
  | 0, p, q, m, m₁, m', a, hw, h => by
    obtain ⟨rfl, rfl⟩ := Prod.mk.inj (Option.some.inj hw)
    exact h
  | fuel + 1, .ret b, q, m, m₁, m', a, hw, h => by
    obtain ⟨rfl, rfl⟩ := Prod.mk.inj (Option.some.inj hw)
    exact h
  | fuel + 1, .act f aux k, q, (s, g), m₁, m', a, hw, h => by
    obtain ⟨r, hr, hw⟩ := Option.bind_eq_some_iff.mp hw
    obtain ⟨x, hx, rfl⟩ := Option.map_eq_some_iff.mp hr
    obtain ⟨-, hw⟩ := Option.ite_none_right_eq_some.mp hw
    exact .act hx (Prog.Outcome.walk fuel hw h)
  | fuel + 1, .iter body k, q, m, m₁, m', a, hw, h => by
    obtain ⟨r, hr, hw⟩ := Option.bind_eq_some_iff.mp hw
    cases hr
    obtain ⟨-, hw⟩ := Option.ite_none_right_eq_some.mp hw
    exact .iter (Prog.Outcome.walk fuel hw h)

/-- A program that reaches its end alone has an outcome, and what holds of it is found by computing
it. -/
theorem Prog.Outcome.computed {E : σ × γ → σ × γ → Prop} (fuel : Nat) {p : Prog σ γ α}
    {m : σ × γ} (test : α → σ × γ → Bool)
    (h : ((p.walk (fun _ _ => true) fuel m).any fun r => match r.1 with
      | .ret a => test a r.2
      | _ => false) = true) : ∃ a m', p.Outcome E m a m' ∧ test a m' = true := by
  obtain ⟨⟨q, m'⟩, hw, hq⟩ := (Option.any_eq_true _ _).mp h
  cases q with
  | ret a => exact ⟨a, m', .walk fuel hw (.ret a m'), hq⟩
  | act f aux k => cases hq
  | iter body k => cases hq

end TenzorBus.Conc
