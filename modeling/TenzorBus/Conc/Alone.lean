import TenzorBus.Conc.System

/-!
# Running alone

What a program does when nobody else takes a step: total correctness, for the construction of runs
that are too long to be played.

* `Prog.Ends` : the program, run alone, ends with a result
* `Alone` : from every state in which `Φ` holds it ends in one in which `Ψ` holds
* `System.Reach.alone` : an operation run alone is a part of a run
-/

namespace TenzorBus.Conc

variable {σ γ α β δ : Type}

/-- The program, run alone from the first memory, ends with this result in the second one. -/
inductive Prog.Ends : {α : Type} → Prog σ γ α → σ × γ → α → σ × γ → Prop
  | ret {α : Type} (a : α) (m : σ × γ) : Ends (.ret a) m a m
  | act {α β : Type} {f : σ → Option (β × σ)} {aux : β → σ → γ → γ} {k : β → Prog σ γ α} {s : σ}
      {g : γ} {b : β} {s' : σ} {a : α} {m : σ × γ} (hf : f s = some (b, s'))
      (h : Ends (k b) (s', aux b s g) a m) : Ends (.act f aux k) (s, g) a m
  | iter {α β : Type} {body : Prog σ γ (Option β)} {k : β → Prog σ γ α} {m m' : σ × γ} {a : α}
      (h : Ends (body.bind (Prog.again body k)) m a m') : Ends (.iter body k) m a m'

theorem Prog.Ends.bind {p : Prog σ γ α} {q : α → Prog σ γ β} {m m₁ m₂ : σ × γ} {a : α} {b : β}
    (hp : p.Ends m a m₁) (hq : (q a).Ends m₁ b m₂) : (p.bind q).Ends m b m₂ := by
  induction hp with
  | ret a m => exact hq
  | act hf h ih => exact .act hf (ih hq)
  | @iter β' body k m m' a h ih =>
    have := ih hq
    rw [Prog.bind_assoc, Prog.again_bind] at this
    exact .iter this

/-- There is only one way to run alone. -/
theorem Prog.Ends.unique {p : Prog σ γ α} {m m₁ m₂ : σ × γ} {a₁ a₂ : α} (h₁ : p.Ends m a₁ m₁)
    (h₂ : p.Ends m a₂ m₂) : a₁ = a₂ ∧ m₁ = m₂ := by
  induction h₁ with
  | ret a m => cases h₂; exact ⟨rfl, rfl⟩
  | act hf h ih =>
    cases h₂ with
    | act hf' h' =>
      cases hf.symm.trans hf'
      exact ih h'
  | iter h ih =>
    cases h₂ with
    | iter h' => exact ih h'

/-- Run alone from any state in which `Φ` holds, the program ends in one in which `Ψ` holds of its
result. -/
def Alone (p : Prog σ γ α) (Φ : σ → Prop) (Ψ : α → σ → Prop) : Prop :=
  ∀ s g, Φ s → ∃ a s' g', p.Ends (s, g) a (s', g') ∧ Ψ a s'

namespace Alone

variable {Φ Φ' : σ → Prop} {Ψ Ψ' : α → σ → Prop}

theorem ret {a : α} (h : ∀ s, Φ s → Ψ a s) : Alone (pure a : Prog σ γ α) Φ Ψ :=
  fun s g hs => ⟨a, s, g, .ret a _, h s hs⟩

theorem seq {p : Prog σ γ α} {q : α → Prog σ γ β} {Ψ' : β → σ → Prop} (hp : Alone p Φ Ψ)
    (hq : ∀ a, Alone (q a) (Ψ a) Ψ') : Alone (p >>= q) Φ Ψ' := fun s g hs => by
  obtain ⟨a, s₁, g₁, h₁, hs₁⟩ := hp s g hs
  obtain ⟨b, s₂, g₂, h₂, hs₂⟩ := hq a s₁ g₁ hs₁
  exact ⟨b, s₂, g₂, h₁.bind h₂, hs₂⟩

theorem pre {p : Prog σ γ α} (h : Alone p Φ Ψ) (hΦ : ∀ s, Φ' s → Φ s) : Alone p Φ' Ψ :=
  fun s g hs => h s g (hΦ s hs)

theorem post {p : Prog σ γ α} (h : Alone p Φ Ψ) (hΨ : ∀ a s, Ψ a s → Ψ' a s) : Alone p Φ Ψ' :=
  fun s g hs => by
    obtain ⟨a, s', g', he, hs'⟩ := h s g hs
    exact ⟨a, s', g', he, hΨ a s' hs'⟩

/-- A fact that does not depend on the state. -/
theorem given {p : Prog σ γ α} {φ : Prop} (h : φ → Alone p Φ Ψ) :
    Alone p (fun s => φ ∧ Φ s) Ψ :=
  fun s g hs => h hs.1 s g hs.2

theorem act {f : σ → Option (α × σ)} {aux : α → σ → γ → γ}
    (h : ∀ s, Φ s → ∃ a s', f s = some (a, s') ∧ Ψ a s') :
    Alone (Prog.atomicWith f aux) Φ Ψ := fun s g hs => by
  obtain ⟨a, s', hf, hs'⟩ := h s hs
  exact ⟨a, s', _, .act hf (.ret a _), hs'⟩

theorem read {f : σ → α} (h : ∀ s, Φ s → Ψ (f s) s) : Alone (Prog.read f : Prog σ γ α) Φ Ψ :=
  act fun s hs => ⟨f s, s, rfl, h s hs⟩

theorem modifyWith {f : σ → σ} {aux : σ → γ → γ} {Ψ : σ → Prop} (h : ∀ s, Φ s → Ψ (f s)) :
    Alone (Prog.modifyWith f aux) Φ fun _ => Ψ :=
  act fun s hs => ⟨(), f s, rfl, h s hs⟩

theorem modify {f : σ → σ} {Ψ : σ → Prop} (h : ∀ s, Φ s → Ψ (f s)) :
    Alone (Prog.modify f : Prog σ γ Unit) Φ fun _ => Ψ :=
  modifyWith h

/-- A read whose result is known. -/
theorem known {f : σ → β} {v : β} {k : β → Prog σ γ α} (h : ∀ s, Φ s → f s = v)
    (hk : Alone (k v) Φ Ψ) : Alone (Prog.read f >>= k) Φ Ψ :=
  seq (Ψ := fun b s => b = v ∧ Φ s) (read fun s hs => ⟨h s hs, hs⟩) fun _ =>
    given fun hb => hb ▸ hk

/-- A read whose result does not matter. -/
theorem unknown {f : σ → β} {k : β → Prog σ γ α} (hk : ∀ b, Alone (k b) Φ Ψ) :
    Alone (Prog.read f >>= k) Φ Ψ :=
  seq (Ψ := fun _ => Φ) (read fun _ hs => hs) hk

/-- A store. -/
theorem stored {f : σ → σ} {aux : σ → γ → γ} {k : Unit → Prog σ γ α} {Θ : σ → Prop}
    (h : ∀ s, Φ s → Θ (f s)) (hk : Alone (k ()) Θ Ψ) :
    Alone (Prog.modifyWith f aux >>= k) Φ Ψ :=
  seq (Ψ := fun _ => Θ) (modifyWith h) fun _ => hk

/-- A loop whose body has an answer in its first round. -/
theorem once {body : Prog σ γ (Option α)}
    (h : Alone body Φ fun r s => ∃ a, r = some a ∧ Ψ a s) : Alone (Prog.loop body) Φ Ψ :=
  fun s g hs => by
    obtain ⟨r, s', g', he, a, rfl, hs'⟩ := h s g hs
    exact ⟨a, s', g', .iter (he.bind (.ret a _)), hs'⟩

/-- A loop over a list keeps its invariant. -/
theorem fold {f : δ → β → Prog σ γ δ} (J : List β → δ → σ → Prop)
    (hf : ∀ done x d, Alone (f d x) (J done d) (J (done ++ [x]))) :
    ∀ (xs done : List β) (d : δ), Alone (xs.foldlM f d) (J done d) (J (done ++ xs))
  | [], done, d => ret fun s hs => by simpa using hs
  | x :: xs, done, d => by
    rw [List.foldlM_cons]
    refine seq (hf done x d) fun d' => ?_
    have := fold J hf xs (done ++ [x]) d'
    rwa [List.append_assoc, List.singleton_append] at this

/-- The same for a loop that only acts. -/
theorem each {f : β → Prog σ γ PUnit} (hf : ∀ x, Alone (f x) Φ fun _ => Φ) :
    ∀ xs : List β, Alone (xs.forM f) Φ fun _ => Φ
  | [] => ret fun _ hs => hs
  | x :: xs => seq (hf x) fun _ => each hf xs

end Alone

/-! ## runs -/

variable {ι : Type} [DecidableEq ι] {S : System ι σ γ} {init : Config ι σ γ → Prop}

/-- The rest of an operation, run alone. -/
theorem Prog.Ends.reach {i : ι} (hlive : ∀ s, S.live i s) {p : Prog σ γ Unit} {m m' : σ × γ}
    {pool : ι → Prog σ γ Unit} (he : p.Ends m () m')
    (h : S.Reach (fun _ _ => True) init { mem := m, pool := Function.update pool i p }) :
    S.Reach (fun _ _ => True) init { mem := m', pool := Function.update pool i (.ret ()) } := by
  generalize hu : () = u at he
  induction he with
  | ret a m => subst hu; exact h
  | @act β f aux k s g b s' a m hf he ih =>
    have hstep := h.step (.act i (k b) (s', aux b s g) (hlive _) (by simp [Prog.next?, hf]))
      trivial
    rw [Function.update_idem] at hstep
    exact ih hstep hu
  | @iter β body k m m' a he ih =>
    have hstep := h.step (.act i (body.bind (Prog.again body k)) m (hlive _)
      (by simp [Prog.next?])) trivial
    rw [Function.update_idem] at hstep
    exact ih hstep hu

/-- An operation that an idle actor starts and that is run alone. -/
theorem System.Reach.alone {i : ι} (hlive : ∀ s, S.live i s) {p : Prog σ γ Unit} {Φ : σ → Prop}
    {Ψ : Unit → σ → Prop} (hp : Alone p Φ Ψ) {c : Config ι σ γ}
    (h : S.Reach (fun _ _ => True) init c) (hidle : c.pool i = .ret ())
    (hstart : S.starts i c.mem.1 p) (hs : Φ c.mem.1) :
    ∃ d, S.Reach (fun _ _ => True) init d ∧ Ψ () d.mem.1 ∧
      ∀ j, c.pool j = .ret () → d.pool j = .ret () := by
  obtain ⟨_, s', g', he, hs'⟩ := hp c.mem.1 c.mem.2 hs
  refine ⟨_, he.reach hlive (h.step (.start i p hidle (hlive _) hstart) trivial), hs',
    fun j hj => ?_⟩
  by_cases hji : j = i
  · subst hji; simp
  · simpa [hji] using hj

end TenzorBus.Conc
