import TenzorBus.Conc.System
import Mathlib.Order.Basic

/-!
# Programs in lockstep

Two programs over related states take the same steps: an action of one is matched by an action of
the other, and their results are related. The relations are indexed by a world. The world grows in
a run; what is known in a world stays known.

* `Agree` : related outcomes of one action
* `Lockstep` : two programs that take the same steps
* `Lockstep.next?` : one step
* `Unmoved` : a program in lockstep with itself
-/

namespace TenzorBus.Conc

variable {ω σ γ α β δ : Type} [Preorder ω]

/-- What is related in a world is related in the later ones. -/
def Lasting (Q : ω → α → α → Prop) : Prop := ∀ ⦃w v a a'⦄, w ≤ v → Q w a a' → Q v a a'

/-- Related outcomes of an action: both are blocked, or both go on in a later world. -/
inductive Agree (R : ω → σ → σ → Prop) (B : ω → β → β → Prop) (w : ω) :
    Option (β × σ) → Option (β × σ) → Prop
  | blocked : Agree R B w none none
  | moved {b b' : β} {s s' : σ} (v : ω) (hv : w ≤ v) (hs : R v s s') (hb : B v b b') :
      Agree R B w (some (b, s)) (some (b', s'))

theorem Agree.moves {R : ω → σ → σ → Prop} {B : ω → β → β → Prop} {w : ω} {b : β} {s : σ}
    {x : Option (β × σ)} (h : Agree R B w (some (b, s)) x) :
    ∃ b' s' v, x = some (b', s') ∧ w ≤ v ∧ R v s s' ∧ B v b b' := by
  cases h with
  | moved v hv hs hb => exact ⟨_, _, v, rfl, hv, hs, hb⟩

/-- The same results. -/
def Equal (_ : ω) (a a' : α) : Prop := a' = a

/-- The second result is `f` of the first one. -/
def Mapped (f : α → α) (_ : ω) (a a' : α) : Prop := a' = f a

/-- An answer, or none on both sides. -/
inductive Answers (B : ω → β → β → Prop) (w : ω) : Option β → Option β → Prop
  | none : Answers B w none none
  | some {b b' : β} (h : B w b b') : Answers B w (some b) (some b')

/-- From world `w` on the programs take the same steps, and what they return is related by `Q`. -/
inductive Lockstep (R : ω → σ → σ → Prop) :
    {α : Type} → ω → Prog σ γ α → Prog σ γ α → (ω → α → α → Prop) → Prop
  | ret {α : Type} {w : ω} {a a' : α} {Q : ω → α → α → Prop} (h : Q w a a') :
      Lockstep R w (.ret a) (.ret a') Q
  | act {α β : Type} {w : ω} {f f' : σ → Option (β × σ)} {aux aux' : β → σ → γ → γ}
      {k k' : β → Prog σ γ α} {Q : ω → α → α → Prop} (B : ω → β → β → Prop)
      (hf : ∀ v s s', w ≤ v → R v s s' → Agree R B v (f s) (f' s'))
      (hk : ∀ v b b', w ≤ v → B v b b' → Lockstep R v (k b) (k' b') Q) :
      Lockstep R w (.act f aux k) (.act f' aux' k') Q
  | iter {α β : Type} {w : ω} {body body' : Prog σ γ (Option β)} {k k' : β → Prog σ γ α}
      {Q : ω → α → α → Prop} (B : ω → β → β → Prop)
      (hbody : ∀ v, w ≤ v → Lockstep R v body body' (Answers B))
      (hk : ∀ v b b', w ≤ v → B v b b' → Lockstep R v (k b) (k' b') Q) :
      Lockstep R w (.iter body k) (.iter body' k') Q

theorem Prog.bind_ret (p : Prog σ γ α) : p.bind .ret = p := by
  induction p with
  | ret a => rfl
  | act f aux k ih => simp only [Prog.bind, ih]
  | iter body k _ ih => simp only [Prog.bind, ih]

namespace Lockstep

variable {R : ω → σ → σ → Prop} {w v : ω} {Q Q' : ω → α → α → Prop}

/-- What is in lockstep stays in lockstep. -/
theorem later {p p' : Prog σ γ α} (h : Lockstep R w p p' Q) (hQ : Lasting Q) (hv : w ≤ v) :
    Lockstep R v p p' Q := by
  cases h with
  | ret h => exact .ret (hQ hv h)
  | act B hf hk =>
    exact .act B (fun u s s' hu => hf u s s' (hv.trans hu)) fun u b b' hu => hk u b b' (hv.trans hu)
  | iter B hbody hk =>
    exact .iter B (fun u hu => hbody u (hv.trans hu)) fun u b b' hu => hk u b b' (hv.trans hu)

theorem seq {p p' : Prog σ γ α} {q q' : α → Prog σ γ β} {B : ω → β → β → Prop}
    (hp : Lockstep R w p p' Q) (hq : ∀ v a a', w ≤ v → Q v a a' → Lockstep R v (q a) (q' a') B) :
    Lockstep R w (p >>= q) (p' >>= q') B := by
  rw [Prog.bind_eq, Prog.bind_eq]
  induction hp with
  | ret h => exact hq _ _ _ le_rfl h
  | act C hf _ ih =>
    exact .act C hf fun v b b' hv hb => ih v b b' hv hb fun u a a' hu => hq u a a' (hv.trans hu)
  | iter C hbody _ _ ih =>
    exact .iter C hbody fun v b b' hv hb => ih v b b' hv hb fun u a a' hu =>
      hq u a a' (hv.trans hu)

/-- Two actions. -/
theorem atomic {f f' : σ → Option (α × σ)} {aux aux' : α → σ → γ → γ}
    (hf : ∀ v s s', w ≤ v → R v s s' → Agree R Q v (f s) (f' s')) :
    Lockstep R w (Prog.atomicWith f aux) (Prog.atomicWith f' aux') Q :=
  .act Q hf fun _ _ _ _ h => .ret h

/-- Two reads. -/
theorem read {f f' : σ → α} (h : ∀ v s s', w ≤ v → R v s s' → Q v (f s) (f' s')) :
    Lockstep R w (Prog.read f : Prog σ γ α) (Prog.read f') Q :=
  atomic fun v s s' hv hs => .moved v le_rfl hs (h v s s' hv hs)

/-- Two stores, after which the world may be a later one. -/
theorem store {f f' : σ → σ} {aux aux' : σ → γ → γ} {Q : ω → Unit → Unit → Prop}
    (h : ∀ v s s', w ≤ v → R v s s' → ∃ u, v ≤ u ∧ R u (f s) (f' s') ∧ Q u () ()) :
    Lockstep R w (Prog.modifyWith f aux) (Prog.modifyWith f' aux') Q :=
  atomic fun v s s' hv hs => by
    obtain ⟨u, hu, hs', hq⟩ := h v s s' hv hs
    exact .moved u hu hs' hq

/-- Two stores in one world. -/
theorem stay {f f' : σ → σ} {aux aux' : σ → γ → γ}
    (h : ∀ v s s', w ≤ v → R v s s' → R v (f s) (f' s')) :
    Lockstep R w (Prog.modifyWith f aux) (Prog.modifyWith f' aux') Equal :=
  store fun v s s' hv hs => ⟨v, le_rfl, h v s s' hv hs, rfl⟩

theorem foldlM {f f' : δ → β → Prog σ γ δ} {Q : ω → δ → δ → Prop}
    (hf : ∀ v d d' x, w ≤ v → Q v d d' → Lockstep R v (f d x) (f' d' x) Q) :
    ∀ (xs : List β) {v : ω} {d d' : δ}, w ≤ v → Q v d d' →
      Lockstep R v (xs.foldlM f d) (xs.foldlM f' d') Q
  | [], _, _, _, _, h => .ret h
  | x :: xs, _, _, _, hv, h => by
    rw [List.foldlM_cons, List.foldlM_cons]
    exact (hf _ _ _ x hv h).seq fun u _ _ hu h => foldlM hf xs (hv.trans hu) h

theorem loop {body body' : Prog σ γ (Option α)}
    (h : ∀ v, w ≤ v → Lockstep R v body body' (Answers Q)) :
    Lockstep R w (Prog.loop body) (Prog.loop body') Q :=
  .iter Q h fun _ _ _ _ h => .ret h

/-- A program that has come to its end. -/
theorem ret_left {a : α} {p' : Prog σ γ α} (h : Lockstep R w (.ret a) p' Q) :
    ∃ a', p' = .ret a' ∧ Q w a a' := by
  cases h with
  | ret h => exact ⟨_, rfl, h⟩

/-- A step of one program is matched by a step of the other. -/
theorem next? {p p' r : Prog σ γ α} {m m₁ m' : σ × γ} (h : Lockstep R w p p' Q)
    (hs : R w m.1 m'.1) (hn : p.next? m = some (r, m₁)) :
    ∃ v r' m₁', w ≤ v ∧ p'.next? m' = some (r', m₁') ∧ R v m₁.1 m₁'.1 ∧
      Lockstep R v r r' Q := by
  cases h with
  | ret h => cases hn
  | act B hf hk =>
    simp only [Prog.next?, Option.map_eq_some_iff] at hn ⊢
    obtain ⟨⟨b, t⟩, hb, he⟩ := hn
    cases he
    have := hf w m.1 m'.1 le_rfl hs
    rw [hb] at this
    obtain ⟨b', t', v, hx, hv, ht, hB⟩ := this.moves
    exact ⟨v, _, _, hv, ⟨_, hx, rfl⟩, ht, hk v _ _ hv hB⟩
  | iter B hbody hk =>
    cases hn
    refine ⟨w, _, m', le_rfl, rfl, hs, ?_⟩
    refine (hbody w le_rfl).seq fun v a a' hv ha => ?_
    cases ha with
    | none =>
      exact .iter B (fun u hu => hbody u (hv.trans hu)) fun u b b' hu => hk u b b' (hv.trans hu)
    | some hb => exact hk v _ _ hv hb

end Lockstep

/-- The program does the same on both sides. -/
def Unmoved (R : ω → σ → σ → Prop) (p : Prog σ γ α) : Prop := ∀ w, Lockstep R w p p Equal

namespace Unmoved

variable {R : ω → σ → σ → Prop} {w : ω}

theorem ret (a : α) : Unmoved R (pure a : Prog σ γ α) := fun _ => .ret rfl

theorem bind {p : Prog σ γ α} {q : α → Prog σ γ β} (hp : Unmoved R p)
    (hq : ∀ a, Unmoved R (q a)) : Unmoved R (p >>= q) :=
  fun w => (hp w).seq fun v a _ _ ha => ha ▸ hq a v

/-- A program that does the same, and what follows it. -/
theorem seq {p : Prog σ γ α} {q q' : α → Prog σ γ β} {Q : ω → β → β → Prop} (hp : Unmoved R p)
    (hq : ∀ v a, w ≤ v → Lockstep R v (q a) (q' a) Q) : Lockstep R w (p >>= q) (p >>= q') Q :=
  (hp w).seq fun v a _ hv ha => ha ▸ hq v a hv

theorem read {f : σ → α} (h : ∀ w s s', R w s s' → f s' = f s) :
    Unmoved R (Prog.read f : Prog σ γ α) :=
  fun _ => .read fun v s s' _ hs => h v s s' hs

theorem store {f : σ → σ} {aux : σ → γ → γ} (h : ∀ w s s', R w s s' → R w (f s) (f s')) :
    Unmoved R (Prog.modifyWith f aux) :=
  fun _ => .stay fun v s s' _ hs => h v s s' hs

theorem atomic {f : σ → Option (α × σ)} {aux : α → σ → γ → γ}
    (h : ∀ w s s', R w s s' → Agree R Equal w (f s) (f s')) : Unmoved R (Prog.atomicWith f aux) :=
  fun _ => .atomic fun v s s' _ hs => h v s s' hs

theorem foldlM {f : δ → β → Prog σ γ δ} (hf : ∀ d x, Unmoved R (f d x)) :
    ∀ (xs : List β) (d : δ), Unmoved R (xs.foldlM f d)
  | [], d => ret d
  | x :: xs, d => by
    rw [List.foldlM_cons]
    exact bind (hf d x) fun d' => foldlM hf xs d'

theorem forM {f : β → Prog σ γ PUnit} (hf : ∀ x, Unmoved R (f x)) :
    ∀ xs : List β, Unmoved R (xs.forM f)
  | [] => ret _
  | x :: xs => bind (hf x) fun _ => forM hf xs

end Unmoved

end TenzorBus.Conc
