import TenzorBus.Conc.Acts

/-!
# What a program has on its hands

A program goes through its actions with something of its own on its hands: nothing yet, a resource
that it has taken, one that it is about to give back. `K h h' m m'` is a condition on an action that
is begun with `h` on the hands and ended with `h'`, whatever the memory holds otherwise.

* `Prog.Carries` : begun with `h`, the program does only what is allowed, and its result goes with
  what it has on its hands at the end
* `Prog.Carries.next` : one atomic step
-/

namespace TenzorBus.Conc

variable {σ γ η α β : Type}

namespace Prog

/-- Begun with `h` on the hands every action of the program satisfies `K`, and `Q` holds of the
result and of what is on the hands at the end. -/
def Carries (K : η → η → σ × γ → σ × γ → Prop) :
    {α : Type} → Prog σ γ α → η → (α → η → Prop) → Prop
  | _, .ret a, h, Q => Q a h
  | _, .act f aux k, h, Q =>
    ∀ s g b s', f s = some (b, s') →
      ∃ h', K h h' (s, g) (s', aux b s g) ∧ (k b).Carries K h' Q
  | _, .iter (β := β) body k, h, Q =>
    ∃ (J : η → Prop) (M : β → η → Prop), J h ∧
      (∀ h, J h → body.Carries K h fun r h' => r.elim (J h') fun b => M b h') ∧
        ∀ b h', M b h' → (k b).Carries K h' Q

namespace Carries

variable {K : η → η → σ × γ → σ × γ → Prop} {h : η} {Q : α → η → Prop}

theorem ret {a : α} (hq : Q a h) : (ret a : Prog σ γ α).Carries K h Q := hq

theorem mono {p : Prog σ γ α} (hp : p.Carries K h Q) {Q' : α → η → Prop}
    (hq : ∀ a h, Q a h → Q' a h) : p.Carries K h Q' := by
  induction p generalizing h with
  | ret a => exact hq a h hp
  | act f aux k ih =>
    intro s g b s' hs
    obtain ⟨h', hk, hp⟩ := hp s g b s' hs
    exact ⟨h', hk, ih b hp hq⟩
  | iter body k _ ih =>
    obtain ⟨J, M, hj, hb, hp⟩ := hp
    exact ⟨J, M, hj, hb, fun b h' hm => ih b (hp b h' hm) hq⟩

theorem bind {p : Prog σ γ β} {M : β → η → Prop} (hp : p.Carries K h M) {q : β → Prog σ γ α}
    (hq : ∀ b h', M b h' → (q b).Carries K h' Q) : (p >>= q).Carries K h Q := by
  induction p generalizing h with
  | ret b => exact hq b h hp
  | act f aux k ih =>
    intro s g b s' hs
    obtain ⟨h', hk, hp⟩ := hp s g b s' hs
    exact ⟨h', hk, ih b hp hq⟩
  | iter body k _ ih =>
    obtain ⟨J, N, hj, hb, hp⟩ := hp
    exact ⟨J, N, hj, hb, fun b h' hn => ih b (hp b h' hn) hq⟩

theorem act {f : σ → Option (α × σ)} {aux : α → σ → γ → γ}
    (hf : ∀ s g b s', f s = some (b, s') → ∃ h', K h h' (s, g) (s', aux b s g) ∧ Q b h') :
    (Prog.atomicWith f aux).Carries K h Q :=
  hf

/-- One action that always succeeds. -/
theorem modifyWith {f : σ → σ} {aux : σ → γ → γ} {h' : η}
    (hf : ∀ s g, K h h' (s, g) (f s, aux s g)) :
    (Prog.modifyWith f aux).Carries K h fun _ x => x = h' :=
  act fun s g b s' hs => by
    cases hs
    exact ⟨h', hf s g, rfl⟩

/-- A program that has the same on its hands all the time. -/
theorem of_acts {p : Prog σ γ α} (hp : p.Acts (K h h)) : p.Carries K h fun _ h' => h' = h := by
  induction p with
  | ret a => exact rfl
  | act f aux k ih => exact fun s g b s' hs => ⟨h, hp.1 s g b s' hs, ih b (hp.2 b)⟩
  | iter body k ihb ih =>
    refine ⟨(· = h), fun _ => (· = h), rfl, ?_, ?_⟩
    · rintro _ rfl
      exact (ihb hp.1).mono fun r h' he => by cases r <;> exact he
    · rintro b _ rfl
      exact ih b (hp.2 b)

/-- Such a program, and what comes after it. -/
theorem then' {p : Prog σ γ β} (hp : p.Acts (K h h)) {q : β → Prog σ γ α}
    (hq : ∀ b, (q b).Carries K h Q) : (p >>= q).Carries K h Q :=
  bind (of_acts hp) fun b _ he => he ▸ hq b

theorem loop {body : Prog σ γ (Option α)}
    (hb : body.Carries K h fun r h' => r.elim (h' = h) fun a => Q a h') :
    (Prog.loop body).Carries K h Q :=
  ⟨(· = h), Q, rfl, fun _ he => he ▸ hb, fun _ _ hq => hq⟩

/-- One atomic step; to unfold a loop changes nothing. -/
theorem next (hK : ∀ h m, K h h m m) {p q : Prog σ γ α} {m m' : σ × γ} (hp : p.Carries K h Q)
    (hn : p.next? m = some (q, m')) : ∃ h', K h h' m m' ∧ q.Carries K h' Q := by
  cases p with
  | ret a => cases hn
  | act f aux k =>
    obtain ⟨r, hr, hn⟩ := Option.map_eq_some_iff.mp hn
    cases hn
    exact hp m.1 m.2 r.1 r.2 hr
  | iter body k =>
    cases hn
    obtain ⟨J, M, hj, hb, hk⟩ := hp
    refine ⟨h, hK h m, bind (hb h hj) fun r h' hr => ?_⟩
    cases r with
    | none => exact ⟨J, M, hr, hb, hk⟩
    | some b => exact hk b h' hr

end Carries

end Prog

end TenzorBus.Conc
