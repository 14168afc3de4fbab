import TenzorBus.Conc.Acts
import TenzorBus.Conc.Script

/-!
# Observers

Somebody who watches a run and takes notes. After every action the observer is told who acted and
what the memory was before and after. The notes are auxiliary state: no program reads them, and
every run of the system is also a run that is watched.

* `Prog.watch`, `System.watch` : the programs and the system with the notes
* `System.Reach.watched`, `System.Reach.unwatched` : watching neither removes nor adds a run
* `Rules.Outline.watch` : an outline for a program whose actions are all of one kind
* `Move.watch` : scripts of watched runs
-/

namespace TenzorBus.Conc

variable {ι σ γ μ α β : Type}

/-- How the notes change when an actor has acted. -/
abbrev Observer (ι σ γ μ : Type) := ι → σ × γ → σ × γ → μ → μ

namespace Prog

/-- The program of actor `i` under observation. -/
def watch (o : Observer ι σ γ μ) (i : ι) : {α : Type} → Prog σ γ α → Prog σ (γ × μ) α
  | _, .ret a => .ret a
  | _, .act f aux k =>
    .act f
      (fun b s g =>
        (aux b s g.1, o i (s, g.1) ((f s).elim s (·.2), aux b s g.1) g.2))
      fun b => (k b).watch o i
  | _, .iter body k => .iter (body.watch o i) fun b => (k b).watch o i

variable {o : Observer ι σ γ μ} {i : ι}

theorem watch_bind (p : Prog σ γ α) (q : α → Prog σ γ β) :
    (p.bind q).watch o i = (p.watch o i).bind fun a => (q a).watch o i := by
  induction p with
  | ret a => rfl
  | act f aux k ih => simp only [bind, watch, ih]
  | iter body k _ ih => simp only [bind, watch, ih]

theorem watch_again (body : Prog σ γ (Option β)) (k : β → Prog σ γ α) :
    (fun r => (again body k r).watch o i) =
      again (body.watch o i) fun b => (k b).watch o i := by
  funext r
  cases r <;> rfl

/-- What is noted about the next step of a program; unfolding a loop is not an action. -/
def noted (o : Observer ι σ γ μ) (i : ι) (m m' : σ × γ) (w : μ) : Prog σ γ α → μ
  | .act _ _ _ => o i m m' w
  | _ => w

/-- A watched program does what the program does. -/
theorem next?_watch (p : Prog σ γ α) (s : σ) (g : γ) (w : μ) :
    (p.watch o i).next? (s, g, w) = (p.next? (s, g)).map fun r =>
      (r.1.watch o i, r.2.1, r.2.2, p.noted o i (s, g) r.2 w) := by
  cases p with
  | ret a => rfl
  | act f aux k =>
    simp only [watch, next?, Option.map_map]
    cases hf : f s with
    | none => rfl
    | some r => simp [noted]
  | iter body k =>
    simp only [watch, next?, Option.map_some, watch_bind, watch_again, noted]

end Prog

namespace System

/-- The system under observation. -/
def watch (S : System ι σ γ) (o : Observer ι σ γ μ) : System ι σ (γ × μ) where
  starts i s p := ∃ q, S.starts i s q ∧ p = q.watch o i
  live := S.live
  env m m' := S.env (m.1, m.2.1) (m'.1, m'.2.1) ∧ m'.2.2 = m.2.2

end System

/-- A configuration, with the notes. -/
def Config.watched (o : Observer ι σ γ μ) (c : Config ι σ γ) (w : μ) : Config ι σ (γ × μ) where
  mem := (c.mem.1, c.mem.2, w)
  pool i := (c.pool i).watch o i

namespace System

variable [DecidableEq ι] {S : System ι σ γ} {o : Observer ι σ γ μ} {c d : Config ι σ γ}

theorem watched_update {i : ι} {p : Prog σ γ Unit} {m : σ × γ} {w : μ} :
    (({ mem := m, pool := Function.update c.pool i p } : Config ι σ γ).watched o w) =
      { mem := (m.1, m.2, w), pool := Function.update (c.watched o w).pool i (p.watch o i) } := by
  unfold Config.watched
  congr 1
  funext j
  by_cases hj : j = i
  · subst hj
    simp
  · simp [Function.update_of_ne hj]

theorem Step.watched (h : S.Step c d) (w : μ) :
    ∃ w', (S.watch o).Step (c.watched o w) (d.watched o w') := by
  cases h with
  | start i p idle live h =>
    refine ⟨w, ?_⟩
    rw [watched_update (m := c.mem)]
    refine .start i _ ?_ live ⟨p, h, rfl⟩
    show (c.pool i).watch o i = .ret ()
    rw [idle]
    rfl
  | act i p m live h =>
    have hn := Prog.next?_watch (o := o) (i := i) (c.pool i) c.mem.1 c.mem.2 w
    rw [show (c.mem.1, c.mem.2) = c.mem from rfl, h, Option.map_some] at hn
    refine ⟨(c.pool i).noted o i c.mem m w, ?_⟩
    rw [watched_update (m := m)]
    exact .act i _ _ live hn
  | env m h => exact ⟨w, .env (m.1, m.2, w) ⟨h, rfl⟩⟩

/-- Every run can be watched. -/
theorem Reach.watched {ok : σ × γ → σ × γ → Prop} {init : Config ι σ γ → Prop} (w₀ : μ)
    (h : S.Reach ok init c) :
    ∃ w, (S.watch o).Reach (fun m m' => ok (m.1, m.2.1) (m'.1, m'.2.1))
      (fun d => ∃ c, init c ∧ d = c.watched o w₀) (c.watched o w) := by
  induction h with
  | init h => exact ⟨w₀, .init ⟨_, h, rfl⟩⟩
  | step _ hs hok ih =>
    obtain ⟨w, hw⟩ := ih
    obtain ⟨w', hs'⟩ := hs.watched w
    exact ⟨w', hw.step hs' hok⟩

theorem Step.unwatched {e : Config ι σ (γ × μ)} {w : μ} (h : (S.watch o).Step (c.watched o w) e) :
    ∃ d w', e = d.watched o w' ∧ S.Step c d := by
  cases h with
  | start i p idle live h =>
    obtain ⟨q, hq, rfl⟩ := h
    refine ⟨{ c with pool := Function.update c.pool i q }, w, watched_update.symm, ?_⟩
    refine .start i q ?_ live hq
    cases hp : c.pool i with
    | ret a => rfl
    | act f aux k =>
      have : (c.pool i).watch o i = .ret () := idle
      rw [hp] at this
      cases this
    | iter body k =>
      have : (c.pool i).watch o i = .ret () := idle
      rw [hp] at this
      cases this
  | act i p m live h =>
    have hn := Prog.next?_watch (o := o) (i := i) (c.pool i) c.mem.1 c.mem.2 w
    obtain ⟨r, hr, he⟩ := Option.map_eq_some_iff.mp (hn.symm.trans h)
    obtain ⟨rfl, rfl⟩ := Prod.mk.inj he
    exact ⟨{ mem := r.2, pool := Function.update c.pool i r.1 }, _, watched_update.symm,
      .act i r.1 r.2 live hr⟩
  | env m h => exact ⟨{ c with mem := (m.1, m.2.1) }, m.2.2, rfl, .env _ h.1⟩

/-- A watched run is a run. -/
theorem Reach.unwatched {ok' : σ × (γ × μ) → σ × (γ × μ) → Prop} {ok : σ × γ → σ × γ → Prop}
    {init : Config ι σ γ → Prop} {w₀ : μ} {e : Config ι σ (γ × μ)}
    (hok : ∀ m m', ok' m m' → ok (m.1, m.2.1) (m'.1, m'.2.1))
    (h : (S.watch o).Reach ok' (fun d => ∃ c, init c ∧ d = c.watched o w₀) e) :
    ∃ d w, e = d.watched o w ∧ S.Reach ok init d := by
  induction h with
  | init h =>
    obtain ⟨c, hc, rfl⟩ := h
    exact ⟨c, w₀, rfl, .init hc⟩
  | step _ hs h ih =>
    obtain ⟨d, w, rfl, hd⟩ := ih
    obtain ⟨d', w', rfl, hs'⟩ := hs.unwatched
    exact ⟨d', w', rfl, hd.step hs' (hok _ _ h)⟩

/-- A script of the watched system. -/
def Move.watch (o : Observer ι σ γ μ) : Move S → Move (S.watch o)
  | .start i p legal =>
    .start i (fun s => (p s).map fun q => q.watch o i) fun s q hq => by
      obtain ⟨q', hq', rfl⟩ := Option.map_eq_some_iff.mp hq
      exact ⟨q', legal s q' hq', rfl⟩
  | .steps i count => .steps i count
  | .env f legal =>
    .env (fun m => ((f (m.1, m.2.1)).1, (f (m.1, m.2.1)).2, m.2.2)) fun m =>
      ⟨legal (m.1, m.2.1), rfl⟩

end System

namespace Rules

variable {S : System ι σ γ} {o : Observer ι σ γ μ} {R : Rules (S.watch o)} {i : ι}

theorem Outline.watchBind {p : Prog σ γ α} {q : α → Prog σ γ β} {P : σ × (γ × μ) → Prop}
    {M : α → σ × (γ × μ) → Prop} {Q : β → σ × (γ × μ) → Prop}
    (hp : R.Outline i (p.watch o i) P M) (hq : ∀ a, R.Outline i ((q a).watch o i) (M a) Q) :
    R.Outline i ((p >>= q).watch o i) P Q := by
  rw [Prog.bind_eq, Prog.watch_bind]
  exact hp.bind hq

/-- The rule for one action under observation. -/
theorem Outline.watchAct {f : σ → Option (β × σ)} {aux : β → σ → γ → γ} {P : σ × (γ × μ) → Prop}
    {Q : β → σ × (γ × μ) → Prop} (hQ : ∀ b, R.Stable i (Q b))
    (h : ∀ s g w, R.inv (s, g, w) → S.live i s → P (s, g, w) → ∀ b t, f s = some (b, t) →
      R.Fine i (Q b) (s, g, w) (t, aux b s g, o i (s, g) (t, aux b s g) w)) :
    R.Outline i ((Prog.atomicWith f aux).watch o i) P Q := by
  refine ⟨Q, hQ, fun m hi hl hm b t ht => ?_, fun b m _ hm => hm⟩
  simp only [ht, Option.elim_some]
  exact h m.1 m.2.1 m.2.2 hi hl hm b t ht

theorem Outline.watchLoop {body : Prog σ γ (Option β)} {P : σ × (γ × μ) → Prop}
    {Q : β → σ × (γ × μ) → Prop} (hP : R.Stable i P) (hQ : ∀ b, R.Stable i (Q b))
    (h : R.Outline i (body.watch o i) P fun r m => match r with
      | none => P m
      | some b => Q b m) : R.Outline i ((Prog.loop body).watch o i) P Q :=
  ⟨P, Q, hP, hQ, fun _ _ hm => hm, h, fun _ _ _ hm => hm⟩

/-- A loop over a list, under observation. -/
theorem Outline.watchFoldlM {f : β → α → Prog σ γ β}
    (J : List α → β → σ × (γ × μ) → Prop)
    (hf : ∀ done x b, R.Outline i ((f b x).watch o i) (J done b) (J (done ++ [x]))) :
    ∀ (xs done : List α) (b : β),
      R.Outline i ((xs.foldlM f b).watch o i) (J done b) (J (done ++ xs)) := by
  intro xs
  induction xs with
  | nil =>
    intro done b m _ hm
    simpa using hm
  | cons x xs ih =>
    intro done b
    rw [List.foldlM_cons]
    refine Outline.watchBind (hf done x b) fun b' => ?_
    have := ih (done ++ [x]) b'
    rwa [List.append_assoc, List.singleton_append] at this

/-- A program all of whose actions keep an assertion keeps it. -/
theorem Outline.ofActs {K : σ × γ → σ × γ → Prop} {Φ : σ × (γ × μ) → Prop} (hΦ : R.Stable i Φ)
    (h : ∀ s g w s' g', R.inv (s, g, w) → S.live i s → K (s, g) (s', g') → Φ (s, g, w) →
      R.Fine i Φ (s, g, w) (s', g', o i (s, g) (s', g') w)) {p : Prog σ γ α} (hp : p.Acts K) :
    R.Outline i (p.watch o i) Φ fun _ => Φ := by
  induction p with
  | ret a => exact fun m _ hm => hm
  | act f aux k ih =>
    refine ⟨fun _ => Φ, fun _ => hΦ, fun m hi hl hm b t ht => ?_, fun b => ih b (hp.2 b)⟩
    simp only [ht, Option.elim_some]
    exact h m.1 m.2.1 m.2.2 t _ hi hl (hp.1 m.1 m.2.1 b t ht) hm
  | iter body k ihb ih =>
    refine ⟨Φ, fun _ => Φ, hΦ, fun _ => hΦ, fun _ _ hm => hm, (ihb hp.1).post ?_, fun b =>
      ih b (hp.2 b)⟩
    intro r m _ hm
    cases r <;> exact hm

end Rules

end TenzorBus.Conc
