import TenzorBus.Conc.System
import Mathlib.Tactic.Choose

/-!
# Rely and guarantee

Proof outlines for the programs of a system. Every actor has a guarantee, the steps it may take;
every assertion of an actor's outline must survive the guarantees of all the others. What holds of
the shared state between any two steps is the invariant.

* `Rules` : the invariant, the guarantees, the condition on the run
* `Rules.Stable` : an assertion of one actor that the others cannot falsify
* `Rules.Outline` : a program with an assertion at each of its actions
* `Rules.Sound` : the obligations that make outlines mean something
* `Rules.Sound.inv` : the invariant holds in every reachable configuration
* `Rules.Sound.step` : every step of a run is one that the rules allow
-/

namespace TenzorBus.Conc

/-- The invariant, the guarantees of the actors, the condition on the run, and what each actor
knows while it is idle. -/
structure Rules {ι σ γ : Type} (S : System ι σ γ) where
  inv : σ × γ → Prop
  guar : ι → σ × γ → σ × γ → Prop
  ok : σ × γ → σ × γ → Prop
  rest : ι → σ × γ → Prop

namespace Rules

variable {ι σ γ α β δ : Type} {S : System ι σ γ} (R : Rules S) (i : ι)

/-- A step of somebody else, after which `i` is still alive. -/
structure Rely (s t : σ × γ) : Prop where
  before : R.inv s
  after : R.inv t
  ok : R.ok s t
  live : S.live i t.1
  step : (∃ j, j ≠ i ∧ R.guar j s t) ∨ S.env s t

/-- Nobody but `i` can falsify `P`. -/
def Stable (P : σ × γ → Prop) : Prop :=
  ∀ s t, R.Rely i s t → P s → P t

variable {R i}

theorem Stable.and {P Q : σ × γ → Prop} (hP : R.Stable i P) (hQ : R.Stable i Q) :
    R.Stable i fun s => P s ∧ Q s :=
  fun s t h hs => ⟨hP s t h hs.1, hQ s t h hs.2⟩

theorem Stable.or {P Q : σ × γ → Prop} (hP : R.Stable i P) (hQ : R.Stable i Q) :
    R.Stable i fun s => P s ∨ Q s :=
  fun s t h hs => hs.imp (hP s t h) (hQ s t h)

theorem Stable.exists {ξ : Sort*} {P : ξ → σ × γ → Prop} (hP : ∀ a, R.Stable i (P a)) :
    R.Stable i fun s => ∃ a, P a s :=
  fun s t h ⟨a, hs⟩ => ⟨a, hP a s t h hs⟩

theorem Stable.const (φ : Prop) : R.Stable i fun _ => φ := fun _ _ _ h => h

theorem Stable.imp_const {φ : Prop} {P : σ × γ → Prop} (hP : φ → R.Stable i P) :
    R.Stable i fun s => φ → P s :=
  fun s t h hs hφ => hP hφ s t h (hs hφ)

variable (R i)

/-- `i` may do the step from `s` to `t`, and reaches `Q`. -/
def Fine (Q : σ × γ → Prop) (s t : σ × γ) : Prop :=
  R.guar i s t ∧ (R.inv t → R.ok s t → Q t)

/-- A proof outline: before each action an assertion, after it another, all of them stable. -/
def Outline : {α : Type} → Prog σ γ α → (σ × γ → Prop) → (α → σ × γ → Prop) → Prop
  | _, .ret a, P, Q => ∀ s, R.inv s → P s → Q a s
  | _, .act (β := β) f aux k, P, Q =>
    ∃ M : β → σ × γ → Prop, (∀ b, R.Stable i (M b)) ∧
      (∀ s, R.inv s → S.live i s.1 → P s → ∀ b t, f s.1 = some (b, t) →
        R.Fine i (M b) s (t, aux b s.1 s.2)) ∧
      ∀ b, Outline (k b) (M b) Q
  | _, .iter (β := β) body k, P, Q =>
    ∃ (J : σ × γ → Prop) (M : β → σ × γ → Prop), R.Stable i J ∧ (∀ b, R.Stable i (M b)) ∧
      (∀ s, R.inv s → P s → J s) ∧
      Outline body J (fun r s => match r with
        | none => J s
        | some b => M b s) ∧
      ∀ b, Outline (k b) (M b) Q

variable {R i}

theorem Outline.pre {p : Prog σ γ α} {P P' : σ × γ → Prop} {Q : α → σ × γ → Prop}
    (h : R.Outline i p P Q) (hP : ∀ s, R.inv s → P' s → P s) : R.Outline i p P' Q := by
  cases p with
  | ret a => exact fun s hi hs => h s hi (hP s hi hs)
  | act f aux k =>
    obtain ⟨M, hM, hf, hk⟩ := h
    exact ⟨M, hM, fun s hi hl hs => hf s hi hl (hP s hi hs), hk⟩
  | iter body k =>
    obtain ⟨J, M, hJ, hM, hPJ, hb, hk⟩ := h
    exact ⟨J, M, hJ, hM, fun s hi hs => hPJ s hi (hP s hi hs), hb, hk⟩

theorem Outline.post {p : Prog σ γ α} : ∀ {P : σ × γ → Prop} {Q Q' : α → σ × γ → Prop},
    R.Outline i p P Q → (∀ a s, R.inv s → Q a s → Q' a s) → R.Outline i p P Q' := by
  induction p with
  | ret a => exact fun h hQ s hi hs => hQ a s hi (h s hi hs)
  | act f aux k ih =>
    intro P Q Q' h hQ
    obtain ⟨M, hM, hf, hk⟩ := h
    exact ⟨M, hM, hf, fun b => ih b (hk b) hQ⟩
  | iter body k _ ih =>
    intro P Q Q' h hQ
    obtain ⟨J, M, hJ, hM, hPJ, hb, hk⟩ := h
    exact ⟨J, M, hJ, hM, hPJ, hb, fun b => ih b (hk b) hQ⟩

theorem Outline.ret {a : α} {P : σ × γ → Prop} {Q : α → σ × γ → Prop}
    (h : ∀ s, R.inv s → P s → Q a s) : R.Outline i (.ret a) P Q := h

theorem Outline.bind {p : Prog σ γ α} {g : α → Prog σ γ β} :
    ∀ {P : σ × γ → Prop} {M : α → σ × γ → Prop} {Q : β → σ × γ → Prop},
      R.Outline i p P M → (∀ a, R.Outline i (g a) (M a) Q) → R.Outline i (p.bind g) P Q := by
  induction p with
  | ret a => exact fun h hg => (hg a).pre h
  | act f aux k ih =>
    intro P M Q h hg
    obtain ⟨N, hN, hf, hk⟩ := h
    exact ⟨N, hN, hf, fun b => ih b (hk b) hg⟩
  | iter body k _ ih =>
    intro P M Q h hg
    obtain ⟨J, N, hJ, hN, hPJ, hb, hk⟩ := h
    exact ⟨J, N, hJ, hN, hPJ, hb, fun b => ih b (hk b) hg⟩

/-- The rule for one action. -/
theorem Outline.atomicWith {f : σ → Option (β × σ)} {aux : β → σ → γ → γ} {P : σ × γ → Prop}
    {Q : β → σ × γ → Prop} (hQ : ∀ b, R.Stable i (Q b))
    (h : ∀ s g, R.inv (s, g) → S.live i s → P (s, g) → ∀ b t, f s = some (b, t) →
      R.Fine i (Q b) (s, g) (t, aux b s g)) : R.Outline i (Prog.atomicWith f aux) P Q :=
  ⟨Q, hQ, fun s => h s.1 s.2, fun _ _ _ hs => hs⟩

/-- The rule for an action that always succeeds and answers nothing. -/
theorem Outline.modifyWith {f : σ → σ} {aux : σ → γ → γ} {P Q : σ × γ → Prop}
    (hQ : R.Stable i Q)
    (h : ∀ s g, R.inv (s, g) → S.live i s → P (s, g) → R.Fine i Q (s, g) (f s, aux s g)) :
    R.Outline i (Prog.modifyWith f aux) P fun _ => Q := by
  refine Outline.atomicWith (fun _ => hQ) fun s g hi hl hs b t ht => ?_
  cases Option.some.inj ht
  exact h s g hi hl hs

theorem Outline.modify {f : σ → σ} {P Q : σ × γ → Prop} (hQ : R.Stable i Q)
    (h : ∀ s g, R.inv (s, g) → S.live i s → P (s, g) → R.Fine i Q (s, g) (f s, g)) :
    R.Outline i (Prog.modify f) P fun _ => Q := by
  refine Outline.atomicWith (fun _ => hQ) fun s g hi hl hs b t ht => ?_
  cases Option.some.inj ht
  exact h s g hi hl hs

/-- Reading changes nothing: what is learnt must be stable, and idling must be allowed. -/
theorem Outline.read {f : σ → β} {P : σ × γ → Prop} {Q : β → σ × γ → Prop}
    (hQ : ∀ b, R.Stable i (Q b)) (hidle : ∀ s, R.inv s → R.guar i s s)
    (h : ∀ s, R.inv s → S.live i s.1 → P s → Q (f s.1) s) : R.Outline i (Prog.read f) P Q := by
  refine Outline.atomicWith hQ fun s g hi hl hs b t ht => ?_
  cases Option.some.inj ht
  exact ⟨hidle _ hi, fun _ _ => h _ hi hl hs⟩

theorem Outline.loop {body : Prog σ γ (Option β)} {P : σ × γ → Prop} {Q : β → σ × γ → Prop}
    (hP : R.Stable i P) (hQ : ∀ b, R.Stable i (Q b))
    (h : R.Outline i body P fun r s => match r with
      | none => P s
      | some b => Q b s) : R.Outline i (Prog.loop body) P Q :=
  ⟨P, Q, hP, hQ, fun _ _ hs => hs, h, fun _ _ _ hs => hs⟩

/-- A loop over a list keeps its invariant, which may speak of what is done and what is left. -/
theorem Outline.foldlM {f : δ → β → Prog σ γ δ} (J : List β → List β → δ → σ × γ → Prop)
    (hf : ∀ done x rest d, R.Outline i (f d x) (J done (x :: rest) d)
      (J (done ++ [x]) rest)) :
    ∀ (xs done : List β) (d : δ),
      R.Outline i (xs.foldlM f d) (J done xs d) (J (done ++ xs) []) := by
  intro xs
  induction xs with
  | nil => intro done d s _ hs; simpa using hs
  | cons x xs ih =>
    intro done d
    rw [List.foldlM_cons]
    refine Outline.bind (hf done x xs d) fun d' => ?_
    have := ih (done ++ [x]) d'
    rwa [List.append_assoc, List.singleton_append] at this

/-- The same for a loop that only acts. -/
theorem Outline.forM {f : β → Prog σ γ PUnit} (J : List β → List β → σ × γ → Prop)
    (hf : ∀ done x rest, R.Outline i (f x) (J done (x :: rest))
      (fun _ => J (done ++ [x]) rest)) :
    ∀ (xs done : List β),
      R.Outline i (xs.forM f) (J done xs) (fun _ => J (done ++ xs) []) := by
  intro xs
  induction xs with
  | nil => intro done s _ hs; simpa using hs
  | cons x xs ih =>
    intro done
    rw [show (x :: xs).forM f = (f x).bind fun _ => xs.forM f from rfl]
    refine Outline.bind (hf done x xs) fun _ => ?_
    have := ih (done ++ [x])
    rwa [List.append_assoc, List.singleton_append] at this

/-- Something that exists when a program begins may be named for as long as the program runs. -/
theorem Outline.exists {ξ : Sort*} {p : Prog σ γ α} : ∀ {P : ξ → σ × γ → Prop}
    {Q : α → σ × γ → Prop}, (∀ x, R.Outline i p (P x) Q) →
      R.Outline i p (fun s => ∃ x, P x s) Q := by
  induction p with
  | ret a => exact fun h s hi ⟨x, hx⟩ => h x s hi hx
  | act f aux k ih =>
    intro P Q h
    choose M hM hf hk using h
    exact ⟨fun b s => ∃ x, M x b s, fun b => Stable.exists fun x => hM x b,
      fun s hi hl ⟨x, hx⟩ b t ht =>
        ⟨(hf x s hi hl hx b t ht).1, fun hit hok => ⟨x, (hf x s hi hl hx b t ht).2 hit hok⟩⟩,
      fun b => ih b fun x => hk x b⟩
  | iter body k ihb ih =>
    intro P Q h
    choose J M hJ hM hPJ hb hk using h
    refine ⟨fun s => ∃ x, J x s, fun b s => ∃ x, M x b s, Stable.exists hJ,
      fun b => Stable.exists fun x => hM x b, fun s hi ⟨x, hx⟩ => ⟨x, hPJ x s hi hx⟩, ?_,
      fun b => ih b fun x => hk x b⟩
    refine ihb fun x => (hb x).post fun r s _ hr => ?_
    cases r with
    | none => exact ⟨x, hr⟩
    | some b => exact ⟨x, hr⟩

/-- An assumption that does not depend on the state. -/
theorem Outline.assuming {p : Prog σ γ α} {P : σ × γ → Prop} {Q : α → σ × γ → Prop} {φ : Prop}
    (h : φ → R.Outline i p P Q) : R.Outline i p (fun s => φ ∧ P s) Q :=
  (Outline.exists h).pre fun _ _ hs => ⟨hs.1, hs.2⟩

/-- What an action does to the outline of a program: the step is allowed, and the rest of the
program has an outline from a stable assertion that now holds. -/
theorem Outline.next? {p q : Prog σ γ α} {P : σ × γ → Prop} {Q : α → σ × γ → Prop}
    {s t : σ × γ} (h : R.Outline i p P Q) (hi : R.inv s) (hl : S.live i s.1) (hs : P s)
    (hn : p.next? s = some (q, t)) :
    (R.guar i s t ∨ t = s) ∧ (R.inv t → R.ok s t →
      ∃ P', R.Stable i P' ∧ R.Outline i q P' Q ∧ P' t) := by
  cases p with
  | ret a => simp [Prog.next?] at hn
  | act f aux k =>
    obtain ⟨M, hM, hf, hk⟩ := h
    obtain ⟨r, hr, he⟩ := Option.map_eq_some_iff.mp hn
    obtain ⟨rfl, rfl⟩ := Prod.mk.inj he
    have hfine := hf s hi hl hs r.1 r.2 hr
    exact ⟨Or.inl hfine.1, fun hit hok => ⟨M r.1, hM r.1, hk r.1, hfine.2 hit hok⟩⟩
  | iter body k =>
    obtain ⟨J, M, hJ, hM, hPJ, hb, hk⟩ := h
    obtain ⟨rfl, rfl⟩ := Prod.mk.inj (Option.some.inj hn)
    refine ⟨Or.inr rfl, fun _ _ => ⟨J, hJ, Outline.bind hb fun r => ?_, hPJ s hi hs⟩⟩
    cases r with
    | none => exact ⟨J, M, hJ, hM, fun _ _ hs => hs, hb, hk⟩
    | some b => exact hk b

end Rules

namespace Rules

/-- The obligations under which the outlines of all operations give the invariant. -/
structure Sound {ι σ γ : Type} {S : System ι σ γ} (R : Rules S)
    (init : Config ι σ γ → Prop) : Prop where
  initial : ∀ c, init c → R.inv c.mem ∧ ∀ i, c.pool i = .ret () ∧ R.rest i c.mem
  restStable : ∀ i, R.Stable i (R.rest i)
  starts : ∀ i s p, S.starts i s.1 p → R.inv s → S.live i s.1 → R.rest i s →
    ∃ P, R.Stable i P ∧ P s ∧ R.Outline i p P fun _ => R.rest i
  guarInv : ∀ i s t, R.inv s → S.live i s.1 → R.ok s t → R.guar i s t → R.inv t
  envInv : ∀ s t, R.inv s → R.ok s t → S.env s t → R.inv t
  guarLive : ∀ i j s t, R.guar j s t → S.live i t.1 → S.live i s.1
  envLive : ∀ i s t, S.env s t → S.live i t.1 → S.live i s.1

/-- What holds in every reachable configuration: the invariant, and for each live actor the
outline of what it has left to do, from an assertion that holds now. -/
def Holds {ι σ γ : Type} {S : System ι σ γ} (R : Rules S) (c : Config ι σ γ) : Prop :=
  R.inv c.mem ∧ ∀ i, S.live i c.mem.1 →
    ∃ P, R.Stable i P ∧ P c.mem ∧ R.Outline i (c.pool i) P fun _ => R.rest i

variable {ι σ γ : Type} [DecidableEq ι] {S : System ι σ γ} {R : Rules S}
  {init : Config ι σ γ → Prop}

theorem Sound.start (hR : R.Sound init) {c : Config ι σ γ} {i : ι} {p : Prog σ γ Unit}
    (h : R.Holds c) (hidle : c.pool i = .ret ()) (hl : S.live i c.mem.1)
    (hp : S.starts i c.mem.1 p) :
    R.Holds { c with pool := Function.update c.pool i p } := by
  refine ⟨h.1, fun j hj => ?_⟩
  by_cases hji : j = i
  · subst hji
    obtain ⟨P, -, hPs, hO⟩ := h.2 j hl
    rw [hidle] at hO
    simpa using hR.starts j c.mem p hp h.1 hl (hO _ h.1 hPs)
  · simpa [Function.update_of_ne hji] using h.2 j hj

/-- A step of `i` keeps everything: its own outline moves on, the others' assertions survive. -/
theorem Sound.act (hR : R.Sound init) {c : Config ι σ γ} {i : ι} {p : Prog σ γ Unit}
    {m : σ × γ} (h : R.Holds c) (hl : S.live i c.mem.1)
    (hn : (c.pool i).next? c.mem = some (p, m)) (hok : R.ok c.mem m) :
    R.Holds { mem := m, pool := Function.update c.pool i p } := by
  obtain ⟨P, hP, hPs, hO⟩ := h.2 i hl
  obtain ⟨hg, hrest⟩ := hO.next? h.1 hl hPs hn
  have him : R.inv m := by
    rcases hg with hg | rfl
    · exact hR.guarInv i _ _ h.1 hl hok hg
    · exact h.1
  refine ⟨him, fun j hj => ?_⟩
  by_cases hji : j = i
  · subst hji
    obtain ⟨P', hP', hO', hPm⟩ := hrest him hok
    exact ⟨P', hP', hPm, by simpa using hO'⟩
  · suffices hs : ∃ P, R.Stable j P ∧ P m ∧
        R.Outline j (c.pool j) P fun _ => R.rest j by
      simpa [Function.update_of_ne hji] using hs
    rcases hg with hg | rfl
    · obtain ⟨P', hP', hPs', hO'⟩ := h.2 j (hR.guarLive j i _ _ hg hj)
      exact ⟨P', hP', hP' _ _ ⟨h.1, him, hok, hj, Or.inl ⟨i, Ne.symm hji, hg⟩⟩ hPs', hO'⟩
    · exact h.2 j hj

omit [DecidableEq ι] in
theorem Sound.env (hR : R.Sound init) {c : Config ι σ γ} {m : σ × γ} (h : R.Holds c)
    (he : S.env c.mem m) (hok : R.ok c.mem m) : R.Holds { c with mem := m } := by
  have him : R.inv m := hR.envInv _ _ h.1 hok he
  refine ⟨him, fun j hj => ?_⟩
  obtain ⟨P, hP, hPs, hO⟩ := h.2 j (hR.envLive j _ _ he hj)
  exact ⟨P, hP, hP _ _ ⟨h.1, him, hok, hj, Or.inr he⟩ hPs, hO⟩

/-- Everything that the outlines promise holds in every reachable configuration. -/
theorem Sound.holds (hR : R.Sound init) {c : Config ι σ γ} (h : S.Reach R.ok init c) :
    R.Holds c := by
  induction h with
  | init h =>
    obtain ⟨hi, hidle⟩ := hR.initial _ h
    exact ⟨hi, fun i _ => ⟨R.rest i, hR.restStable i, (hidle i).2, by
      rw [(hidle i).1]; exact Outline.ret fun _ _ hs => hs⟩⟩
  | step _ hs hok ih =>
    cases hs with
    | start i p idle hl hp => exact hR.start ih idle hl hp
    | act i p m hl hn => exact hR.act ih hl hn hok
    | env m he => exact hR.env ih he hok

/-- The invariant holds in every reachable configuration. -/
theorem Sound.inv (hR : R.Sound init) {c : Config ι σ γ} (h : S.Reach R.ok init c) :
    R.inv c.mem :=
  (hR.holds h).1

/-- What an action of `i` does: something that `i` may do, or nothing. -/
theorem Sound.acts (hR : R.Sound init) {c : Config ι σ γ} (h : S.Reach R.ok init c) {i : ι}
    {p : Prog σ γ Unit} {m : σ × γ} (hl : S.live i c.mem.1)
    (hn : (c.pool i).next? c.mem = some (p, m)) : R.guar i c.mem m ∨ m = c.mem := by
  have hh := hR.holds h
  obtain ⟨P, -, hPs, hO⟩ := hh.2 i hl
  exact (hO.next? hh.1 hl hPs hn).1

/-- What the steps of a run do: an actor does what it may do, or the environment does something,
or the memory stays as it is. -/
theorem Sound.step (hR : R.Sound init) {c d : Config ι σ γ} (h : S.Reach R.ok init c)
    (hs : S.Step c d) : (∃ i, S.live i c.mem.1 ∧ R.guar i c.mem d.mem) ∨ S.env c.mem d.mem ∨
      d.mem = c.mem := by
  cases hs with
  | start i p idle hl hp => exact .inr (.inr rfl)
  | act i p m hl hn =>
    rcases hR.acts h hl hn with hg | rfl
    · exact .inl ⟨i, hl, hg⟩
    · exact .inr (.inr rfl)
  | env m he => exact .inr (.inl he)

/-- What an idle actor knows, it knows even when it is dead, if no step of the others falsifies
it. -/
theorem Sound.idle (hR : R.Sound init)
    (hkeep : ∀ i s t, R.inv s → R.inv t → R.ok s t →
      ((∃ j, j ≠ i ∧ S.live j s.1 ∧ R.guar j s t) ∨ S.env s t) → R.rest i s → R.rest i t)
    (hlive : ∀ i s t, S.live i s.1 → R.guar i s t → S.live i t.1) {c : Config ι σ γ}
    (h : S.Reach R.ok init c) {i : ι} (hidle : c.pool i = .ret ()) : R.rest i c.mem := by
  induction h with
  | init h => exact ((hR.initial _ h).2 i).2
  | @step c d h hs hok ih =>
    have hd := hR.holds (h.step hs hok)
    cases hs with
    | start j p idle hl hp =>
      by_cases hj : i = j
      · subst hj
        exact ih idle
      · exact ih (by simpa [Function.update_of_ne hj] using hidle)
    | act j p m hl hn =>
      have hg := hR.acts h hl hn
      by_cases hj : i = j
      · subst hj
        have hlm : S.live i m.1 := by
          rcases hg with hg | rfl
          · exact hlive i _ _ hl hg
          · exact hl
        obtain ⟨P, -, hP, hO⟩ := hd.2 i hlm
        rw [hidle] at hO
        exact hO _ hd.1 hP
      · have hrest := ih (by simpa [Function.update_of_ne hj] using hidle)
        rcases hg with hg | rfl
        · exact hkeep i _ _ (hR.inv h) hd.1 hok (.inl ⟨j, Ne.symm hj, hl, hg⟩) hrest
        · exact hrest
    | env m he => exact hkeep i _ _ (hR.inv h) hd.1 hok (.inr he) (ih hidle)

/-- A run under other conditions is a run of the rules, if the conditions of the rules follow
step by step. -/
theorem Sound.reach (hR : R.Sound init) {ok : σ × γ → σ × γ → Prop}
    (hok : ∀ s t, R.inv s → ok s t → ((∃ i, S.live i s.1 ∧ R.guar i s t) ∨ S.env s t ∨ t = s) →
      R.ok s t) {c : Config ι σ γ} (h : S.Reach ok init c) : S.Reach R.ok init c := by
  induction h with
  | init h => exact .init h
  | step _ hs hk ih => exact ih.step hs (hok _ _ (hR.inv ih) hk (hR.step ih hs))

end Rules

end TenzorBus.Conc
