import TenzorBus.Bindings.Custody
import TenzorBus.Guarantee.Run

/-!
# Scripts for the bindings

Runs of programs that use the bindings, written down.

* `Move` : one entry of a script
* `Run.play` : the state that a script leads to is reached by a run
* `Run.script` : so it is in one process, inside the window
-/

namespace TenzorBus.Bindings

open Conc

variable {P : Platform} {L : RingLayout}

/-- An event, or at most so many steps of the call of an actor. -/
inductive Move
  | event (e : Event)
  | steps (a : Actor) (count : Nat)

namespace Interp

/-- What a move does. -/
def apply (may : Event → Interp P L → Bool)
    (chk : State P L.slotCount × Ghost L.slotCount → State P L.slotCount × Ghost L.slotCount → Bool)
    (x : Interp P L) : Move → Option (Interp P L)
  | .event e =>
    if may e x then (x.next? e).bind fun y => if chk x.mem y.mem then some y else none else none
  | .steps a count =>
    (x.pool a).bind fun p =>
      (p.walk (fun m m' => P.alive m.1.os (P.proc a) && chk m m') count x.mem).map fun r =>
        { x with mem := r.2, pool := Function.update x.pool a (some r.1) }

/-- The state that a script leads to. -/
def play (may : Event → Interp P L → Bool)
    (chk : State P L.slotCount × Ghost L.slotCount → State P L.slotCount × Ghost L.slotCount → Bool)
    (moves : List Move) (x : Interp P L) : Option (Interp P L) :=
  moves.foldlM (apply may chk) x

end Interp

/-- A call from its beginning to its return. -/
def Move.whole (a : Actor) (e : Event) : List Move :=
  [.event e, .steps a 4000, .event (.reply a)]

section

variable {may : Event → Interp P L → Prop} {mayb : Event → Interp P L → Bool}
  {ok : State P L.slotCount × Ghost L.slotCount → State P L.slotCount × Ghost L.slotCount → Prop}
  {chk : State P L.slotCount × Ghost L.slotCount → State P L.slotCount × Ghost L.slotCount → Bool}
  {init : Interp P L → Prop}

theorem Run.walk (hstep : ∀ a x, may (.step a) x) (hchk : ∀ m m', chk m m' = true → ok m m')
    {a : Actor} {p q : RingM P L.slotCount (Reply L.slotCount)}
    {m : State P L.slotCount × Ghost L.slotCount} {count : Nat} {x : Interp P L}
    (h : Run may ok init x) (hp : x.pool a = some p)
    (hw : p.walk (fun m m' => P.alive m.1.os (P.proc a) && chk m m') count x.mem = some (q, m)) :
    Run may ok init { x with mem := m, pool := Function.update x.pool a (some q) } := by
  refine Prog.walk_keeps (motive := fun p m => Run may ok init
    { x with mem := m, pool := Function.update x.pool a (some p) })
    (fun p q m m' h hn hc => ?_) count ?_ hw
  · rw [Bool.and_eq_true] at hc
    have hrun := h.event (.step a) (hstep a _)
      (y := { x with
        mem := m'
        pool := Function.update (Function.update x.pool a (some p)) a (some q) })
      (by simp [Interp.next?, hc.1, hn]) (hchk _ _ hc.2)
    simpa only [Function.update_idem] using hrun
  · rwa [← hp, Function.update_eq_self]

theorem Run.apply (hstep : ∀ a x, may (.step a) x) (hmay : ∀ e x, mayb e x = true → may e x)
    (hchk : ∀ m m', chk m m' = true → ok m m') {x y : Interp P L} (h : Run may ok init x)
    {move : Move} (hm : x.apply mayb chk move = some y) : Run may ok init y := by
  cases move with
  | event e =>
    obtain ⟨he, hm⟩ := Option.ite_none_right_eq_some.mp hm
    obtain ⟨z, hz, hm⟩ := Option.bind_eq_some_iff.mp hm
    obtain ⟨hc, hm⟩ := Option.ite_none_right_eq_some.mp hm
    cases hm
    exact h.event e (hmay _ _ he) hz (hchk _ _ hc)
  | steps a count =>
    obtain ⟨p, hp, hm⟩ := Option.bind_eq_some_iff.mp hm
    obtain ⟨r, hr, rfl⟩ := Option.map_eq_some_iff.mp hm
    exact Run.walk hstep hchk h hp hr

/-- Where a script leads is reached by a run, and what holds there is found by computing it. -/
theorem Run.play (hstep : ∀ a x, may (.step a) x) (hmay : ∀ e x, mayb e x = true → may e x)
    (hchk : ∀ m m', chk m m' = true → ok m m') {test : Interp P L → Bool} :
    ∀ (moves : List Move) {x : Interp P L}, Run may ok init x →
      (x.play mayb chk moves).any test = true → ∃ y, Run may ok init y ∧ test y = true
  | [], x, h, ht => ⟨x, h, by simpa [Interp.play] using ht⟩
  | move :: moves, x, h, ht => by
    rw [Interp.play, List.foldlM_cons] at ht
    cases hm : x.apply mayb chk move with
    | none => rw [hm] at ht; cases ht
    | some y =>
      rw [hm] at ht
      exact Run.play hstep hmay hchk moves (h.apply hstep hmay hchk hm) ht

end

/-! ## runs in one process -/

/-- A short run is inside the window. -/
theorem Run.windowed {may : Event → Interp P L → Prop} (hp : ∀ e x, may e x → Interp.Prompt e x)
    {start : P.Os → Prop} {x : Interp P L}
    (h : Run may (fun m m' => Calm m m' ∧ Short m') (Begins P L 0 start) x) :
    Run may CalmAndWindowed (Begins P L 0 start) x := by
  have hw : ∀ {y : Interp P L},
      Run may (fun m m' => Calm m m' ∧ Short m') (Begins P L 0 start) y →
        Windowed (view y.mem).proto := fun hy =>
    windowed_of_short False ((hy.reach hp).mono fun _ _ hc =>
      ⟨Honest.believes hc.1.honest, hc.2⟩)
  induction h with
  | init h => exact .init h
  | event e h hm hs hok ih => exact ih.event e hm hs ⟨hok.1, hw (h.event e hm hs hok)⟩
  | os os h hs hok ih =>
    have := hw (h.os os hs hok)
    exact ih.os os hs ⟨hok.1, this⟩

/-- The event is no call of `close`. -/
def notClose : Event → Bool
  | .close _ => false
  | _ => true

theorem tidy_of_notClose {e : Event} {x : Interp P L} (h : notClose e = true) :
    Interp.Tidy e x := by
  rintro c rfl
  cases h

theorem prompt_step (a : Actor) (x : Interp P L) : Interp.Prompt (.step a) x :=
  fun _ hc => by cases hc

/-- A run in one process whose counter stays small. -/
theorem Run.script (may : Event → Interp .single .two → Prop)
    (mayb : Event → Interp .single .two → Bool) (hp : ∀ e x, may e x → Interp.Prompt e x)
    (hstep : ∀ a x, may (.step a) x) (hmay : ∀ e x, mayb e x = true → may e x) (moves : List Move)
    (test : Interp .single .two → Bool)
    (h : ((Interp.fresh .two 0 ()).play mayb
      (fun m m' => Script.unasked m m' && decide (0 ≤ m'.2.next ∧ m'.2.next ≤ 2 ^ 62))
      moves).any test = true) :
    ∃ x, Run may CalmAndWindowed (Begins .single .two 0 Platform.single.allAlive) x ∧
      test x = true := by
  obtain ⟨x, hx, ht⟩ : ∃ x, Run may (fun m m' => Calm m m' ∧ Short m')
      (Begins .single .two 0 Platform.single.allAlive) x ∧ test x = true := Run.play hstep hmay
    (fun m m' hc => by
      simp only [Bool.and_eq_true, decide_eq_true_eq] at hc
      exact ⟨⟨fun _ => rfl, fun x hx => (Script.verdicts_of_unasked hc.1 hx).elim⟩, hc.2⟩)
    moves (.init ⟨(), fun _ => rfl, rfl⟩) h
  exact ⟨x, hx.windowed hp, ht⟩

/-- A consumer is handed a publication, and an array is made from the lease. -/
def viewed : List Move :=
  Move.whole (.consumer 0) (.call (.register 0)) ++
  Move.whole (.writer 0) (.call (.publish 0 (.byte 5) .dropNewest 0)) ++
  Move.whole (.consumer 0) (.call (.next 0 0)) ++ [.event (.getBuffer (.lease 0))]

end TenzorBus.Bindings
