import TenzorBus.Bindings.Script
import TenzorBus.Refine.Draft

/-!
# What is published is what was to be published

A call goes on among others, and what its outline promises of the answer holds when it has one.

* `Outlined` : a call goes on as an outline of it says
* `Run.outlined` : so it does, whatever else happens
* `published_as_given` : the tensor of a `publish` that has succeeded is among the publications
-/

namespace TenzorBus.Bindings

open Conc Refine

variable {P : Platform} {L : RingLayout} {n : Nat} {k : UInt64} {start : P.Os → Prop}
  {x y z : Interp P L} {a : Actor}

/-! ## calls that go on -/

/-- Actor `a` is in the middle of a call that goes on as an outline of it says, as long as its
process lives; in the end `Ψ` holds of the answer. -/
def Outlined (M : Mode P L.slotCount) (a : Actor)
    (Ψ : Reply L.slotCount → TenzorBus.View P L.slotCount → Prop) (x : Interp P L) : Prop :=
  ∃ p, x.pool a = some p ∧ (x.mem.1.aliveActor a →
    ∃ Φ, M.rules.Stable a Φ ∧ Φ x.mem ∧ M.rules.Outline a p Φ fun r m => Ψ r (view m))

namespace Interp

theorem receive_calls (b : Actor) (r : Reply L.slotCount) :
    (x.receive b r).mem = x.mem ∧ (x.receive b r).pool = x.pool := by
  unfold receive
  split <;> exact ⟨rfl, rfl⟩

/-- What happens to a call: nothing, or the step of somebody. -/
theorem Effect.calls {e : Event} (h : x.Effect e y) {p : RingM P L.slotCount (Reply L.slotCount)}
    (busy : x.pool a = some p) (hne : e ≠ .reply a) :
    (y.mem = x.mem ∧ y.pool a = some p) ∨
      ∃ b q r, x.pool b = some q ∧ x.mem.1.aliveActor b ∧ q.next? x.mem = some (r, y.mem) ∧
        y.pool = Function.update x.pool b (some r) := by
  -- whoever begins a call has been idle
  have hstart : ∀ (w : Interp P L) {b : Actor} {q : RingM P L.slotCount (Reply L.slotCount)},
      w.mem = x.mem → w.pool = x.pool → w.start b q = some y →
        y.mem = x.mem ∧ y.pool a = some p := by
    intro w b q hmem hpool hs
    obtain ⟨rfl, hidle, -⟩ := start_eq hs
    have hab : a ≠ b := fun hab => by
      rw [hpool, ← hab, busy] at hidle
      cases hidle
    refine ⟨hmem, ?_⟩
    dsimp only
    rw [Function.update_of_ne hab, hpool, busy]
  cases h with
  | call r q _ _ _ hs => exact .inl (hstart x rfl rfl hs)
  | close c con _ _ hs => exact .inl (hstart x rfl rfl hs)
  | release i o o' m f con _ _ _ _ _ _ _ hs => exact .inl (hstart (x.setLease i o') rfl rfl hs)
  | write i o w off b _ _ _ hs => exact .inl (hstart x rfl rfl hs)
  | stamp i o w ts _ _ hs => exact .inl (hstart x rfl rfl hs)
  | commit i o w _ _ _ hs => exact .inl (hstart (x.setWriter i o.empty) rfl rfl hs)
  | abort i o o' w _ _ _ _ hs => exact .inl (hstart (x.setWriter i o') rfl rfl hs)
  | step b q r m alive hq hn => exact .inr ⟨b, q, r, hq, alive, hn, rfl⟩
  | reply b r raised event =>
    have hab : a ≠ b := fun hab => hne (by rw [event, hab])
    refine .inl ⟨(receive_calls b r).1, (congrFun (receive_calls b r).2 a).trans ?_⟩
    exact (Function.update_of_ne hab _ _).trans busy
  | raise | viewLease | viewWriter | forgetLease | forgetWriter | emptyLease | emptyWriter =>
    exact .inl ⟨rfl, busy⟩

end Interp

variable {M : Mode P L.slotCount}
  {Ψ : Reply L.slotCount → TenzorBus.View P L.slotCount → Prop}

/-- An outlined call goes on as its outline says. -/
theorem Outlined.next (hM : M.Lawful k start)
    (hreach : (ringSystem P L).Reach M.rules.ok (Fresh P L k start) x.config)
    (ho : Outlined M a Ψ x) {e : Event} (he : x.Effect e y) (hne : e ≠ .reply a)
    (hok : M.rules.ok x.mem y.mem) : Outlined M a Ψ y := by
  obtain ⟨p, busy, ho⟩ := ho
  have hsound := hM.sound
  have hh := hsound.holds hreach
  rcases he.calls busy hne with ⟨hmem, hp⟩ | ⟨b, q, r, hq, hl, hn, hpool⟩
  · exact ⟨p, hp, by rw [hmem]; exact ho⟩
  by_cases hab : a = b
  · -- its own step
    subst hab
    cases hq.symm.trans busy
    refine ⟨r, by rw [hpool, Function.update_self], fun _ => ?_⟩
    obtain ⟨Φ, -, hm, hO⟩ := ho hl
    obtain ⟨hg, hrest⟩ := hO.next? hh.1 hl hm hn
    have hi : M.rules.inv y.mem := by
      rcases hg with hg | hsame
      · exact hsound.guarInv a _ _ hh.1 hl hok hg
      · rw [hsame]; exact hh.1
    obtain ⟨Φ', hΦ', hO', hm'⟩ := hrest hi hok
    exact ⟨Φ', hΦ', hm', hO'⟩
  · -- the step of somebody else
    refine ⟨p, by rw [hpool, Function.update_of_ne hab, busy], fun halive => ?_⟩
    have hnext : (x.config.pool b).next? x.config.mem = some (void r, y.mem) := by
      simpa [Session.config, hq, void] using Session.next?_bind (k := fun _ => .ret ()) hn
    rcases hsound.acts hreach hl hnext with hg | hsame
    · obtain ⟨Φ, hΦ, hm, hO⟩ := ho (hsound.guarLive a b _ _ hg halive)
      have hi := hsound.guarInv b _ _ hh.1 hl hok hg
      exact ⟨Φ, hΦ, hΦ _ _ ⟨hh.1, hi, hok, halive, .inl ⟨b, Ne.symm hab, hg⟩⟩ hm, hO⟩
    · have hmem : y.mem = x.mem := hsame
      rw [hmem] at halive ⊢
      exact ho halive

/-- When it has its answer, what the outline says of the answer holds. -/
theorem Outlined.answer {r : Reply L.slotCount} (ho : Outlined M a Ψ x) (hi : M.rules.inv x.mem)
    (halive : x.mem.1.aliveActor a) (hr : x.pool a = some (.ret r)) : Ψ r (view x.mem) := by
  obtain ⟨p, busy, ho⟩ := ho
  cases busy.symm.trans hr
  obtain ⟨Φ, -, hm, hO⟩ := ho halive
  have hanswer : ∀ m, M.rules.inv m → Φ m → Ψ r (view m) := hO
  exact hanswer _ hi hm

/-- So it does for a whole run, as long as the answer has not been taken. -/
theorem Run.outlined (hM : M.Lawful k start) {may : Event → Interp P L → Prop}
    (hp : ∀ e x, may e x → Interp.Prompt e x)
    {ok : State P L.slotCount × Ghost L.slotCount → State P L.slotCount × Ghost L.slotCount → Prop}
    (hok : ∀ m m', ok m m' → M.rules.ok m m')
    (h : Run may ok (Begins P L k start) x) (ho : Outlined M a Ψ x)
    (hz : Run (fun e x => may e x ∧ e ≠ .reply a) ok (· = x) z) :
    Run may ok (Begins P L k start) z ∧ Outlined M a Ψ z := by
  induction hz with
  | init he => rw [he]; exact ⟨h, ho⟩
  | event e _ hm hs hk ih =>
    exact ⟨ih.1.event e hm.1 hs hk,
      ih.2.next hM ((ih.1.reach hp).mono hok) (ih.1.objects.effect hs) hm.2 (hok _ _ hk)⟩
  | @os w os _ hs hk ih =>
    refine ⟨ih.1.os os hs hk, ?_⟩
    obtain ⟨p, busy, ho⟩ := ih.2
    refine ⟨p, busy, fun halive => ?_⟩
    have hh := hM.sound.holds ((ih.1.reach hp).mono hok)
    have henv : (ringSystem P L).env w.mem ({ w.mem.1 with os := os }, w.mem.2) := ⟨os, hs, rfl⟩
    obtain ⟨Φ, hΦ, hm, hO⟩ := ho (hM.sound.envLive a _ _ henv halive)
    have hi := hM.sound.envInv _ _ hh.1 (hok _ _ hk) henv
    exact ⟨Φ, hΦ, hΦ _ _ ⟨hh.1, hi, hok _ _ hk, halive, .inr henv⟩ hm, hO⟩

/-! ## publications -/

/-- A producer between two calls that has no slot writer has nothing in hand. -/
theorem free_of_idle {t : Nat} (hM : M.Lawful k start)
    (hreach : (ringSystem P L).Reach M.rules.ok (Fresh P L k start) x.config)
    (hidle : x.pool (.writer t) = none) (hl : x.mem.1.aliveActor (.writer t))
    (hrunning : P.running x.mem.1.os (P.proc (.writer t)) = true)
    (hnone : x.mem.1.writer t = none) : Free t (view x.mem) := by
  have hrest := hM.rest hreach hl (by simp [Session.config, hidle])
  exact ⟨⟨hrunning, hnone, hrest.2 hnone⟩, hrest.1⟩

/-- If a call of `publish` has succeeded, one publication that has been made since it began is the
tensor that it was called with, under the sequence and in the slot that it answers, and whoever
reads the header reads the tensor. The liveness check can be trusted, and no consumer is used that
has been closed. -/
theorem published_as_given {t : Nat} {tensor : TensorView} {policy : Backpressure} {timeout : Nat}
    {r : PublishResult L.slotCount}
    (h : Run Interp.Prompt TrustedChecks (Begins P L k start) x)
    (hcall : x.next? (.call (.publish t tensor policy timeout)) = some y)
    (hz : Run (fun e x => Interp.Prompt e x ∧ e ≠ .reply (.writer t)) TrustedChecks (· = y) z)
    (hlive : z.mem.1.aliveActor (.writer t))
    (hr : z.pool (.writer t) = some (.ret (.published (.ok (some r))))) :
    ∃ pub ∈ z.mem.2.published.drop x.mem.2.published.length, AsGiven tensor r pub ∧
      ∀ m : TensorMeta L.slotCount, m.Describes pub.header → Shows tensor m := by
  have hok : ∀ m m' : State P L.slotCount × Ghost L.slotCount, TrustedChecks m m' →
      (carelessMode P L.slotCount).rules.ok m m' := fun _ _ hc => ⟨hc, trivial⟩
  have hM := carelessMode_lawful P L k start
  have hreach := (h.reach fun _ _ hp => hp).mono hok
  obtain ⟨p, hp, hs⟩ := Option.bind_eq_some_iff.mp
    (show x.request (.publish t tensor policy timeout) = some y from hcall)
  obtain ⟨hwriter, hp⟩ := Option.ite_none_right_eq_some.mp hp
  cases hp
  obtain ⟨rfl, hidle, hl, hrunning⟩ := Interp.start_eq hs
  have hfree : Free t (view x.mem) :=
    free_of_idle hM hreach hidle hl hrunning (by simpa using hwriter)
  -- the call begins with its outline
  have hbegun : Outlined (carelessMode P L.slotCount) (.writer t)
      (fun answer v => ∀ r, answer = .published (.ok (some r)) →
        Recorded x.mem.2.published.length (AsGiven tensor r) v)
      { x with pool := Function.update x.pool (.writer t) (some (replying .published
        (Producer.publish L t tensor policy timeout))) } := by
    refine ⟨_, Function.update_self .., fun _ => ⟨_, (keeps_free.and keeps_atLeast).stable,
      ⟨hfree, le_rfl⟩, Rules.Outline.bind (publish_drafts policy timeout _) fun answer => ?_⟩⟩
    exact Rules.Outline.ret fun s _ hs r hr => hs r (Reply.published.inj hr)
  have hunasked : TrustedChecks x.mem x.mem := believes_same rfl
  have hprompt : Interp.Prompt (.call (.publish t tensor policy timeout)) x :=
    fun _ hc => by cases hc
  obtain ⟨hz', ho⟩ := Run.outlined hM (fun _ _ hp => hp) hok
    (h.event _ hprompt hcall hunasked) hbegun hz
  have hi := hM.sound.inv ((hz'.reach fun _ _ hp => hp).mono hok)
  obtain ⟨pub, hpub, hgiven⟩ := ho.answer hi hlive hr r rfl
  exact ⟨pub, hpub, hgiven, fun m hdesc => hgiven.header.shows hdesc⟩

/-- The answer of writer 0 has not been taken. -/
def notTaken : Event → Bool
  | .reply (.writer 0) => false
  | _ => true

def succeeded? : Reply n → Option (PublishResult n)
  | .published (.ok (some r)) => some r
  | _ => none

theorem succeeded?_eq {answer : Reply n} {r : PublishResult n} (h : succeeded? answer = some r) :
    answer = .published (.ok (some r)) := by
  unfold succeeded? at h
  split at h
  · rw [Option.some.inj h]
  · cases h

/-- A consumer registers while the call goes on. -/
theorem published_as_given_beside :
    ∃ (z : Interp .single .two) (r : PublishResult 2), ∃ pub ∈ z.mem.2.published,
      AsGiven (.byte 5) r pub ∧ ∀ m : TensorMeta 2, m.Describes pub.header →
        Shows (.byte 5) m := by
  have hplay : ((Interp.fresh .two 0 () : Interp .single .two).next?
      (.call (.publish 0 (.byte 5) .dropNewest 0))).any (fun y =>
        (y.play (fun e x => decide (Interp.Prompt e x) && notTaken e) Script.unasked
          (Move.whole (.consumer 0) (.call (.register 0)) ++ [.steps (.writer 0) 4000])).any
            fun z => (((z.pool (.writer 0)).bind Prog.result?).bind succeeded?).isSome) = true := by
    decide +kernel
  obtain ⟨y, hcall, hplay⟩ := (Option.any_eq_true _ _).mp hplay
  obtain ⟨z, hz, hr⟩ : ∃ z,
      Run (fun e x => Interp.Prompt e x ∧ e ≠ .reply (.writer 0)) TrustedChecks (· = y) z ∧
        (((z.pool (.writer 0)).bind Prog.result?).bind succeeded?).isSome = true :=
    Run.play (fun a x => ⟨prompt_step a x, fun he => by cases he⟩)
      (fun e _ he => by
        rw [Bool.and_eq_true] at he
        refine ⟨of_decide_eq_true he.1, ?_⟩
        rintro rfl
        cases he.2)
      (fun _ _ hc _ hv => (Script.verdicts_of_unasked hc hv).elim) _ (.init rfl) hplay
  obtain ⟨r, hr⟩ := Option.isSome_iff_exists.mp hr
  obtain ⟨answer, ha, hr⟩ := Option.bind_eq_some_iff.mp hr
  obtain ⟨p, hp, ha⟩ := Option.bind_eq_some_iff.mp ha
  rw [Prog.eq_ret_of_result? ha, succeeded?_eq hr] at hp
  have hinit : Run Interp.Prompt TrustedChecks (Begins .single .two 0 Platform.single.allAlive)
      (Interp.fresh .two 0 ()) := .init ⟨(), fun _ => rfl, rfl⟩
  obtain ⟨pub, hpub, hgiven, hshows⟩ := published_as_given hinit hcall hz rfl hp
  exact ⟨z, r, pub, List.mem_of_mem_drop hpub, hgiven, hshows⟩

end TenzorBus.Bindings
