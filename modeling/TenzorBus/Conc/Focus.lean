import TenzorBus.Conc.RelyGuarantee

/-!
# Programs over a part of the state

A program that was written for a small state runs on a larger one that contains it.

* `Focus` : how the small state sits in the large one
* `Prog.within` : the program, run there
* `Rules.Outline.within` : its outline, if all that the program may do is allowed
-/

namespace TenzorBus.Conc

variable {σ τ γ δ α : Type}

/-- A part of a state: how it is read, and how it is replaced. -/
structure Focus (σ τ : Type) where
  get : σ → τ
  set : σ → τ → σ

/-- A program over the part. `note` says what becomes of the auxiliary state at each action. -/
def Prog.within (F : Focus σ τ) (note : γ → γ) : {α : Type} → Prog τ δ α → Prog σ γ α
  | _, .ret a => .ret a
  | _, .act f _ k =>
    .act (fun s => (f (F.get s)).map fun r => (r.1, F.set s r.2)) (fun _ _ g => note g)
      fun b => (k b).within F note
  | _, .iter body k => .iter (body.within F note) fun b => (k b).within F note

/-- Where an actor may replace the part by anything, it may run any program there. -/
theorem Rules.Outline.within {ι : Type} {S : System ι σ γ} {R : Rules S} {i : ι} {F : Focus σ τ}
    {note : γ → γ} (h : ∀ s g t, R.guar i (s, g) (F.set s t, note g)) (p : Prog τ δ α) :
    R.Outline i (p.within F note) (fun _ => True) fun _ _ => True := by
  induction p with
  | ret a => exact .ret fun _ _ _ => trivial
  | act f aux k ih =>
    refine ⟨fun _ _ => True, fun _ => .const True, fun s _ _ _ b t ht => ?_, ih⟩
    obtain ⟨r, -, hr⟩ := Option.map_eq_some_iff.mp ht
    obtain ⟨rfl, rfl⟩ := Prod.mk.inj hr
    exact ⟨h s.1 s.2 r.2, fun _ _ => trivial⟩
  | iter body k ihb ih =>
    refine ⟨fun _ => True, fun _ _ => True, .const True, fun _ => .const True,
      fun _ _ _ => trivial, ihb.post fun r _ _ _ => ?_, ih⟩
    cases r <;> trivial

end TenzorBus.Conc
