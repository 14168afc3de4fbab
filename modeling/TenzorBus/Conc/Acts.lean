import TenzorBus.Conc.RelyGuarantee

/-!
# What the actions of a program do

A condition on every action of a program by itself, whatever the program knows at that point.

* `Prog.Acts` : every action of the program changes the memory in this way
* `Prog.Reads` : no action changes it
* `Rules.Outline.frame` : what survives the actions of a program and those of the others may be
  added to any outline of the program
-/

namespace TenzorBus.Conc

variable {ι σ γ α β : Type}

namespace Prog

/-- Every action of the program changes the memory in this way. -/
def Acts (K : σ × γ → σ × γ → Prop) : {α : Type} → Prog σ γ α → Prop
  | _, .ret _ => True
  | _, .act f aux k =>
    (∀ s g b s', f s = some (b, s') → K (s, g) (s', aux b s g)) ∧ ∀ b, Acts K (k b)
  | _, .iter body k => Acts K body ∧ ∀ b, Acts K (k b)

/-- No action of the program changes anything. -/
abbrev Reads (p : Prog σ γ α) : Prop := p.Acts fun m m' => m' = m

namespace Acts

variable {K K' : σ × γ → σ × γ → Prop}

theorem ret (a : α) : (ret a : Prog σ γ α).Acts K := trivial

theorem bind {p : Prog σ γ α} (hp : p.Acts K) {q : α → Prog σ γ β} (hq : ∀ a, (q a).Acts K) :
    (p >>= q).Acts K := by
  induction p with
  | ret a => exact hq a
  | act f aux k ih => exact ⟨hp.1, fun b => ih b (hp.2 b) hq⟩
  | iter body k _ ih => exact ⟨hp.1, fun b => ih b (hp.2 b) hq⟩

theorem mono {p : Prog σ γ α} (hp : p.Acts K) (h : ∀ m m', K m m' → K' m m') : p.Acts K' := by
  induction p with
  | ret a => trivial
  | act f aux k ih =>
    exact ⟨fun s g b s' hs => h _ _ (hp.1 s g b s' hs), fun b => ih b (hp.2 b)⟩
  | iter body k ihb ih => exact ⟨ihb hp.1, fun b => ih b (hp.2 b)⟩

/-- A program that only reads does what is allowed to change nothing. -/
theorem of_reads {p : Prog σ γ α} (hp : p.Reads) (h : ∀ m, K m m) : p.Acts K :=
  hp.mono fun m _ he => he ▸ h m

theorem act {f : σ → Option (β × σ)} {aux : β → σ → γ → γ}
    (h : ∀ s g b s', f s = some (b, s') → K (s, g) (s', aux b s g)) :
    (Prog.atomicWith f aux).Acts K :=
  ⟨h, fun _ => trivial⟩

theorem read {f : σ → β} (h : ∀ m, K m m) : (Prog.read f : Prog σ γ β).Acts K :=
  act fun s g b s' hs => by
    cases hs
    exact h (s, g)

theorem modifyWith {f : σ → σ} {aux : σ → γ → γ} (h : ∀ s g, K (s, g) (f s, aux s g)) :
    (Prog.modifyWith f aux).Acts K :=
  act fun s g b s' hs => by
    cases hs
    exact h s g

theorem record {aux : σ → γ → γ} (h : ∀ s g, K (s, g) (s, aux s g)) :
    (Prog.record aux : Prog σ γ Unit).Acts K :=
  modifyWith h

theorem foldlM {f : β → α → Prog σ γ β} (hf : ∀ b x, (f b x).Acts K) :
    ∀ (xs : List α) (b : β), (xs.foldlM f b).Acts K
  | [], b => ret b
  | x :: xs, b => by
    rw [List.foldlM_cons]
    exact bind (hf b x) fun b' => foldlM hf xs b'

theorem forM {f : α → Prog σ γ PUnit} (hf : ∀ x, (f x).Acts K) :
    ∀ xs : List α, (xs.forM f).Acts K
  | [] => ret _
  | x :: xs => bind (hf x) fun _ => forM hf xs

end Acts

theorem reads_read {f : σ → β} : (Prog.read f : Prog σ γ β).Reads := .read fun _ => rfl

end Prog

namespace Rules

variable {S : System ι σ γ} {R : Rules S} {i : ι}

/-- The frame rule. -/
theorem Outline.frame {F : σ × γ → Prop} (hF : R.Stable i F) {p : Prog σ γ α}
    (hp : p.Acts fun m m' => F m → F m') :
    ∀ {P : σ × γ → Prop} {Q : α → σ × γ → Prop}, R.Outline i p P Q →
      R.Outline i p (fun m => P m ∧ F m) fun a m => Q a m ∧ F m := by
  induction p with
  | ret a => exact fun h m hi hm => ⟨h m hi hm.1, hm.2⟩
  | act f aux k ih =>
    rintro P Q ⟨M, hM, hf, hk⟩
    refine ⟨fun b m => M b m ∧ F m, fun b => (hM b).and hF, fun m hi hl hm b t ht => ?_,
      fun b => ih b (hp.2 b) (hk b)⟩
    obtain ⟨hguar, hpost⟩ := hf m hi hl hm.1 b t ht
    exact ⟨hguar, fun hi' hok => ⟨hpost hi' hok, hp.1 m.1 m.2 b t ht hm.2⟩⟩
  | iter body k ihb ih =>
    rintro P Q ⟨J, M, hJ, hM, hPJ, hb, hk⟩
    refine ⟨fun m => J m ∧ F m, fun b m => M b m ∧ F m, hJ.and hF, fun b => (hM b).and hF,
      fun m hi hm => ⟨hPJ m hi hm.1, hm.2⟩, (ihb hp.1 hb).post fun r m _ hm => ?_, fun b =>
        ih b (hp.2 b) (hk b)⟩
    cases r <;> exact hm

end Rules

end TenzorBus.Conc
