import TenzorBus.Refine.View

/-!
# Rules for the actions of the ring

What an access to the mapping does to the view, and the outline rules that follow.

* `Keeping` : an outline whose assertions speak of the view
* `look`, `watch`, `glance` : a load, or a question to the operating system
* `silent` : an action that the view does not see
* `change` : an action that is a change of the view
-/

namespace TenzorBus.Refine

open Conc

variable {P : Platform} {n : Nat}

/-! ## what accesses do to the view -/

section View

variable (s : State P n) (g : Ghost n) (i : Fin n) (e : Fin 64)

/-- The history is part of the view. -/
theorem view_hist {t : State P n} {g g' : Ghost n} {v : View P n} (h : view (t, g) = v) :
    view (t, g') = { v with proto := { v.proto with hist := g' } } := by
  rw [← h]; rfl

theorem view_state (f : Slot → SlotState) :
    view ({ s with ring := s.ring.setSlot i fun t => { t with state := f t } }, g) =
      { view (s, g) with
        proto := { (view (s, g)).proto with
          state := Function.update (view (s, g)).proto.state i (f (s.ring.slots i)) } } := by
  simp only [view, State.proto, View.mk.injEq, Proto.mk.injEq]
  and_intros <;> first
    | rfl
    | trivial
    | funext j; by_cases hj : j = i <;> simp [Ring.setSlot, hj]

theorem view_mask (f : Slot → UInt64) :
    view ({ s with ring := s.ring.setSlot i fun t => { t with readersMask := f t } }, g) =
      { view (s, g) with
        proto := { (view (s, g)).proto with
          mask :=
            Function.update (view (s, g)).proto.mask i (readers (f (s.ring.slots i))) } } := by
  simp only [view, State.proto, View.mk.injEq, Proto.mk.injEq]
  and_intros <;> first
    | rfl
    | trivial
    | funext j; by_cases hj : j = i <;> simp [Ring.setSlot, hj]

theorem view_noReaders :
    view ({ s with ring := s.ring.setSlot i fun t => { t with readersMask := 0 } }, g) =
      { view (s, g) with
        proto := { (view (s, g)).proto with
          mask := Function.update (view (s, g)).proto.mask i ∅ } } :=
  (view_mask s g i _).trans (by rw [readers_zero])

theorem view_header (f : Slot → TensorHeader) :
    view ({ s with ring := s.ring.setSlot i fun t => { t with header := f t } }, g) =
      { view (s, g) with
        proto := { (view (s, g)).proto with
          header := Function.update (view (s, g)).proto.header i (f (s.ring.slots i)) } } := by
  simp only [view, State.proto, View.mk.injEq, Proto.mk.injEq]
  and_intros <;> first
    | rfl
    | trivial
    | funext j; by_cases hj : j = i <;> simp [Ring.setSlot, hj]

theorem view_payload (f : Slot → Nat → UInt8) :
    view ({ s with ring := s.ring.setSlot i fun t => { t with payload := f t } }, g) =
      { view (s, g) with
        proto := { (view (s, g)).proto with
          payload := Function.update (view (s, g)).proto.payload i (f (s.ring.slots i)) } } := by
  simp only [view, State.proto, View.mk.injEq, Proto.mk.injEq]
  and_intros <;> first
    | rfl
    | trivial
    | funext j; by_cases hj : j = i <;> simp [Ring.setSlot, hj]

theorem view_sequence (f : Slot → UInt64) :
    view ({ s with ring := s.ring.setSlot i fun t => { t with sequence := f t } }, g) =
      { view (s, g) with
        sequence := Function.update (view (s, g)).sequence i (f (s.ring.slots i)) } := by
  simp only [view, State.proto, View.mk.injEq, Proto.mk.injEq]
  and_intros <;> first
    | rfl
    | trivial
    | funext j; by_cases hj : j = i <;> simp [Ring.setSlot, hj]

theorem view_slotPid (f : Slot → UInt32) :
    view ({ s with ring := s.ring.setSlot i fun t => { t with producerPid := f t } }, g) =
      { view (s, g) with
        slotPid := Function.update (view (s, g)).slotPid i (f (s.ring.slots i)) } := by
  simp only [view, State.proto, View.mk.injEq, Proto.mk.injEq]
  and_intros <;> first
    | rfl
    | trivial
    | funext j; by_cases hj : j = i <;> simp [Ring.setSlot, hj]

theorem view_slotToken (f : Slot → UInt32) :
    view ({ s with ring := s.ring.setSlot i fun t => { t with producerStartToken := f t } }, g) =
      { view (s, g) with
        slotToken := Function.update (view (s, g)).slotToken i (f (s.ring.slots i)) } := by
  simp only [view, State.proto, View.mk.injEq, Proto.mk.injEq]
  and_intros <;> first
    | rfl
    | trivial
    | funext j; by_cases hj : j = i <;> simp [Ring.setSlot, hj]

theorem view_readers (f : Slot → UInt16) :
    view ({ s with ring := s.ring.setSlot i fun t => { t with readersRemaining := f t } }, g) =
      { view (s, g) with
        readersRemaining :=
          Function.update (view (s, g)).readersRemaining i (f (s.ring.slots i)) } := by
  simp only [view, State.proto, View.mk.injEq, Proto.mk.injEq]
  and_intros <;> first
    | rfl
    | trivial
    | funext j; by_cases hj : j = i <;> simp [Ring.setSlot, hj]

theorem view_entryState (f : ConsumerEntry → RegistryState) :
    view ({ s with ring := s.ring.setEntry e fun t => { t with state := f t } }, g) =
      { view (s, g) with
        entryState := Function.update (view (s, g)).entryState e (f (s.ring.entries e)) } := by
  simp only [view, State.proto, View.mk.injEq, Proto.mk.injEq]
  and_intros <;> first
    | rfl
    | trivial
    | funext j; by_cases hj : j = e <;> simp [Ring.setEntry, hj]

theorem view_entryPid (f : ConsumerEntry → UInt32) :
    view ({ s with ring := s.ring.setEntry e fun t => { t with pid := f t } }, g) =
      { view (s, g) with
        entryPid := Function.update (view (s, g)).entryPid e (f (s.ring.entries e)) } := by
  simp only [view, State.proto, View.mk.injEq, Proto.mk.injEq]
  and_intros <;> first
    | rfl
    | trivial
    | funext j; by_cases hj : j = e <;> simp [Ring.setEntry, hj]

theorem view_entryIdentity (f : ConsumerEntry → ConsumerEntry) (hs : ∀ t, (f t).state = t.state)
    (hp : ∀ t, (f t).pid = t.pid) :
    view ({ s with ring := s.ring.setEntry e f }, g) =
      { view (s, g) with
        entryIdentity := Function.update (view (s, g)).entryIdentity e
          ((f (s.ring.entries e)).generation, (f (s.ring.entries e)).flags) } := by
  simp only [view, State.proto, View.mk.injEq, Proto.mk.injEq]
  and_intros <;> first
    | rfl
    | trivial
    | funext j; by_cases hj : j = e <;> simp [Ring.setEntry, hj, hs, hp]

/-- Of a registry entry the view sees the state and the pid. -/
theorem view_entry (f : ConsumerEntry → ConsumerEntry) (hs : ∀ t, (f t).state = t.state)
    (hp : ∀ t, (f t).pid = t.pid) (hg : ∀ t, (f t).generation = t.generation)
    (hf : ∀ t, (f t).flags = t.flags) :
    view ({ s with ring := s.ring.setEntry e f }, g) = view (s, g) := by
  simp only [view, State.proto, View.mk.injEq, Proto.mk.injEq]
  and_intros <;> first
    | rfl
    | trivial
    | funext j; by_cases hj : j = e <;> simp [Ring.setEntry, hj, hs, hp, hg, hf]

end View

/-! ## outlines over the view -/

section

variable {L : RingLayout} {M : Mode P L.slotCount} {a : Actor} {α β : Type}

/-- An outline whose assertions speak of the view. -/
def Keeping (M : Mode P L.slotCount) (a : Actor) (p : RingM P L.slotCount α)
    (Φ : View P L.slotCount → Prop) (Ψ : α → View P L.slotCount → Prop) : Prop :=
  M.rules.Outline a p (fun m => Φ (view m)) fun b m => Ψ b (view m)

variable {Φ : View P L.slotCount → Prop} {Ψ : β → View P L.slotCount → Prop}

theorem guar_refl {G : Guards n} {cap : Nat} {v : View P n} (hc : Coupled G v)
    (hl : v.proto.alive a) : Guar G cap a v v :=
  ⟨hl, .idle _ _, hc, {}⟩

theorem ret {b : β} (h : ∀ v, M.Inv L.slotCapacity v → Φ v → Ψ b v) :
    Keeping M a (pure b) Φ Ψ :=
  fun _ hi hs => h _ hi hs

theorem seq {p : RingM P L.slotCount α} {k : α → RingM P L.slotCount β}
    {X : α → View P L.slotCount → Prop} (h : Keeping M a p Φ X)
    (hk : ∀ b, Keeping M a (k b) (X b) Ψ) : Keeping M a (p >>= k) Φ Ψ :=
  Rules.Outline.bind h hk

theorem pre {p : RingM P L.slotCount β} {Φ' : View P L.slotCount → Prop}
    (h : Keeping M a p Φ Ψ) (hΦ : ∀ v, M.Inv L.slotCapacity v → Φ' v → Φ v) :
    Keeping M a p Φ' Ψ :=
  Rules.Outline.pre h fun _ hi hs => hΦ _ hi hs

theorem post {p : RingM P L.slotCount β} {Ψ' : β → View P L.slotCount → Prop}
    (h : Keeping M a p Φ Ψ) (hΨ : ∀ b v, M.Inv L.slotCapacity v → Ψ b v → Ψ' b v) :
    Keeping M a p Φ Ψ' :=
  Rules.Outline.post h fun _ _ hi hs => hΨ _ _ hi hs

/-- A loop over a list keeps its invariant, which may speak of what is done and what is left. -/
theorem fold {δ : Type} {f : δ → β → RingM P L.slotCount δ}
    (J : List β → List β → δ → View P L.slotCount → Prop)
    (hf : ∀ done x rest d, Keeping M a (f d x) (J done (x :: rest) d) (J (done ++ [x]) rest))
    (xs : List β) (d : δ) : Keeping M a (xs.foldlM f d) (J [] xs d) (J xs []) :=
  Rules.Outline.foldlM (fun done rest d m => J done rest d (view m)) hf xs [] d

/-- The same for a loop that only acts. -/
theorem each {f : β → RingM P L.slotCount PUnit}
    (J : List β → List β → View P L.slotCount → Prop)
    (hf : ∀ done x rest, Keeping M a (f x) (J done (x :: rest)) fun _ => J (done ++ [x]) rest)
    (xs : List β) : Keeping M a (xs.forM f) (J [] xs) fun _ => J xs [] :=
  Rules.Outline.forM (fun done rest m => J done rest (view m)) hf xs []

/-- A loop that ends when its body has an answer. -/
theorem loop {body : RingM P L.slotCount (Option β)} (hΦ : Keeps M a Φ)
    (hΨ : ∀ b, Keeps M a (Ψ b))
    (h : Keeping M a body Φ fun r v => match r with
      | none => Φ v
      | some b => Ψ b v) : Keeping M a (Prog.loop body) Φ Ψ :=
  Rules.Outline.loop hΦ.stable (fun b => (hΨ b).stable)
    (Rules.Outline.post h fun r _ _ hr => by cases r <;> exact hr)

/-- A fact that does not depend on the memory. -/
theorem given {p : RingM P L.slotCount β} {φ : Prop} (h : φ → Keeping M a p Φ Ψ) :
    Keeping M a p (fun v => φ ∧ Φ v) Ψ :=
  Rules.Outline.assuming h

/-- Something in the memory gets a name. -/
theorem name {p : RingM P L.slotCount β} {ξ : Sort*} {Φ : ξ → View P L.slotCount → Prop}
    (h : ∀ x, Keeping M a p (Φ x) Ψ) : Keeping M a p (fun v => ∃ x, Φ x v) Ψ :=
  Rules.Outline.exists h

/-- Reading something, of which the view tells what there is to know. -/
theorem watch {f : State P L.slotCount → β} (hΨ : ∀ b, Keeps M a (Ψ b))
    (h : ∀ s g, M.Inv L.slotCapacity (view (s, g)) → (view (s, g)).proto.alive a →
      Φ (view (s, g)) → Ψ (f s) (view (s, g))) : Keeping M a (Prog.read f) Φ Ψ := by
  refine Rules.Outline.atomicWith (fun b => (hΨ b).stable) fun s g hi hl hs b t ht => ?_
  cases Option.some.inj ht
  exact ⟨guar_refl hi.coupled hl, fun _ _ => h _ _ hi hl hs⟩

/-- Reading a word that the view sees. -/
theorem look {f : State P L.slotCount → β} (w : View P L.slotCount → β)
    (hw : ∀ s g, f s = w (view (s, g))) (hΨ : ∀ b, Keeps M a (Ψ b))
    (h : ∀ v, M.Inv L.slotCapacity v → v.proto.alive a → Φ v → Ψ (w v) v) :
    Keeping M a (Prog.read f) Φ Ψ :=
  watch hΨ fun s g hi hl hs => hw s g ▸ h _ hi hl hs

/-- Reading a word that the view does not see. -/
theorem glance {f : State P L.slotCount → β} (hΦ : Keeps M a Φ) :
    Keeping M a (Prog.read f) Φ fun _ => Φ :=
  watch (fun _ => hΦ) fun _ _ _ _ hs => hs

/-- An action that the view does not see. -/
theorem silently {f : State P L.slotCount → Option (β × State P L.slotCount)}
    (hf : ∀ s g b t, f s = some (b, t) → view (t, g) = view (s, g)) (hΦ : Keeps M a Φ) :
    Keeping M a (Prog.atomic f) Φ fun _ => Φ := by
  refine Rules.Outline.atomicWith (fun _ => hΦ.stable) fun s g hi hl hs b t ht => ?_
  rw [Rules.Fine]
  dsimp only [Mode.rules]
  rw [hf s g b t ht]
  exact ⟨guar_refl hi.coupled hl, fun _ _ => hs⟩

/-- A store that the view does not see. -/
theorem silent {f : State P L.slotCount → State P L.slotCount}
    (hf : ∀ s g, view (f s, g) = view (s, g)) (hΦ : Keeps M a Φ) :
    Keeping M a (Prog.modify f) Φ fun _ => Φ :=
  silently (fun s g b t ht => by cases Option.some.inj ht; exact hf s g) hΦ

/-- An action that changes the view. -/
theorem change {f : State P L.slotCount → Option (β × State P L.slotCount)}
    {u : β → State P L.slotCount → Ghost L.slotCount → Ghost L.slotCount}
    (tr : β → View P L.slotCount → View P L.slotCount)
    (htr : ∀ s g b t, f s = some (b, t) → view (t, u b s g) = tr b (view (s, g)))
    (hΨ : ∀ b, Keeps M a (Ψ b))
    (h : ∀ s g b t, f s = some (b, t) → M.Inv L.slotCapacity (view (s, g)) →
      (view (s, g)).proto.alive a → Φ (view (s, g)) →
      Guar M.guards L.slotCapacity a (view (s, g)) (tr b (view (s, g))) ∧
        (M.Inv L.slotCapacity (tr b (view (s, g))) →
          Believes M.guards (view (s, g)) (tr b (view (s, g))) → Ψ b (tr b (view (s, g))))) :
    Keeping M a (Prog.atomicWith f u) Φ Ψ := by
  refine Rules.Outline.atomicWith (fun b => (hΨ b).stable) fun s g hi hl hs b t ht => ?_
  obtain ⟨hg, hp⟩ := h s g b t ht hi hl hs
  rw [← htr s g b t ht] at hg hp
  exact ⟨hg, fun hi' hok => hp hi' hok.1⟩

/-- A store that changes the view. -/
theorem put {f : State P L.slotCount → State P L.slotCount}
    {u : State P L.slotCount → Ghost L.slotCount → Ghost L.slotCount}
    (tr : View P L.slotCount → View P L.slotCount)
    (htr : ∀ s g, view (f s, u s g) = tr (view (s, g))) {Ψ : View P L.slotCount → Prop}
    (hΨ : Keeps M a Ψ)
    (h : ∀ v, M.Inv L.slotCapacity v → v.proto.alive a → Φ v →
      Guar M.guards L.slotCapacity a v (tr v) ∧ (M.Inv L.slotCapacity (tr v) → Ψ (tr v))) :
    Keeping M a (Prog.modifyWith f u) Φ fun _ => Ψ :=
  change (fun _ => tr) (fun s g b t ht => by cases Option.some.inj ht; exact htr s g)
    (fun _ => hΨ) fun s g b t _ hi hl hs =>
      ⟨(h _ hi hl hs).1, fun hi' _ => (h _ hi hl hs).2 hi'⟩

/-- What else a store brings about of which an outline says something already. -/
theorem also {f : State P L.slotCount → State P L.slotCount}
    {u : State P L.slotCount → Ghost L.slotCount → Ghost L.slotCount}
    {Ψ Θ : View P L.slotCount → Prop} (h : Keeping M a (Prog.modifyWith f u) Φ fun _ => Ψ)
    (hk : Keeps M a fun v => Ψ v ∧ Θ v)
    (hΘ : ∀ s g, M.Inv L.slotCapacity (view (s, g)) → Φ (view (s, g)) →
      Ψ (view (f s, u s g)) → Θ (view (f s, u s g))) :
    Keeping M a (Prog.modifyWith f u) Φ fun _ v => Ψ v ∧ Θ v := by
  obtain ⟨N, hN, hf, hret⟩ := h
  refine ⟨fun b m => N b m ∧ Ψ (view m) ∧ Θ (view m), fun b => (hN b).and hk.stable,
    fun s hi hl hs b m hm => ?_, fun b s hi hs => hs.2⟩
  obtain ⟨hg, hp⟩ := hf s hi hl hs b m hm
  cases Option.some.inj hm
  refine ⟨hg, fun hi' hok => ?_⟩
  have hdone : ∀ m, M.rules.inv m → N () m → Ψ (view m) := hret ()
  have hΨ := hdone _ hi' (hp hi' hok)
  exact ⟨hp hi' hok, hΨ, hΘ s.1 s.2 hi hs hΨ⟩

/-- The generation or the token of a registry entry changes that nobody has, or whose registration
is leaving. -/
theorem relabel {i : Fin 64} {f : State P L.slotCount → Option (β × State P L.slotCount)}
    (hf : ∀ s g b t, f s = some (b, t) → ∃ w, view (t, g) = { view (s, g) with
      entryIdentity := Function.update (view (s, g)).entryIdentity i w })
    (hΦ : Keeps M a Φ)
    (hleaving : ∀ v, Φ v → ∀ c, v.proto.hist.holder i = some c → v.proto.leaving a c)
    (hw : ∀ v w, Φ v → Φ { v with entryIdentity := w }) :
    Keeping M a (Prog.atomic f) Φ fun _ => Φ := by
  refine Rules.Outline.atomicWith (fun _ => hΦ.stable) fun s g hi hl hs b t ht => ?_
  obtain ⟨w, he⟩ := hf s g b t ht
  rw [Rules.Fine]
  dsimp only [Mode.rules]
  rw [he]
  refine ⟨⟨hl, .idle _ _, { hi.coupled with }, { entryIdentity := fun e c hc hn => ?_ }⟩,
    fun _ _ => hw _ _ hs⟩
  have hne : e ≠ i := by
    rintro rfl
    exact hn (hleaving _ hs c hc)
  simp [hne]

end

end TenzorBus.Refine
