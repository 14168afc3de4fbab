import TenzorBus.Conc.Triple
import TenzorBus.Paths.Size
import TenzorBus.Sequential.Oldest

/-!
# A publication that is refused

`publish` and `reserve` store nothing before they have found a slot: where there is nothing to reap,
what they look at is as it was when they give up.

* `Unhurt` : the system goes on, and there is still nothing to reap
* `Refused` : what a refusal leaves behind
* `refused` : the claim about both paths
-/

namespace TenzorBus

open Conc

variable {P : Platform} {n t : Nat} {r : Ring n} {a : Actor}

/-- Nobody else takes a step, and nobody is reported dead. -/
def Unhurt (a : Actor) (m m' : State P n × Ghost n) : Prop := OsStep m m' ∧ Settled m'.1 a

/-- The ring is as it was, and there is nothing to reap. -/
def Quiet (r : Ring n) (a : Actor) (s : State P n) : Prop := s.ring = r ∧ Settled s a

theorem Unhurt.quiet : EnvKeeps (Unhurt a) (Quiet r a : State P n → Prop) := by
  rintro m m' ⟨⟨os, -, rfl⟩, hset⟩ hm
  exact ⟨hm.1, hset⟩

theorem Unhurt.ring {m m' : State P n × Ghost n} (h : Relation.ReflTransGen (Unhurt a) m m') :
    m'.1.ring = m.1.ring :=
  OsStep.ring (h.lift id fun _ _ he => he.1)

/-! ## what is looked at -/

namespace Quiet

theorem load {β : Type} (f : Ring n → β) :
    Reads (Unhurt a) (Quiet r a) (TenzorBus.load f : RingM P n β) (f r) :=
  .read Unhurt.quiet fun s hs => by rw [hs.1]

theorem record (aux : State P n → Ghost n → Ghost n) :
    Reads (Unhurt a) (Quiet r a) (Prog.record aux : RingM P n Unit) () :=
  .modifyWith Unhurt.quiet fun _ hs => hs

theorem lockRegistry :
    Reads (Unhurt a) (Quiet r a) (TenzorBus.lockRegistry a : RingM P n Unit) () := by
  refine .act Unhurt.quiet fun s b s' hs h => ?_
  obtain ⟨-, h⟩ := Option.ite_none_right_eq_some.mp h
  cases h
  exact ⟨rfl, hs.1, hs.2.locked⟩

theorem unlockRegistry :
    Reads (Unhurt a) (Quiet r a) (TenzorBus.unlockRegistry : RingM P n Unit) () :=
  .modifyWith Unhurt.quiet fun _ hs => ⟨hs.1, hs.2.entries, hs.2.slots⟩

/-- An active entry is its own or is reported alive. -/
theorem reapEntry (freed : Bool) (i : Fin 64) :
    Reads (Unhurt a) (Quiet r a) (Ring.reapEntry a freed i : RingM P n Bool) freed := by
  refine .bind (load _) ?_
  split
  · exact .ret Unhurt.quiet _
  next hactive =>
  refine .bind (load _) ?_
  split
  · exact .ret Unhurt.quiet _
  next hme =>
  refine .bind (a := true) (.act Unhurt.quiet fun s b s' hs h => ?_) (.ret Unhurt.quiet _)
  cases h
  have hentry := hs.2.entries i
  rw [hs.1] at hentry
  exact ⟨(hentry (not_not.mp hactive)).resolve_left hme, hs⟩

theorem reapSlot (freed : Bool) (j : Fin n) :
    Reads (Unhurt a) (Quiet r a) (Ring.reapSlot a freed j : RingM P n Bool) freed := by
  refine .bind (load _) ?_
  split
  · exact .ret Unhurt.quiet _
  next hwriting =>
  refine .bind (load _) (.bind (load _) ?_)
  split
  · exact .ret Unhurt.quiet _
  next hme =>
  refine .bind (a := true) (.act Unhurt.quiet fun s b s' hs h => ?_) (.ret Unhurt.quiet _)
  cases h
  have hslot := hs.2.slots j
  rw [hs.1] at hslot
  exact ⟨(hslot (not_not.mp hwriting)).resolve_left hme, hs⟩

theorem reapDead : Reads (Unhurt a) (Quiet r a) (Ring.reapDead a : RingM P n Unit) () := by
  refine .bind (record _) (.bind (.foldl Unhurt.quiet (fun b i => reapEntry b i) _ _) ?_)
  rw [List.foldl_fixed]
  refine .bind (.foldl Unhurt.quiet (fun b j => reapSlot b j) _ _) ?_
  rw [List.foldl_fixed]
  exact .bind (record _) (.ret Unhurt.quiet _)

theorem selectSlot (found : Option (Fin n) × Option (UInt64 × Fin n)) (i : Fin n) :
    Reads (Unhurt a) (Quiet r a) (Producer.selectSlot found i : RingM P n _)
      (r.selectRound found i) := by
  unfold Ring.selectRound
  refine .bind (load _) ?_
  beta_reduce
  cases (r.slots i).state with
  | free => exact .ret Unhurt.quiet _
  | committed =>
    refine .bind (load _) ?_
    beta_reduce
    by_cases hmask : (r.slots i).readersMask = 0
    · simp only [if_pos hmask]
      refine .bind (load _) ?_
      obtain ⟨free, oldest⟩ := found
      cases oldest with
      | some best =>
        dsimp only
        split <;> exact .ret Unhurt.quiet _
      | none => exact .ret Unhurt.quiet _
    · simp only [if_neg hmask]
      exact .ret Unhurt.quiet _
  | writing => exact .ret Unhurt.quiet _

theorem chooseSlot : Reads (Unhurt a) (Quiet r a) (Producer.chooseSlot : RingM P n _) r.selected :=
  .bind (.foldl Unhurt.quiet (fun found i => selectSlot found i) _ _) (.ret Unhurt.quiet _)

end Quiet

/-! ## a round -/

/-- A round leaves nothing found only where nothing was found before and the slot cannot be had. -/
theorem Ring.selectRound_eq_none (found : Option (Fin n) × Option (UInt64 × Fin n)) (i : Fin n) :
    r.selectRound found i = (none, none) ↔
      found = (none, none) ∧ (r.slots i).state ≠ .free ∧ ¬r.Reclaimable i := by
  obtain ⟨free, oldest⟩ := found
  have hstates : ∀ x : SlotState, x = .free ∨ x = .committed ∨ x = .writing := by
    intro x
    cases x <;> simp
  unfold Ring.selectRound Ring.Reclaimable
  rcases hstates (r.slots i).state with h | h | h
  · cases free <;> simp [h]
  · by_cases hmask : (r.slots i).readersMask = 0
    · cases oldest with
      | none => simp [h, hmask]
      | some b =>
        cases hnewer : seqNewer b.1 (r.slots i).sequence <;> simp [h, hmask, hnewer]
    · simp [h, hmask]
  · simp [h]

/-- A slot is selected unless none can be had. -/
theorem Ring.selected_eq_none :
    r.selected = none ↔ ∀ i, (r.slots i).state ≠ .free ∧ ¬r.Reclaimable i := by
  have hpass : ∀ (xs : List (Fin n)) (found : Option (Fin n) × Option (UInt64 × Fin n)),
      xs.foldl r.selectRound found = (none, none) ↔
        found = (none, none) ∧ ∀ i ∈ xs, (r.slots i).state ≠ .free ∧ ¬r.Reclaimable i := by
    intro xs
    induction xs with
    | nil => simp
    | cons i xs ih =>
      intro found
      rw [List.foldl_cons, ih, Ring.selectRound_eq_none, List.forall_mem_cons, and_assoc]
  have hor : ∀ found : Option (Fin n) × Option (UInt64 × Fin n),
      found.1.or (found.2.map (·.2)) = none ↔ found = (none, none) := by
    rintro ⟨free, oldest⟩
    cases free <;> cases oldest <;> simp
  unfold Ring.selected
  rw [hor, hpass]
  simp

/-- What a reservation finds, or that it has found nothing and has left everything as it was. -/
theorem lockedReserve_calm {dtype : DType} {ndim nbytes : Nat}
    {shape strides : Fin maxNdim → UInt32} {timestampNs : Option UInt64}
    {m m' : State P n × Ghost n} {reserved : Option (Fin n × UInt64 × UInt64)}
    (hm : Quiet r (.writer t) m.1)
    (h : (Producer.lockedReserve t dtype ndim shape strides nbytes timestampNs :
      RingM P n _).Outcome (Unhurt (.writer t)) m reserved m') (hnone : reserved = none) :
    r.selected = none ∧ Quiet r (.writer t) m'.1 := by
  subst hnone
  obtain ⟨_, m₁, hlock, h⟩ := Prog.Outcome.bind_iff.mp h
  obtain ⟨result, m₂, h, hlast⟩ := Prog.Outcome.bind_iff.mp h
  obtain ⟨_, m₃, hunlock, hret⟩ := Prog.Outcome.bind_iff.mp hlast
  obtain ⟨rfl, henv⟩ := Prog.Outcome.ret_iff.mp hret
  obtain ⟨_, m₄, hreap, h⟩ := Prog.Outcome.bind_iff.mp h
  obtain ⟨chosen, m₅, hchosen, h⟩ := Prog.Outcome.bind_iff.mp h
  have hm₁ := (Quiet.lockRegistry _ _ _ hm hlock).2
  have hm₄ := (Quiet.reapDead _ _ _ hm₁ hreap).2
  obtain ⟨hselected, hm₅⟩ := Quiet.chooseSlot _ _ _ hm₄ hchosen
  cases chosen with
  | none =>
    have hm₂ := (Reads.ret Unhurt.quiet _ _ _ _ hm₅ h).2
    have hm₃ := (Quiet.unlockRegistry _ _ _ hm₂ hunlock).2
    exact ⟨hselected.symm, Unhurt.quiet.star henv hm₃⟩
  | some slot =>
    obtain ⟨sequence, _, -, h⟩ := Prog.Outcome.bind_iff.mp h
    obtain ⟨mask, _, -, h⟩ := Prog.Outcome.bind_iff.mp h
    obtain ⟨_, _, -, h⟩ := Prog.Outcome.bind_iff.mp h
    cases (Prog.Outcome.ret_iff.mp h).1

/-- Whoever finds nothing counts the drop, gives up, or sleeps and looks again. -/
inductive GivesUp {α : Type} (r : Ring n) (a : Actor) (m : State P n × Ghost n) :
    Option (Except Error (Option α)) → Prop
  | dropped (h : m.1.ring = { r with dropCount := r.dropCount + 1 }) :
      GivesUp r a m (some (.ok none))
  | ringFull (h : m.1.ring = r) : GivesUp r a m (some (.error .ringFull))
  | again (h : Quiet r a m.1) : GivesUp r a m none

theorem backOff_calm {α : Type} {policy : Backpressure} {deadline : Nat}
    {m m' : State P n × Ghost n} {result : Option (Except Error (Option α))}
    (hm : Quiet r (.writer t) m.1)
    (h : (Producer.backOff t policy deadline : RingM P n _).Outcome (Unhurt (.writer t)) m
      result m') :
    GivesUp r (.writer t) m' result := by
  unfold Producer.backOff at h
  split at h
  · obtain ⟨_, m₁, hstore, h⟩ := Prog.Outcome.bind_iff.mp h
    obtain ⟨rfl, henv⟩ := Prog.Outcome.ret_iff.mp h
    obtain ⟨m₂, _, s, henv₂, hs, hk⟩ := Prog.Outcome.act_iff.mp hstore
    cases hs
    refine .dropped ?_
    rw [Unhurt.ring henv, Unhurt.ring (Prog.Outcome.ret_iff.mp hk).2,
      ← (Unhurt.quiet.star henv₂ hm).1]
  · obtain ⟨time, m₁, hnow, h⟩ := Prog.Outcome.bind_iff.mp h
    obtain ⟨m₂, _, s, henv₂, hs, hk⟩ := Prog.Outcome.act_iff.mp hnow
    cases hs
    have hm₁ : Quiet r (.writer t) m₁.1 :=
      Unhurt.quiet.star (Prog.Outcome.ret_iff.mp hk).2 (Unhurt.quiet.star henv₂ hm)
    split at h
    · obtain ⟨rfl, henv⟩ := Prog.Outcome.ret_iff.mp h
      exact .ringFull (Unhurt.quiet.star henv hm₁).1
    · obtain ⟨observed, m₃, hload, h⟩ := Prog.Outcome.bind_iff.mp h
      obtain ⟨_, m₄, hwait, h⟩ := Prog.Outcome.bind_iff.mp h
      obtain ⟨rfl, henv⟩ := Prog.Outcome.ret_iff.mp h
      have hsleep : Reads (Unhurt (.writer t)) (Quiet r (.writer t) : State P n → Prop)
          (futexWait (.writer t) .reclaim observed) () := by
        refine .bind (.modifyWith Unhurt.quiet fun s hs => ?_)
          (.modifyWith Unhurt.quiet fun s hs => ⟨hs.1, hs.2.entries, hs.2.slots⟩)
        split
        · exact ⟨hs.1, hs.2.entries, hs.2.slots⟩
        · exact hs
      have hm₃ := (Quiet.load _ _ _ _ hm₁ hload).2
      exact .again (Unhurt.quiet.star henv (hsleep _ _ _ hm₃ hwait).2)

/-! ## a refusal -/

/-- What a refusal leaves behind: the ring as it was, but for the count of a drop. Only a ring in
which no slot can be had is full. -/
structure Refused {α : Type} (r r' : Ring n) (result : Except Error (Option α)) : Prop where
  error : ∀ e, result = .error e → r' = r
  dropped : result = .ok none → r' = { r with dropCount := r.dropCount + 1 }
  full : result = .error .ringFull ∨ result = .ok none →
    ∀ i, (r.slots i).state = .writing ∨
      ((r.slots i).state = .committed ∧ (r.slots i).readersMask ≠ 0)

/-- A slot that cannot be had. -/
theorem Ring.occupied_of_selected (h : r.selected = none) (i : Fin n) :
    (r.slots i).state = .writing ∨
      ((r.slots i).state = .committed ∧ (r.slots i).readersMask ≠ 0) := by
  obtain ⟨hfree, hreclaimable⟩ := Ring.selected_eq_none.mp h i
  cases hstate : (r.slots i).state with
  | free => exact absurd hstate hfree
  | writing => exact .inl rfl
  | committed => exact .inr ⟨rfl, fun hmask => hreclaimable ⟨hstate, hmask⟩⟩

/-- A refusal before the first round. -/
theorem Refused.invalid {α : Type} (message : String) :
    Refused (α := α) r r (.error (.invalid message)) :=
  ⟨fun _ _ => rfl, nofun, by rintro (h | h) <;> cases h⟩

/-- The loop of both paths. -/
theorem loop_refused {α : Type} {dtype : DType} {ndim nbytes : Nat}
    {shape strides : Fin maxNdim → UInt32} {timestampNs : Option UInt64} {policy : Backpressure}
    {deadline : Nat}
    {k : Option (Fin n × UInt64 × UInt64) → RingM P n (Option (Except Error (Option α)))}
    (hsome : ∀ y m x m', (k (some y)).Outcome (Unhurt (.writer t)) m x m' →
      ∃ b, x = some (.ok (some b)))
    (hnone : k none = Producer.backOff t policy deadline) {m m' : State P n × Ghost n}
    {result : Except Error (Option α)} (hm : Quiet r (.writer t) m.1)
    (h : (Prog.loop (Producer.lockedReserve t dtype ndim shape strides nbytes timestampNs >>= k)
      ).Outcome (Unhurt (.writer t)) m result m') : Refused r m'.1.ring result := by
  obtain ⟨result', m₁, hrounds, hret⟩ := outcome_iter.mp h
  obtain ⟨rfl, henv⟩ := Prog.Outcome.ret_iff.mp hret
  rw [Unhurt.ring henv]
  clear h hret henv
  induction hrounds with
  | @more m m₁ _ _ hround _ ih =>
    refine ih ?_
    obtain ⟨reserved, m₂, hreserve, hrest⟩ := Prog.Outcome.bind_iff.mp hround
    cases reserved with
    | some y =>
      obtain ⟨b, hb⟩ := hsome y _ _ _ hrest
      cases hb
    | none =>
      rw [hnone] at hrest
      cases backOff_calm (lockedReserve_calm hm hreserve rfl).2 hrest with
      | again h => exact h
  | @last m m' b hround =>
    obtain ⟨reserved, m₂, hreserve, hrest⟩ := Prog.Outcome.bind_iff.mp hround
    cases reserved with
    | some y =>
      obtain ⟨b', hb⟩ := hsome y _ _ _ hrest
      cases hb
      exact ⟨nofun, nofun, by rintro (h | h) <;> cases h⟩
    | none =>
      rw [hnone] at hrest
      obtain ⟨hselected, hm₂⟩ := lockedReserve_calm hm hreserve rfl
      have hfull := Ring.occupied_of_selected hselected
      cases backOff_calm hm₂ hrest with
      | dropped h => exact ⟨nofun, fun _ => h, fun _ => hfull⟩
      | ringFull h => exact ⟨fun _ _ => h, nofun, fun _ => hfull⟩

/-- A publication on either path that is refused has left the ring as it was. -/
theorem refused (L : RingLayout) (t : Nat) (m : State P L.slotCount × Ghost L.slotCount)
    (hsettled : Settled m.1 (.writer t)) :
    (∀ (view : TensorView) (policy : Backpressure) (timeout : Nat) result m',
      (Producer.publish L t view policy timeout).Outcome (Unhurt (.writer t)) m result m' →
        Refused m.1.ring m'.1.ring result) ∧
    ∀ (dtype : DType) (shape : List UInt32) (policy : Backpressure) (timeout : Nat) result m',
      (Producer.reserve L t dtype shape policy timeout).Outcome (Unhurt (.writer t)) m result m' →
        Refused m.1.ring m'.1.ring result := by
  have hinvalid : ∀ {α : Type} {message : String} {result : Except Error (Option α)} {m'},
      (pure (.error (.invalid message)) : RingM P L.slotCount _).Outcome (Unhurt (.writer t)) m
        result m' → Refused m.1.ring m'.1.ring result := by
    intro α message result m' h
    obtain ⟨rfl, henv⟩ := Prog.Outcome.ret_iff.mp h
    rw [Unhurt.ring henv]
    exact .invalid message
  have hquiet : Quiet m.1.ring (.writer t) m.1 := ⟨rfl, hsettled⟩
  constructor
  · intro view policy timeout result m' h
    rw [Producer.publish_eq] at h
    split at h
    · exact hinvalid h
    obtain ⟨start, m₁, hnow, h⟩ := Prog.Outcome.bind_iff.mp h
    have hm₁ := Keeps.read Unhurt.quiet _ _ _ _ hquiet hnow
    refine loop_refused ?_ rfl hm₁ h
    intro y m x m' hy
    obtain ⟨_, _, -, hy⟩ := Prog.Outcome.bind_iff.mp hy
    obtain ⟨_, _, -, hy⟩ := Prog.Outcome.bind_iff.mp hy
    exact ⟨_, (Prog.Outcome.ret_iff.mp hy).1⟩
  · intro dtype shape policy timeout result m' h
    rw [Producer.reserve_eq] at h
    split at h
    · exact hinvalid h
    split at h
    · exact hinvalid h
    obtain ⟨start, m₁, hnow, h⟩ := Prog.Outcome.bind_iff.mp h
    have hm₁ := Keeps.read Unhurt.quiet _ _ _ _ hquiet hnow
    refine loop_refused ?_ rfl hm₁ h
    intro y m x m' hy
    obtain ⟨_, _, -, hy⟩ := Prog.Outcome.bind_iff.mp hy
    obtain ⟨_, _, -, hy⟩ := Prog.Outcome.bind_iff.mp hy
    exact ⟨_, (Prog.Outcome.ret_iff.mp hy).1⟩

/-- One slot is reserved, and consumer 0 still has to read the other one. -/
def State.full : State .single 2 :=
  { State.init 3 () with
    ring :=
      { Ring.format 2 3 with
        slots := fun i =>
          { Slot.zero with
            state := if i = 0 then .writing else .committed
            readersMask := 1 } } }

theorem refused_full :
    ∃ m' : State .single 2 × Ghost 2,
      (Producer.publish (.small 2 (by decide) (by decide)) 0 (.byte 5) .dropNewest 0 :
        RingM .single 2 _).Outcome (Unhurt (.writer 0)) (State.full, Ghost.init 2 3) (.ok none) m' ∧
      m'.1.ring = { State.full.ring with dropCount := 1 } := by
  have hsettled : Settled State.full (.writer 0) :=
    ⟨fun i h => .inl (by cases h), fun _ _ => .inr rfl⟩
  have hselected : State.full.ring.selected = none := Ring.selected_eq_none.mpr (by decide)
  have hreserve := lockedReserve_yields (t := 0) rfl hsettled .u8 1 (padded [1]) (padded [1]) 1 none
  rw [hselected] at hreserve
  have hpublish : (Producer.publish (.small 2 (by decide) (by decide)) 0 (.byte 5) .dropNewest 0 :
      RingM .single 2 _).Yields State.full (.ok none)
        { State.full with ring := { State.full.ring with dropCount := 1 } } := by
    rw [Producer.publish_eq, if_neg (by decide)]
    refine .get (.loop (.bind hreserve ?_))
    exact .put (.ret _ _)
  obtain ⟨g, h⟩ := hpublish.outcome (E := Unhurt (.writer 0)) (Ghost.init 2 3)
  exact ⟨_, h, ((refused (P := .single) (.small 2 (by decide) (by decide)) 0
    (State.full, Ghost.init 2 3) hsettled).1 _ _ _ _ _ h).dropped rfl⟩

end TenzorBus
