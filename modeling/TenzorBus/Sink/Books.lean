import TenzorBus.Conc.Triple
import TenzorBus.Sink.State

/-!
# What only a producer changes

The states, sequences and producers of the slots, the counter and the publications: as long as the
sink's process lives, consumers and sweeps leave them alone.

* `Books`, `books` : what only a producer changes
* `Others` : what the others may do
* `From` : what a program makes of the books, whatever the others do in between
* `Silent` : a program that leaves them alone
-/

namespace TenzorBus

open Conc

variable {P : Platform} {n : Nat} {L : RingLayout}

structure Books (n : Nat) where
  state : Fin n → SlotState
  sequence : Fin n → UInt64
  producerPid : Fin n → UInt32
  next : UInt64
  published : List (UInt64 × Fin n)

def books (m : State P n × Ghost n) : Books n :=
  { state := fun i => (m.1.ring.slots i).state
    sequence := fun i => (m.1.ring.slots i).sequence
    producerPid := fun i => (m.1.ring.slots i).producerPid
    next := m.1.ring.nextSeq
    published := m.2.published.map fun p => (p.sequence, p.slot) }

/-- Whatever does not change the books. -/
def Others (m m' : State P n × Ghost n) : Prop := books m' = books m

/-- From the books `b` the program leads to where `G` holds. -/
def From {α : Type} (b : Books n) (p : RingM P n α) (G : α → Books n → Prop) : Prop :=
  Triple Others (fun m => books m = b) p fun a m => G a (books m)

/-- The program leaves the books alone. -/
def Silent {α : Type} (p : RingM P n α) : Prop := ∀ b : Books n, From b p fun _ b' => b' = b

theorem kept_books (F : Books n → Prop) :
    Kept Others fun m : State P n × Ghost n => F (books m) := by
  intro m m' he hm
  rwa [show books m' = books m from he]

/-- What a store to slot `i` makes of the books. -/
theorem books_setSlot {s : State P n} {g g' : Ghost n} {i : Fin n} {f : Slot → Slot} :
    books ({ s with ring := s.ring.setSlot i f }, g') =
      { books (s, g) with
        state := Function.update (books (s, g)).state i (f (s.ring.slots i)).state
        sequence := Function.update (books (s, g)).sequence i (f (s.ring.slots i)).sequence
        producerPid := Function.update (books (s, g)).producerPid i
          (f (s.ring.slots i)).producerPid
        published := g'.published.map fun p => (p.sequence, p.slot) } := by
  have hslot : ∀ {β : Type} (w : Slot → β), (fun j => w ((s.ring.setSlot i f).slots j)) =
      Function.update (fun j => w (s.ring.slots j)) i (w (f (s.ring.slots i))) := by
    intro β w
    funext j
    by_cases hj : j = i
    · subst hj
      simp [Ring.setSlot]
    · simp [Ring.setSlot, hj]
  exact (Books.mk.injEq ..).mpr ⟨hslot _, hslot _, hslot _, rfl, rfl⟩

theorem books_setSlot_same {s : State P n} {g g' : Ghost n} {i : Fin n} {f : Slot → Slot}
    (hf : (f (s.ring.slots i)).state = (s.ring.slots i).state ∧
      (f (s.ring.slots i)).sequence = (s.ring.slots i).sequence ∧
        (f (s.ring.slots i)).producerPid = (s.ring.slots i).producerPid)
    (hg : g'.published = g.published) :
    books ({ s with ring := s.ring.setSlot i f }, g') = books (s, g) := by
  rw [books_setSlot (g := g), hf.1, hf.2.1, hf.2.2, hg]
  refine (Books.mk.injEq ..).mpr ⟨?_, ?_, ?_, rfl, rfl⟩ <;> exact Function.update_eq_self _ _

variable {α β : Type} {b : Books n}

namespace From

variable {G : α → Books n → Prop}

theorem ret {a : α} (h : G a b) : From b (pure a : RingM P n α) G :=
  Triple.ret (kept_books (· = b)) fun _ hm => hm ▸ h

theorem post {p : RingM P n α} {G' : α → Books n → Prop} (h : From b p G)
    (hG : ∀ a b', G a b' → G' a b') : From b p G' :=
  Triple.post h fun a m => hG a (books m)

theorem bind {p : RingM P n α} {q : α → RingM P n β} {X : α → Books n → Prop}
    {G : β → Books n → Prop} (hp : From b p X) (hq : ∀ a b', X a b' → From b' (q a) G) :
    From b (p >>= q) G :=
  Triple.bind hp fun a m _ m' hm => hq a (books m) hm m _ m' rfl

/-- A program that leads to other books, and what follows it. -/
theorem seq {c : Books n} {p : RingM P n α} {q : α → RingM P n β} {G : β → Books n → Prop}
    (hp : From b p fun _ b' => b' = c) (hq : ∀ a, From c (q a) G) : From b (p >>= q) G :=
  bind hp fun a _ hb => hb ▸ hq a

/-- What a program that leaves the books alone is followed by. -/
theorem skip {p : RingM P n α} {q : α → RingM P n β} {G : β → Books n → Prop}
    (hp : Silent p) (hq : ∀ a, From b (q a) G) : From b (p >>= q) G :=
  seq (hp b) hq

theorem act {f : State P n → Option (α × State P n)} {aux : α → State P n → Ghost n → Ghost n}
    (h : ∀ s g a s', books (s, g) = b → f s = some (a, s') → G a (books (s', aux a s g))) :
    From b (Prog.atomicWith f aux) G :=
  Triple.act (kept_books (· = b)) (fun a => kept_books (G a)) h

theorem read {f : State P n → α} (h : ∀ m : State P n × Ghost n, books m = b → G (f m.1) b) :
    From b (Prog.read f : RingM P n α) G :=
  act fun s g a s' hb hs => by cases hs; exact hb ▸ h (s, g) hb

/-- A read of which the books tell the answer, and what follows it. -/
theorem get {f : State P n → α} {v : α} {k : α → RingM P n β} {G : β → Books n → Prop}
    (h : ∀ m : State P n × Ghost n, books m = b → f m.1 = v) (hk : From b (k v) G) :
    From b (Prog.read f >>= k) G := by
  refine bind (X := fun a b' => a = v ∧ b' = b) (read fun m hm => ⟨h m hm, rfl⟩) ?_
  rintro a b' ⟨ha, hb⟩
  rw [ha, hb]
  exact hk

theorem store {f : State P n → State P n} {aux : State P n → Ghost n → Ghost n}
    {G : Books n → Prop} (h : ∀ s g, books (s, g) = b → G (books (f s, aux s g))) :
    From b (Prog.modifyWith f aux) fun _ => G :=
  act fun s g a s' hb hs => by cases hs; exact h s g hb

/-- A loop whose rounds leave the books alone until there is an answer. -/
theorem loop {body : RingM P n (Option α)}
    (h : From b body fun r b' => match r with
      | none => b' = b
      | some a => G a b') : From b (Prog.loop body) G :=
  Triple.loop (fun a => kept_books (G a)) (Triple.post h fun r m hr => by cases r <;> exact hr)

end From

namespace Silent

theorem ret (a : α) : Silent (pure a : RingM P n α) := fun _ => .ret rfl

theorem bind {p : RingM P n α} {q : α → RingM P n β} (hp : Silent p) (hq : ∀ a, Silent (q a)) :
    Silent (p >>= q) :=
  fun b => .seq (hp b) fun a => hq a b

theorem read (f : State P n → α) : Silent (Prog.read f : RingM P n α) :=
  fun _ => .read fun _ _ => rfl

theorem act {f : State P n → Option (α × State P n)} {aux : α → State P n → Ghost n → Ghost n}
    (h : ∀ s g a s', f s = some (a, s') → books (s', aux a s g) = books (s, g)) :
    Silent (Prog.atomicWith f aux) :=
  fun _ => .act fun s g a s' hb hs => (h s g a s' hs).trans hb

theorem store {f : State P n → State P n} {aux : State P n → Ghost n → Ghost n}
    (h : ∀ s g, books (f s, aux s g) = books (s, g)) : Silent (Prog.modifyWith f aux) :=
  fun _ => .store fun s g hb => (h s g).trans hb

theorem fold {δ : Type} {f : δ → β → RingM P n δ} (hf : ∀ d x, Silent (f d x)) :
    ∀ (xs : List β) (d : δ), Silent (xs.foldlM f d)
  | [], d => ret d
  | x :: xs, d => by
    rw [List.foldlM_cons]
    exact bind (hf d x) fun d' => fold hf xs d'

theorem forM {f : β → RingM P n PUnit} (hf : ∀ x, Silent (f x)) :
    ∀ xs : List β, Silent (xs.forM f)
  | [] => ret _
  | x :: xs => bind (hf x) fun _ => forM hf xs

end Silent

/-- A store to a slot and what it makes of the books. -/
theorem From.slot {i : Fin n} {f : Slot → Slot} {aux : State P n → Ghost n → Ghost n}
    (x : SlotState) (q : UInt64) (pid : UInt32)
    (hf : ∀ t : Slot, t.state = b.state i → t.sequence = b.sequence i →
      t.producerPid = b.producerPid i → (f t).state = x ∧ (f t).sequence = q ∧
        (f t).producerPid = pid)
    (haux : ∀ s g, (aux s g).published = g.published) :
    From b (storeSlotWith i f aux) fun _ b' => b' =
      { b with
        state := Function.update b.state i x
        sequence := Function.update b.sequence i q
        producerPid := Function.update b.producerPid i pid } := by
  refine .store fun s g hb => ?_
  subst hb
  obtain ⟨hx, hq, hp⟩ := hf (s.ring.slots i) rfl rfl rfl
  rw [books_setSlot (g := g), hx, hq, hp, haux]
  rfl

/-! ## what leaves the books alone -/

theorem silent_load {β : Type} (f : Ring n → β) : Silent (load f : RingM P n β) := .read _

/-- A store to a slot that leaves its state, its sequence and its producer alone. -/
theorem silent_slot {i : Fin n} {f : Slot → Slot} {aux : State P n → Ghost n → Ghost n}
    (hf : ∀ t, (f t).state = t.state ∧ (f t).sequence = t.sequence ∧
      (f t).producerPid = t.producerPid)
    (haux : ∀ s g, (aux s g).published = g.published) : Silent (storeSlotWith i f aux) :=
  .store fun s g => books_setSlot_same (hf _) (haux s g)

theorem silent_signal (w : FutexWord) : Silent (signal w : RingM P n Unit) := by
  refine .bind (.store fun s g => ?_) fun _ => .store fun _ _ => rfl
  cases w <;> rfl

theorem silent_lock (a : Actor) : Silent (lockRegistry a : RingM P n Unit) :=
  .act fun s g x s' hs => by
    obtain ⟨-, hs⟩ := Option.ite_none_right_eq_some.mp hs
    cases hs
    rfl

theorem silent_unlock : Silent (unlockRegistry : RingM P n Unit) :=
  .store fun _ _ => rfl

theorem silent_storeReaders (a : Actor) (i : Fin n) (count : Nat) :
    Silent (storeReaders a i count : RingM P n Unit) :=
  silent_slot (fun _ => ⟨rfl, rfl, rfl⟩) fun _ _ => rfl

theorem silent_dropConsumerBit (a : Actor) (index : Fin 64) :
    Silent (Ring.dropConsumerBit a index : RingM P n Bool) := by
  refine .fold (fun freed i => ?_) _ _
  refine .bind (.act fun s g x s' hs => ?_) fun previous => ?_
  · cases hs
    refine books_setSlot_same ⟨rfl, rfl, rfl⟩ ?_
    dsimp only
    split <;> rfl
  · split
    · exact .bind (silent_storeReaders _ _ _) fun _ => .ret _
    · exact .ret _

theorem silent_freeEntry (a : Actor) (i : Fin 64) :
    Silent (Ring.freeEntry a i : RingM P n Unit) :=
  .bind (.store fun _ _ => rfl) fun _ =>
    .bind (silent_load _) fun _ => .store fun _ _ => rfl

theorem silent_reapEntry (a : Actor) (freed : Bool) (i : Fin 64) :
    Silent (Ring.reapEntry a freed i : RingM P n Bool) := by
  refine .bind (silent_load _) fun state => ?_
  split
  · exact .ret _
  refine .bind (silent_load _) fun pid => ?_
  split
  · exact .ret _
  refine .bind (.act fun s g x s' hs => by cases hs; rfl) fun alive => ?_
  split
  · exact .ret _
  refine .bind (silent_dropConsumerBit a i) fun dropped => ?_
  refine .bind (.store fun _ _ => rfl) fun _ => ?_
  refine .bind (silent_freeEntry a i) fun _ => ?_
  refine .bind (.store fun _ _ => rfl) fun _ => ?_
  exact .bind (.store fun _ _ => rfl) fun _ => .ret _

theorem silent_activeMask : Silent (Ring.activeMask : RingM P n UInt64) := by
  refine .fold (fun mask i => .bind (silent_load _) fun state => ?_) _ _
  split <;> exact .ret _

theorem silent_copyPayload (slot : Fin n) (data : List UInt8) :
    Silent (Producer.copyPayload slot data : RingM P n Unit) := by
  refine .forM (fun x => ?_) _
  exact silent_slot (fun _ => ⟨rfl, rfl, rfl⟩) fun _ _ => rfl

theorem silent_futexWait (a : Actor) (w : FutexWord) (expected : UInt32) :
    Silent (futexWait a w expected : RingM P n Unit) := by
  refine .bind (.store fun s g => ?_) fun _ => .store fun _ _ => rfl
  split <;> rfl

end TenzorBus
