import TenzorBus.Conc.Carries
import TenzorBus.Ring.Inner
import TenzorBus.Ring.Session

/-!
# What becomes of the handles

Consumer handles, leases and slot writers pass through the hands of the calls that make them or use
them up.

* `Hand` : what a call has on its hands
* `Handles` : what an action may do to the handles
* `Reply.hand` : what a call returns
* `Request.carries` : every call does only that
-/

namespace TenzorBus

open Conc

variable {P : Platform} {n : Nat} {L : RingLayout}

/-- What a call has on its hands. -/
inductive Hand (n : Nat)
  | nothing
  /-- An open consumer, and one that is being closed. -/
  | opened
  | closing
  /-- A lease that has been taken and not returned yet, or is about to be released. -/
  | lease (m : TensorMeta n)
  /-- Room for a slot writer. -/
  | room
  /-- A slot writer that has been made and not returned yet, or is about to be used up. -/
  | writer (w : SlotWriter n)

/-- The handles stay as they are; what is open stays open. -/
structure HandlesKept (s s' : State P n) : Prop where
  consumer : ∀ c x, s.isOpen c x → ∃ y, s'.isOpen c y
  leases : s'.leases = s.leases
  writer : s'.writer = s.writer

/-- What an action of `a` may do to the handles, with what it has on its hands before and after. -/
inductive Handles (a : Actor) (s s' : State P n) : Hand n → Hand n → Prop
  | keep (h : Hand n) (kept : HandlesKept s s') : Handles a s s' h h
  | take (c : Nat) (m : TensorMeta n) (actor : a = .consumer c)
      (consumer : ∀ c x, s.isOpen c x → ∃ y, s'.isOpen c y)
      (leases : s'.leases = Function.update s.leases c (m :: s.leases c))
      (writer : s'.writer = s.writer) : Handles a s s' .opened (.lease m)
  | give (c : Nat) (m : TensorMeta n) (actor : a = .consumer c)
      (consumer : s'.consumer = s.consumer)
      (leases : s'.leases = Function.update s.leases c ((s.leases c).erase m))
      (writer : s'.writer = s.writer) : Handles a s s' (.lease m) .nothing
  | close (c : Nat) (actor : a = .consumer c)
      (consumer : ∀ c' x, c' ≠ c → s.isOpen c' x → ∃ y, s'.isOpen c' y)
      (leases : s'.leases = s.leases) (writer : s'.writer = s.writer) :
      Handles a s s' .closing .closing
  | reserve (t : Nat) (w : SlotWriter n) (actor : a = .writer t)
      (consumer : s'.consumer = s.consumer) (leases : s'.leases = s.leases)
      (writer : s'.writer = Function.update s.writer t (some w)) : Handles a s s' .room (.writer w)
  | consume (t : Nat) (w : SlotWriter n) (actor : a = .writer t)
      (consumer : s'.consumer = s.consumer) (leases : s'.leases = s.leases)
      (writer : s'.writer = Function.update s.writer t none) : Handles a s s' (.writer w) .nothing

/-- `Handles`, of the memory. -/
abbrev handling (a : Actor) (h h' : Hand n) (m m' : State P n × Ghost n) : Prop :=
  Handles a m.1 m'.1 h h'

/-! ## what keeps the handles -/

theorem HandlesKept.refl (s : State P n) : HandlesKept s s := ⟨fun _ x h => ⟨x, h⟩, rfl, rfl⟩

theorem HandlesKept.of_eq {s s' : State P n} (hc : s'.consumer = s.consumer)
    (hl : s'.leases = s.leases) (hw : s'.writer = s.writer) : HandlesKept s s' :=
  ⟨fun c x h => ⟨x, by rwa [State.isOpen, hc]⟩, hl, hw⟩

/-- Every action of the program keeps the handles. -/
abbrev KeepsHandles {α : Type} (p : RingM P n α) : Prop := p.Acts fun m m' => HandlesKept m.1 m'.1

theorem keeps_inner {α : Type} {p : RingM P n α} (h : p.Acts Inner) : KeepsHandles p :=
  h.mono fun _ _ hi => .of_eq hi.consumer hi.leases hi.writer

theorem keeps_futexWait (a : Actor) (w : FutexWord) (expected : UInt32) :
    KeepsHandles (futexWait a w expected : RingM P n Unit) := by
  refine .bind (.modifyWith fun s g => ?_) fun _ => keeps_inner (inner_wake a)
  dsimp only
  split <;> exact .of_eq rfl rfl rfl

theorem keeps_subscribe (a : Actor) (c : Nat) (i : Fin 64) :
    KeepsHandles (Ring.subscribe a c i : RingM P n Unit) := by
  refine .bind (keeps_inner inner_read) fun next => .bind ?_ fun generation => ?_
  · exact .act fun s g b s' hs => by
      cases hs
      exact .of_eq rfl rfl rfl
  refine .bind (keeps_inner inner_entry) fun _ => .bind (keeps_inner inner_read) fun token =>
    .bind (keeps_inner inner_entry) fun _ => .bind (keeps_inner inner_read) fun stamp =>
      .bind (keeps_inner inner_entry) fun _ => .bind (keeps_inner inner_entry) fun _ => ?_
  refine .bind (.modifyWith fun s g => .of_eq rfl rfl rfl) fun _ =>
    .bind (keeps_inner inner_read) fun count =>
      .bind (keeps_inner (inner_storeConsumers _)) fun _ =>
        .bind (.modifyWith fun s g => .of_eq rfl rfl rfl) fun _ =>
          .bind (keeps_inner inner_unlockRegistry) fun _ => ?_
  -- the handle of the consumer itself is new
  refine .modifyWith fun s g => ⟨fun c' x hx => ?_, rfl, rfl⟩
  by_cases hc : c' = c
  · subst hc
    exact ⟨_, Function.update_self _ _ _, rfl⟩
  · exact ⟨x, (Function.update_of_ne hc _ _).trans hx.1, hx.2⟩

theorem keeps_consumer (a : Actor) (c : Nat) :
    KeepsHandles (Ring.consumer a c : RingM P n (Except Error Unit)) := by
  refine .bind (keeps_inner (inner_lockRegistry _)) fun _ =>
    .bind (keeps_inner (inner_reapDead _)) fun _ =>
      .bind (keeps_inner (inner_reads (Ring.firstFree_reads _))) fun chosen => ?_
  split
  · exact .bind (.modifyWith fun s g => .of_eq rfl rfl rfl) fun _ =>
      .bind (keeps_inner inner_unlockRegistry) fun _ => .ret _
  · exact .bind (keeps_subscribe a c _) fun _ => .ret _

theorem keeps_commitSlot (t : Nat) (slot : Fin n) (mask : UInt64) :
    KeepsHandles (Producer.commitSlot t slot mask : RingM P n Unit) := by
  refine .bind (.modifyWith fun s g => .of_eq rfl rfl rfl) fun _ =>
    .bind (.modifyWith fun s g => .of_eq rfl rfl rfl) fun _ => ?_
  exact .bind (.modifyWith fun s g => .of_eq rfl rfl rfl) fun _ => keeps_inner (inner_wakeAll _)

/-! ## what goes through the hands of a call -/

variable {a : Actor} {α : Type} {h : Hand n}

theorem KeepsHandles.acts {p : RingM P n α} (hp : KeepsHandles p) :
    p.Acts (handling a h h) :=
  hp.mono fun _ _ => .keep h

theorem backOff_carries (t : Nat) (policy : Backpressure) (deadline : Nat) :
    (Producer.backOff t policy deadline : RingM P n (Option (Except Error (Option α)))).Carries
      (handling a) h fun r h' => h' = h ∧ ∀ x, r ≠ some (.ok (some x)) := by
  unfold Producer.backOff
  split
  · exact .then' (.modifyWith fun s g => .keep _ (.of_eq rfl rfl rfl)) fun _ => .ret ⟨rfl, by simp⟩
  refine .then' (keeps_inner inner_read).acts fun time => ?_
  split
  · exact .ret ⟨rfl, by simp⟩
  · exact .then' (keeps_inner inner_read).acts fun observed =>
      .then' (keeps_futexWait _ _ _).acts fun _ => .ret ⟨rfl, by simp⟩

theorem publish_carries (t : Nat) (tensor : TensorView) (policy : Backpressure) (timeout : Nat)
    {h : Hand L.slotCount} :
    (Producer.publish L t tensor policy timeout : RingM P L.slotCount _).Carries (handling a) h
      fun _ h' => h' = h := by
  unfold Producer.publish
  split
  · exact .ret rfl
  refine .then' (keeps_inner inner_read).acts fun start => .loop ?_
  refine .then' (keeps_inner (inner_lockedReserve _ _ _ _ _ _ _)).acts fun reserved => ?_
  split
  · exact .then' (keeps_inner (inner_copyPayload _ _)).acts fun _ =>
      .then' (keeps_commitSlot _ _ _).acts fun _ => .ret rfl
  · refine (backOff_carries t policy _).mono fun r h' hr => ?_
    cases r <;> exact hr.1

/-- What `next` has in the end. -/
def Hand.delivered : Except Error (TensorMeta n) → Hand n
  | .ok m => .lease m
  | .error _ => .opened

theorem take_carries (c : Nat) (m : TensorMeta n) :
    (Consumer.take c m : RingM P n Unit).Carries (handling (.consumer c)) .opened
      fun _ h => h = .lease m := by
  refine .modifyWith fun s g => .take c m rfl (fun c' x hx => ?_) rfl rfl
  by_cases hc : c' = c
  · subst hc
    refine ⟨{ x with lastSequence := m.sequence }, ?_, hx.2⟩
    show Function.update s.consumer c' _ c' = _
    rw [Function.update_self, hx.1]
    rfl
  · exact ⟨x, (Function.update_of_ne hc _ _).trans hx.1, hx.2⟩

theorem nextRaw_carries (cap c : Nat) (self : Consumer) (timeout : Nat) :
    (Consumer.nextRaw cap c self timeout : RingM P n _).Carries (handling (.consumer c)) .opened
      fun r h => h = .delivered r := by
  refine .then' (keeps_inner inner_read).acts fun start => .loop ?_
  refine .then' (keeps_inner inner_read).acts fun observed => ?_
  have htry : KeepsHandles (Consumer.tryTake cap c self : RingM P n _) :=
    (Consumer.tryTake_notes c self cap).mono fun m m' (hm : m'.1 = m.1) => by
      rw [hm]
      exact .refl _
  refine .then' htry.acts fun taken => ?_
  cases taken with
  | some m =>
    refine .bind (take_carries c m) ?_
    rintro _ _ rfl
    exact .then' (keeps_inner inner_entry).acts fun _ =>
      .then' (keeps_inner (inner_heartbeat self)).acts fun _ => .ret rfl
  | none =>
    refine .then' (keeps_inner inner_read).acts fun time => ?_
    split
    · exact .ret rfl
    · exact .then' (keeps_futexWait _ _ _).acts fun _ => .ret rfl

theorem release_carries (c : Nat) (self : Consumer) (m : TensorMeta n) :
    (Consumer.release c self m : RingM P n (Except Error Unit)).Carries (handling (.consumer c))
      (.lease m) fun _ h => h = .nothing := by
  refine .then' (keeps_inner inner_read).acts fun seq => ?_
  split
  · refine .bind (.modifyWith fun s g => .give c m rfl rfl rfl rfl) ?_
    rintro _ _ rfl
    exact .ret rfl
  refine .bind (.act fun s g b s' hs => ?_ : Prog.Carries _ _ _ fun _ h => h = .nothing) ?_
  · cases hs
    exact ⟨.nothing, .give c m rfl rfl rfl rfl, rfl⟩
  rintro previous _ rfl
  split
  · exact .ret rfl
  refine .then' (keeps_inner (inner_storeReaders _ _ _)).acts fun _ =>
    .then' (keeps_inner (inner_heartbeat self)).acts fun _ => ?_
  split
  · exact .then' (keeps_inner inner_signal).acts fun _ => .ret rfl
  · exact .ret rfl

theorem close_carries (c : Nat) (self : Consumer) :
    (Consumer.close c self : RingM P n Unit).Carries (handling (.consumer c)) .closing
      fun _ h => h = .closing := by
  refine .then' (.act fun _ _ b s' hs => ?_) fun closed => ?_
  · cases hs
    refine .close c rfl (fun c' x hc hx => ?_) rfl rfl
    exact ⟨x, (Function.update_of_ne hc _ _).trans hx.1, hx.2⟩
  split
  · exact .ret rfl
  refine .then' (keeps_inner (inner_lockRegistry _)).acts fun _ =>
    .then' (keeps_inner (inner_dropConsumerBit _ _)).acts fun freed => ?_
  have hrest : (do
      Ring.freeEntry (.consumer c) self.index
      store fun r => { r with registryEpoch := r.registryEpoch + 1 }
      unlockRegistry : RingM P n Unit).Carries (handling (.consumer c)) .closing
        fun _ h => h = .closing :=
    .then' (keeps_inner (inner_freeEntry _ _)).acts fun _ =>
      .then' (.modifyWith fun s g => .keep _ (.of_eq rfl rfl rfl)) fun _ =>
        .of_acts (keeps_inner inner_unlockRegistry).acts
  split
  · exact .then' (keeps_inner inner_signal).acts fun _ => hrest
  · exact hrest

/-- What `reserve` has in the end. -/
def Hand.reserved : Except Error (Option (SlotWriter n)) → Hand n
  | .ok (some w) => .writer w
  | _ => .room

theorem reserve_carries (t : Nat) (dtype : DType) (shape : List UInt32) (policy : Backpressure)
    (timeout : Nat) :
    (Producer.reserve L t dtype shape policy timeout : RingM P L.slotCount _).Carries
      (handling (.writer t)) .room fun r h => h = .reserved r := by
  unfold Producer.reserve
  split
  · exact .ret rfl
  dsimp only
  split
  · exact .ret rfl
  refine .then' (keeps_inner inner_read).acts fun start => .loop ?_
  refine .then' (keeps_inner (inner_lockedReserve _ _ _ _ _ _ _)).acts fun found => ?_
  split
  · rename_i slot sequence mask
    have hend : ∀ w : SlotWriter L.slotCount, (do
        Prog.modify fun s => { s with writer := Function.update s.writer t (some w) }
        return some (.ok (some w)) :
          RingM P L.slotCount (Option (Except Error (Option (SlotWriter L.slotCount))))).Carries
        (handling (.writer t)) .room fun r h => r.elim (h = .room) fun r => h = .reserved r := by
      intro w
      refine .bind (.modifyWith fun s g => .reserve t w rfl rfl rfl rfl) ?_
      rintro _ _ rfl
      exact .ret rfl
    split
    · exact .then' (keeps_inner (inner_copyPayload _ _)).acts fun _ => hend _
    · exact hend _
  · refine (backOff_carries t policy _).mono fun r h hr => ?_
    obtain ⟨rfl, hne⟩ := hr
    rcases r with _ | (_ | (_ | w))
    · rfl
    · rfl
    · rfl
    · exact absurd rfl (hne w)

theorem consume_carries (t : Nat) (w : SlotWriter n) :
    (SlotWriter.consume t : RingM P n Unit).Carries (handling (.writer t)) (.writer w)
      fun _ h => h = .nothing :=
  .modifyWith fun _ _ => .consume t w rfl rfl rfl rfl

theorem commit_carries (t : Nat) (w : SlotWriter n) :
    (w.commit t : RingM P n _).Carries (handling (.writer t)) (.writer w)
      fun _ h => h = .nothing := by
  refine .bind (consume_carries t w) ?_
  rintro _ _ rfl
  exact .then' (keeps_commitSlot _ _ _).acts fun _ => .ret rfl

theorem abort_carries (t : Nat) (w : SlotWriter n) :
    (w.abort t : RingM P n Unit).Carries (handling (.writer t)) (.writer w)
      fun _ h => h = .nothing := by
  refine .bind (consume_carries t w) ?_
  rintro _ _ rfl
  exact .of_acts (keeps_inner (inner_releaseSlot t w)).acts

/-! ## what a call returns -/

/-- What a call hands over. -/
def Reply.hand : Reply n → Hand n
  | .delivered (.ok m) => .lease m
  | .reserved (.ok (some w)) => .writer w
  | _ => .nothing

/-- What is left of what a call has on its hands when it returns. -/
def Hand.goods : Hand n → Hand n
  | .lease m => .lease m
  | .writer w => .writer w
  | _ => .nothing

/-- A call that is begun with `h` on its hands, and hands over whatever is left. -/
abbrev Returns (a : Actor) (p : RingM P n (Reply n)) (h : Hand n) : Prop :=
  p.Carries (handling a) h fun r h => h.goods = r.hand

theorem Returns.replying {f : α → Reply n} {p : RingM P n α} {Q : α → Hand n → Prop}
    (hp : p.Carries (handling a) h Q) (hq : ∀ x h, Q x h → h.goods = (f x).hand) :
    Returns a (replying f p) h :=
  hp.bind fun x h hx => .ret (hq x h hx)

end TenzorBus
