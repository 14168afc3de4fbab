import TenzorBus.Conc.RelyGuarantee
import TenzorBus.Protocol.Frame
import TenzorBus.Ring.System

/-!
# The ring refines the protocol

The words of the mapping and the handles of the processes stand for a state of the protocol.

* `view` : the protocol state that a memory stands for, and the words that matter to it
* `Coupled` : the words agree with the unbounded numbers of the history
* `guar` : what an action of the ring may do, a transition of the protocol
* `Mode` : what a use of the ring adds to the invariant, and its rules
-/

namespace TenzorBus

open Conc

variable {P : Platform} {n : Nat}

/-! ## the view -/

/-- The protocol state, and the words that matter to it. -/
structure View (P : Platform) (n : Nat) where
  proto : Proto n
  sequence : Fin n → UInt64
  nextSeq : UInt64
  entryState : Fin 64 → RegistryState
  entryPid : Fin 64 → UInt32
  /-- The generation of an entry and the start token in it. -/
  entryIdentity : Fin 64 → UInt32 × UInt32
  slotPid : Fin n → UInt32
  slotToken : Fin n → UInt32
  consumers : UInt32
  readersRemaining : Fin n → UInt16
  consumer : Nat → Option Consumer
  writer : Nat → Option (SlotWriter n)
  os : P.Os

/-- The state of the protocol that a memory stands for. -/
def State.proto (s : State P n) (g : Ghost n) : Proto n :=
  { state := fun j => (s.ring.slots j).state
    mask := fun j => readers (s.ring.slots j).readersMask
    header := fun j => (s.ring.slots j).header
    payload := fun j => (s.ring.slots j).payload
    lock := s.lock
    alive := s.aliveActor
    leases := s.leases
    hist := g }

def view (m : State P n × Ghost n) : View P n :=
  { proto := m.1.proto m.2
    sequence := fun j => (m.1.ring.slots j).sequence
    nextSeq := m.1.ring.nextSeq
    entryState := fun i => (m.1.ring.entries i).state
    entryPid := fun i => (m.1.ring.entries i).pid
    entryIdentity := fun i => ((m.1.ring.entries i).generation, (m.1.ring.entries i).flags)
    slotPid := fun j => (m.1.ring.slots j).producerPid
    slotToken := fun j => (m.1.ring.slots j).producerStartToken
    consumers := m.1.ring.consumers
    readersRemaining := fun j => (m.1.ring.slots j).readersRemaining
    consumer := m.1.consumer
    writer := m.1.writer
    os := m.1.os }

/-- The answer of the liveness check about what is recorded in a registry entry or in a slot. -/
def View.check (v : View P n) : Subject n → Bool
  | .entry i => P.pidAliveWithToken v.os (v.entryPid i) 0
  | .slot j => P.pidAliveWithToken v.os (v.slotPid j) (v.slotToken j)

def View.running (v : View P n) (a : Actor) : Prop := P.running v.os (P.proc a) = true

/-- The slot carries the pid of writer `t`, and a start token that was its own when its process was
running. -/
def View.Stamped (v : View P n) (j : Fin n) (t : Nat) : Prop :=
  v.slotPid j = P.me (.writer t) ∧ ∃ os, P.running os (P.proc (.writer t)) = true ∧
    v.slotToken j = P.pidStartToken os (P.me (.writer t))

/-- Writer `t` has stamped the slot and is running, unless it is dead. -/
def View.Marked (v : View P n) (j : Fin n) (t : Nat) : Prop :=
  v.proto.alive (.writer t) → v.Stamped j t ∧ v.running (.writer t)

/-- The words in memory and in the handles stand for the numbers of the history. -/
structure Coupled (G : Guards n) (v : View P n) : Prop where
  alive : ∀ a, v.proto.alive a ↔ P.alive v.os (P.proc a) = true
  sequence : ∀ j, v.sequence j = seqWord (v.proto.hist.num j)
  nextSeq : v.nextSeq = seqWord v.proto.hist.next
  entryState : ∀ i, v.entryState i = .active ↔ v.proto.hist.holder i ≠ none
  entryPid : ∀ i c, v.proto.hist.holder i = some c → v.entryPid i = P.me (.consumer c)
  stamped : ∀ t r, v.proto.hist.reservation t = some r → r.phase ≠ .header →
    r.phase ≠ .returning → v.Stamped r.slot t
  consumer : ∀ c h, v.consumer c = some h → ∃ k, v.proto.hist.registration c = some k ∧
    h.index = k.index ∧ h.closed = k.closing
  last : ¬G.careless → ∀ c h k, v.consumer c = some h → v.proto.hist.registration c = some k →
    h.lastSequence = seqWord k.last
  writer : ∀ t w, v.writer t = some w → v.proto.alive (.writer t) →
    ∃ r, v.proto.hist.reservation t = some r ∧ r.phase = .inHand ∧ r.slot = w.slot ∧
      r.mask = w.mask ∧ w.sequence = seqWord (v.proto.hist.num w.slot)
  /-- Whoever has something has been started. -/
  holding : ∀ i c, v.proto.hist.holder i = some c → v.proto.alive (.consumer c) →
    v.running (.consumer c)
  reserving : ∀ t r, v.proto.hist.reservation t = some r → v.proto.alive (.writer t) →
    v.running (.writer t)

/-- The liveness check has found the subject alive in the sweep that is going on. -/
def Proto.Spared (p : Proto n) (x : Sweep n) (s : Subject n) : Prop :=
  ∃ new, p.hist.verdicts = new ++ x.before ∧ ∃ y ∈ new, y.subject = s ∧ y.alive = true

theorem Proto.Spared.mono {p p' : Proto n} {x : Sweep n} {s : Subject n} (h : p.Spared x s)
    (hv : p.hist.verdicts <:+ p'.hist.verdicts) : p'.Spared x s := by
  obtain ⟨new, hnew, y, hy, hs⟩ := h
  obtain ⟨more, hmore⟩ := hv
  exact ⟨more ++ new, by rw [← hmore, hnew, List.append_assoc], y, List.mem_append_right _ hy, hs⟩

/-- What a sweep by `a` has left as it is: registrations and slots that are recorded under the pid
of `a` itself, or that the liveness check has found alive. -/
structure View.Swept (v : View P n) (a : Actor) (x : Sweep n) : Prop where
  entry : ∀ i, v.entryState i = .active → v.entryPid i = P.me a ∨ v.proto.Spared x (.entry i)
  slot : ∀ j, v.proto.state j = .writing → v.slotPid j = P.me a ∨ v.proto.Spared x (.slot j)

/-- `G_CONSUMERS` after an entry has become active, or free. -/
def countConsumers (active : Bool) (count : UInt32) : UInt32 :=
  if active then count + 1 else if count = 0 then 0 else count - 1

/-- What an action of `a` leaves alone: the handles of the others; the pid words of slots other
than the one it is reserving; the registry unless it holds the lock, and what tells the entries of
the living apart; the count of the consumers and the numbers of readers unless it has a change to
count. The verdicts that it notes are those of the liveness check, and a sweep that it ends has been
through everything. -/
structure Private (a : Actor) (v v' : View P n) : Prop where
  consumer : ∀ c, a ≠ .consumer c → v'.consumer c = v.consumer c := by exact fun _ _ => rfl
  writer : ∀ t, a ≠ .writer t → v'.writer t = v.writer t := by exact fun _ _ => rfl
  slotPid : ∀ j, (∀ t r, a = .writer t → v.proto.hist.reservation t = some r →
    r.phase = .header → r.slot ≠ j) →
      v'.slotPid j = v.slotPid j ∧ v'.slotToken j = v.slotToken j := by
    exact fun _ _ => ⟨rfl, rfl⟩
  entryPid : v.proto.lock ≠ some a → v'.entryPid = v.entryPid := by exact fun _ => rfl
  entryIdentity : ∀ i c, v.proto.hist.holder i = some c → ¬v.proto.leaving a c →
    v'.entryIdentity i = v.entryIdentity i := by
    exact fun _ _ _ _ => rfl
  os : v'.os = v.os := by exact rfl
  verdict : ∀ x, v'.proto.hist.verdicts = x :: v.proto.hist.verdicts →
    x.alive = v.check x.subject ∧ ∀ j, x.subject = .slot j → ∃ t, v.Marked j t := by
    exact fun x hx => absurd hx.symm (List.cons_ne_self x _)
  consumers : (v'.consumers = v.consumers ∧
      (v'.proto.hist.counting = none → v.proto.hist.counting = none)) ∨
    ∃ b, v.proto.hist.counting = some (a, b) ∧ v'.proto.hist.counting = none ∧
      v'.consumers = countConsumers b v.consumers := by
    exact .inl ⟨rfl, fun h => h⟩
  readers : ∀ j, (v'.readersRemaining j = v.readersRemaining j ∧
      (v.proto.hist.changing a = some j → v'.proto.hist.changing a ≠ none)) ∨
    v.proto.hist.changing a = some j ∧ v'.proto.hist.changing a = none ∧
      (v.proto.hist.latest j = some a →
        v'.readersRemaining j = UInt16.ofNat (v.proto.mask j).card) := by
    exact fun _ => .inl ⟨rfl, fun h h' => absurd (h.symm.trans h') (Option.some_ne_none _)⟩
  swept : ∀ x, v.proto.hist.sweeping a = some x → v'.proto.hist.sweeping a = none →
    v.Swept a x := by
    exact fun _ h h' => absurd (h.symm.trans h') (Option.some_ne_none _)

/-- What an action of `a` may do. -/
structure Guar (G : Guards n) (cap : Nat) (a : Actor) (v v' : View P n) : Prop where
  live : v.proto.alive a
  step : Step G cap a v.proto v'.proto
  coupled : Coupled G v'
  private' : Private a v v'

/-- What the environment may do: nothing happens to the words. -/
structure Passes (v v' : View P n) : Prop where
  words : v' = { v with os := v'.os, proto := v'.proto }
  fades : Fades v.proto v'.proto

/-- The liveness check does not report the living dead. -/
def Honest (v v' : View P n) : Prop :=
  ∀ x, v'.proto.hist.verdicts = x :: v.proto.hist.verdicts → x.alive = false →
    v.proto.dead x.subject

/-- What the liveness check reports dead is what a sweep may take back. -/
def Believes (G : Guards n) (v v' : View P n) : Prop :=
  ∀ x, v'.proto.hist.verdicts = x :: v.proto.hist.verdicts → x.alive = false →
    v.proto.gone G x.subject

theorem Honest.believes {G : Guards n} {v v' : View P n} (h : Honest v v') : Believes G v v' :=
  fun x hx hd => by
    have := h x hx hd
    revert this
    cases x.subject with
    | entry i => exact id
    | slot j => exact fun hd => ⟨hd.2, fun _ => hd.1⟩

/-- Actor `a` has counted what it has changed. -/
def Steady (a : Actor) (v : View P n) : Prop := v.proto.counted a ∧ v.proto.settled a

/-- What an idle actor knows about itself. -/
def rest (a : Actor) (v : View P n) : Prop :=
  Steady a v ∧ match a with
    | .consumer c => v.consumer c = none → v.proto.hist.registration c = none
    | .writer t => v.writer t = none → v.proto.hist.reservation t = none
    | .sweeper _ => True

/-! ## modes -/

/-- A use of the ring: what it adds to the invariant, to the conditions on a step and to the
guards of the protocol. -/
structure Mode (P : Platform) (n : Nat) where
  guards : Guards n
  inv : View P n → Prop
  ok : View P n → View P n → Prop

/-- The invariant of a use of the ring. -/
structure Mode.Inv (M : Mode P n) (cap : Nat) (v : View P n) : Prop where
  coupled : Coupled M.guards v
  proto : TenzorBus.Inv cap v.proto
  mode : M.inv v

/-- The rules of a use of the ring. -/
def Mode.rules {L : RingLayout} (M : Mode P L.slotCount) : Rules (ringSystem P L) where
  inv m := M.Inv L.slotCapacity (view m)
  guar a m m' := Guar M.guards L.slotCapacity a (view m) (view m')
  ok m m' := Believes M.guards (view m) (view m') ∧ M.ok (view m) (view m')
  rest a m := TenzorBus.rest a (view m)

/-! ## stability -/

section

variable {L : RingLayout} {M : Mode P L.slotCount} {a : Actor}

/-- Everything that an actor may rely on. -/
structure Relies (M : Mode P L.slotCount) (a : Actor) (v v' : View P L.slotCount) : Prop where
  inv : M.Inv L.slotCapacity v
  inv' : M.Inv L.slotCapacity v'
  rely : TenzorBus.Rely M.guards L.slotCapacity a v.proto v'.proto
  consumer : ∀ c, a = .consumer c → v'.consumer c = v.consumer c
  writer : ∀ t, a = .writer t → v'.writer t = v.writer t
  running : ∀ b, v'.proto.alive b → v.running b → v'.running b
  slotPid : ∀ j, (∀ t r, a ≠ .writer t → v.proto.hist.reservation t = some r →
    r.phase = .header → v.proto.alive (.writer t) → r.slot ≠ j) →
      v'.slotPid j = v.slotPid j ∧ v'.slotToken j = v.slotToken j
  entryPid : v.proto.lock = some a → v'.entryPid = v.entryPid
  consumers : ∀ b, v.proto.hist.counting = some (a, b) → v'.consumers = v.consumers

theorem relies {m m' : State P L.slotCount × Ghost L.slotCount} (h : M.rules.Rely a m m') :
    Relies M a (view m) (view m') := by
  have hlive : (view m').proto.alive a := h.live
  rcases h.step with ⟨b, hb, hg⟩ | ⟨os, hstep, rfl⟩
  · exact {
      inv := h.before, inv' := h.after
      rely := ⟨h.before.proto, hlive, .inl ⟨b, hb, hg.live, hg.step⟩⟩
      running := fun c _ hc => by rw [View.running, hg.private'.os]; exact hc
      consumer := fun c hc => hg.private'.consumer c (hc ▸ hb)
      writer := fun t ht => hg.private'.writer t (ht ▸ hb)
      slotPid := fun j hj => hg.private'.slotPid j fun t r ht hr hp =>
        hj t r (fun e => hb (ht.trans e.symm)) hr hp (ht ▸ hg.live)
      entryPid := fun hl => hg.private'.entryPid fun e => hb (Option.some.inj (e.symm.trans hl))
      consumers := fun x hx => hg.private'.consumers.elim And.left fun ⟨y, hy, _⟩ =>
        absurd (Prod.mk.inj (Option.some.inj (hy.symm.trans hx))).1 hb }
  · exact {
      inv := h.before, inv' := h.after
      rely := ⟨h.before.proto, hlive, .inr ⟨rfl, fun b hb => P.alive_of_step _ _ _ hstep hb⟩⟩
      running := fun c hc hr => P.running_of_step _ _ _ hstep hr hc
      consumer := fun _ _ => rfl, writer := fun _ _ => rfl, slotPid := fun _ _ => ⟨rfl, rfl⟩
      entryPid := fun _ => rfl, consumers := fun _ _ => rfl }

/-- What survives the others. -/
def Keeps (M : Mode P L.slotCount) (a : Actor) (Φ : View P L.slotCount → Prop) : Prop :=
  ∀ v v', Relies M a v v' → Φ v → Φ v'

theorem Keeps.stable {Φ : View P L.slotCount → Prop} (h : Keeps M a Φ) :
    M.rules.Stable a fun m => Φ (view m) :=
  fun _ _ hr hm => h _ _ (relies hr) hm

section

variable {Φ Ψ : View P L.slotCount → Prop}

theorem Keeps.and (hΦ : Keeps M a Φ) (hΨ : Keeps M a Ψ) : Keeps M a fun v => Φ v ∧ Ψ v :=
  fun v v' h hv => ⟨hΦ v v' h hv.1, hΨ v v' h hv.2⟩

theorem Keeps.exists {ξ : Sort*} {Φ : ξ → View P L.slotCount → Prop} (h : ∀ x, Keeps M a (Φ x)) :
    Keeps M a fun v => ∃ x, Φ x v :=
  fun v v' hr ⟨x, hv⟩ => ⟨x, h x v v' hr hv⟩

theorem Keeps.const (φ : Prop) : Keeps M a fun _ => φ := fun _ _ _ h => h

end

/-! ### what is one's own -/

theorem keeps_lock : Keeps M a fun v => v.proto.lock = some a := fun _ _ h hl => h.rely.lock hl

theorem keeps_handle {c : Nat} {x : Option Consumer} :
    Keeps M (.consumer c) fun v => v.consumer c = x :=
  fun _ _ h hv => (h.consumer c rfl).trans hv

theorem keeps_registration {c : Nat} {x : Option Registration} :
    Keeps M (.consumer c) fun v => v.proto.hist.registration c = x :=
  fun _ _ h hv => h.rely.consumer.1.trans hv

theorem keeps_holder {c : Nat} {i : Fin 64} :
    Keeps M (.consumer c) fun v => v.proto.hist.holder i = some c :=
  fun _ _ h hv => h.rely.holder hv

theorem keeps_writer {t : Nat} {x : Option (SlotWriter L.slotCount)} :
    Keeps M (.writer t) fun v => v.writer t = x :=
  fun _ _ h hv => (h.writer t rfl).trans hv

theorem keeps_reservation {t : Nat} {x : Option (Reservation L.slotCount)} :
    Keeps M (.writer t) fun v => v.proto.hist.reservation t = x :=
  fun _ _ h hv => h.rely.reservation.trans hv

theorem keeps_steady : Keeps M a (Steady a) := fun _ _ h hv =>
  ⟨h.rely.counted hv.1, h.rely.notes.2.trans hv.2⟩

theorem keeps_running : Keeps M a fun v => v.running a := fun _ _ h hv => h.running a h.rely.live hv

theorem keeps_sweeping {x : Option (Sweep L.slotCount)} :
    Keeps M a fun v => v.proto.hist.sweeping a = x :=
  fun _ _ h hv => h.rely.notes.1.trans hv

theorem keeps_rest : Keeps M a (rest a) := by
  refine keeps_steady.and fun v v' h hv => ?_
  cases a with
  | consumer c => exact fun hc => h.rely.consumer.1.trans (hv ((h.consumer c rfl).symm.trans hc))
  | writer t => exact fun ht => h.rely.reservation.trans (hv ((h.writer t rfl).symm.trans ht))
  | sweeper k => trivial

/-- Actor `a` is running and has nothing: what it knows between two operations of which the first
has left it with nothing. -/
def Unused (a : Actor) (v : View P n) : Prop :=
  v.running a ∧ match a with
    | .consumer c => v.consumer c = none ∧ v.proto.hist.registration c = none
    | .writer t => v.writer t = none ∧ v.proto.hist.reservation t = none
    | .sweeper _ => True

theorem Unused.rest {v : View P n} (h : Unused a v) (hs : Steady a v) : rest a v := by
  refine ⟨hs, ?_⟩
  cases a with
  | consumer c => exact fun _ => h.2.2
  | writer t => exact fun _ => h.2.2
  | sweeper k => trivial

theorem Unused.idle {v : View P n} (h : Unused a v) (t : Nat) (ht : a = .writer t) :
    v.proto.hist.reservation t = none := by
  subst ht; exact h.2.2

theorem keeps_unused : Keeps M a (Unused a) := by
  refine keeps_running.and ?_
  cases a with
  | consumer c => exact keeps_handle.and keeps_registration
  | writer t => exact keeps_writer.and keeps_reservation
  | sweeper k => exact Keeps.const _

/-- In a critical section. -/
theorem Keeps.locked {Φ : View P L.slotCount → Prop}
    (h : ∀ v v', Relies M a v v' → Locked v.proto v'.proto → v.proto.lock = some a → Φ v → Φ v') :
    Keeps M a fun v => v.proto.lock = some a ∧ Φ v :=
  fun v v' hr hv => ⟨hr.rely.lock hv.1, h v v' hr (hr.rely.locked hv.1) hv.1 hv.2⟩

end

end TenzorBus
