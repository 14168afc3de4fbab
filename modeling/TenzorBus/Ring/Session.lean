import TenzorBus.Conc.Lockstep
import TenzorBus.Conc.Script
import TenzorBus.Ring.System

/-!
# Sessions

The system of the ring once more, with names for what happens: who makes which request, who takes a
step, who gets a reply. The replies are kept in a log. A run is determined by its events.

* `Request`, `Reply` : the calls of the API and what they return
* `Session.Step`, `Session.Run` : one event, and a list of them
* `Session.Run.reach` : a run of a session in which no consumer is used after its `close`, and no
  lease released twice, is a run of the system
* `Session.play` : the session that a script leads to
-/

namespace TenzorBus

open Conc

variable {P : Platform} {L : RingLayout}

/-- A call of the API. A lease is named by its place among those that the consumer holds. -/
inductive Request
  | register (c : Nat)
  | next (c : Nat) (timeout : Nat)
  | release (c : Nat) (lease : Nat)
  | close (c : Nat)
  | publish (t : Nat) (view : TensorView) (policy : Backpressure) (timeout : Nat)
  | reserve (t : Nat) (dtype : DType) (shape : List UInt32) (policy : Backpressure)
      (timeout : Nat)
  | payload (t : Nat) (off : Nat) (b : UInt8)
  | setTimestampNs (t : Nat) (timestampNs : UInt64)
  | commit (t : Nat)
  | abort (t : Nat)
  | sweep (k : Nat)

/-- What a call returns. -/
inductive Reply (n : Nat)
  | registered (r : Except Error Unit)
  | delivered (r : Except Error (TensorMeta n))
  | released (r : Except Error Unit)
  | published (r : Except Error (Option (PublishResult n)))
  | reserved (r : Except Error (Option (SlotWriter n)))
  | committed (r : PublishResult n)
  | done

/-- The metadata that `next` has returned. -/
def Reply.delivery? {n : Nat} : Reply n → Option (TensorMeta n)
  | .delivered (.ok m) => some m
  | _ => none

/-- Who makes the call. -/
def Request.actor : Request → Actor
  | .register c | .next c _ | .release c _ | .close c => .consumer c
  | .publish t .. | .reserve t .. | .payload t .. | .setTimestampNs t _ | .commit t | .abort t =>
    .writer t
  | .sweep k => .sweeper k

/-- The consumer whose handle the call uses. -/
def Request.consumer? : Request → Option Nat
  | .next c _ | .release c _ | .close c => some c
  | _ => none

/-- A program, and the reply that its result is. -/
def replying {n : Nat} {α : Type} (f : α → Reply n) (p : RingM P n α) : RingM P n (Reply n) :=
  p.bind fun a => .ret (f a)

/-- The program of a call, if it can be made. Nothing prevents the use of a consumer after its
`close`. -/
def Request.program (L : RingLayout) (s : State P L.slotCount) :
    Request → Option (RingM P L.slotCount (Reply L.slotCount))
  | .register c =>
    if (s.consumer c).isNone then
      some (replying .registered (Ring.consumer (.consumer c) c))
    else none
  | .next c timeout => (s.consumer c).map fun h =>
      replying .delivered (Consumer.nextRaw L.slotCapacity c h timeout)
  | .release c lease => (s.consumer c).bind fun h => (s.leases c)[lease]?.map fun m =>
      replying .released (Consumer.release c h m)
  | .close c => (s.consumer c).map fun h => replying (fun _ => .done) (Consumer.close c h)
  | .publish t view policy timeout =>
    if (s.writer t).isNone then
      some (replying .published (Producer.publish L t view policy timeout))
    else none
  | .reserve t dtype shape policy timeout =>
    if (s.writer t).isNone then
      some (replying .reserved (Producer.reserve L t dtype shape policy timeout))
    else none
  | .payload t off b => (s.writer t).bind fun w =>
      if off < w.nbytes then some (replying (fun _ => .done) (Producer.writeByte w.slot off b))
      else none
  | .setTimestampNs t timestampNs => (s.writer t).map fun w =>
      replying (fun _ => .done) (w.setTimestampNs timestampNs)
  | .commit t => (s.writer t).map fun w => replying .committed (w.commit t)
  | .abort t => (s.writer t).map fun w => replying (fun _ => .done) (w.abort t)
  | .sweep k => some (replying (fun _ => .done) (Ring.sweep (.sweeper k)))

/-- The memory, what each actor has left to do, and the replies so far. -/
structure Session (P : Platform) (L : RingLayout) where
  mem : State P L.slotCount × Ghost L.slotCount
  pool : Actor → Option (RingM P L.slotCount (Reply L.slotCount))
  log : List (Actor × Reply L.slotCount)

/-- What happens in a run. -/
inductive Event (P : Platform)
  | request (r : Request)
  /-- `release_raw` of the `i`-th metadata that `next` has returned to `c`, whatever has become of
  the lease. -/
  | releaseRaw (c i : Nat)
  | step (a : Actor)
  | reply (a : Actor)
  | os (os : P.Os)

namespace Session

/-- A ring whose sequence counter has been set to `k` before anybody did anything. -/
def fresh (L : RingLayout) (k : UInt64) (os : P.Os) : Session P L :=
  { mem := (.init k os, .init _ k), pool := fun _ => none, log := [] }

/-- What `next` has returned to `c` so far. -/
def deliveries (x : Session P L) (c : Nat) : List (TensorMeta L.slotCount) :=
  x.log.filterMap fun e => if e.1 = .consumer c then e.2.delivery? else none

/-- One event. -/
inductive Step : Event P → Session P L → Session P L → Prop
  | request {x : Session P L} (r : Request) (p : RingM P L.slotCount (Reply L.slotCount))
      (idle : x.pool r.actor = none) (alive : x.mem.1.aliveActor r.actor)
      (running : x.mem.1.running r.actor) (h : r.program L x.mem.1 = some p) :
      Step (.request r) x { x with pool := Function.update x.pool r.actor (some p) }
  | releaseRaw {x : Session P L} (c i : Nat) (h : Consumer) (m : TensorMeta L.slotCount)
      (idle : x.pool (.consumer c) = none) (alive : x.mem.1.aliveActor (.consumer c))
      (running : x.mem.1.running (.consumer c)) (handle : x.mem.1.consumer c = some h)
      (delivered : (x.deliveries c)[i]? = some m) :
      Step (.releaseRaw c i) x
        { x with
          pool := Function.update x.pool (.consumer c)
            (some (replying .released (Consumer.release c h m))) }
  | step {x : Session P L} (a : Actor) (p q : RingM P L.slotCount (Reply L.slotCount))
      (m : State P L.slotCount × Ghost L.slotCount) (busy : x.pool a = some p)
      (alive : x.mem.1.aliveActor a) (h : p.next? x.mem = some (q, m)) :
      Step (.step a) x { x with mem := m, pool := Function.update x.pool a (some q) }
  | reply {x : Session P L} (a : Actor) (r : Reply L.slotCount)
      (h : x.pool a = some (.ret r)) (alive : x.mem.1.aliveActor a) :
      Step (.reply a) x
        { x with pool := Function.update x.pool a none, log := x.log ++ [(a, r)] }
  | os {x : Session P L} (os : P.Os) (h : P.step x.mem.1.os os) :
      Step (.os os) x { x with mem := ({ x.mem.1 with os := os }, x.mem.2) }

/-- A list of events that satisfy `may`, one after the other. -/
inductive Run (may : Event P → Session P L → Prop) :
    List (Event P) → Session P L → Session P L → Prop
  | nil (x : Session P L) : Run may [] x x
  | snoc {events : List (Event P)} {e : Event P} {x y z : Session P L} (h : Run may events x y)
      (hm : may e y) (hs : Step e y z) : Run may (events ++ [e]) x z

/-- No call uses a consumer that has been closed, and only leases that are held are released. -/
def Prompt (e : Event P) (x : Session P L) : Prop :=
  (∀ c i, e ≠ .releaseRaw c i) ∧
    ∀ r, e = .request r → ∀ c ∈ r.consumer?, ∀ h ∈ x.mem.1.consumer c, h.closed = false

/-! ## sessions and the system -/

/-- What a session is without its replies. -/
def config (x : Session P L) : RingConfig P L :=
  { mem := x.mem, pool := fun a => (x.pool a).elim (.ret ()) void }

theorem void_replying {n : Nat} {α : Type} (f : α → Reply n) (p : RingM P n α) :
    void (replying f p) = void p := by
  unfold void replying
  rw [Prog.bind_assoc]
  rfl

theorem void_unit {n : Nat} (p : RingM P n Unit) : void p = p := Prog.bind_ret p

theorem next?_bind {σ γ α β : Type} {p q : Prog σ γ α} {k : α → Prog σ γ β} {m m' : σ × γ}
    (h : p.next? m = some (q, m')) : (p.bind k).next? m = some (q.bind k, m') := by
  cases p with
  | ret a => cases h
  | act f aux g =>
    simp only [Prog.next?, Prog.bind, Option.map_eq_some_iff] at h ⊢
    obtain ⟨r, hr, h⟩ := h
    cases h
    exact ⟨r, hr, rfl⟩
  | iter body g =>
    cases h
    simp only [Prog.next?, Prog.bind, Prog.bind_assoc, Prog.again_bind]

/-- A request is one of the operations that an idle actor may start. -/
theorem starts_of_program {s : State P L.slotCount} {r : Request}
    {p : RingM P L.slotCount (Reply L.slotCount)} (h : r.program L s = some p)
    (hopen : ∀ c ∈ r.consumer?, ∀ h ∈ s.consumer c, h.closed = false) :
    Starts L s r.actor (void p) := by
  cases r with
  | register c =>
    obtain ⟨hc, h⟩ := Option.ite_none_right_eq_some.mp h
    cases h
    rw [void_replying]
    exact .register c (by simpa using hc)
  | next c timeout =>
    obtain ⟨self, hself, rfl⟩ := Option.map_eq_some_iff.mp h
    rw [void_replying]
    exact .next c self ⟨hself, hopen c rfl self hself⟩ timeout
  | release c lease =>
    obtain ⟨self, hself, h⟩ := Option.bind_eq_some_iff.mp h
    obtain ⟨m, hm, rfl⟩ := Option.map_eq_some_iff.mp h
    rw [void_replying]
    exact .release c self ⟨hself, hopen c rfl self hself⟩ m (List.mem_of_getElem? hm)
  | close c =>
    obtain ⟨self, hself, rfl⟩ := Option.map_eq_some_iff.mp h
    rw [void_replying, void_unit]
    exact .close c self ⟨hself, hopen c rfl self hself⟩
  | publish t view policy timeout =>
    obtain ⟨hw, h⟩ := Option.ite_none_right_eq_some.mp h
    cases h
    rw [void_replying]
    exact .publish t (by simpa using hw) view policy timeout
  | reserve t dtype shape policy timeout =>
    obtain ⟨hw, h⟩ := Option.ite_none_right_eq_some.mp h
    cases h
    rw [void_replying]
    exact .reserve t (by simpa using hw) dtype shape policy timeout
  | payload t off b =>
    obtain ⟨w, hw, h⟩ := Option.bind_eq_some_iff.mp h
    obtain ⟨hoff, h⟩ := Option.ite_none_right_eq_some.mp h
    cases h
    rw [void_replying, void_unit]
    exact .payload t w hw off hoff b
  | setTimestampNs t ts =>
    obtain ⟨w, hw, rfl⟩ := Option.map_eq_some_iff.mp h
    rw [void_replying, void_unit]
    exact .setTimestampNs t w hw ts
  | commit t =>
    obtain ⟨w, hw, rfl⟩ := Option.map_eq_some_iff.mp h
    rw [void_replying]
    exact .commit t w hw
  | abort t =>
    obtain ⟨w, hw, rfl⟩ := Option.map_eq_some_iff.mp h
    rw [void_replying, void_unit]
    exact .abort t w hw
  | sweep j =>
    cases h
    rw [void_replying, void_unit]
    exact .sweep j

theorem config_update (x : Session P L) (m : State P L.slotCount × Ghost L.slotCount)
    (a : Actor) (p : RingM P L.slotCount (Reply L.slotCount)) :
    ({ x with mem := m, pool := Function.update x.pool a (some p) } : Session P L).config =
      { mem := m, pool := Function.update x.config.pool a (void p) } := by
  unfold config
  congr 1
  funext b
  by_cases hb : b = a
  · subst hb
    simp
  · simp [hb]

/-- A run of a session in which no consumer is used after its `close`, and no lease released twice,
is a run of the system. -/
theorem Run.reach {k : UInt64} {os : P.Os} {events : List (Event P)} {x : Session P L}
    (h : Run Prompt events (fresh L k os) x) :
    (ringSystem P L).Reach (fun _ _ => True) (Fresh P L k (· = os)) x.config := by
  generalize hx : fresh L k os = x₀ at h
  induction h with
  | nil x =>
    subst hx
    exact .init ⟨os, rfl, rfl⟩
  | @snoc events e x y z _ hm hs ih =>
    cases hs with
    | request r p idle alive running h =>
      rw [config_update y y.mem r.actor p]
      exact (ih hx).step (.start r.actor (void p) (by simp [config, idle]) alive
        ⟨running, starts_of_program h (hm.2 r rfl)⟩) trivial
    | releaseRaw c i => exact absurd rfl (hm.1 c i)
    | step a p q m busy alive h =>
      rw [config_update y m a q]
      refine (ih hx).step (.act a (void q) m alive ?_) trivial
      have hnext := next?_bind (k := fun _ => .ret ()) h
      simpa [config, busy, void] using hnext
    | reply a r h alive =>
      convert ih hx using 1
      unfold config
      congr 1
      funext b
      by_cases hb : b = a
      · subst hb
        simp [h, void]
      · simp [hb]
    | os os' h => exact (ih hx).step (.env _ ⟨os', h, rfl⟩) trivial

/-! ## sessions that are written down -/

/-- An entry of a script: a call is made, its actor takes at most so many steps, the reply is
taken. -/
inductive Move
  | request (r : Request)
  | releaseRaw (c i : Nat)
  | steps (a : Actor) (count : Nat)
  | reply (a : Actor)

/-- What a move does. -/
def Move.apply (x : Session P L) : Move → Option (Session P L)
  | .request r =>
    if (x.pool r.actor).isNone ∧ P.alive x.mem.1.os (P.proc r.actor) = true ∧
        P.running x.mem.1.os (P.proc r.actor) = true then
      (r.program L x.mem.1).map fun p =>
        { x with pool := Function.update x.pool r.actor (some p) }
    else none
  | .releaseRaw c i =>
    if (x.pool (.consumer c)).isNone ∧ P.alive x.mem.1.os (P.proc (.consumer c)) = true ∧
        P.running x.mem.1.os (P.proc (.consumer c)) = true then
      (x.mem.1.consumer c).bind fun h => (x.deliveries c)[i]?.map fun m =>
        { x with
          pool := Function.update x.pool (.consumer c)
            (some (replying .released (Consumer.release c h m))) }
    else none
  | .steps a count => (x.pool a).bind fun p =>
      (p.walk (fun m _ => P.alive m.1.os (P.proc a)) count x.mem).map fun r =>
        { x with mem := r.2, pool := Function.update x.pool a (some r.1) }
  | .reply a =>
    if P.alive x.mem.1.os (P.proc a) = true then
      (x.pool a).bind fun p => p.result?.map fun r =>
        { x with pool := Function.update x.pool a none, log := x.log ++ [(a, r)] }
    else none

/-- The session that a script leads to. -/
def play (moves : List Move) (x : Session P L) : Option (Session P L) :=
  moves.foldlM Move.apply x

/-- A call from its beginning to its reply. -/
def Move.whole (r : Request) : List Move := [.request r, .steps r.actor 4000, .reply r.actor]

/-- The steps of one actor. -/
theorem Run.walk {events : List (Event P)} {x₀ x : Session P L} {a : Actor} {count : Nat}
    {p q : RingM P L.slotCount (Reply L.slotCount)} {m : State P L.slotCount × Ghost L.slotCount}
    (h : Run (fun _ _ => True) events x₀ x) (hp : x.pool a = some p)
    (hw : p.walk (fun m _ => P.alive m.1.os (P.proc a)) count x.mem = some (q, m)) :
    ∃ events, Run (fun _ _ => True) events x₀
      { x with mem := m, pool := Function.update x.pool a (some q) } := by
  refine Prog.walk_keeps (motive := fun p m => ∃ events, Run (fun _ _ => True) events x₀
    { x with mem := m, pool := Function.update x.pool a (some p) })
    (fun p q m m' ⟨events, h⟩ hn hc => ?_) count ⟨events, ?_⟩ hw
  · have hstep := h.snoc trivial (.step a p q m' (Function.update_self ..) hc hn)
    simp only [Function.update_idem] at hstep
    exact ⟨_, hstep⟩
  · rwa [← hp, Function.update_eq_self]

theorem Run.apply {events : List (Event P)} {x₀ x y : Session P L}
    (h : Run (fun _ _ => True) events x₀ x) {move : Move} (hm : move.apply x = some y) :
    ∃ events, Run (fun _ _ => True) events x₀ y := by
  cases move with
  | request r =>
    obtain ⟨⟨hidle, halive, hrunning⟩, hm⟩ := Option.ite_none_right_eq_some.mp hm
    obtain ⟨p, hp, rfl⟩ := Option.map_eq_some_iff.mp hm
    exact ⟨_, h.snoc trivial (.request r p (Option.isNone_iff_eq_none.mp hidle) halive hrunning hp)⟩
  | releaseRaw c i =>
    obtain ⟨⟨hidle, halive, hrunning⟩, hm⟩ := Option.ite_none_right_eq_some.mp hm
    obtain ⟨self, hself, hm⟩ := Option.bind_eq_some_iff.mp hm
    obtain ⟨m, hdelivered, rfl⟩ := Option.map_eq_some_iff.mp hm
    exact ⟨_, h.snoc trivial (.releaseRaw c i self m (Option.isNone_iff_eq_none.mp hidle) halive
      hrunning hself hdelivered)⟩
  | steps a count =>
    obtain ⟨p, hp, hm⟩ := Option.bind_eq_some_iff.mp hm
    obtain ⟨r, hr, rfl⟩ := Option.map_eq_some_iff.mp hm
    exact h.walk hp hr
  | reply a =>
    obtain ⟨halive, hm⟩ := Option.ite_none_right_eq_some.mp hm
    obtain ⟨p, hp, hm⟩ := Option.bind_eq_some_iff.mp hm
    obtain ⟨r, hr, rfl⟩ := Option.map_eq_some_iff.mp hm
    rw [Prog.eq_ret_of_result? hr] at hp
    exact ⟨_, h.snoc trivial (.reply a r hp halive)⟩

/-- Where a script leads is reached by a run, and what holds there is found by computing it. -/
theorem Run.play (test : Session P L → Bool) :
    ∀ (moves : List Move) {events : List (Event P)} {x₀ x : Session P L},
      Run (fun _ _ => True) events x₀ x → (x.play moves).any test = true →
        ∃ events y, Run (fun _ _ => True) events x₀ y ∧ test y = true
  | [], events, _, x, h, ht => ⟨events, x, h, by simpa [Session.play] using ht⟩
  | move :: moves, _, _, x, h, ht => by
    rw [Session.play, List.foldlM_cons] at ht
    cases hm : move.apply x with
    | none => rw [hm] at ht; cases ht
    | some y =>
      rw [hm] at ht
      obtain ⟨_, hy⟩ := h.apply hm
      exact Run.play test moves hy ht

end Session

end TenzorBus
