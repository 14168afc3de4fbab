import TenzorBus.Conc.Script
import TenzorBus.Ring.System

/-!
# Scripts for the ring

The operations as moves of a script, and a platform on which every actor belongs to one process.
-/

namespace TenzorBus

open Conc

variable {P : Platform} {L : RingLayout}

namespace Script

/-- The handle of a consumer, if it can be used. -/
def usable (s : State P L.slotCount) (c : Nat) : Option Consumer :=
  (s.consumer c).filter fun h => !h.closed

theorem isOpen_of_usable {s : State P L.slotCount} {c : Nat} {h : Consumer}
    (hu : usable s c = some h) : s.isOpen c h := by
  obtain ⟨hc, ho⟩ := Option.filter_eq_some_iff.mp hu
  exact ⟨hc, by simpa using ho⟩

/-- An operation that an actor starts whose process is running. -/
def call (a : Actor) (p : State P L.slotCount → Option (RingM P L.slotCount Unit))
    (h : ∀ s q, p s = some q → Starts L s a q) : System.Move (ringSystem P L) :=
  .start a (fun s => if P.running s.os (P.proc a) = true then p s else none) fun s q hq => by
    obtain ⟨hr, hq⟩ := Option.ite_none_right_eq_some.mp hq
    exact ⟨hr, h s q hq⟩

def register (c : Nat) : System.Move (ringSystem P L) :=
  call (.consumer c)
    (fun s => if (s.consumer c).isNone then some (void (Ring.consumer (.consumer c) c)) else none)
    fun s q hq => by
      obtain ⟨hn, hq⟩ := Option.ite_none_right_eq_some.mp hq
      cases hq
      exact .register c (by simpa using hn)

def next (c : Nat) : System.Move (ringSystem P L) :=
  call (.consumer c)
    (fun s => (usable s c).map fun h => void (Consumer.nextRaw L.slotCapacity c h 0))
    fun s q hq => by
      obtain ⟨h, hu, rfl⟩ := Option.map_eq_some_iff.mp hq
      exact .next c h (isOpen_of_usable hu) 0

/-- Release the lease that was taken last. -/
def release (c : Nat) : System.Move (ringSystem P L) :=
  call (.consumer c)
    (fun s => (usable s c).bind fun h => (s.leases c).head?.map fun m =>
      void (Consumer.release c h m))
    fun s q hq => by
      obtain ⟨h, hu, hq⟩ := Option.bind_eq_some_iff.mp hq
      obtain ⟨m, hm, rfl⟩ := Option.map_eq_some_iff.mp hq
      exact .release c h (isOpen_of_usable hu) m (List.mem_of_mem_head? hm)

def close (c : Nat) : System.Move (ringSystem P L) :=
  call (.consumer c) (fun s => (usable s c).map fun h => Consumer.close c h) fun s q hq => by
    obtain ⟨h, hu, rfl⟩ := Option.map_eq_some_iff.mp hq
    exact .close c h (isOpen_of_usable hu)

def publish (t : Nat) (tensor : TensorView) : System.Move (ringSystem P L) :=
  call (.writer t)
    (fun s => if (s.writer t).isNone then
      some (void (Producer.publish L t tensor .dropNewest 0)) else none)
    fun s q hq => by
      obtain ⟨hn, hq⟩ := Option.ite_none_right_eq_some.mp hq
      cases hq
      exact .publish t (by simpa using hn) tensor .dropNewest 0

def reserve (t : Nat) (dtype : DType) (shape : List UInt32) : System.Move (ringSystem P L) :=
  call (.writer t)
    (fun s => if (s.writer t).isNone then
      some (void (Producer.reserve L t dtype shape .dropNewest 0)) else none)
    fun s q hq => by
      obtain ⟨hn, hq⟩ := Option.ite_none_right_eq_some.mp hq
      cases hq
      exact .reserve t (by simpa using hn) dtype shape .dropNewest 0

def commit (t : Nat) : System.Move (ringSystem P L) :=
  call (.writer t) (fun s => (s.writer t).map fun w => void (w.commit t)) fun s q hq => by
    obtain ⟨w, hw, rfl⟩ := Option.map_eq_some_iff.mp hq
    exact .commit t w hw

def abort (t : Nat) : System.Move (ringSystem P L) :=
  call (.writer t) (fun s => (s.writer t).map fun w => w.abort t) fun s q hq => by
    obtain ⟨w, hw, rfl⟩ := Option.map_eq_some_iff.mp hq
    exact .abort t w hw

def sweep (k : Nat) : System.Move (ringSystem P L) :=
  call (.sweeper k) (fun _ => some (Ring.sweep (.sweeper k))) fun s q hq => by
    cases hq
    exact .sweep k

/-- An operation from its start to its end. -/
def whole (a : Actor) (move : System.Move (ringSystem P L)) :
    List (System.Move (ringSystem P L)) := [move, .steps a 4000]

/-- The liveness check is not asked. -/
def unasked (m m' : State P L.slotCount × Ghost L.slotCount) : Bool :=
  m'.2.verdicts.length == m.2.verdicts.length

theorem verdicts_of_unasked {m m' : State P L.slotCount × Ghost L.slotCount}
    (h : unasked m m' = true) {x : Verdict L.slotCount}
    (hx : m'.2.verdicts = x :: m.2.verdicts) : False := by
  have := beq_iff_eq.mp h
  rw [hx, List.length_cons] at this
  omega

/-- Only the living take steps. -/
def alive (a : Actor) (s : State P L.slotCount) : Bool := P.alive s.os (P.proc a)

end Script

/-- Every actor is a thread of one process, and nothing ever happens to it. -/
def Platform.single : Platform where
  Os := Unit
  step _ _ := True
  alive _ _ := true
  running _ _ := true
  alive_of_step _ _ _ _ h := h
  running_of_step _ _ _ _ h _ := h
  proc _ := 0
  pid _ := 7
  pidStartToken _ _ := 1
  pidAliveWithToken _ _ _ := true
  now _ := 0
  nowNs _ := 0
  debugAssertions := false

/-- A small ring. -/
abbrev RingLayout.small (slotCount : Nat) (h : 2 ≤ slotCount) (hm : slotCount < 2 ^ 40) :
    RingLayout where
  slotCount := slotCount
  slotCapacity := 64
  slotCount_ge := h
  slotCapacity_ge := by decide
  mapped := by
    have : slotStride 64 = 192 := by decide
    rw [totalBytes, this, globalHeaderSize]
    omega

/-- Two slots. -/
abbrev RingLayout.two : RingLayout := .small 2 (by decide) (by decide)

theorem one_le_maxNdim : 1 ≤ maxNdim := by decide

/-- One byte. -/
def TensorView.byte (b : UInt8) : TensorView :=
  { dtype := .u8, ndim := 1, ndim_le := one_le_maxNdim, shape := padded [1], strides := padded [1],
    data := [b], timestampNs := none }

/-- A run of a ring, written down from its beginning. -/
theorem Script.reachFrom (L : RingLayout) (k : UInt64) (s : P.Os)
    (ok : State P L.slotCount × Ghost L.slotCount → State P L.slotCount × Ghost L.slotCount → Prop)
    (chk : State P L.slotCount × Ghost L.slotCount →
      State P L.slotCount × Ghost L.slotCount → Bool)
    (hchk : ∀ m m', chk m m' = true → ok m m') (moves : List (System.Move (ringSystem P L)))
    (test : RingConfig P L → Bool)
    (h : (System.play Script.alive chk moves
      { mem := (State.init k s, Ghost.init _ k), pool := fun _ => .ret () }).any test = true) :
    ∃ d, (ringSystem P L).Reach ok (Fresh _ L k (· = s)) d ∧ test d = true :=
  System.Reach.play (fun _ _ h => h) hchk moves (.init ⟨s, rfl, rfl⟩) h

/-- A run that is written down, and one more step. -/
theorem Script.stepFrom (L : RingLayout) (k : UInt64) (s : P.Os)
    (ok : State P L.slotCount × Ghost L.slotCount → State P L.slotCount × Ghost L.slotCount → Prop)
    (chk : State P L.slotCount × Ghost L.slotCount →
      State P L.slotCount × Ghost L.slotCount → Bool)
    (hchk : ∀ m m', chk m m' = true → ok m m') (moves : List (System.Move (ringSystem P L)))
    (a : Actor) (test : RingConfig P L → RingConfig P L → Bool)
    (h : (System.play Script.alive chk moves
      { mem := (State.init k s, Ghost.init _ k), pool := fun _ => .ret () }).any
        (fun c => (System.advance Script.alive a c).any (test c)) = true) :
    ∃ c d, (ringSystem P L).Reach ok (Fresh _ L k (· = s)) c ∧ (ringSystem P L).Step c d ∧
      test c d = true := by
  obtain ⟨c, hc, ht⟩ := Script.reachFrom L k s ok chk hchk moves _ h
  rw [Option.any_eq_true] at ht
  obtain ⟨d, hd, ht⟩ := ht
  exact ⟨c, d, hc, System.step_of_advance (fun _ _ h => h) hd, ht⟩

/-- A run of a ring with `n` slots in one process, written down from its beginning. -/
theorem Script.reach (L : RingLayout) (k : UInt64) (start : Unit → Prop) (hstart : start ())
    (ok : State .single L.slotCount × Ghost L.slotCount →
      State .single L.slotCount × Ghost L.slotCount → Prop)
    (chk : State .single L.slotCount × Ghost L.slotCount →
      State .single L.slotCount × Ghost L.slotCount → Bool)
    (hchk : ∀ m m', chk m m' = true → ok m m')
    (moves : List (System.Move (ringSystem .single L)))
    (test : RingConfig .single L → Bool)
    (h : (System.play Script.alive chk moves
      { mem := (State.init k (), Ghost.init _ k), pool := fun _ => .ret () }).any test = true) :
    ∃ d, (ringSystem .single L).Reach ok (Fresh .single L k start) d ∧ test d = true :=
  System.Reach.play (fun _ _ h => h) hchk moves (.init ⟨(), hstart, rfl⟩) h

/-- The same, where all but some actors are idle throughout. -/
theorem Script.reachAmong (L : RingLayout) (k : UInt64) (start : Unit → Prop) (hstart : start ())
    (ok : State .single L.slotCount × Ghost L.slotCount →
      State .single L.slotCount × Ghost L.slotCount → Prop)
    (chk : State .single L.slotCount × Ghost L.slotCount →
      State .single L.slotCount × Ghost L.slotCount → Bool) (busy : Actor → Bool)
    (hchk : ∀ c m', (ringSystem .single L).Reach ok (Fresh .single L k start) c →
      System.Among busy c → chk c.mem m' = true → ok c.mem m')
    (moves : List (System.Move (ringSystem .single L)))
    (hb : moves.all (System.Move.within busy) = true) (test : RingConfig .single L → Bool)
    (h : (System.play Script.alive chk moves
      { mem := (State.init k (), Ghost.init _ k), pool := fun _ => .ret () }).any test = true) :
    ∃ d, (ringSystem .single L).Reach ok (Fresh .single L k start) d ∧ System.Among busy d ∧
      test d = true :=
  System.Reach.playAmong (fun _ _ h => h) (fun c d hc ha _ hd => hchk c d.mem hc ha hd) moves hb
    (.init ⟨(), hstart, rfl⟩) (fun _ _ => rfl) h

end TenzorBus
