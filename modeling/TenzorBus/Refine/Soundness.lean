import TenzorBus.Refine.Producer
import TenzorBus.Refine.Registration
import TenzorBus.Refine.Consumer

/-!
# Runs of the ring

The outlines of the operations put together: a use of the ring whose own invariant survives the
transitions that it admits has that invariant in every reachable configuration.

* `Mode.Lawful` : what a use of the ring has to show
* `Mode.Lawful.sound` : the obligations of the rules
* `Mode.Lawful.inv` : the invariant in every reachable configuration
-/

namespace TenzorBus

namespace Refine

open Conc

variable {P : Platform} {L : RingLayout} {M : Mode P L.slotCount} {k : UInt64}
  {start : P.Os → Prop}

/-! ## where a run begins -/

theorem coupled_init {n : Nat} {G : Guards n} (os : P.Os) :
    Coupled G (view (State.init k os, Ghost.init n k) : View P n) where
  alive _ := Iff.rfl
  sequence _ := rfl
  nextSeq := (seqWord_toNat k).symm
  entryState _ := ⟨nofun, fun h => absurd rfl h⟩
  entryPid _ _ h := nomatch h
  stamped _ _ h := nomatch h
  consumer _ _ h := nomatch h
  last _ _ _ _ h := nomatch h
  writer _ _ h := nomatch h
  holding _ _ h := nomatch h
  reserving _ _ h := nomatch h

theorem inv_init {n cap : Nat} (os : P.Os) :
    Inv cap (view (State.init k os, Ghost.init n k) : View P n).proto where
  unique _ _ _ _ h := nomatch h
  writing _ _ h := nomatch h
  owned _ h := nomatch h
  freeMask _ _ := readers_zero
  unmasked _ _ h := nomatch h
  captured _ _ h := nomatch h
  locked _ _ h := nomatch h
  capturing _ _ h := nomatch h
  registered _ _ h := nomatch h
  active _ _ h := nomatch h.1
  bits _ _ h := absurd h (by simp [view, State.proto, State.init, Ring.format, Slot.zero])
  validInHand _ _ h := nomatch h
  valid _ h := nomatch h
  content _ h := nomatch h

/-! ## what an operation begins with -/

/-- Every operation that an actor may start has an outline. -/
theorem starts_keeps (hM : Delivers M) {a : Actor} {s : State P L.slotCount}
    {g : Ghost L.slotCount} {p : RingM P L.slotCount Unit} (h : Starts L s a p)
    (hrun : s.running a) (hi : M.Inv L.slotCapacity (view (s, g))) (hl : s.aliveActor a)
    (hr : rest a (view (s, g))) :
    ∃ Φ, Keeps M a Φ ∧ Φ (view (s, g)) ∧ Keeping M a p Φ fun _ => rest a := by
  -- what a handle in use stands for
  have handle : ∀ {c con}, Steady (.consumer c) (view (s, g)) → s.isOpen c con →
      ∃ k, Fits con k ∧ Opened c con k (view (s, g)) := fun hs ho =>
    opened_of_handle hi.coupled hs ho.1 ho.2
  -- what a slot writer in hand stands for
  have hand : ∀ {t} {w : SlotWriter L.slotCount}, Steady (.writer t) (view (s, g)) →
      s.writer t = some w → s.aliveActor (.writer t) →
        InHand t w.slot w.mask w.sequence (view (s, g)) := fun hs hw hl =>
    inHand_of_writer hi.coupled hl hs hw
  have keep : ∀ {t} {w : SlotWriter L.slotCount}, Keeping M (.writer t) p
      (fun v => InHand t w.slot w.mask w.sequence v ∧ v.writer t = some w)
      (fun _ v => InHand t w.slot w.mask w.sequence v ∧ v.writer t = some w) →
        Keeping M (.writer t) p
          (fun v => InHand t w.slot w.mask w.sequence v ∧ v.writer t = some w)
          fun _ => rest (.writer t) := fun h =>
    post h fun _ v _ hv => ⟨hv.1.steady, fun hn => by rw [hv.2] at hn; cases hn⟩
  cases h with
  | register c h =>
    exact ⟨_, keeps_running.and (keeps_rest.and keeps_handle), ⟨hrun, hr, h⟩, consumer_keeps c⟩
  | next c con h timeout =>
    obtain ⟨k, hf, ho⟩ := handle hr.1 h
    exact ⟨_, keeps_opened, ho, nextRaw_keeps hM hf timeout⟩
  | release c con h m hm =>
    obtain ⟨k, hf, ho⟩ := handle hr.1 h
    refine ⟨_, fun v v' h hv => ⟨keeps_opened v v' h hv.1, ?_⟩, ⟨ho, hm⟩, release_keeps hM hf m⟩
    rw [h.rely.consumer.2.1]
    exact hv.2
  | close c con h =>
    obtain ⟨k, hf, ho⟩ := handle hr.1 h
    exact ⟨_, keeps_opened, ho, close_keeps hf⟩
  | publish t h tensor policy timeout =>
    exact ⟨_, keeps_free, ⟨⟨hrun, h, hr.2 h⟩, hr.1⟩, publish_keeps tensor policy timeout⟩
  | reserve t h dtype shape policy timeout =>
    exact ⟨_, keeps_free, ⟨⟨hrun, h, hr.2 h⟩, hr.1⟩, reserve_keeps dtype shape policy timeout⟩
  | payload t w h off _ b =>
    exact ⟨_, keeps_inHand.and keeps_writer, ⟨hand hr.1 h hl, h⟩,
      keep (writeByte_keeps off b keeps_writer fun _ _ _ hv => hv)⟩
  | setTimestampNs t w h timestampNs =>
    exact ⟨_, keeps_inHand.and keeps_writer, ⟨hand hr.1 h hl, h⟩,
      keep (setTimestampNs_keeps w timestampNs keeps_writer fun _ _ _ hv => hv)⟩
  | commit t w h => exact ⟨_, keeps_inHand, hand hr.1 h hl, commit_keeps w⟩
  | abort t w h => exact ⟨_, keeps_inHand, hand hr.1 h hl, abort_keeps w⟩
  | sweep k => exact ⟨_, keeps_running.and keeps_rest, ⟨hrun, hr⟩, sweep_keeps⟩

end Refine

/-! ## lawful modes -/

namespace Mode

open Refine Conc

variable {P : Platform} {L : RingLayout} {M : Mode P L.slotCount} {k : UInt64}
  {start : P.Os → Prop}

/-- A use of the ring that begins with the counter at `k` on a system as `start` says. -/
structure Lawful (M : Mode P L.slotCount) (k : UInt64) (start : P.Os → Prop) : Prop where
  initial : ∀ os, start os → M.inv (view (.init k os, .init _ k))
  delivers : Delivers M
  step : ∀ a v v', M.Inv L.slotCapacity v → Guar M.guards L.slotCapacity a v v' →
    Believes M.guards v v' → M.ok v v' → TenzorBus.Inv L.slotCapacity v'.proto → M.inv v'
  env : ∀ v v', M.Inv L.slotCapacity v → Passes v v' → M.ok v v' → M.inv v'

/-- The system does something on its own. -/
theorem passes_env {m : State P L.slotCount × Ghost L.slotCount} {os : P.Os}
    (h : P.step m.1.os os) :
    Passes (view m) (view (({ m.1 with os := os } : State P L.slotCount), m.2)) :=
  ⟨rfl, rfl, fun _ hb => P.alive_of_step _ _ _ h hb⟩

theorem Lawful.sound (hM : M.Lawful k start) : M.rules.Sound (Fresh P L k start) where
  initial := by
    rintro _ ⟨os, hos, rfl⟩
    refine ⟨⟨coupled_init os, inv_init os, hM.initial os hos⟩, fun a => ⟨rfl, ⟨nofun, rfl⟩, ?_⟩⟩
    cases a with
    | consumer c => exact fun _ => rfl
    | writer t => exact fun _ => rfl
    | sweeper j => trivial
  restStable _ := keeps_rest.stable
  starts a m p h hi hl hr := by
    obtain ⟨Φ, hΦ, hs, hp⟩ := starts_keeps hM.delivers h.2 h.1 hi hl hr
    exact ⟨_, hΦ.stable, hs, hp⟩
  guarInv a m m' hi _ hok hg :=
    have hproto := hi.proto.step hg.live hg.step
    ⟨hg.coupled, hproto, hM.step a _ _ hi hg hok.1 hok.2 hproto⟩
  envInv m m' hi hok := by
    rintro ⟨os, hstep, rfl⟩
    have hp := passes_env (m := m) hstep
    have hrun : ∀ {a}, (view (({ m.1 with os := os } : State P L.slotCount), m.2)).proto.alive a →
        (view m).running a → P.running os (P.proc a) = true := fun hl hr =>
      P.running_of_step _ _ _ hstep hr hl
    refine ⟨{ hi.coupled with
      alive := fun _ => Iff.rfl
      writer := fun t w hw hl => hi.coupled.writer t w hw (hp.fades.alive _ hl)
      holding := fun i c hh hl => hrun hl (hi.coupled.holding i c hh (hp.fades.alive _ hl))
      reserving := fun t r hr hl => hrun hl (hi.coupled.reserving t r hr (hp.fades.alive _ hl)) },
      hi.proto.fades hp.fades, hM.env _ _ hi hp hok.2⟩
  guarLive a b m m' hg hl := by
    have hl : (view m').proto.alive a := hl
    rwa [hg.step.alive] at hl
  envLive a m m' := by
    rintro ⟨os, hstep, rfl⟩ hl
    exact (passes_env (m := m) hstep).fades.alive a hl

/-- The invariant of a lawful use of the ring holds in every reachable configuration. -/
theorem Lawful.inv (hM : M.Lawful k start) {c : RingConfig P L}
    (h : (ringSystem P L).Reach M.rules.ok (Fresh P L k start) c) :
    M.Inv L.slotCapacity (view c.mem) :=
  hM.sound.inv h

/-- Whoever is idle and alive knows what there is to know about itself. -/
theorem Lawful.rest (hM : M.Lawful k start) {c : RingConfig P L}
    (h : (ringSystem P L).Reach M.rules.ok (Fresh P L k start) c) {a : Actor}
    (hl : c.mem.1.aliveActor a) (hp : c.pool a = .ret ()) : TenzorBus.rest a (view c.mem) := by
  have hh := hM.sound.holds h
  obtain ⟨Φ, -, hs, hO⟩ := hh.2 a hl
  rw [hp] at hO
  exact hO _ hh.1 hs

end Mode

end TenzorBus
