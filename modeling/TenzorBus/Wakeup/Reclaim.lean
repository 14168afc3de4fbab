import TenzorBus.Wakeup.Search

/-!
# The producer that sleeps

A blocked producer looks for a slot first and loads the word that it sleeps on afterwards. Where
nobody signals in between, it never sleeps past a slot that has become reclaimable.

* `sound` : all operations keep to the rules
* `neverPast_of_prompt` : the property of the run
* `past_reclaim` : a release that comes between the search and the load
-/

namespace TenzorBus.Wakeup

open Conc

variable {P : Platform} {L : RingLayout} {k : UInt64} {start : P.Os → Prop} {a : Actor}

/-- A fresh ring under observation. -/
abbrev Begun (P : Platform) (L : RingLayout) (k : UInt64) (start : P.Os → Prop) :
    Config Actor (State P L.slotCount) (Ghost L.slotCount × Notes L.slotCount) → Prop :=
  FreshWatched P L observe (Notes.init _) k start

/-! ## all operations keep to the rules -/

theorem void_clear {α : Type} {p : RingM P L.slotCount α}
    (h : Keeping a p (Clear a) fun _ => Clear a) : Keeping a (void p) (Clear a) fun _ => Clear a :=
  .bind h fun _ => .ret fun _ hm => hm

theorem starts_clear {s : State P L.slotCount} {p : RingM P L.slotCount Unit}
    (h : Starts L s a p) : Keeping a p (Clear a) fun _ => Clear a := by
  cases h with
  | register c h => exact void_clear (consumer_clear c)
  | next c self h timeout => exact void_clear (next_clear self timeout)
  | release c self h m hm => exact void_clear (release_clear self m)
  | close c self h => exact close_clear self
  | publish t h view policy timeout => exact void_clear (publish_clear view policy timeout)
  | reserve t h dtype shape policy timeout =>
    exact void_clear (reserve_clear dtype shape policy timeout)
  | payload t w h off hoff b => exact .still (still_writeByte _ _ _) kept_clear
  | setTimestampNs t w h stamp => exact .still (still_slot fun _ => ⟨rfl, rfl⟩) kept_clear
  | commit t w h => exact void_clear (commit_clear w)
  | abort t w h => exact abort_clear w
  | sweep k => exact sweep_clear

/-- All operations keep to the rules. -/
theorem sound : (rules P L).Sound (Begun P L k start) where
  initial := by
    rintro d ⟨c, ⟨os, -, rfl⟩, rfl⟩
    exact ⟨⟨rfl, nofun, fun t j => nofun⟩, fun a => ⟨rfl, rfl, fun t j => nofun⟩⟩
  restStable _ := (kept_awake.and kept_clear).stable
  starts := by
    rintro a m p ⟨q, ⟨-, hq⟩, rfl⟩ - - hm
    exact ⟨_, (kept_awake.and kept_clear).stable, hm, starts_clear hq⟩
  guarInv _ _ _ hi _ hok hg := Guar.inv hg hi hok
  envInv m m' hi _ he := by
    obtain ⟨os, -, rfl⟩ := env_watched he
    exact ⟨hi.word, hi.asleep, hi.signalled⟩
  guarLive a b m m' hg hl := by
    have hos : m'.1.os = m.1.os := Guar.os hg
    show P.alive m.1.os (P.proc a) = true
    rw [← hos]
    exact hl
  envLive a m m' he hl := by
    obtain ⟨os, hos, rfl⟩ := env_watched he
    exact P.alive_of_step _ _ _ hos hl

/-- Whoever is idle owes no signal. -/
theorem clear_of_idle
    {c : Config Actor (State P L.slotCount) (Ghost L.slotCount × Notes L.slotCount)}
    (h : (watchedRing P L).Reach Prompt (Begun P L k start) c) (hidle : c.pool a = .ret ()) :
    Clear a c.mem := by
  refine (sound.idle (fun b m m' _ _ _ hs hm => ?_) (fun b m m' hl hg => ?_) h hidle).2
  · rcases hs with ⟨b', hb, -, hg⟩ | he
    · exact ⟨Guar.stays_awake hg hb hm.1, Guar.stays_clear hg hb hm.2⟩
    · obtain ⟨os, -, rfl⟩ := env_watched he
      exact hm
  · have hos : m'.1.os = m.1.os := Guar.os hg
    show P.alive m'.1.os (P.proc b) = true
    rw [hos]
    exact hl

/-- In every run in which no producer falls asleep after a signal for a slot that has become
reclaimable since it took the lock, no producer sleeps past a slot that has become reclaimable. -/
theorem neverPast_of_prompt
    {c : Config Actor (State P L.slotCount) (Ghost L.slotCount × Notes L.slotCount)}
    (h : (watchedRing P L).Reach Prompt (Begun P L k start) c) : NeverPast c := by
  intro t v ht hv hfew hbusy j hj
  have hi : Inv c.mem := sound.inv h
  obtain ⟨hslept, hle, hready⟩ := hi.asleep t v ht
  have hsame : c.mem.2.2.signals = c.mem.2.2.slept t := by
    have hword : UInt32.ofNat c.mem.2.2.signals = UInt32.ofNat (c.mem.2.2.slept t) :=
      hi.word.symm.trans (hv.trans hslept)
    have hmod := congrArg UInt32.toNat hword
    simp only [UInt32.toNat_ofNat'] at hmod
    omega
  obtain ⟨a, ha⟩ := hready hsame hbusy j hj
  refine ⟨a, ha, fun hidle => ?_⟩
  have := clear_of_idle h hidle t j ha
  rw [hbusy] at this
  cases this

/-! ## written-down runs -/

/-- `publish` with `Backpressure::Block`. -/
def publishBlock (t : Nat) (tensor : TensorView) : System.Move (ringSystem P L) :=
  Script.call (.writer t)
    (fun s => if (s.writer t).isNone then
      some (void (Producer.publish L t tensor .block 1)) else none)
    fun s q hq => by
      obtain ⟨hn, hq⟩ := Option.ite_none_right_eq_some.mp hq
      cases hq
      exact .publish t (by simpa using hn) tensor .block 1

/-- A ring of two slots is full: a consumer holds the lease of the first publication, and has yet
to take the second. -/
def full : List (System.Move (ringSystem .single RingLayout.two)) :=
  Script.whole (.consumer 0) (Script.register 0)
  ++ Script.whole (.writer 0) (Script.publish 0 (.byte 1))
  ++ Script.whole (.writer 0) (Script.publish 0 (.byte 2))
  ++ Script.whole (.consumer 0) (Script.next 0)

/-- As long as nobody has signalled, a run is as it should be. -/
theorem prompt_of_unsignalled
    {c : Config Actor (State P L.slotCount) (Ghost L.slotCount × Notes L.slotCount)}
    (h : (watchedRing P L).Reach Prompt (Begun P L k start) c) (hs : c.mem.2.2.signals = 0)
    (m' : Watched P L.slotCount) : Prompt c.mem m' := by
  intro t _ _ _ j _ hj
  have := (sound.inv h).signalled t j hj
  omega

/-- A producer that sleeps past a reclaimable slot. -/
def asleepPast {n : Nat} (j : Fin n) (c : Config Actor (State .single n) (Ghost n × Notes n)) :
    Bool :=
  c.mem.1.asleep (.writer 0) == some (.reclaim, c.mem.1.ring.reclaimFutex) &&
    c.mem.2.2.slept 0 == c.mem.2.2.signals && !c.mem.2.2.busy 0 &&
      decide (Reclaimable (c.mem.1.ring.slots j))

/-- The release comes while the producer sleeps, and has yet to signal. -/
theorem neverPast_of_prompt_owed : ∃ c,
    (watchedRing .single RingLayout.two).Reach Prompt (Begun .single .two 0 fun _ => True) c ∧
      asleepPast 0 c = true ∧ NeverPast c := by
  obtain ⟨c, hc, ht⟩ := Script.reachWatched .two observe (Notes.init _) (fun _ => True) trivial
    Prompt (fun m _ => m.2.2.signals == 0)
    (fun c m' hc hs => prompt_of_unsignalled hc (by simpa using hs) m')
    (full ++ [publishBlock 0 (.byte 3), .steps (.writer 0) 80, Script.release 0,
      .steps (.consumer 0) 2]) (asleepPast 0) (by decide +kernel)
  exact ⟨c, hc, ht, neverPast_of_prompt hc⟩

/-- The release, with its signal, comes after the search and before the load. -/
theorem past_reclaim : ∃ c,
    (watchedRing .single RingLayout.two).Reach (fun _ _ => True)
      (Begun .single .two 0 fun _ => True) c ∧ ¬NeverPast c := by
  obtain ⟨c, hc, ht⟩ := Script.reachWatched .two observe (Notes.init _) (fun _ => True) trivial
    (fun _ _ => True) (fun _ _ => true) (fun _ _ _ _ => trivial)
    (full ++ [publishBlock 0 (.byte 3), .steps (.writer 0) 77]
      ++ Script.whole (.consumer 0) (Script.release 0) ++ [.steps (.writer 0) 3])
    (fun c => asleepPast 0 c && decide (c.mem.2.2.mark 0 0 = .signalled)) (by decide +kernel)
  obtain ⟨ht, hmark⟩ := Bool.and_eq_true_iff.mp ht
  simp only [asleepPast, Bool.and_eq_true, beq_iff_eq, Bool.not_eq_true', decide_eq_true_eq] at ht
  refine ⟨c, hc, fun h => ?_⟩
  obtain ⟨a, ha, -⟩ := h 0 _ ht.1.1.1 rfl (by omega) ht.1.2 0 ht.2
  rw [of_decide_eq_true hmark] at ha
  cases ha

end TenzorBus.Wakeup
