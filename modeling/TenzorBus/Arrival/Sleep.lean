import TenzorBus.Arrival.Operations

/-!
# Commits, and consumers that wait for them

Outlines of the operations that commit or put somebody to sleep. A consumer loads
`G_PUBLISH_FUTEX` before it looks for a publication, and sleeps on the value that it has loaded.

* `commitSlot_settled` : a commit, its count and its signal
* `kept_loaded` : what a consumer knows that has loaded the word
* `tryTake_loaded` : what it knows when it has found nothing
* `starts_settled` : all operations
-/

namespace TenzorBus.Arrival

open Conc

variable {P : Platform} {L : RingLayout} {strict : Prop} {α : Type} {a : Actor} {t c : Nat}

/-- Actor `a` has settled before and after. -/
abbrev Settles (P : Platform) (L : RingLayout) (strict : Prop) (a : Actor)
    (p : RingM P L.slotCount α) : Prop :=
  Keeping P L strict a p (Settled a) fun _ => Settled a

theorem settles_mild {p : RingM P L.slotCount α} (h : p.Acts (Mild a)) :
    Settles P L strict a p :=
  .mild h kept_settled

/-! ## commits -/

/-- A commit, the count and the signal: afterwards nothing is owed. -/
theorem commitSlot_settled (slot : Fin L.slotCount) (mask : UInt64) :
    Settles P L strict (.writer t) (Producer.commitSlot t slot mask) := by
  refine .bind (Ψ := fun _ => Owes t True True) (.act (fun _ => kept_owes t _ _) ?_) fun _ => ?_
  · intro s g w _ hm x s' hs
    cases hs
    obtain ⟨hsignal, hcount⟩ := hm t rfl
    refine ⟨.commit t rfl _ _ rfl rfl hsignal hcount, .inl rfl, fun _ => ?_⟩
    rw [observe_commit]
    · simp [Owes]
    · rfl
    · rfl
  refine .bind (Ψ := fun _ => Owes t True False) (.act (fun _ => kept_owes t _ _) ?_) fun _ => ?_
  · intro s g w _ hm x s' hs
    cases hs
    refine ⟨.count t rfl (hm.2.mpr trivial), .inl rfl, fun _ => ?_⟩
    rw [observe_count]
    simpa [Owes] using hm.1
  refine .bind (.act (fun _ => kept_settled) ?_) fun _ =>
    settles_mild (mild_inner (inner_wakeAll _))
  intro s g w _ hm x s' hs
  cases hs
  refine ⟨.signal t rfl (hm.1.mpr trivial) (fun h => hm.2.mp h), .inl rfl, fun _ => ?_⟩
  rw [observe_signal, settled_iff]
  simpa [Owes] using hm.2

/-! ## falling asleep -/

/-- Whoever sleeps does not change what is due. -/
theorem stable_settled : (rules P L strict).Stable a (Settled a) := by
  intro m m' h hm u hu
  subst hu
  rcases h.step with ⟨b, hb, hg⟩ | he
  · have := Guar.owes hg hb (settled_iff.mp hm)
    exact settled_iff.mpr this _ rfl
  · obtain ⟨os, -, rfl⟩ := env_watched he
    exact hm u rfl

/-- A sleep on a value that the actor may sleep on. -/
theorem futexWait_settled (word : FutexWord) (v : UInt32) :
    Keeping P L strict a (futexWait a word v)
      (fun m => Settled a m ∧ (strict → ∀ c, a = .consumer c → word = .publish → Expects c v m))
      fun _ => Settled a := by
  refine Rules.Outline.watchBind (M := fun _ => Settled a) ?_ fun _ => ?_
  · refine Rules.Outline.watchAct (fun _ => stable_settled) ?_
    intro s g w _ _ hm x s' hs
    cases hs
    obtain ⟨hawake, hsettled, hlooked⟩ := hm
    have hawake : s.asleep a = none := hawake
    by_cases hv : s.ring.futexWord word = v
    · subst hv
      simp only [if_true]
      refine ⟨⟨rfl, .inl hawake, .sleep word hawake fun h c ha hw => ?_⟩, fun _ _ => ?_⟩
      · have := hlooked h c ha hw
        subst hw
        exact this
      · rw [observe_sleep hawake]
        exact hsettled
    · simp only [hv, if_false]
      refine ⟨⟨rfl, .inl hawake, .mild (Mild.refl _)⟩, fun _ _ => ?_⟩
      rw [observe_self]
      exact hsettled
  · refine Rules.Outline.watchAct (fun _ => kept_settled.stable) ?_
    intro s g w _ _ hm x s' hs
    cases hs
    have hmild : Mild a (s, g) ({ s with asleep := Function.update s.asleep a none }, g) := {
      Mild.refl (s, g) with
      asleep := fun b => by
        by_cases hb : b = a
        · exact .inr (by simp [hb])
        · exact .inl (by simp [hb]) }
    refine ⟨⟨rfl, .inr (by simp), .mild hmild⟩, fun _ _ => ⟨by simp [Awake], ?_⟩⟩
    rw [hmild.observe]
    exact hm

/-! ## the operations of a writer -/

/-- A producer that finds no slot gives up or sleeps, on the word of the producers. -/
theorem backOff_settled (policy : Backpressure) (deadline : Nat) :
    Settles P L strict (.writer t)
      (Producer.backOff t policy deadline :
        RingM P L.slotCount (Option (Except Error (Option α)))) := by
  have hrest : Settles P L strict (.writer t) (do
      let time ← now
      if deadline ≤ time then return some (.error .ringFull)
      let observed ← load (·.reclaimFutex)
      futexWait (.writer t) .reclaim observed
      return none : RingM P L.slotCount (Option (Except Error (Option α)))) := by
    refine .bind (settles_mild (mild_inner inner_read)) fun time => ?_
    split
    · exact .ret fun m hm => hm
    refine .bind (settles_mild (mild_inner inner_read)) fun observed => ?_
    exact .bind (.pre (futexWait_settled _ _) fun m _ hm => ⟨hm, fun _ _ => nofun⟩) fun _ =>
      .ret fun m hm => hm
  cases policy with
  | block => exact hrest
  | dropNewest =>
    exact .bind (settles_mild (.modifyWith fun s g => { Mild.refl (s, g) with })) fun _ =>
      .ret fun m hm => hm

/-- `publish`, with as many rounds as it takes. -/
theorem publish_settled (view : TensorView) (policy : Backpressure) (timeout : Nat) :
    Settles P L strict (.writer t) (Producer.publish L t view policy timeout) := by
  unfold Producer.publish
  split
  · exact .ret fun m hm => hm
  refine .bind (settles_mild (mild_inner inner_read)) fun start => ?_
  refine .loop kept_settled.stable (fun _ => kept_settled.stable) ?_
  refine .bind (settles_mild (mild_inner (inner_lockedReserve _ _ _ _ _ _ _))) fun reserved => ?_
  cases reserved with
  | none => exact .post (backOff_settled policy _) fun r m hm => by cases r <;> exact hm
  | some x =>
    refine .bind (settles_mild (mild_inner (inner_copyPayload _ _))) fun _ => ?_
    exact .bind (commitSlot_settled _ _) fun _ => .ret fun m hm => hm

/-- `reserve` commits nothing. -/
theorem reserve_settled (dtype : DType) (shape : List UInt32) (policy : Backpressure)
    (timeout : Nat) :
    Settles P L strict (.writer t) (Producer.reserve L t dtype shape policy timeout) := by
  unfold Producer.reserve
  split
  · exact .ret fun m hm => hm
  dsimp only
  split
  · exact .ret fun m hm => hm
  refine .bind (settles_mild (mild_inner inner_read)) fun start => ?_
  refine .loop kept_settled.stable (fun _ => kept_settled.stable) ?_
  refine .bind (settles_mild (mild_inner (inner_lockedReserve _ _ _ _ _ _ _))) fun reserved => ?_
  cases reserved with
  | none => exact .post (backOff_settled policy _) fun r m hm => by cases r <;> exact hm
  | some x =>
    have hend : ∀ w : SlotWriter L.slotCount, Settles P L strict (.writer t) (do
        Prog.modify fun s => { s with writer := Function.update s.writer t (some w) }
        return some (.ok (some w)) :
          RingM P L.slotCount (Option (Except Error (Option (SlotWriter L.slotCount))))) :=
      fun w => .bind (settles_mild (.modifyWith fun s g => { Mild.refl (s, g) with })) fun _ =>
        .ret fun m hm => hm
    refine .post (Ψ := fun _ => Settled (.writer t)) ?_ fun r m hm => by cases r <;> exact hm
    dsimp only
    split
    · exact .bind (settles_mild (mild_inner (inner_copyPayload _ _))) fun _ => hend _
    · exact hend _

/-- The commit of a slot in hand. -/
theorem commit_settled (w : SlotWriter L.slotCount) :
    Settles P L strict (.writer t) (w.commit t : RingM P L.slotCount _) :=
  .bind (settles_mild (mild_consume t)) fun _ =>
    .bind (commitSlot_settled _ _) fun _ => .ret fun _ hm => hm

/-! ## what a consumer knows -/

/-- What a consumer knows that has loaded the word it knows as long as it only reads and
validates. -/
theorem kept_loaded {X : Nat → Watched P L.slotCount → Prop}
    {K : State P L.slotCount × Ghost L.slotCount → State P L.slotCount × Ghost L.slotCount → Prop}
    (hX : ∀ l, Kept P L strict K (.consumer c) (X l))
    (hK : ∀ m m', K m m' → Mild (.consumer c) m m' ∧ m'.2.handed c = m.2.handed c ∧
      m'.2.registration c = m.2.registration c) (v : UInt32) :
    Kept P L strict K (.consumer c) (Loaded c v X) where
  stable m m' h hm := by
    obtain ⟨hawake, s, l, hv, hl, hx⟩ := hm
    obtain ⟨hawake', hx'⟩ := (hX l).stable m m' h ⟨hawake, hx⟩
    refine ⟨hawake', s, l, hv, ?_, hx'⟩
    rcases h.step with ⟨b, hb, hg⟩ | he
    · obtain ⟨s', g', w'⟩ := m'
      obtain ⟨hnoted, -, hk⟩ := hg
      dsimp only at hnoted hk
      subst hnoted
      obtain ⟨-, hh, hr⟩ := hk.apart hb
      exact hk.looked (not_stirs_of_awake hr hh hawake) hl
    · obtain ⟨os, -, rfl⟩ := env_watched he
      exact ⟨hl.since, hl.le, hl.due⟩
  acts m m' w h ha hm := by
    obtain ⟨s, l, hv, hl, hx⟩ := hm
    obtain ⟨hmild, hh, hr⟩ := hK m m' h
    exact ⟨s, l, hv, (show Kind strict _ _ _ _ from .mild hmild).looked
      (not_stirs_of_awake hr hh ha) hl, (hX l).acts m m' w h ha hx⟩

theorem Kept.imp {Φ : Watched P L.slotCount → Prop} {φ : Prop}
    {K : State P L.slotCount × Ghost L.slotCount → State P L.slotCount × Ghost L.slotCount → Prop}
    (h : φ → Kept P L strict K a Φ) (ht : Kept P L strict K a fun _ => True) :
    Kept P L strict K a fun m => φ → Φ m where
  stable m m' hr hm := ⟨(ht.stable m m' hr ⟨hm.1, trivial⟩).1, fun hφ =>
    ((h hφ).stable m m' hr ⟨hm.1, hm.2 hφ⟩).2⟩
  acts m m' w hk ha hm hφ := (h hφ).acts m m' w hk ha (hm hφ)

/-! ## a consumer looks for a publication -/

/-- What `try_take` does is mild and hands out nothing. -/
theorem validates_idle {m m' : State P L.slotCount × Ghost L.slotCount}
    (h : Consumer.Validates c m m') : Mild (.consumer c) m m' ∧
      m'.2.handed c = m.2.handed c ∧ m'.2.registration c = m.2.registration c := by
  obtain rfl | ⟨x, payload, rfl⟩ := h
  · exact ⟨.refl _, rfl, rfl⟩
  · exact ⟨{ Mild.refl m with }, rfl, rfl⟩

/-- The commits so far stay committed. -/
theorem kept_length (l : Nat) : Kept P L strict (Consumer.Validates c) (.consumer c)
    fun m => l ≤ m.2.1.published.length where
  stable := stable_of (fun _ _ _ _ hg _ hm => hm.trans hg.kind.published) fun _ _ hm => hm
  acts _ _ _ h _ hm := by
    dsimp only at hm ⊢
    rwa [(validates_idle h).1.published]

/-- The number of commits at the beginning of a try is kept through it. -/
theorem kept_trying (l : Nat) : Kept P L strict (Consumer.Validates c) (.consumer c)
    fun m => l ≤ m.2.1.trying c where
  stable := stable_of (fun _ _ _ hb hg _ hm => by rwa [(hg.kind.apart hb).1]) fun _ _ hm => hm
  acts m m' _ h _ hm := by
    obtain rfl | ⟨x, payload, rfl⟩ := h
    · exact hm
    · exact hm

/-- What has been handed out stays handed out. -/
theorem kept_behind (l : Nat) :
    Kept P L strict (Consumer.Validates c) (.consumer c) (Behind c l) where
  stable := stable_of (fun _ _ _ hb hg _ hm => by
    obtain ⟨-, hh, hr⟩ := hg.kind.apart hb
    exact hm.kept hh hr) fun _ _ hm => hm
  acts _ _ _ h _ hm := by
    obtain ⟨-, hh, hr⟩ := validates_idle h
    exact hm.kept hh hr

/-- So a consumer keeps what it expects. -/
theorem kept_expects (v : UInt32) : Kept P L strict (Consumer.Validates c) (.consumer c)
    fun m => strict → Expects c v m :=
  .imp (fun _ => kept_loaded kept_behind (fun _ _ => validates_idle) v) kept_true

/-- A consumer owes no signal. -/
theorem settled_consumer (m : Watched P L.slotCount) : Settled (.consumer c) m := by
  simp [Settled]

/-- A consumer that has found nothing after it had loaded the word may sleep on it. -/
theorem tryTake_loaded (cap : Nat) (self : Consumer) (v : UInt32) :
    Keeping P L strict (.consumer c) (Consumer.tryTake cap c self)
      (fun m => strict → Loaded c v (fun l m => l ≤ m.2.1.published.length) m)
      fun r m => r = none → strict → Expects c v m := by
  have htrying : Kept P L strict (Consumer.Validates c) (.consumer c)
      fun m => strict → Loaded c v (fun l m => l ≤ m.2.1.trying c) m :=
    .imp (fun _ => kept_loaded kept_trying (fun _ _ => validates_idle) v) kept_true
  have hreads : ∀ {β : Type} {p : RingM P L.slotCount β}, p.Reads → Keeping P L strict (.consumer c)
      p (fun m => strict → Loaded c v (fun l m => l ≤ m.2.1.trying c) m)
      fun _ m => strict → Loaded c v (fun l m => l ≤ m.2.1.trying c) m := fun h =>
    .acts (h.of_reads fun _ => .inl rfl) (fun _ _ hv => (validates_idle hv).1) htrying
  have hend : ∀ result, Keeping P L strict (.consumer c)
      (do Prog.record fun _ g => g.endTry c result; return result :
        RingM P L.slotCount (Option (TensorMeta L.slotCount)))
      (fun m => strict → Loaded c v (fun l m => l ≤ m.2.1.trying c) m)
      fun r m => r = none → strict → Expects c v m := by
    intro result
    refine .bind (Ψ := fun _ m => result = none → strict → Expects c v m)
      (.act (fun _ => .imp (fun _ => kept_expects v) kept_true) ?_) fun _ => .ret fun m hm => hm
    intro s g w _ hm x s' hs
    cases hs
    have hmild : Mild (.consumer c) (s, g) (s, g.endTry c result) := { Mild.refl (s, g) with }
    refine ⟨.mild hmild, .inl rfl, fun hanswered hnone hstrict => ?_⟩
    obtain ⟨x, l, hv, hl, hx⟩ := hm hstrict
    refine ⟨x, l, hv, ?_, fun k hk hq => ?_⟩
    · exact (show Kind strict _ _ _ _ from .mild hmild).looked (not_stirs rfl rfl rfl) hl
    · -- the try that has just ended is one of those that have been answered
      have htry := hanswered hstrict c k hk hq
        { start := g.trying c, handed := (g.handed c).length, result := result }
        (by simp [Ghost.endTry]) hnone
      exact hx.trans htry
  refine .bind (Ψ := fun _ m => strict → Loaded c v (fun l m => l ≤ m.2.1.trying c) m)
    (.act (fun _ => htrying) ?_) fun _ => ?_
  · intro s g w _ hm x s' hs
    cases hs
    have hmild : Mild (.consumer c) (s, g) (s, g.beginTry c) :=
      { Mild.refl (s, g) with
        trying := fun c' hc => by
          have : c' ≠ c := fun e => hc (by rw [e])
          simp [Ghost.beginTry, this] }
    refine ⟨.mild hmild, .inl rfl, fun _ hstrict => ?_⟩
    obtain ⟨x, l, hv, hl, hx⟩ := hm hstrict
    refine ⟨x, l, hv, ?_, by simpa [Ghost.beginTry] using hx⟩
    exact (show Kind strict _ _ _ _ from .mild hmild).looked (not_stirs rfl rfl rfl) hl
  refine .bind (hreads (Consumer.scanOldest_reads c self)) fun found => ?_
  cases found with
  | none => exact hend none
  | some first =>
    refine .bind (hreads (Consumer.rescan_reads c self _ _)) fun best => ?_
    refine .bind (.acts (Consumer.readValidated_notes c self cap best.2 best.1)
      (fun _ _ hv => (validates_idle hv).1) htrying) hend

/-! ## the operations of a consumer -/

/-- `next`: the word is loaded first, and the consumer sleeps on it only when it has found nothing.
-/
theorem next_settled (self : Consumer) (timeout : Nat) :
    Settles P L strict (.consumer c) (Consumer.nextRaw L.slotCapacity c self timeout) := by
  refine .bind (settles_mild (mild_inner inner_read)) fun start => ?_
  refine .loop kept_settled.stable (fun _ => kept_settled.stable) ?_
  refine .bind (Ψ := fun v m => strict → Loaded c v (fun l m => l ≤ m.2.1.published.length) m)
    (.act (fun v => .imp (fun _ => kept_loaded kept_length (fun _ _ => validates_idle) v)
      kept_true) ?_) fun observed => ?_
  · intro s g w hi _ x s' hs
    cases hs
    refine ⟨.mild (.refl _), .inl rfl, fun _ _ => ⟨w.signals, _, hi.futex, ?_, le_rfl⟩⟩
    rw [observe_self]
    exact ⟨hi.since c, le_rfl, fun _ i hi hlt => absurd hlt (not_lt.mpr hi)⟩
  refine .bind (tryTake_loaded _ self observed) fun taken => ?_
  cases taken with
  | some m =>
    refine .pre (Φ := Settled (.consumer c)) ?_ fun m _ _ => settled_consumer m
    refine .bind (settles_mild (mild_take c m)) fun _ =>
      .bind (settles_mild (mild_inner inner_entry)) fun _ => ?_
    exact .bind (settles_mild (mild_inner (inner_heartbeat _))) fun _ => .ret fun m hm => hm
  | none =>
    refine .pre (Φ := fun m => strict → Expects c observed m) ?_ fun m _ hm => hm rfl
    refine .bind (.acts (.read fun _ => .inl rfl) (fun _ _ hv => (validates_idle hv).1)
      (kept_expects observed)) fun time => ?_
    split
    · exact .ret fun m _ => settled_consumer m
    · refine .bind (.pre (futexWait_settled _ _) fun m _ hm => ⟨settled_consumer m, ?_⟩) fun _ =>
        .ret fun m hm => hm
      intro hstrict c' hc _
      cases hc
      exact hm hstrict

/-! ## all operations -/

theorem void_settled {p : RingM P L.slotCount α} (h : Settles P L strict a p) :
    Settles P L strict a (void p) :=
  .bind h fun _ => .ret fun _ hm => hm

/-- Whatever is started leaves nothing owed. -/
theorem starts_settled {s : State P L.slotCount} {p : RingM P L.slotCount Unit}
    (h : Starts L s a p) : Settles P L strict a p := by
  cases h with
  | register c h => exact void_settled (settles_mild (mild_consumer c))
  | next c self h timeout => exact void_settled (next_settled self timeout)
  | release c self h m hm => exact void_settled (settles_mild (mild_release c self m))
  | close c self h => exact settles_mild (mild_close c self)
  | publish t h view policy timeout => exact void_settled (publish_settled view policy timeout)
  | reserve t h dtype shape policy timeout =>
    exact void_settled (reserve_settled dtype shape policy timeout)
  | payload t w h off hoff b => exact settles_mild (mild_inner (inner_writeByte _ _ _))
  | setTimestampNs t w h stamp => exact settles_mild (mild_inner inner_slot)
  | commit t w h => exact void_settled (commit_settled w)
  | abort t w h => exact settles_mild (mild_abort t w)
  | sweep k => exact settles_mild (mild_inner (inner_sweep _))

end TenzorBus.Arrival
