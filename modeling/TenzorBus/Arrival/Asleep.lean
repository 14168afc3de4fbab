import TenzorBus.Arrival.Sleep
import TenzorBus.Guarantee.Queue

/-!
# The consumer that sleeps

A blocked consumer loads the word that it sleeps on first and looks for a publication afterwards,
so no commit can be missed.

* `sound` : all operations keep to the rules
* `tallied` : `G_PUBLISH_COUNT` and `G_PUBLISH_FUTEX` count the commits
* `neverPast` : no consumer sleeps past a commit that has been signalled
-/

namespace TenzorBus.Arrival

open Conc

variable {P : Platform} {L : RingLayout} {k : UInt64} {start : P.Os → Prop} {strict : Prop}

/-- A fresh ring under observation. -/
abbrev Begun (P : Platform) (L : RingLayout) (k : UInt64) (start : P.Os → Prop) :
    Config Actor (State P L.slotCount) (Ghost L.slotCount × Notes) → Prop :=
  FreshWatched P L observe Notes.init k start

/-! ## all operations keep to the rules -/

/-- All operations keep to the rules. -/
theorem sound : (rules P L strict).Sound (Begun P L k start) where
  initial := by
    rintro d ⟨c, ⟨os, -, rfl⟩, rfl⟩
    exact ⟨⟨rfl, rfl, rfl, rfl, subset_rfl, fun c => le_rfl, fun _ c v => nofun⟩,
      fun a => ⟨rfl, rfl, fun t _ => ⟨Finset.notMem_empty t, Finset.notMem_empty t⟩⟩⟩
  restStable _ := kept_settled.stable
  starts := by
    rintro a m p ⟨q, ⟨-, hq⟩, rfl⟩ - - hm
    exact ⟨_, kept_settled.stable, hm, starts_settled hq⟩
  guarInv _ _ _ hi _ _ hg := Guar.inv hg hi
  envInv m m' hi _ he := by
    obtain ⟨os, -, rfl⟩ := env_watched he
    refine { hi with asleep := fun hstrict c v hv => ?_ }
    obtain ⟨s, l, hs, ⟨since, le, due⟩, hb⟩ := hi.asleep hstrict c v hv
    exact ⟨s, l, hs, ⟨since, le, due⟩, hb⟩
  guarLive a b m m' hg hl := by
    have hos : m'.1.os = m.1.os := Guar.kind hg |>.os
    show P.alive m.1.os (P.proc a) = true
    rw [← hos]
    exact hl
  envLive a m m' he hl := by
    obtain ⟨os, hos, rfl⟩ := env_watched he
    exact P.alive_of_step _ _ _ hos hl

/-- Whoever is idle has counted and signalled what it has committed. -/
theorem settled_of_idle
    {d : Config Actor (State P L.slotCount) (Ghost L.slotCount × Notes)}
    (h : (watchedRing P L).Reach (rules P L strict).ok (Begun P L k start) d) {a : Actor}
    (hidle : d.pool a = .ret ()) : Settled a d.mem := by
  refine (sound.idle (fun b m m' _ _ _ hs hm => ?_) (fun b m m' hl hg => ?_) h hidle).2
  · rcases hs with ⟨b', hb, -, hg⟩ | he
    · refine ⟨Guar.stays_awake hg hb hm.1, fun t ht => ?_⟩
      subst ht
      exact settled_iff.mpr (Guar.owes hg hb (settled_iff.mp hm.2)) t rfl
    · obtain ⟨os, -, rfl⟩ := env_watched he
      exact hm
  · have hos : m'.1.os = m.1.os := (Guar.kind hg).os
    show P.alive m'.1.os (P.proc b) = true
    rw [hos]
    exact hl

/-! ## the counters -/

/-- The two words count the commits, but for those of the writers in the middle of an operation who
have committed and have still to count it, or to signal it. -/
structure Tallied (c : RingConfig P L) (w : Notes) : Prop where
  count : c.mem.1.ring.publishCount = UInt64.ofNat (c.mem.2.published.length - w.uncounted.card)
  futex : c.mem.1.ring.publishFutex = UInt32.ofNat (c.mem.2.published.length - w.unsignalled.card)
  before : w.uncounted ⊆ w.unsignalled
  le : w.unsignalled.card ≤ c.mem.2.published.length
  busy : ∀ t ∈ w.unsignalled, c.pool (.writer t) ≠ .ret ()

/-- When no writer is in the middle of an operation, both words are the number of commits. -/
theorem Tallied.settled {c : RingConfig P L} {w : Notes} (h : Tallied c w)
    (hidle : ∀ t, c.pool (.writer t) = .ret ()) :
    c.mem.1.ring.publishCount = UInt64.ofNat c.mem.2.published.length ∧
      c.mem.1.ring.publishFutex = UInt32.ofNat c.mem.2.published.length := by
  have hsignalled : w.unsignalled = ∅ :=
    Finset.eq_empty_of_forall_notMem fun t ht => h.busy t ht (hidle t)
  have hcounted : w.uncounted = ∅ := Finset.subset_empty.mp (hsignalled ▸ h.before)
  exact ⟨by simpa [hcounted] using h.count, by simpa [hsignalled] using h.futex⟩

/-- In every run `G_PUBLISH_COUNT` and `G_PUBLISH_FUTEX` count the commits: notes can be taken of
it, and whatever they are, they account for the difference. There is none when no writer is in the
middle of an operation. -/
theorem tallied {c : RingConfig P L}
    (h : (ringSystem P L).Reach (fun _ _ => True) (Fresh P L k start) c) :
    (∃ w, (watchedRing P L).Reach (fun _ _ => True) (Begun P L k start) (c.watched observe w)) ∧
      (∀ w, (watchedRing P L).Reach (fun _ _ => True) (Begun P L k start) (c.watched observe w) →
        Tallied c w) ∧
      ((∀ t, c.pool (.writer t) = .ret ()) →
        c.mem.1.ring.publishCount = UInt64.ofNat c.mem.2.published.length ∧
          c.mem.1.ring.publishFutex = UInt32.ofNat c.mem.2.published.length) := by
  obtain ⟨w₀, hw₀⟩ := h.watched (o := observe) Notes.init
  suffices htally : ∀ w, (watchedRing P L).Reach (fun _ _ => True) (Begun P L k start)
      (c.watched observe w) → Tallied c w from
    ⟨⟨w₀, hw₀⟩, htally, (htally w₀ hw₀).settled⟩
  intro w hw
  have hreach : (watchedRing P L).Reach (rules P L False).ok (Begun P L k start)
      (c.watched observe w) := hw.mono fun _ _ _ hf => hf.elim
  have hi : Inv False (c.watched observe w).mem := sound.inv hreach
  have hcounts : c.mem.2.published.length = w.counts + w.uncounted.card := hi.counts
  have hsignals : c.mem.2.published.length = w.signals + w.unsignalled.card := hi.signals
  refine ⟨?_, ?_, hi.before, by omega, fun t ht hidle => ?_⟩
  · rw [hcounts, Nat.add_sub_cancel]
    exact hi.count
  · rw [hsignals, Nat.add_sub_cancel]
    exact hi.futex
  · refine (settled_of_idle hreach (a := .writer t) ?_ t rfl).1 ht
    show (c.pool (.writer t)).watch observe (.writer t) = .ret ()
    rw [hidle]
    rfl

/-! ## nobody sleeps past a commit -/

/-- A consumer that registered between two reservations and sleeps on the value that
`G_PUBLISH_FUTEX` still has, with fewer than `2 ^ 32` signals since it was last awake, sleeps past
no publication: whoever has committed something for it that is new to it has still to signal. -/
def NeverPast (d : Config Actor (State P L.slotCount) (Ghost L.slotCount × Notes)) : Prop :=
  ∀ c con reg, d.mem.1.isOpen c con → d.mem.2.1.registration c = some reg → reg.quiet →
    d.mem.1.asleep (.consumer c) = some (.publish, d.mem.1.ring.publishFutex) →
      d.mem.2.2.signals < d.mem.2.2.since c + 2 ^ 32 →
        ∀ j, (d.mem.1.ring.slots j).state = .committed →
          con.index ∈ readers (d.mem.1.ring.slots j).readersMask →
            seqNewer (d.mem.1.ring.slots j).sequence con.lastSequence = true →
              ∃ t ∈ d.mem.2.2.unsignalled, d.mem.2.2.position t = d.mem.2.1.position j ∧
                d.pool (.writer t) ≠ .ret ()

/-- `OneAtATime`, of a run under observation. -/
def OneWatched (m m' : Watched P L.slotCount) : Prop :=
  OneAtATime (m.1, m.2.1) (m'.1, m'.2.1)

/-- With one reservation at a time no try comes back with nothing when something was due. -/
theorem reach_answered {d : Config Actor (State P L.slotCount) (Ghost L.slotCount × Notes)}
    (h : (watchedRing P L).Reach OneWatched (Begun P L k P.allAlive) d) :
    (watchedRing P L).Reach (rules P L True).ok (Begun P L k P.allAlive) d := by
  refine h.strengthen fun c d hc hs hok _ cn reg hreg hq => ?_
  obtain ⟨d', w, rfl, hd⟩ := (hc.step hs hok).unwatched fun _ _ h => h
  exact (delivered_in_turn hd hreg hq).answered

/-- In every run of live processes with at most one unfinished reservation at a time, no consumer
sleeps past a commit that has been signalled. -/
theorem neverPast {d : Config Actor (State P L.slotCount) (Ghost L.slotCount × Notes)}
    (h : (watchedRing P L).Reach OneWatched (Begun P L k P.allAlive) d) : NeverPast d := by
  have hanswered := reach_answered h
  have hi : Inv True d.mem := sound.inv hanswered
  obtain ⟨d', w, rfl, hd⟩ := h.unwatched fun _ _ h => h
  intro c con reg hopen hreg hq hasleep hfew j hstate hbit hnew
  -- the word has not changed since the consumer loaded it
  obtain ⟨s, l, hword, hlooked, hbehind⟩ := hi.asleep trivial c _ hasleep
  have hsame : w.signals = s := by
    have hmod := congrArg UInt32.toNat (hi.futex.symm.trans hword)
    have hle : w.since c ≤ s ∧ s ≤ w.signals := ⟨hlooked.since, hlooked.le⟩
    have hfew : w.signals < w.since c + 2 ^ 32 := hfew
    simp only [UInt32.toNat_ofNat'] at hmod
    change w.signals % 2 ^ 32 = s % 2 ^ 32 at hmod
    omega
  -- what is new to it is at a position that it has not been handed
  have hmode := (queueMode_lawful P L k).inv (hd.mono fun _ _ hok => hok.ok)
  obtain ⟨-, hfifo, hnear, -⟩ := hmode.mode
  obtain ⟨r, hr, hindex, hcl⟩ := hmode.coupled.consumer c con hopen.1
  obtain rfl := Option.some.inj (hreg.symm.trans hr)
  have hclient : (view d'.mem).proto.client c reg := ⟨hr, hcl ▸ hopen.2⟩
  have hlast : con.lastSequence = seqWord reg.last :=
    hmode.coupled.last id c con reg hopen.1 hclient.1
  have hseq : (d'.mem.1.ring.slots j).sequence = seqWord (d'.mem.2.num j) :=
    hmode.coupled.sequence j
  have hseen : reg.start + (d'.mem.2.handed c).length ≤ d'.mem.2.position j := by
    refine (hfifo.seqNewer_iff (L.slotCount_lt.trans (by decide)) hnear hmode.proto
      ⟨hclient, fun _ => hq⟩ hstate (hindex ▸ hbit)).mp ?_
    rw [← hlast]
    exact hseq ▸ hnew
  obtain ⟨mask, hcontent, -⟩ := hmode.proto.content j hstate
  obtain ⟨hlt, -⟩ := List.getElem?_eq_some_iff.mp hcontent
  obtain ⟨t, ht, hpos⟩ := hlooked.due hsame _ ((hbehind reg hreg hq).trans hseen) hlt
  exact ⟨t, ht, hpos, fun hidle => (settled_of_idle hanswered hidle t rfl).1 ht⟩

/-! ## runs -/

open Script

/-- `next` with a timeout that does not pass. -/
def nextBlock (c : Nat) : System.Move (ringSystem P L) :=
  call (.consumer c)
    (fun s => (usable s c).map fun h => void (Consumer.nextRaw L.slotCapacity c h 1))
    fun s q hq => by
      obtain ⟨h, hu, rfl⟩ := Option.map_eq_some_iff.mp hq
      exact .next c h (isOpen_of_usable hu) 1

/-- What the check promises of a run under observation. -/
theorem reach_oneWatched {d : Config Actor (State .single L.slotCount) (Ghost L.slotCount × Notes)}
    (h : (watchedRing .single L).Reach
      (fun m m' => oneAtATime (m.1, m.2.1) (m'.1, m'.2.1) = true)
      (Begun .single L 0 Platform.single.allAlive) d) :
    (watchedRing .single L).Reach OneWatched (Begun .single L 0 Platform.single.allAlive) d := by
  refine h.strengthen fun c d hc hs hok => ?_
  obtain ⟨c', w, rfl, hc'⟩ : ∃ c' w, c = c'.watched observe w ∧ (ringSystem .single L).Reach
      (fun m m' => oneAtATime m m' = true) (Fresh .single L 0 Platform.single.allAlive) c' :=
    hc.unwatched fun _ _ h => h
  obtain ⟨d', w', rfl, hs'⟩ := hs.unwatched
  obtain ⟨hreach, hq⟩ := reach_oneAtATime hc'
  exact (oneAtATime_step hc' hreach hs' hok hq).1

/-- Consumer 0 sleeps, and a publication that is new to it is in slot `j`. -/
def asleepPast {n : Nat} (j : Fin n) (d : Config Actor (State .single n) (Ghost n × Notes)) :
    Bool :=
  d.mem.1.asleep (.consumer 0) == some (.publish, d.mem.1.ring.publishFutex) &&
    decide (d.mem.2.2.signals < d.mem.2.2.since 0 + 2 ^ 32) &&
      decide ((d.mem.1.ring.slots j).state = .committed) &&
        (d.mem.1.consumer 0).any fun con => !con.closed &&
          con.index ∈ readers (d.mem.1.ring.slots j).readersMask &&
            seqNewer (d.mem.1.ring.slots j).sequence con.lastSequence

/-- A publication is committed while the consumer sleeps, and has yet to be signalled. -/
theorem neverPast_due : ∃ d,
    (watchedRing .single RingLayout.two).Reach OneWatched
        (Begun .single .two 0 Platform.single.allAlive) d ∧
      asleepPast 0 d = true ∧ NeverPast d := by
  obtain ⟨d, hd, ht⟩ := Script.reachWatched .two observe Notes.init Platform.single.allAlive
    (fun _ => rfl) (fun m m' => oneAtATime (m.1, m.2.1) (m'.1, m'.2.1) = true)
    (fun m m' => oneAtATime (m.1, m.2.1) (m'.1, m'.2.1)) (fun _ _ _ h => h)
    (whole (.consumer 0) (register 0) ++ [nextBlock 0, .steps (.consumer 0) 10] ++
      [Script.publish 0 (.byte 5), .steps (.writer 0) 173])
    (asleepPast 0) (by decide +kernel)
  exact ⟨d, reach_oneWatched hd, ht, neverPast (reach_oneWatched hd)⟩

/-- The first publication is committed and counted, and has yet to be signalled. -/
theorem tallied_unsignalled : ∃ (c : RingConfig .single .two) (w : Notes),
    (watchedRing .single .two).Reach (fun _ _ => True) (Begun .single .two 0 fun _ => True)
        (c.watched observe w) ∧
      c.mem.1.ring.publishCount = 1 ∧ c.mem.1.ring.publishFutex = 0 ∧ w.uncounted = ∅ ∧
        w.unsignalled = {0} ∧ Tallied c w := by
  obtain ⟨d, hd, ht⟩ := Script.reachWatched .two observe Notes.init (fun _ => True) trivial
    (fun _ _ => True) (fun _ _ => true) (fun _ _ _ _ => trivial)
    [Script.publish 0 (.byte 5), .steps (.writer 0) 172]
    (fun d => d.mem.1.ring.publishCount == 1 && d.mem.1.ring.publishFutex == 0 &&
      decide (d.mem.2.2.uncounted = ∅) && decide (d.mem.2.2.unsignalled = {0}))
    (by decide +kernel)
  obtain ⟨c, w, rfl, hc⟩ : ∃ c w, d = c.watched observe w ∧
      (ringSystem .single .two).Reach (fun _ _ => True) (Fresh .single .two 0 fun _ => True) c :=
    hd.unwatched fun _ _ _ => trivial
  simp only [Bool.and_eq_true, beq_iff_eq, decide_eq_true_eq] at ht
  exact ⟨c, w, hd, ht.1.1.1, ht.1.1.2, ht.1.2, ht.2, (tallied hc).2.1 w hd⟩

end TenzorBus.Arrival
