import TenzorBus.Guarantee.Oracle
import TenzorBus.Guarantee.Ownership

/-!
# Deliveries happen once

What a consumer has been handed has ascending numbers, each newer than the one before, and every
lease can be released.

* `Proto.Ordered` : what a consumer has been handed is in order
* `OnceEach` : the guarantee for one consumer
* `delivered_once` : it holds in every run inside the window that frees no slot which has been
  committed
* `freed_under_lease` : a sweep frees a slot that its dead writer has committed
-/

namespace TenzorBus

open Conc Refine

variable {P : Platform} {L : RingLayout} {n : Nat} {token : Nat → UInt32} {k : UInt64}
  {start : P.Os → Prop}

/-- One number after the other, and newer than the other as far as the words tell. -/
def Follows (v v' : Int) : Prop := v < v' ∧ seqNewer (seqWord v') (seqWord v) = true

/-- What the consumers have been handed has numbers that follow one another, up to the one that the
consumer has seen last. -/
structure Proto.Ordered (p : Proto n) : Prop where
  fresh : ∀ c, p.hist.registration c = none → p.hist.taken c = []
  chain : ∀ c, (p.hist.taken c).IsChain Follows
  last : ∀ c k, p.hist.registration c = some k → ∀ v ∈ (p.hist.taken c).getLast?, v = k.last
  sequences : ∀ c, (p.hist.handed c).map (·.sequence) = (p.hist.taken c).map seqWord

namespace Proto.Ordered

variable {G : Guards n} {cap : Nat} {a : Actor} {p p' : Proto n}

theorem take (h : p.Ordered) {c : Nat} {k : Registration} {m : TensorMeta n}
    (hk : p.hist.registration c = some k) (hm : m.sequence = seqWord (p.hist.num m.slotIndex))
    (hnew : Follows k.last (p.hist.num m.slotIndex)) {leases : Nat → List (TensorMeta n)} :
    Proto.Ordered { p with leases := leases, hist := p.hist.hand c m } where
  fresh c' hc' := by
    have hne : c' ≠ c := by
      rintro rfl
      simp [Ghost.hand, hk] at hc'
    simp only [Ghost.hand, Function.update_of_ne hne] at hc' ⊢
    exact h.fresh c' hc'
  chain c' := by
    by_cases hc : c' = c
    · subst hc
      simp only [Ghost.hand, Function.update_self]
      refine List.isChain_append.mpr ⟨h.chain c', List.isChain_singleton _, ?_⟩
      intro v hv v' hv'
      rw [List.head?_cons, Option.mem_some_iff] at hv'
      subst hv'
      rw [h.last c' k hk v hv]
      exact hnew
    · simpa [Ghost.hand, hc] using h.chain c'
  last c' k' hk' v hv := by
    by_cases hc : c' = c
    · subst hc
      simp only [Ghost.hand, Function.update_self, hk, Option.map_some, Option.some.injEq] at hk' hv
      rw [List.getLast?_append, List.getLast?_singleton, Option.some_or, Option.mem_some_iff] at hv
      rw [← hk', ← hv]
    · simp only [Ghost.hand, Function.update_of_ne hc] at hk' hv
      exact h.last c' k' hk' v hv
  sequences c' := by
    by_cases hc : c' = c
    · subst hc
      simp [Ghost.hand, h.sequences, hm]
    · simpa [Ghost.hand, hc] using h.sequences c'

theorem register (h : p.Ordered) {c : Nat} {i : Fin 64} (fresh : p.hist.registration c = none) :
    Proto.Ordered { p with hist := p.hist.register c i } where
  fresh c' hc' := by
    have hne : c' ≠ c := by
      rintro rfl
      simp [Ghost.register] at hc'
    simp only [Ghost.register, Function.update_of_ne hne] at hc'
    exact h.fresh c' hc'
  chain := h.chain
  last c' k hk v hv := by
    by_cases hc : c' = c
    · subst hc
      have hnone : v ∈ (p.hist.taken c').getLast? := hv
      rw [h.fresh c' fresh] at hnone
      cases hnone
    · simp only [Ghost.register, Function.update_of_ne hc] at hk
      exact h.last c' k hk v hv
  sequences := h.sequences

theorem closing (h : p.Ordered) {c : Nat} :
    Proto.Ordered { p with hist := p.hist.closing c } where
  fresh c' hc' := by
    by_cases hc : c' = c
    · subst hc
      refine h.fresh c' ?_
      simpa [Ghost.closing] using hc'
    · simp only [Ghost.closing, Function.update_of_ne hc] at hc'
      exact h.fresh c' hc'
  chain := h.chain
  last c' k hk v hv := by
    by_cases hc : c' = c
    · subst hc
      simp only [Ghost.closing, Function.update_self, Option.map_eq_some_iff] at hk
      obtain ⟨k₀, hk₀, rfl⟩ := hk
      exact h.last c' k₀ hk₀ v hv
    · simp only [Ghost.closing, Function.update_of_ne hc] at hk
      exact h.last c' k hk v hv
  sequences := h.sequences

theorem step (h : p.Ordered) (hG : ¬G.careless) (hw : Windowed p) (hs : Step G cap a p p') :
    p'.Ordered := by
  cases hs with
  | take c _ k m client grants =>
    obtain ⟨⟨good, reader⟩, newer, -⟩ := grants hG
    refine h.take client.1 good.sequence ?_
    rw [good.sequence] at newer
    exact ⟨lt_of_seqNewer newer (hw c k _ client good.committed reader), newer⟩
  | register c _ i locked free fresh => exact h.register fresh
  | closing c _ => exact h.closing
  | _ => exact ⟨h.fresh, h.chain, h.last, h.sequences⟩

end Proto.Ordered

/-! ## the guarantee -/

/-- What consumer `c` has been handed has ascending numbers, each sequence newer than the one
before and none of them twice, and no release of a lease has failed. -/
structure OnceEach (g : Ghost n) (c : Nat) : Prop where
  sequences : (g.handed c).map (·.sequence) = (g.taken c).map seqWord
  ascending : (g.taken c).Pairwise (· < ·)
  newer : ((g.handed c).map (·.sequence)).IsChain fun q q' => seqNewer q' q = true
  once : (g.taken c).Pairwise fun v v' => v' - v < 2 ^ 64 → seqWord v ≠ seqWord v'
  unviolated : c ∉ g.violations

theorem Proto.Ordered.onceEach {p : Proto n} (h : p.Ordered) {c : Nat}
    (hv : c ∉ p.hist.violations) : OnceEach p.hist c := by
  have hasc : (p.hist.taken c).Pairwise (· < ·) :=
    List.isChain_iff_pairwise.mp ((h.chain c).imp fun _ _ hf => hf.1)
  exact {
    sequences := h.sequences c
    ascending := hasc
    newer := by
      rw [h.sequences, List.isChain_map]
      exact (h.chain c).imp fun _ _ hf => hf.2
    once := hasc.imp fun hlt hfar he => by
      have := seqWord_inj he (by omega) hfar
      omega
    unviolated := hv }

/-- Where no lease may be found violated none is. -/
theorem Step.violations {G : Guards n} {cap : Nat} {a : Actor} {p p' : Proto n}
    (hs : Step G cap a p p') (hG : ∀ k, ¬G.loose k) : p'.hist.violations = p.hist.violations := by
  cases hs with
  | dropLease c _ k m client held loose => exact absurd loose (hG k)
  | _ => rfl

/-- The use of the ring in which consumers may die, and none runs too far ahead. -/
def onceMode (P : Platform) (n : Nat) : Mode P n where
  guards := { Guards.lax n False with loose := fun _ => False }
  inv v := Leasing False v.proto ∧ Windowed v.proto ∧ v.proto.Ordered ∧ v.proto.hist.violations = []
  ok _ v' := Windowed v'.proto

theorem onceMode_lawful (P : Platform) (L : RingLayout) (k : UInt64) (start : P.Os → Prop) :
    (onceMode P L.slotCount).Lawful (L := L) k start where
  initial _ _ := {
    left := {
      held := fun _ _ h => nomatch h.1.1
      once := fun _ _ h => nomatch h.1.1
      fresh := fun _ _ => rfl }
    right := by
      refine ⟨fun _ _ _ h => absurd h.1 nofun, ?_, rfl⟩
      exact {
        fresh := fun _ _ => rfl
        chain := fun _ => .nil
        last := fun _ _ h => nomatch h
        sequences := fun _ => rfl } }
  delivers := delivers_plain id (fun _ _ _ => trivial) (fun _ _ _ => trivial)
    fun _ c k m hi hl hk hm hne =>
      have hh := hi.mode.1.held c k ⟨hk, nofun⟩ hl m hm
      hne ⟨hh.good.sequence.symm, hh.reader⟩
  step _ _ _ hi hg _ hok _ := by
    obtain ⟨hleases, hw, hordered, hviol⟩ := hi.mode
    exact ⟨hleases.step hi.proto id hg.step hg.live (ascends_of_windowed id hw hg.step), hok,
      hordered.step id hw hg.step, (hg.step.violations fun _ => id).trans hviol⟩
  env v v' hi hp hok := by
    obtain ⟨hleases, hw, hordered, hviol⟩ := hi.mode
    refine ⟨hleases.fades hp.fades, hok, ?_, ?_⟩
    · rw [hp.fades.eq]
      exact ⟨hordered.fresh, hordered.chain, hordered.last, hordered.sequences⟩
    · rw [hp.fades.eq]
      exact hviol

/-- No sweep finds a slot abandoned that has been committed meanwhile, and no consumer runs too far
ahead. -/
def TimelyAndWindowed (m m' : State P n × Ghost n) : Prop :=
  Timely m m' ∧ Windowed (view m').proto

/-- With an exact liveness check, in a run in which it is not asked about slots that have been
committed since the sweep looked at them, unless it says alive, and in which no open consumer gets
more than `2 ^ 63` sequence numbers ahead of a publication on which its reader bit is still set,
every consumer is handed every publication at most once and in order, and its releases succeed. -/
theorem delivered_once (hP : P.Exact token) {c : RingConfig P L}
    (h : (ringSystem P L).Reach TimelyAndWindowed (Fresh P L k start) c) (cn : Nat) :
    OnceEach c.mem.2 cn := by
  have hM := onceMode_lawful P L k start
  have hi := hM.inv (hM.reach_exact hP (fun _ _ hok => hok) h)
  obtain ⟨-, -, hordered, hviol⟩ := hi.mode
  refine hordered.onceEach ?_
  rw [hviol]
  exact List.not_mem_nil

/-- A short run is inside the window. -/
theorem reach_timelyAndWindowed (hP : P.Exact token) {c : RingConfig P L}
    (h : (ringSystem P L).Reach (fun m m' => Timely m m' ∧ Short m') (Fresh P L 0 start) c) :
    (ringSystem P L).Reach TimelyAndWindowed (Fresh P L 0 start) c :=
  reach_of_short False Timely
    (fun _ hd => (shortMode_lawful P L False start).reach_exact hP (fun _ _ hok => hok) hd) h

open Script in
/-- One of two consumers dies with a lease, and one of two writers with a reservation. The other
consumer takes two publications. -/
theorem delivered_once_reaped :
    ∃ c : RingConfig .each .two,
      (ringSystem _ _).Reach TimelyAndWindowed (Fresh _ _ 0 (· = Platform.eachOf [0, 1, 3, 4])) c ∧
        c.mem.2.taken 0 = [0, 2] ∧ OnceEach c.mem.2 0 := by
  obtain ⟨c, hc, ht⟩ := Script.reachFrom .two 0 (Platform.eachOf [0, 1, 3, 4])
    (fun m m' => Timely m m' ∧ Short m')
    (fun m m' => asksInTime m m' && decide (Short m'))
    (fun m m' h => by
      simp only [Bool.and_eq_true, decide_eq_true_eq] at h
      exact ⟨timely_of_asksInTime h.1, h.2⟩)
    (whole (.consumer 0) (register 0) ++ whole (.consumer 1) (register 1) ++
      whole (.writer 0) (publish 0 (.byte 5)) ++ whole (.consumer 1) (next 1) ++
      whole (.writer 1) (reserve 1 .u8 [1]) ++ [kill 3, kill 4] ++
      whole (.consumer 0) (next 0) ++ whole (.consumer 0) (release 0) ++
      whole (.writer 0) (publish 0 (.byte 6)) ++ whole (.consumer 0) (next 0))
    (fun d => decide (d.mem.2.taken 0 = [0, 2])) (by decide +kernel)
  have hw := reach_timelyAndWindowed (Platform.table_exact _ _) hc
  exact ⟨c, hw, by simpa using ht, delivered_once (Platform.table_exact _ _) hw 0⟩

/-! ## a slot that is freed under a lease -/

open Script in
/-- The check is exact, and the run inside the window. A consumer takes the publication of a writer
that has died, the sweep frees its slot, and the release of the open consumer is refused. -/
theorem freed_under_lease :
    Platform.each.Exact ProcessTable.hundred.token ∧ ∃ c : RingConfig .each .two,
      (ringSystem _ _).Reach (fun _ m' => Windowed (view m').proto)
        (Fresh _ _ 0 (· = Platform.eachOf [0, 1, 2])) c ∧
          c.mem.1.aliveActor (.consumer 0) ∧
          (∃ h, c.mem.1.isOpen 0 h) ∧ 0 ∈ c.mem.2.violations ∧ ¬OnceEach c.mem.2 0 := by
  refine ⟨Platform.table_exact _ _, ?_⟩
  obtain ⟨c, hc, ht⟩ := Script.reachFrom .two 0 (Platform.eachOf [0, 1, 2])
    (fun _ m' => True ∧ Short m') (fun _ m' => decide (Short m'))
    (fun m m' h => ⟨trivial, of_decide_eq_true h⟩)
    (committedMeanwhile ++ whole (.consumer 0) (next 0) ++ [.steps (.sweeper 0) 4000] ++
      whole (.consumer 0) (release 0))
    (fun d => decide (0 ∈ d.mem.2.violations) && alive (.consumer 0) d.mem.1 &&
      (usable d.mem.1 0).isSome)
    (by decide +kernel)
  simp only [Bool.and_eq_true, decide_eq_true_eq, Option.isSome_iff_exists] at ht
  obtain ⟨⟨hviol, hlive⟩, h, hopen⟩ := ht
  have hw := reach_of_short True (fun _ _ => True) (fun d hd =>
    (shortMode_lawful .each .two True _).reach_exact_careless (Platform.table_exact _ _) trivial
      (fun _ _ _ hok _ => hok.2) hd) hc
  refine ⟨c, hw.mono fun _ _ hok => hok.2, hlive, ⟨h, isOpen_of_usable hopen⟩, hviol, ?_⟩
  exact fun hn => hn.unviolated hviol

end TenzorBus
