import TenzorBus.Guarantee.Run
import TenzorBus.Protocol.Numbers
import TenzorBus.Ring.Script

/-!
# Sequence numbers

As long as nobody dies, no two publications and no two unfinished reservations share a sequence
number. If every abort returns the last number that was assigned, the publications have all the
numbers that the counter has gone past.

* `Carries` : an unfinished reservation has a sequence number
* `Unshared` : no number is in two places
* `Contiguous` : the numbers of the publications have no gap
* `sequences_unshared`, `sequences_contiguous` : in which runs they hold
-/

namespace TenzorBus

open Conc Refine

variable {P : Platform} {L : RingLayout} {n : Nat} {k : UInt64}

/-- Writer `t` has an unfinished reservation whose slot carries the sequence `q`. -/
def Carries (m : State P n × Ghost n) (t : Nat) (q : UInt64) : Prop :=
  ∃ r, m.2.reservation t = some r ∧ r.phase ≠ .header ∧ (m.1.ring.slots r.slot).sequence = q

/-- The sequences of the publications, in the order of the commits. -/
def Ghost.sequences (g : Ghost n) : List UInt64 := g.published.map (·.sequence)

/-- No sequence number is that of two reservations or publications. -/
structure Unshared (m : State P n × Ghost n) : Prop where
  reserved : ∀ t t' q, Carries m t q → Carries m t' q → t = t'
  committed : m.2.sequences.Nodup
  fresh : ∀ t q, Carries m t q → q ∉ m.2.sequences

/-- The publications have the numbers from `k` up to the counter, each of them once. -/
structure Contiguous (k : UInt64) (m : State P n × Ghost n) : Prop where
  numbers : m.2.sequences.Perm
    ((List.range m.2.sequences.length).map fun i => k + UInt64.ofNat i)
  next : m.1.ring.nextSeq = k + UInt64.ofNat m.2.sequences.length

/-- An abort that ends has the last number that was assigned. -/
def ReturnsLast (m m' : State P n × Ghost n) : Prop :=
  ∀ t r, m.2.reservation t = some r → r.phase = .returning → m'.2.reservation t = none →
    m.1.ring.nextSeq = (m.1.ring.slots r.slot).sequence + 1

/-! ## the ledger in every run -/

/-- The use of the ring in which nobody dies and, if `strict`, no number is lost. -/
def numberMode (P : Platform) (n : Nat) (k : UInt64) (strict : Prop) : Mode P n where
  guards := .lax n False
  inv v := ∃ held lost, Numbered k v.proto held lost ∧ (strict → lost = 0)
  ok v v' := (∀ a, v'.proto.alive a) ∧ (strict → ¬Loses v.proto v'.proto)

theorem numbered_init {p : Proto n} (ha : ∀ a, p.alive a) (hp : p.hist = Ghost.init n k) :
    Numbered k p ∅ 0 := by
  have hr : ∀ t, p.hist.reservation t = none := by
    intro t
    rw [hp]
    rfl
  exact {
    alive := ha
    mem := fun t => by simp [hr]
    next := by rw [hp]; exact le_rfl
    balanced := by
      rw [hp]
      simp only [Ghost.init, sub_self, Int.toNat_zero]
      exact Ledger.balanced_empty
    current := fun t r h => by rw [hr] at h; cases h
    begun := by rw [hp]; simp [Ghost.init]
    beginning := fun t r h => by rw [hr] at h; cases h }

theorem numberMode_lawful (P : Platform) (L : RingLayout) (k : UInt64) (strict : Prop) :
    (numberMode P L.slotCount k strict).Lawful (L := L) k P.allAlive where
  initial _ h := ⟨∅, 0, numbered_init (fun a => h (P.proc a)) rfl, fun _ => rfl⟩
  delivers := delivers_lax rfl
  step _ _ _ hi hg _ hok _ := by
    obtain ⟨held, lost, hn, hs⟩ := hi.mode
    obtain ⟨held', lost', hn', hl⟩ := hn.step hi.proto id hg.step
    refine ⟨held', lost', hn', fun h => ?_⟩
    rcases hl with rfl | hl
    · exact hs h
    · exact absurd hl (hok.2 h)
  env _ _ hi hp hok := by
    obtain ⟨held, lost, hn, hs⟩ := hi.mode
    have he := hp.fades.eq
    exact ⟨held, lost, hn.same hok.1 (by rw [he]) (by rw [he]) (by rw [he]) (by rw [he])
      (by rw [he]), hs⟩

/-! ## no number is shared -/

theorem seqWord_ne_of_lt {k : UInt64} {i j : Nat} (h : i < j) (hj : j < 2 ^ 64) :
    seqWord (k.toNat + i) ≠ seqWord (k.toNat + j) := by
  intro he
  have := seqWord_inj he (by omega) (by omega)
  omega

/-- In a ledger of fewer than `2 ^ 64` numbers no number is shared. -/
theorem Numbered.unshared {m : State P n × Ghost n} {G : Guards n} {cap : Nat} {held : Finset Nat}
    {lost : Multiset UInt64} (h : Numbered k (view m).proto held lost) (hc : Coupled G (view m))
    (hi : Inv cap (view m).proto) (hb : m.2.begun < 2 ^ 64) : Unshared m := by
  have hbegun : m.2.next - k.toNat ≤ m.2.begun := h.begun
  have hnext : (k.toNat : Int) ≤ m.2.next := h.next
  have hinj : ∀ i < (m.2.next - k.toNat).toNat, ∀ j < (m.2.next - k.toNat).toNat,
      seqWord (k.toNat + i) = seqWord (k.toNat + j) → i = j := by
    intro i hi' j hj he
    rcases Nat.lt_trichotomy i j with hlt | rfl | hlt
    · exact absurd he (seqWord_ne_of_lt hlt (by omega))
    · rfl
    · exact absurd he.symm (seqWord_ne_of_lt hlt (by omega))
  have hbal : (m.2.ledger (m.2.next - k.toNat).toNat held lost).Balanced
    fun i => seqWord (k.toNat + i) := h.balanced
  obtain ⟨hcommitted, hheld, hdisj⟩ := Multiset.nodup_add.mp (hbal.nodup hinj)
  have hfresh := hbal.fresh fun i hlt => seqWord_ne_of_lt (k := k) hlt (by omega)
  rw [Int.toNat_of_nonneg (by omega), add_sub_cancel] at hfresh
  -- a number is out, or about to be counted
  have hcase : ∀ t q, Carries m t q → (t ∈ held ∧ m.2.word t = q) ∨
      m.1.lock = some (.writer t) ∧ q = seqWord m.2.next := by
    rintro t q ⟨r, hr, hp, rfl⟩
    have hq : (m.1.ring.slots r.slot).sequence = seqWord (m.2.num r.slot) := hc.sequence r.slot
    by_cases hpast : r.phase.past = true
    · exact .inl ⟨(h.mem t).mpr ⟨r, hr, hpast⟩, (Ghost.word_eq hr).trans hq.symm⟩
    · have hcur : r.phase = .numbered ∨ r.phase = .masked := by
        revert hp hpast
        cases r.phase <;> simp [Phase.past]
      refine .inr ⟨hi.locked t r hr (fun e => hpast (by rw [e]; rfl)) (h.alive _), ?_⟩
      rw [hq]
      exact congrArg seqWord (h.current t r hr hcur)
  have hout : ∀ t ∈ held, m.2.word t ∈ (held.val.map m.2.word) := fun t ht =>
    Multiset.mem_map_of_mem _ ht
  exact {
    reserved := fun t t' q hq hq' => by
      rcases hcase t q hq with ⟨ht, rfl⟩ | ⟨hl, rfl⟩ <;>
        rcases hcase t' _ hq' with ⟨ht', he⟩ | ⟨hl', he⟩
      · exact (Multiset.inj_on_of_nodup_map hheld t ht t' ht' he.symm)
      · exact absurd (Multiset.mem_add.mpr (.inr (he ▸ hout t ht))) hfresh
      · exact absurd (Multiset.mem_add.mpr (.inr (he ▸ hout t' ht'))) hfresh
      · exact Actor.writer.inj (Option.some.inj (hl.symm.trans hl'))
    committed := Multiset.coe_nodup.mp hcommitted
    fresh := fun t q hq hm => by
      rcases hcase t q hq with ⟨ht, rfl⟩ | ⟨-, rfl⟩
      · exact Multiset.disjoint_left.mp hdisj (Multiset.mem_coe.mpr hm) (hout t ht)
      · exact hfresh (Multiset.mem_add.mpr (.inl (Multiset.mem_coe.mpr hm))) }

/-- In a run without deaths, as long as fewer than `2 ^ 64` reservations have been made, no two
unfinished reservations carry the same sequence, no sequence is committed twice, and none that is
committed is carried by an unfinished reservation. -/
theorem sequences_unshared {c : RingConfig P L}
    (h : (ringSystem P L).Reach Calm (Fresh P L k P.allAlive) c) (hb : c.mem.2.begun < 2 ^ 64) :
    Unshared c.mem := by
  have hi := (numberMode_lawful P L k False).inv (h.mono fun _ _ hc =>
    ⟨Honest.believes hc.honest, fun a => hc.alive (P.proc a), False.elim⟩)
  obtain ⟨held, lost, hn, -⟩ := hi.mode
  exact hn.unshared hi.coupled hi.proto hb

open Script in
/-- Two reservations, of which the first one is aborted. -/
theorem sequences_unshared_abort :
    ∃ c : RingConfig .single (.small 2 (by decide) (by decide)),
      (ringSystem _ _).Reach Calm (Fresh _ _ 0 Platform.single.allAlive) c ∧
        c.mem.2.begun = 2 ∧ Unshared c.mem := by
  obtain ⟨c, hc, ht⟩ := Script.reach (.small 2 (by decide) (by decide)) 0
    Platform.single.allAlive (fun _ => rfl) (fun _ _ => True) (fun _ _ => true)
    (fun _ _ _ => trivial)
    (whole (.writer 0) (reserve 0 .u8 [1]) ++ whole (.writer 1) (reserve 1 .u8 [1]) ++
      whole (.writer 0) (abort 0))
    (fun d => d.mem.2.begun == 2) (by decide +kernel)
  have hb : c.mem.2.begun = 2 := by simpa using ht
  exact ⟨c, reach_calm hc, hb, sequences_unshared (reach_calm hc) (by omega)⟩

/-! ## no number is missing -/

/-- Where no number is lost and no reservation is unfinished, the numbers are contiguous. -/
theorem Numbered.contiguous {m : State P n × Ghost n} {G : Guards n} {held : Finset Nat}
    (h : Numbered k (view m).proto held 0) (hc : Coupled G (view m))
    (hr : ∀ t, m.2.reservation t = none) : Contiguous k m := by
  have hnext : (k.toNat : Int) ≤ m.2.next := h.next
  have hheld : held = ∅ := by
    refine Finset.eq_empty_of_forall_notMem fun t ht => ?_
    obtain ⟨r, hrt, -⟩ := (h.mem t).mp ht
    exact absurd ((hr t).symm.trans hrt) nofun
  have hword : ∀ i : Nat, seqWord (k.toNat + i) = k + UInt64.ofNat i := by
    intro i
    induction i with
    | zero => simp [seqWord_toNat]
    | succ i ih =>
      rw [Nat.cast_succ, ← add_assoc, ← seqWord_add_one, ih, UInt64.add_assoc]
      congr 1
      exact (UInt64.ofNat_add i 1).symm
  have hbal := h.balanced
  rw [hheld] at hbal
  have hspent : (m.2.sequences : Multiset UInt64) =
      ((List.range (m.2.next - k.toNat).toNat).map fun i => k + UInt64.ofNat i : List UInt64) := by
    refine (Ledger.Balanced.spent_eq hbal).trans ?_
    simp only [hword]
    rfl
  have hperm := Multiset.coe_eq_coe.mp hspent
  have hlen : m.2.sequences.length = (m.2.next - k.toNat).toNat := by
    rw [hperm.length_eq]
    simp
  refine ⟨hlen ▸ hperm, ?_⟩
  rw [hlen, ← hword, Int.toNat_of_nonneg (by omega), add_sub_cancel]
  exact hc.nextSeq

theorem not_loses {m m' : State P n × Ghost n} {G : Guards n} (hc : Coupled G (view m))
    (h : ReturnsLast m m') : ¬Loses (view m).proto (view m').proto := by
  rintro ⟨t, r, hr, hp, hr', hne⟩
  have hlast := h t r hr hp hr'
  have hq : (m.1.ring.slots r.slot).sequence = seqWord (m.2.num r.slot) := hc.sequence r.slot
  have hn : m.1.ring.nextSeq = seqWord m.2.next := hc.nextSeq
  rw [hq, hn, seqWord_add_one] at hlast
  exact hne hlast

/-- In a run without deaths in which every abort returns the last number that was assigned, the
publications have no gap, whenever no reservation is unfinished. -/
theorem sequences_contiguous {c : RingConfig P L}
    (h : (ringSystem P L).Reach (fun m m' => Calm m m' ∧ ReturnsLast m m')
      (Fresh P L k P.allAlive) c) (hr : ∀ t, c.mem.2.reservation t = none) :
    Contiguous k c.mem := by
  have hM := numberMode_lawful P L k True
  have hreach := hM.sound.reach (fun m m' hi hok _ =>
    ⟨Honest.believes hok.1.honest, fun a => hok.1.alive (P.proc a),
      fun _ => not_loses hi.coupled hok.2⟩) h
  have hi := hM.inv hreach
  obtain ⟨held, lost, hn, hl⟩ := hi.mode
  rw [hl trivial] at hn
  exact hn.contiguous hi.coupled hr

/-- Where the lock is free and no slot is being written no reservation is unfinished. -/
theorem Inv.finished {cap : Nat} {p : Proto n} (h : Inv cap p) (ha : ∀ a, p.alive a)
    (hl : p.lock = none) (hs : ∀ j, p.state j ≠ .writing) (t : Nat) :
    p.hist.reservation t = none := by
  by_contra hne
  obtain ⟨r, hr⟩ := Option.ne_none_iff_exists'.mp hne
  by_cases hp : r.phase = .returning
  · have := h.locked t r hr (by rw [hp]; nofun) (ha _)
    rw [hl] at this
    cases this
  · exact hs r.slot (h.writing t r hr hp)

/-- `ReturnsLast`, asked of the writer that holds the lock. -/
def returnsLast (m m' : State P n × Ghost n) : Bool :=
  match m.1.lock with
  | some (.writer t) => (m.2.reservation t).all fun r =>
      r.phase != .returning || (m'.2.reservation t).isSome ||
        m.1.ring.nextSeq == (m.1.ring.slots r.slot).sequence + 1
  | _ => true

theorem returnsLast_sound {m m' : State P n × Ghost n} {cap : Nat} (hi : Inv cap (view m).proto)
    (ha : ∀ a, (view m).proto.alive a) (h : returnsLast m m' = true) : ReturnsLast m m' := by
  intro t r hr hp hr'
  have hl : m.1.lock = some (.writer t) := hi.locked t r hr (by rw [hp]; nofun) (ha _)
  simpa [returnsLast, hl, hr, hp, hr'] using h

/-- A run that is written down and in which every abort returns the last number. -/
theorem Script.reach_returnsLast {L : RingLayout} {k : UInt64}
    (moves : List (System.Move (ringSystem .single L))) (test : RingConfig .single L → Bool)
    (h : (System.play Script.alive (fun m m' => unasked m m' && returnsLast m m') moves
      { mem := (State.init k (), Ghost.init _ k), pool := fun _ => .ret () }).any test = true) :
    ∃ d, (ringSystem .single L).Reach (fun m m' => Calm m m' ∧ ReturnsLast m m')
      (Fresh .single L k Platform.single.allAlive) d ∧ test d = true := by
  obtain ⟨d, hd, ht⟩ := Script.reach L k Platform.single.allAlive (fun _ => rfl)
    (fun m m' => Calm m m' ∧ returnsLast m m' = true) _ (fun m m' hm => by
      obtain ⟨hm, hr⟩ := Bool.and_eq_true_iff.mp hm
      exact ⟨⟨fun _ => rfl, fun x hx => (verdicts_of_unasked hm hx).elim⟩, hr⟩) moves test h
  refine ⟨d, ?_, ht⟩
  clear h ht
  induction hd with
  | init hc => exact .init hc
  | step hr hs hok ih =>
    have hi := inv_of_reach (ih.mono fun _ _ hc => hc.1.honest)
    exact ih.step hs ⟨hok.1, returnsLast_sound hi (fun _ => rfl) hok.2⟩

open Script in
/-- A publication, and a reservation that is aborted. -/
theorem sequences_contiguous_abort :
    ∃ c : RingConfig .single (.small 2 (by decide) (by decide)),
      (ringSystem _ _).Reach (fun m m' => Calm m m' ∧ ReturnsLast m m')
        (Fresh _ _ 0 Platform.single.allAlive) c ∧ c.mem.2.begun = 2 ∧ Contiguous 0 c.mem := by
  obtain ⟨c, hc, ht⟩ := Script.reach_returnsLast (L := .small 2 (by decide) (by decide)) (k := 0)
    (whole (.writer 0) (publish 0 (.byte 5)) ++ whole (.writer 0) (reserve 0 .u8 [1]) ++
      whole (.writer 0) (abort 0))
    (fun d => d.mem.2.begun == 2 && decide (d.mem.1.lock = none) &&
      decide (∀ j, (d.mem.1.ring.slots j).state ≠ .writing)) (by decide +kernel)
  simp only [Bool.and_eq_true, decide_eq_true_eq, beq_iff_eq] at ht
  have hi := inv_of_reach (hc.mono fun _ _ hc => hc.1.honest)
  exact ⟨c, hc, ht.1.1, sequences_contiguous hc (hi.finished (fun _ => rfl) ht.1.2 ht.2)⟩

open Script in
/-- Of two unfinished reservations the first one is aborted and the second one committed: the
number of the first one is missing. -/
theorem gap :
    ∃ c : RingConfig .single (.small 2 (by decide) (by decide)),
      (ringSystem _ _).Reach Calm (Fresh _ _ 0 Platform.single.allAlive) c ∧
        (∀ t, c.mem.2.reservation t = none) ∧ ¬Contiguous 0 c.mem := by
  obtain ⟨c, hc, ht⟩ := Script.reach (.small 2 (by decide) (by decide)) 0
    Platform.single.allAlive (fun _ => rfl) (fun _ _ => True) (fun _ _ => true)
    (fun _ _ _ => trivial)
    (whole (.writer 0) (reserve 0 .u8 [1]) ++ whole (.writer 1) (reserve 1 .u8 [1]) ++
      whole (.writer 0) (abort 0) ++ whole (.writer 1) (commit 1))
    (fun d => d.mem.2.sequences == [1] && decide (d.mem.1.lock = none) &&
      decide (∀ j, (d.mem.1.ring.slots j).state ≠ .writing)) (by decide +kernel)
  simp only [Bool.and_eq_true, decide_eq_true_eq, beq_iff_eq] at ht
  have hcalm := reach_calm hc
  have hi := inv_of_reach (hcalm.mono fun _ _ hc => hc.honest)
  refine ⟨c, hcalm, hi.finished (fun _ => rfl) ht.1.2 ht.2, fun hcont => ?_⟩
  have hp := hcont.numbers
  rw [ht.1.1] at hp
  exact absurd hp (by decide)

end TenzorBus
