import TenzorBus.Guarantee.Oracle

/-!
# No torn delivery

What `read_validated` returns is the publication that the slot was last committed with, whole:
header, payload and addressee.

* `Ghost.Faithful` : a validated read is faithful to a publication
* `untorn` : each of them is, in every run that frees no slot which has been committed
* `torn` : a sweep frees a slot that its dead writer has committed
-/

namespace TenzorBus

open Conc Refine

variable {P : Platform} {L : RingLayout} {n : Nat}

/-- What was read is the publication that the slot was last committed with: under the sequence
that was returned, with these header fields and these bytes, and for the consumer that read it. -/
def Ghost.Faithful (g : Ghost n) (x : Validation n) : Prop :=
  ∃ i pub, i < x.published ∧ g.published[i]? = some pub ∧
    (∀ i' pub', i < i' → i' < x.published → g.published[i']? = some pub' →
      pub'.slot ≠ x.tensor.slotIndex) ∧
    pub.slot = x.tensor.slotIndex ∧ pub.sequence = x.tensor.sequence ∧
    x.tensor.Describes pub.header ∧ x.payload = pub.payload ∧
    ∃ k, g.registration x.consumer = some k ∧ k.index ∈ readers pub.mask

/-- The history so far decides whether a read was faithful. -/
theorem Ghost.Faithful.mono {g g' : Ghost n} {x : Validation n} (h : g.Faithful x)
    (hpub : g.published <+: g'.published) (hx : x.published ≤ g.published.length)
    (hreg : ∀ k, g.registration x.consumer = some k →
      ∃ k', g'.registration x.consumer = some k' ∧ k'.index = k.index) : g'.Faithful x := by
  obtain ⟨i, pub, hi, hget, hlast, hslot, hseq, hdesc, hpl, k, hk, hidx⟩ := h
  have hsame : ∀ i', i' < x.published → g'.published[i']? = g.published[i']? := fun i' hi' => by
    obtain ⟨rest, hrest⟩ := hpub
    rw [← hrest, List.getElem?_append_left (by omega)]
  obtain ⟨k', hk', hki⟩ := hreg k hk
  exact ⟨i, pub, hi, (hsame i hi).trans hget,
    fun i' pub' hlt hi' hget' => hlast i' pub' hlt hi' ((hsame i' hi').symm.trans hget'),
    hslot, hseq, hdesc, hpl, k', hk', hki ▸ hidx⟩

/-- A read of a committed slot that carries the consumer's bit is faithful. -/
theorem Inv.faithful {cap : Nat} {p : Proto n} (h : Inv cap p) {c : Nat} {k : Registration}
    {m : TensorMeta n} (hk : p.client c k) (hm : p.Matches m) (hr : k.index ∈ p.mask m.slotIndex) :
    p.hist.Faithful { consumer := c, tensor := m, payload := p.payload m.slotIndex,
                      published := p.hist.published.length } := by
  obtain ⟨mask, hget, hsub, hlast⟩ := h.content _ hm.committed
  exact ⟨_, _, (List.getElem?_eq_some_iff.mp hget).1, hget,
    fun i' pub' hlt _ hget' => hlast i' hlt pub' hget', rfl, hm.sequence.symm, hm.header, rfl,
    k, hk.1, hsub hr⟩

/-- Every read so far was faithful. -/
def AllFaithful (g : Ghost n) : Prop :=
  ∀ x ∈ g.validated, x.published ≤ g.published.length ∧ g.Faithful x

theorem AllFaithful.step {G : Guards n} {cap : Nat} {a : Actor} {p p' : Proto n}
    (hG : ¬G.careless) (h : AllFaithful p.hist) (hi : Inv cap p) (hs : Step G cap a p p') :
    AllFaithful p'.hist := by
  -- reads that are in the history already
  have hold : ∀ x ∈ p.hist.validated,
      x.published ≤ p'.hist.published.length ∧ p'.hist.Faithful x := fun x hx => by
    obtain ⟨hle, hf⟩ := h x hx
    refine ⟨hle.trans hs.published.length_le, hf.mono hs.published hle fun k hk => ?_⟩
    obtain ⟨last, closing, hk'⟩ := hs.registration hk
    exact ⟨_, hk', rfl⟩
  cases hs with
  | validate c _ k m client offers =>
    intro x hx
    rcases List.mem_cons.mp hx with rfl | hx
    · exact ⟨le_rfl, hi.faithful client (offers hG).good (offers hG).reader⟩
    · exact hold x hx
  | _ => exact hold

/-- The use of the ring in which everything is admitted. -/
def untornMode (P : Platform) (n : Nat) : Mode P n where
  guards := .lax n False
  inv v := AllFaithful v.proto.hist
  ok _ _ := True

theorem untornMode_lawful (P : Platform) (L : RingLayout) (k : UInt64) (start : P.Os → Prop) :
    (untornMode P L.slotCount).Lawful (L := L) k start where
  initial _ _ := nofun
  delivers := delivers_lax rfl
  step _ _ _ hi hg _ _ _ := hi.mode.step id hi.proto hg.step
  env v v' hi hp _ := by
    have hh : v'.proto.hist = v.proto.hist := by rw [hp.fades.eq]
    exact show AllFaithful v'.proto.hist from hh ▸ hi.mode

/-- Nobody alive is taken for dead, and no sweep finds a slot abandoned that has been committed
meanwhile. -/
def TrustedAndTimely (m m' : State P n × Ghost n) : Prop := TrustedChecks m m' ∧ Timely m m'

/-- No torn and no mis-addressed delivery: whatever `read_validated` returns, at any time in any
run in which no slot of the living is taken back and none that has been committed, is a publication
as it was committed. -/
theorem untorn {k : UInt64} {start : P.Os → Prop} {c : RingConfig P L}
    (h : (ringSystem P L).Reach TrustedAndTimely (Fresh P L k start) c)
    {x : Validation L.slotCount} (hx : x ∈ c.mem.2.validated) : c.mem.2.Faithful x := by
  have hM := untornMode_lawful P L k start
  exact ((hM.inv (hM.reach_trusted (fun _ _ hok => ⟨hok.1, hok.2, trivial⟩) h)).mode x hx).2

open Script in
/-- A writer dies with a reservation, its slot is taken back and published into again, and a
consumer takes that publication. -/
theorem untorn_delivery :
    ∃ (c : RingConfig .each .two) (x : Validation 2),
      (ringSystem _ _).Reach TrustedAndTimely (Fresh _ _ 0 (· = Platform.eachOf [0, 1, 4])) c ∧
        x ∈ c.mem.2.validated ∧ x.tensor.sequence = 1 ∧ c.mem.2.Faithful x := by
  obtain ⟨c, hc, ht⟩ := Script.reachFrom .two 0 (Platform.eachOf [0, 1, 4]) Timely asksInTime
    (fun m m' h => timely_of_asksInTime h)
    (whole (.consumer 0) (register 0) ++ whole (.writer 1) (reserve 1 .u8 [1]) ++ [kill 4] ++
      whole (.writer 0) (publish 0 (.byte 5)) ++ whole (.consumer 0) (next 0))
    (fun d => d.mem.2.validated.any fun x => decide (x.tensor.sequence = 1)) (by decide +kernel)
  obtain ⟨x, hx, hseq⟩ := List.any_eq_true.mp ht
  have hw := reach_trusted_exact (Platform.table_exact _ _) hc
  exact ⟨c, x, hw, hx, by simpa using hseq, untorn hw hx⟩

/-- Whoever has published in this slot under this sequence has published other bytes. -/
def Ghost.strange (g : Ghost n) (x : Validation n) : Bool :=
  g.published.all fun pub =>
    decide (pub.sequence = x.tensor.sequence → pub.payload 0 ≠ x.payload 0)

theorem Ghost.not_faithful_of_strange {g : Ghost n} {x : Validation n}
    (h : g.strange x = true) : ¬g.Faithful x := by
  rintro ⟨i, pub, -, hget, -, -, hseq, -, hpl, -⟩
  have hne := of_decide_eq_true (List.all_eq_true.mp h pub (List.mem_of_getElem? hget)) hseq
  rw [hpl] at hne
  exact hne rfl

open Script in
/-- Between the two checks of `read_validated` a sweep frees the slot, whose writer has committed it
and died, and another writer publishes into it: the sequence of the one publication is returned
with the bytes of the other. -/
theorem torn :
    ∃ (c : RingConfig .each .two) (x : Validation 2),
      (ringSystem _ _).Reach TrustedChecks (Fresh _ _ 0 (· = Platform.eachOf [0, 1, 2, 4])) c ∧
        x ∈ c.mem.2.validated ∧ (∃ h, c.mem.1.isOpen x.consumer h) ∧ ¬c.mem.2.Faithful x := by
  obtain ⟨c, hc, ht⟩ := Script.reachFrom .two 0 (Platform.eachOf [0, 1, 2, 4])
    (fun _ _ => True) (fun _ _ => true) (fun _ _ _ => trivial)
    (committedMeanwhile ++ [next 0, .steps (.consumer 0) 40, .steps (.sweeper 0) 4000] ++
      whole (.writer 1) (publish 1 (.byte 6)) ++ [.steps (.consumer 0) 4000])
    (fun d => d.mem.2.validated.any fun x =>
      d.mem.2.strange x && (usable d.mem.1 x.consumer).isSome)
    (by decide +kernel)
  obtain ⟨x, hx, hs⟩ := List.any_eq_true.mp ht
  rw [Bool.and_eq_true, Option.isSome_iff_exists] at hs
  obtain ⟨hs, h, hopen⟩ := hs
  have hw := reach_trusted_exact (Platform.table_exact _ _) hc
  exact ⟨c, x, hw.mono fun _ _ hok => hok.1, hx, ⟨h, isOpen_of_usable hopen⟩,
    Ghost.not_faithful_of_strange hs⟩

end TenzorBus
