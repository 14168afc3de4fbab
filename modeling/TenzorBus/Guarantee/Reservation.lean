import TenzorBus.Guarantee.Ownership
import TenzorBus.Guarantee.Oracle
import TenzorBus.Ring.Lock
import TenzorBus.Proc.Stat

/-!
# The reservation of a living producer

The token that is recorded in a slot is compared with a field of `/proc/<pid>/stat` that changes
while the process lives. As long as it has not changed when a sweep asks, and the registry lock is
not taken from the living, the slot of a living writer is left alone, and is committed to everyone
who is still registered.

* `Unmistaken`, `UnmistakenAndWindowed` : the condition on a run
* `KeepsSlot` : what the others leave of the slot of a reservation
* `Captured` : the mask has the bits of everyone captured who is still there
* `reservation_kept` : both hold in every run that meets the condition
-/

namespace TenzorBus

open Conc Refine

variable {P : Platform} {L : RingLayout} {n : Nat} {k : UInt64} {start : P.Os → Prop}

/-- When the liveness check is asked about the slot of a living writer's reservation, the token in
it is 0, or that of field 23 of the writer's line at this moment; when it is asked about a slot that
has left `STATE_WRITING` meanwhile, it says alive. -/
structure Unmistaken (F : P.Procfs) (m m' : State P n × Ghost n) : Prop where
  unfinished : ∀ y j t, m'.2.verdicts = y :: m.2.verdicts → y.subject = .slot j →
    m.2.Owns t j → m.1.aliveActor (.writer t) → (m.1.ring.slots j).producerStartToken = 0 ∨
      (F.stat m.1.os (P.proc (.writer t))).vsize.toUInt32 =
        (m.1.ring.slots j).producerStartToken
  finished : Timely m m'

/-- No process is mistaken for dead, neither by a sweep nor by somebody who waits for the registry
lock. -/
def UnmistakenAndExclusive (F : P.Procfs) (m m' : State P n × Ghost n) : Prop :=
  Unmistaken F m m' ∧ Exclusive m m'

/-- The condition on a run: no process is mistaken for dead, and no consumer runs too far ahead. -/
def UnmistakenAndWindowed (F : P.Procfs) (m m' : State P n × Ghost n) : Prop :=
  UnmistakenAndExclusive F m m' ∧ Windowed (view m').proto

/-- Consumer `c` has registry entry `i`, has not called `close`, and is alive. -/
structure Registered (m : State P n × Ghost n) (c : Nat) (i : Fin 64) : Prop where
  holder : m.2.holder i = some c
  client : ∃ r, m.2.registration c = some r ∧ r.closing = false
  alive : m.1.aliveActor (.consumer c)

/-- The slot keeps its state and its sequence, and its mask loses at most the bits of those who are
not registered any more. -/
structure KeepsSlot (m m' : State P n × Ghost n) (j : Fin n) : Prop where
  state : (m'.1.ring.slots j).state = (m.1.ring.slots j).state
  sequence : (m'.1.ring.slots j).sequence = (m.1.ring.slots j).sequence
  readers : ∀ i, (m'.1.ring.slots j).readersMask &&& bit i ≠ 0 →
    (m.1.ring.slots j).readersMask &&& bit i ≠ 0
  kept : ∀ i c, Registered m c i → (m.1.ring.slots j).readersMask &&& bit i ≠ 0 →
    (m'.1.ring.slots j).readersMask &&& bit i ≠ 0

/-! ## what is believed -/

section

variable {G : Guards n} {cap : Nat} {a : Actor} {m m' : State P n × Ghost n}

theorem trusted_unmistaken (F : P.Procfs) (hc : Coupled G (view m))
    (hi : Inv cap (view m).proto) (hg : Guar G cap a (view m) (view m'))
    (hok : Unmistaken F m m') : TrustedChecks m m' := by
  intro y hy hdead
  have hcheck : m.1.check y.subject = false := by
    rw [← check_view, ← (hg.private'.verdict y hy).1]
    exact hdead
  obtain ⟨hlock, idle⟩ := hg.step.verdict_inv hy
  cases hs : y.subject with
  | entry i =>
    intro c hh hl
    have hpid : (m.1.ring.entries i).pid = P.me (.consumer c) := hc.entryPid i c hh
    have hfound := (F.check_running (hc.holding i c hh hl)).mpr (Or.inl (Eq.refl 0))
    rw [hs] at hcheck
    simp only [State.check, hpid] at hcheck
    exact absurd (hfound.symm.trans hcheck) nofun
  | slot j =>
    rw [hs] at hcheck
    refine ⟨?_, fun hn => absurd trivial hn⟩
    rintro t r hr rfl hp hl
    have hheader : r.phase ≠ .header := by
      intro hh
      have hwriter := hi.locked t r hr (by rw [hh]; nofun) hl
      have hnone := idle t (Option.some.inj (hlock.symm.trans hwriter))
      rw [hr] at hnone
      cases hnone
    have hpid : (m.1.ring.slots r.slot).producerPid = P.me (.writer t) :=
      (hc.stamped t r hr hheader hp).1
    have htoken := hok.unfinished y r.slot t hy hs ⟨r, hr, hp, rfl⟩ ((hc.alive _).mp hl)
    have hfound := (F.check_running (hc.reserving t r hr hl)).mpr htoken
    simp only [State.check, hpid] at hcheck
    exact absurd (hfound.symm.trans hcheck) nofun

/-- In a run in which nobody is mistaken for dead no use of the ring has to fear a sweep. -/
theorem Mode.Lawful.reach_unmistaken {M : Mode P L.slotCount} (hM : M.Lawful k start)
    (F : P.Procfs)
    {ok : State P L.slotCount × Ghost L.slotCount → State P L.slotCount × Ghost L.slotCount → Prop}
    (hok : ∀ m m', ok m m' → Unmistaken F m m' ∧ M.ok (view m) (view m')) {c : RingConfig P L}
    (h : (ringSystem P L).Reach ok (Fresh P L k start) c) :
    (ringSystem P L).Reach M.rules.ok (Fresh P L k start) c := by
  refine hM.sound.reach (fun m m' hi hm hs => ⟨?_, (hok m m' hm).2⟩) h
  have hu := (hok m m' hm).1
  rcases hs with ⟨a, -, hg⟩ | ⟨os, -, rfl⟩ | rfl
  · exact (trusted_unmistaken F hi.coupled hi.proto hg hu).believes hu.finished hg.private'
  · exact believes_same rfl
  · exact believes_same rfl

end

/-! ## what has been captured -/

/-- The mask of a living writer's reservation has the bits of all whom it has captured and who are
still registered. -/
structure Proto.Captured (p : Proto n) : Prop where
  known : ∀ t r i c, p.hist.reservation t = some r → r.owners i = some c →
    p.hist.registration c ≠ none
  reader : ∀ t r c k, p.hist.reservation t = some r → p.alive (.writer t) →
    r.phase = .masked ∨ r.phase = .inHand → p.client c k → p.alive (.consumer c) →
      r.owners k.index = some c → k.index ∈ readers r.mask → k.index ∈ p.mask r.slot

section

variable {G : Guards n} {cap : Nat} {a : Actor} {p p' : Proto n} {t : Nat} {r : Reservation n}
  {c : Nat} {k : Registration}

/-- A reservation has just begun, or was there before. -/
theorem Step.reservation_before (hs : Step G cap a p p') (hr : p'.hist.reservation t = some r) :
    r.phase = .header ∧ r.owners = p.hist.holder ∨
      ∃ r₀, p.hist.reservation t = some r₀ ∧ r.slot = r₀.slot ∧ r.mask = r₀.mask ∧
        r.owners = r₀.owners ∧ (r.phase = .masked ∨ r.phase = .inHand →
          r₀.phase = .masked ∨ r₀.phase = .inHand ∨ p'.mask r.slot = readers r.mask) := by
  cases hs with
  | begin t' _ j mask =>
    rcases Inv.begin_reservation.mp hr with ⟨-, rfl⟩ | ⟨-, hr⟩
    · exact .inl ⟨rfl, rfl⟩
    · exact .inr ⟨r, hr, rfl, rfl, rfl, fun h => h.imp_right .inl⟩
  | number t' _ r' locked own phase | cancel t' _ r' locked own phase
  | free t' _ r' locked own phase =>
    rcases (Inv.proceed_reservation own).mp hr with ⟨rfl, rfl⟩ | ⟨-, hr⟩
    · exact .inr ⟨r', own, rfl, rfl, rfl, fun h => by simp at h⟩
    · exact .inr ⟨r, hr, rfl, rfl, rfl, fun h => h.imp_right .inl⟩
  | setMask t' _ r' locked own phase =>
    rcases (Inv.proceed_reservation own).mp hr with ⟨rfl, rfl⟩ | ⟨-, hr⟩
    · exact .inr ⟨r', own, rfl, rfl, rfl, fun _ => .inr (.inr (by simp))⟩
    · exact .inr ⟨r, hr, rfl, rfl, rfl, fun h => h.imp_right .inl⟩
  | advance t' _ r' locked own phase =>
    rcases (Inv.proceed_reservation own).mp hr with ⟨rfl, rfl⟩ | ⟨-, hr⟩
    · exact .inr ⟨r', own, rfl, rfl, rfl, fun _ => .inl phase⟩
    · exact .inr ⟨r, hr, rfl, rfl, rfl, fun h => h.imp_right .inl⟩
  | commit t' _ r' | forget t' _ r' =>
    have hr := (Inv.drop_reservation.mp hr).2
    exact .inr ⟨r, hr, rfl, rfl, rfl, fun h => h.imp_right .inl⟩
  | abandon _ _ j =>
    have hr := (Inv.abandon_reservation.mp hr).1
    exact .inr ⟨r, hr, rfl, rfl, rfl, fun h => h.imp_right .inl⟩
  | _ => exact .inr ⟨r, hr, rfl, rfl, rfl, fun h => h.imp_right .inl⟩

/-- The reader bit of somebody who is registered and stays so is not taken from the slot of a
reservation of the living, unless the reservation is aborted. -/
theorem Leasing.bit_kept (hL : Leasing False p) (hi : Inv cap p) (hG : ¬G.careless)
    (hs : Step G cap a p p') (ha : p.alive a) (hk : p.client c k) (hl : p.alive (.consumer c))
    (hr : p.hist.reservation t = some r) (hp : r.phase ≠ .returning) (ht : p.alive (.writer t))
    (hab : a ≠ .writer t ∨ ∃ r', p'.hist.reservation t = some r' ∧ r'.slot = r.slot ∧
      (r'.phase = .masked ∨ r'.phase = .inHand))
    (hb : k.index ∈ p.mask r.slot) : k.index ∈ p'.mask r.slot := by
  have hw := hi.writing t r hr hp
  by_cases hac : a = .consumer c
  · subst hac
    have hholder := hi.active c k hk hl
    cases hs with
    | dropBit _ _ c' i j locked holder leaving =>
      have hne : k.index ≠ i := by
        rintro rfl
        have hc : c = c' := Option.some.inj (hholder.symm.trans holder)
        subst hc
        rcases leaving with ⟨-, k', hk', hcl⟩ | hd
        · cases hk.1.symm.trans hk'
          rw [hk.2] at hcl
          cases hcl
        · exact hd hl
      by_cases hj : r.slot = j
      · subst hj
        simpa [hne] using hb
      · simpa [hj] using hb
    | release _ _ k' m client held =>
      -- the slot of a lease is committed
      have hh := hL.held c k' ⟨client, nofun⟩ hl m held
      have hj : r.slot ≠ m.slotIndex := by
        intro e
        rw [e, hh.good.committed] at hw
        cases hw
      simpa [hj] using hb
    | abandonMask _ _ j locked gone =>
      have hj : r.slot ≠ j := fun e => gone.1 t r hr e hp ht
      simpa [hj] using hb
    | _ => exact hb
  · have hR : Rely G cap (.consumer c) p p' := ⟨hi, hs.alive ▸ hl, .inl ⟨a, hac, ha, hs⟩⟩
    rcases hR.bit hG hk hb with hb' | ⟨-, hend⟩
    · exact hb'
    · have ht' : p'.alive (.writer t) := hs.alive ▸ ht
      rcases hab with hne | ⟨r', hr', hslot, hphase⟩
      · have hRt : Rely G cap (.writer t) p p' := ⟨hi, ht', .inl ⟨a, hne, ha, hs⟩⟩
        rcases hend t r (hRt.reservation.trans hr) rfl ht' with hab | hret
        · rw [hi.unmasked t r hr (.inr (.inr hab))] at hb
          simp at hb
        · exact absurd hret hp
      · rcases hend t r' hr' hslot ht' with h | h <;> rw [h] at hphase <;> simp at hphase

theorem Proto.Captured.step (h : p.Captured) (hL : Leasing False p) (hi : Inv cap p)
    (hG : ¬G.careless) (hs : Step G cap a p p') (ha : p.alive a) : p'.Captured where
  known t r i c hr ho := by
    have hknown : p.hist.registration c ≠ none := by
      rcases hs.reservation_before hr with ⟨-, howners⟩ | ⟨r₀, hr₀, -, -, howners, -⟩
      · obtain ⟨k, hk, -⟩ := hi.registered i c (howners ▸ ho)
        rw [hk]
        nofun
      · exact h.known t r₀ i c hr₀ (howners ▸ ho)
    obtain ⟨k, hk⟩ := Option.ne_none_iff_exists'.mp hknown
    obtain ⟨last, closing, hk'⟩ := hs.registration hk
    rw [hk']
    nofun
  reader t r c k hr ht hp hk hl ho hm := by
    rw [hs.alive] at ht hl
    rcases hs.reservation_before hr with ⟨hphase, -⟩ | ⟨r₀, hr₀, hslot, hmask, howners, hphase⟩
    · rw [hphase] at hp
      simp at hp
    · -- the consumer is registered as it was before
      obtain ⟨k₀, hk₀, hidx⟩ : ∃ k₀, p.client c k₀ ∧ k₀.index = k.index := by
        rcases hs.client hG hk with ⟨i, -, fresh, -, -, -⟩ | ⟨client, -, -⟩ |
          ⟨k₀, m, client, -, -, -, rfl, -⟩
        · exact absurd fresh (h.known t r₀ k.index c hr₀ (howners ▸ ho))
        · exact ⟨k, client, rfl⟩
        · exact ⟨k₀, client, rfl⟩
      by_cases hfull : p'.mask r.slot = readers r.mask
      · rw [hfull]
        exact hm
      · have hp₀ : r₀.phase = .masked ∨ r₀.phase = .inHand := by
          rcases hphase hp with h | h | h
          · exact .inl h
          · exact .inr h
          · exact absurd h hfull
        have hb : k₀.index ∈ p.mask r₀.slot :=
          h.reader t r₀ c k₀ hr₀ ht hp₀ hk₀ hl (by rw [hidx, ← howners]; exact ho)
            (by rw [hidx, ← hmask]; exact hm)
        rw [hslot, ← hidx]
        refine hL.bit_kept hi hG hs ha hk₀ hl hr₀ ?_ ht (.inr ⟨r, hr, hslot, hp⟩) hb
        rcases hp₀ with h | h <;> rw [h] <;> nofun

end

/-! ## runs -/

/-- The use of the ring in which no consumer runs too far ahead and masks keep what they have
captured. -/
def captureMode (P : Platform) (n : Nat) : Mode P n where
  guards := { Guards.lax n False with loose := fun _ => False }
  inv v := Leasing False v.proto ∧ Windowed v.proto ∧ v.proto.Captured
  ok _ v' := Windowed v'.proto

theorem captureMode_lawful (P : Platform) (L : RingLayout) (k : UInt64) (start : P.Os → Prop) :
    (captureMode P L.slotCount).Lawful (L := L) k start where
  initial _ _ := {
    left := {
      held := fun _ _ h => nomatch h.1.1
      once := fun _ _ h => nomatch h.1.1
      fresh := fun _ _ => rfl }
    right := ⟨fun _ _ _ h => absurd h.1 nofun, ⟨nofun, nofun⟩⟩ }
  delivers := delivers_plain id (fun _ _ _ => trivial) (fun _ _ _ => trivial)
    fun _ c k m hi hl hk hm hne =>
      have hh := hi.mode.1.held c k ⟨hk, nofun⟩ hl m hm
      hne ⟨hh.good.sequence.symm, hh.reader⟩
  step _ _ _ hi hg _ hok _ := by
    obtain ⟨hleases, hw, hcaptured⟩ := hi.mode
    exact ⟨hleases.step hi.proto id hg.step hg.live (ascends_of_windowed id hw hg.step), hok,
      hcaptured.step hleases hi.proto id hg.step hg.live⟩
  env v v' hi hp hok := by
    obtain ⟨hleases, -, hcaptured⟩ := hi.mode
    refine ⟨hleases.fades hp.fades, hok, ?_⟩
    have halive := hp.fades.alive
    rw [hp.fades.eq]
    exact ⟨hcaptured.known, fun t r c k hr ht hph hk hl =>
      hcaptured.reader t r c k hr (halive _ ht) hph hk (halive _ hl)⟩

theorem Registered.client_of {m : State P n × Ghost n} {c : Nat} {i : Fin 64} {cap : Nat}
    (h : Registered m c i) (hi : Inv cap (view m).proto) :
    ∃ r, (view m).proto.client c r ∧ r.index = i := by
  obtain ⟨r, hr, hcl⟩ := h.client
  obtain ⟨r', hr', hidx⟩ := hi.registered i c h.holder
  cases hr.symm.trans hr'
  exact ⟨r, ⟨hr, hcl⟩, hidx⟩

/-- As long as a writer lives its reservation is its own: nobody else changes state or sequence of
the slot, and the mask keeps the bits of all whom it has captured and who are still registered, up
to the commit, in every run in which no sweep and nobody who waits for the registry lock mistakes
the living for dead, and no open consumer gets more than `2 ^ 63` sequence numbers ahead of a
publication on which its reader bit is still set. -/
theorem reservation_kept (F : P.Procfs) {c : RingConfig P L}
    (h : LockReach (UnmistakenAndWindowed F) (Fresh P L k start) c) {t : Nat}
    {r : Reservation L.slotCount} (hr : c.mem.2.reservation t = some r)
    (hl : c.mem.1.aliveActor (.writer t)) (hp : r.phase ≠ .returning) :
    (∀ a d, a ≠ .writer t → StepOf a c d → UnmistakenAndWindowed F c.mem d.mem →
      KeepsSlot c.mem d.mem r.slot) ∧
    (r.phase = .inHand → ∀ i cn, r.mask &&& bit i ≠ 0 → r.owners i = some cn →
      Registered c.mem cn i → (c.mem.1.ring.slots r.slot).readersMask &&& bit i ≠ 0) := by
  have hM := captureMode_lawful P L k start
  have hrun := hM.reach_unmistaken F (fun _ _ hok => ⟨hok.1.1, hok.2⟩)
    (h.reach fun _ _ hok => hok.1.2)
  have hi := hM.inv hrun
  refine ⟨fun a d hne hs hok => ?_, fun hp i cn hm ho hreg => ?_⟩
  · obtain ⟨q, ha, hn⟩ := hs.next? hok.1.2
    rcases hM.sound.acts hrun ha hn with hg | he
    · have hlt : (view d.mem).proto.alive (.writer t) := by
        rw [hg.step.alive]
        exact hl
      have hR : Rely _ L.slotCapacity (.writer t) (view c.mem).proto (view d.mem).proto :=
        ⟨hi.proto, hlt, .inl ⟨a, hne, hg.live, hg.step⟩⟩
      obtain ⟨hu, hsub⟩ := hR.own hr hp
      exact {
        state := hu.state
        sequence := by
          have hseq : (d.mem.1.ring.slots r.slot).sequence = seqWord (d.mem.2.num r.slot) :=
            hg.coupled.sequence r.slot
          have hnum : d.mem.2.num r.slot = c.mem.2.num r.slot := hu.num
          rw [hseq, hnum]
          exact (hi.coupled.sequence r.slot).symm
        readers := fun i hb => by
          rw [Ne, and_bit_eq_zero, not_not] at hb ⊢
          exact hsub hb
        kept := fun i cn hreg hb => by
          rw [Ne, and_bit_eq_zero, not_not] at hb ⊢
          obtain ⟨k', hk', rfl⟩ := hreg.client_of hi.proto
          exact hi.mode.1.bit_kept hi.proto id hg.step hg.live hk' hreg.alive hr hp hl (.inl hne)
            hb }
    · rw [he]
      exact ⟨rfl, rfl, fun _ h => h, fun _ _ _ h => h⟩
  · rw [Ne, and_bit_eq_zero, not_not] at hm ⊢
    obtain ⟨k', hk', rfl⟩ := hreg.client_of hi.proto
    exact hi.mode.2.2.reader t r cn k' hr hl (.inr hp) hk' hreg.alive ho hm

/-! ## a process that maps memory -/

/-- A process whose executable has a parenthesis in its name, and has mapped this much memory. -/
def Shm.Stat.sized (vsize : UInt64) : Shm.Stat where
  comm := ['p', ')', 'x']
  state := 'S'
  state_alpha := by decide
  early := List.replicate 18 1
  early_length := by decide
  starttime := 7
  vsize := vsize
  late := List.replicate 29 0

/-- Two processes run. The one of the writers maps memory and unmaps it. -/
def Platform.mapping : Platform where
  Os := UInt64
  step _ _ := True
  alive _ _ := true
  running _ p := decide (p < 2)
  alive_of_step _ _ _ _ h := h
  running_of_step _ _ _ _ h _ := h
  proc
    | .writer _ => 0
    | _ => 1
  pid p := if p = 0 then 1 else 2
  pidStartToken os pid := Shm.pidStartToken (read os pid)
  pidAliveWithToken os pid token := Shm.pidAliveWithToken (read os pid) false pid token
  now _ := 0
  nowNs _ := 0
  debugAssertions := false
where
  read (os : UInt64) (pid : UInt32) : Option (List Char) :=
    if pid = 1 then some ((Shm.Stat.sized os).line 1)
    else if pid = 2 then some ((Shm.Stat.sized 4096).line 2)
    else none

def Platform.mappingProcfs : Platform.mapping.Procfs where
  read := Platform.mapping.read
  kill _ _ := false
  stat os p := if p = 0 then .sized os else .sized 4096
  pid_ne p := by
    show (if p = 0 then (1 : UInt32) else 2) ≠ 0
    split <;> decide
  startToken _ _ := rfl
  check _ _ _ := rfl
  line os p h := by
    have hp : p = 0 ∨ p = 1 := by
      have hlt : p < 2 := of_decide_eq_true h
      omega
    rcases hp with rfl | rfl <;> rfl
  ready os p _ := by
    have hstate : (if p = 0 then Shm.Stat.sized os else Shm.Stat.sized 4096).state = 'S' := by
      split <;> rfl
    exact ⟨fun h => absurd (hstate.symm.trans h) (by decide),
      fun h => absurd (hstate.symm.trans h) (by decide),
      fun h => absurd (hstate.symm.trans h) (by decide)⟩
  starttime os os' p _ _ _ := by
    show (if p = 0 then Shm.Stat.sized os' else Shm.Stat.sized 4096).starttime =
      (if p = 0 then Shm.Stat.sized os else Shm.Stat.sized 4096).starttime
    split <;> rfl

/-- The process of the writers comes to have mapped this much memory. -/
def Script.mapTo (vsize : UInt64) : System.Move (ringSystem Platform.mapping L) :=
  .env (fun m => ({ m.1 with os := vsize }, m.2)) fun _ => ⟨vsize, trivial, rfl⟩

/-- The writers' process has mapped 4096 bytes, as it had when the tokens were recorded, a slot that
is asked about is being written, and the lock does not pass from one to another. -/
def Script.unmapped (m m' : State Platform.mapping L.slotCount × Ghost L.slotCount) : Bool :=
  (show UInt64 from m.1.os) == 4096 &&
    (List.finRange L.slotCount).all (fun j => (m.1.ring.slots j).producerStartToken == 0 ||
      (m.1.ring.slots j).producerStartToken == 4096) &&
    asksInTime m m' && m.1.lock.all fun a => m'.1.lock.all fun b => decide (b = a)

theorem Script.unmistaken_of_unmapped
    {m m' : State Platform.mapping L.slotCount × Ghost L.slotCount} (h : unmapped m m' = true) :
    UnmistakenAndExclusive Platform.mappingProcfs m m' := by
  simp only [unmapped, Bool.and_eq_true, List.all_eq_true, List.mem_finRange, Bool.or_eq_true,
    beq_iff_eq, true_implies] at h
  obtain ⟨⟨⟨hos, htoken⟩, hasked⟩, hlock⟩ := h
  refine ⟨⟨fun y j t _ _ _ _ => ?_, timely_of_asksInTime hasked⟩, fun a b ha hb _ => ?_⟩
  · rcases htoken j with h0 | h4
    · exact .inl h0
    · right
      rw [h4]
      have hsize : (Shm.Stat.sized m.1.os).vsize = 4096 := eq_of_beq (α := UInt64) hos
      show (Shm.Stat.sized m.1.os).vsize.toUInt32 = 4096
      rw [hsize]
      decide
  · rw [ha, hb, Option.all_some, Option.all_some] at hlock
    exact of_decide_eq_true hlock

theorem reach_shortMode (F : P.Procfs) {c : RingConfig P L}
    (h : (ringSystem P L).Reach (fun m m' => UnmistakenAndExclusive F m m' ∧ Short m')
      (Fresh P L 0 start) c) :
    (ringSystem P L).Reach (shortMode P L.slotCount False).rules.ok (Fresh P L 0 start) c :=
  (shortMode_lawful P L False start).reach_unmistaken F (fun _ _ hok => ⟨hok.1.1, hok.2⟩) h

open Script in
/-- A slot is reserved for a consumer, and a sweep asks about it. -/
theorem reservation_kept_swept :
    ∃ (c d : RingConfig .mapping .two) (r : Reservation 2),
      LockReach (UnmistakenAndWindowed Platform.mappingProcfs)
        (Fresh _ _ 0 (· = (4096 : UInt64))) c ∧ c.mem.2.reservation 0 = some r ∧
          StepOf (.sweeper 0) c d ∧ unasked c.mem d.mem = false ∧
            KeepsSlot c.mem d.mem r.slot ∧
              (c.mem.1.ring.slots r.slot).readersMask &&& bit 0 ≠ 0 := by
  have hshort : ∀ m m' : State Platform.mapping 2 × Ghost 2,
      (unmapped (L := .two) m m' && decide (Short m')) = true →
      UnmistakenAndExclusive Platform.mappingProcfs m m' ∧ Short m' := by
    intro m m' h
    simp only [Bool.and_eq_true, decide_eq_true_eq] at h
    exact ⟨unmistaken_of_unmapped (L := .two) h.1, h.2⟩
  obtain ⟨c, hc, ht⟩ := Script.reachFrom .two 0 (4096 : UInt64)
    (fun m m' => UnmistakenAndExclusive Platform.mappingProcfs m m' ∧ Short m') _ hshort
    (whole (.consumer 0) (register 0) ++ whole (.writer 0) (reserve 0 .u8 [1]) ++
      [sweep 0, .steps (.sweeper 0) 70])
    (fun c => (c.mem.2.reservation 0).any (fun r : Reservation 2 => decide (r.phase = .inHand ∧
      r.mask &&& bit 0 ≠ 0 ∧ r.owners 0 = some 0)) && decide (c.mem.2.holder 0 = some 0) &&
        (c.mem.2.registration 0).any (fun g : Registration => !g.closing) &&
          ((c.pool (.sweeper 0)).next? c.mem).any
            fun m : _ × (State Platform.mapping 2 × Ghost 2) => !unasked c.mem m.2 &&
              (unmapped c.mem m.2 && decide (Short m.2)))
    (by decide +kernel)
  simp only [Bool.and_eq_true, Option.any_eq_true, decide_eq_true_eq, Bool.not_eq_true'] at ht
  obtain ⟨⟨⟨⟨r, hr, hp, hmask, howner⟩, hholder⟩, g, hg, hclosing⟩, ⟨q, m'⟩, hn, hasked, hok⟩ := ht
  have hreach := LockReach.of_reach
    (reach_of_short False _ (fun d hd => reach_shortMode _ hd) hc)
  have hok := hshort c.mem m' (by simpa using hok)
  have hwindow := windowed_of_short False
    (reach_shortMode _ (hc.step (.act (.sweeper 0) q m' rfl hn) hok))
  obtain ⟨hothers, hhand⟩ := reservation_kept _ hreach hr rfl (by rw [hp]; nofun)
  have hstep := StepOf.act q m' (rfl : c.mem.1.aliveActor (.sweeper 0)) hn
  have hkept := hothers (.sweeper 0) _ nofun hstep ⟨hok.1, hwindow⟩
  refine ⟨c, _, r, hreach, hr, hstep, hasked, hkept, ?_⟩
  exact hhand hp 0 0 hmask howner ⟨hholder, ⟨g, hg, hclosing⟩, rfl⟩

open Script in
/-- The process of a living writer maps memory between the reservation and a sweep, and the sweep
frees the slot. -/
theorem reservation_reclaimed :
    ∃ (c : RingConfig .mapping .two) (r : Reservation 2) (q : _)
      (m' : _), (ringSystem _ _).Reach (fun _ _ => True) (Fresh _ _ 0 (· = (4096 : UInt64))) c ∧
        c.mem.2.reservation 0 = some r ∧ r.phase = .inHand ∧
          c.mem.1.aliveActor (.writer 0) ∧ (c.pool (.sweeper 0)).next? c.mem = some (q, m') ∧
            (m'.1.ring.slots r.slot).state ≠ (c.mem.1.ring.slots r.slot).state := by
  obtain ⟨c, hc, ht⟩ := Script.reachFrom .two 0 (4096 : UInt64)
    (fun _ _ => True) (fun _ _ => true) (fun _ _ _ => trivial)
    (whole (.consumer 0) (register 0) ++ whole (.writer 0) (reserve 0 .u8 [1]) ++
      [mapTo 8192, sweep 0, .steps (.sweeper 0) 73])
    (fun c => (c.mem.2.reservation 0).any fun r : Reservation 2 => decide (r.phase = .inHand) &&
      ((c.pool (.sweeper 0)).next? c.mem).any fun m =>
        decide ((m.2.1.ring.slots r.slot).state ≠ (c.mem.1.ring.slots r.slot).state))
    (by decide +kernel)
  simp only [Option.any_eq_true, Bool.and_eq_true, decide_eq_true_eq] at ht
  obtain ⟨r, hr, hp, ⟨q, m'⟩, hn, hne⟩ := ht
  exact ⟨c, r, q, m', hc, hr, hp, rfl, hn, hne⟩

end TenzorBus
