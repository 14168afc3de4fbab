import TenzorBus.Conc.Alone
import TenzorBus.Guarantee.Ownership

/-!
# A lease that outlives the window

A ring of two slots in one process. The consumer keeps its lease on the first publication while it
takes and releases the publications of the other slot. When it is more than `2 ^ 63` sequence
numbers ahead, the comparison takes the first publication for a new one: it is handed out a second
time, and releasing the second lease clears the bit of the first.

The run is too long to be played. It is a round that is repeated: what a round needs and leaves is
`Stage.Shows`.
-/

namespace TenzorBus.Overrun

open Conc

/-- Two slots. -/
abbrev two : RingLayout := .two

abbrev Memory := State .single 2

/-- A tensor without bytes. -/
def nothing : TensorView :=
  { dtype := .u8, ndim := 1, ndim_le := one_le_maxNdim, shape := padded [0], strides := padded [1],
    data := [], timestampNs := none }

/-- Only the first registry entry is active, and the first slot is leased by its consumer. -/
structure Stage where
  lock : Option Actor
  next : UInt64
  last : UInt64
  leases : List (TensorMeta 2)

/-- One publication later. -/
def Stage.published (x : Stage) : Stage := { x with next := x.next + 1 }

/-- The consumer has taken `m`. -/
def Stage.took (x : Stage) (m : TensorMeta 2) : Stage :=
  { x with last := m.sequence, leases := m :: x.leases }

/-- These leases are left. -/
def Stage.released (x : Stage) (leases : List (TensorMeta 2)) : Stage := { x with leases := leases }

/-- A header of a tensor without bytes. -/
def Plain (h : TensorHeader) : Prop := h.ndim = 1 ∧ h.dtype = 3 ∧ h.nbytes = 0

/-- A publication with this sequence that waits for the consumer. -/
structure Waits (q : UInt64) (t : Slot) : Prop where
  state : t.state = .committed
  sequence : t.sequence = q
  mask : t.readersMask = 1
  header : Plain t.header

/-- The memory is as the stage says, and the second slot as `Q` says. -/
structure Stage.Shows (x : Stage) (Q : Slot → Prop) (s : Memory) : Prop where
  lock : s.lock = x.lock
  writer : s.writer 0 = none
  consumer : ∃ generation, s.consumer 0 =
    some { index := 0, generation := generation, lastSequence := x.last, closed := false }
  leases : s.leases 0 = x.leases
  entries : ∀ e, (s.ring.entries e).state = if e = 0 then .active else .free
  pid : (s.ring.entries 0).pid = 7
  next : s.ring.nextSeq = x.next
  first : Waits 0 (s.ring.slots 0)
  second : Q (s.ring.slots 1)

/-- A committed slot that nobody reads. -/
def Idle (t : Slot) : Prop := t.state = .committed ∧ t.readersMask = 0

variable {x : Stage} {Q Q' : Slot → Prop} {α : Type} {Ψ : α → Memory → Prop}

/-! ## accesses -/

/-- A store to the second slot. -/
theorem store_second {f : Slot → Slot} (Q' : Slot → Prop) (hf : ∀ t, Q t → Q' (f t))
    {aux : Memory → Ghost 2 → Ghost 2} {k : Unit → RingM .single 2 α}
    (hk : Alone (k ()) (x.Shows Q') Ψ) : Alone (storeSlotWith 1 f aux >>= k) (x.Shows Q) Ψ :=
  Alone.stored (fun s hs => { hs with
    first := by simpa [Ring.setSlot] using hs.first
    second := by simpa [Ring.setSlot] using hf _ hs.second }) hk

/-- A store to words of the mapping that no stage speaks of. -/
theorem store_other {f : Ring 2 → Ring 2} {k : Unit → RingM .single 2 α}
    (hk : Alone (k ()) (x.Shows Q) Ψ) (he : ∀ r, (f r).entries = r.entries := by intro; rfl)
    (hn : ∀ r, (f r).nextSeq = r.nextSeq := by intro; rfl)
    (hs : ∀ r, (f r).slots = r.slots := by intro; rfl) :
    Alone (store f >>= k) (x.Shows Q) Ψ :=
  Alone.stored (fun s h => { h with
    entries := fun e => by simpa [he] using h.entries e
    pid := by simpa [he] using h.pid
    next := by simpa [hn] using h.next
    first := by simpa [hs] using h.first
    second := by simpa [hs] using h.second }) hk

theorem wake (w : FutexWord) :
    Alone (signal w : RingM .single 2 Unit) (x.Shows Q) fun _ => x.Shows Q := by
  have hwake : Alone (wakeAll w : RingM .single 2 Unit) (x.Shows Q) fun _ => x.Shows Q :=
    Alone.modify fun s h => { h with }
  cases w with
  | publish =>
    exact store_other (f := fun r => { r with publishFutex := r.publishFutex + 1 })
      (k := fun _ => wakeAll _) hwake
  | reclaim =>
    exact store_other (f := fun r => { r with reclaimFutex := r.reclaimFutex + 1 })
      (k := fun _ => wakeAll _) hwake

/-! ## the producer -/

theorem reapDead_alone (a : Actor) (hx : ∀ t, Q t → t.state = .committed) :
    Alone (Ring.reapDead a : RingM .single 2 Unit) (x.Shows Q) fun _ => x.Shows Q := by
  have hentry : ∀ (done : List (Fin 64)) i freed, Alone (Ring.reapEntry a freed i)
      (fun s : Memory => freed = false ∧ x.Shows Q s) fun freed s => freed = false ∧ x.Shows Q s :=
    fun _ i freed => by
      refine Alone.known (v := if i = 0 then .active else .free)
        (fun s hs => hs.2.entries i) ?_
      by_cases hi : i = 0
      · subst hi
        exact Alone.known (v := 7) (fun s hs => hs.2.pid) (Alone.ret fun _ hs => hs)
      · rw [if_neg hi, if_pos nofun]
        exact Alone.ret fun _ hs => hs
  have hslot : ∀ (done : List (Fin 2)) i freed, Alone (Ring.reapSlot a freed i)
      (fun s : Memory => freed = false ∧ x.Shows Q s) fun freed s => freed = false ∧ x.Shows Q s :=
    fun _ i freed => by
      refine Alone.known (v := .committed) (fun s hs => ?_) ?_
      · match i with
        | 0 => exact hs.2.first.state
        | 1 => exact hx _ hs.2.second
      · rw [if_pos nofun]
        exact Alone.ret fun _ hs => hs
  refine Alone.stored (fun s hs => hs) ?_
  refine Alone.seq (Alone.pre (Alone.fold (fun _ freed s => freed = false ∧ x.Shows Q s) hentry _ []
    false) fun s hs => ⟨rfl, hs⟩) fun freed => ?_
  refine Alone.seq (Alone.fold (fun _ freed s => freed = false ∧ x.Shows Q s) hslot _ [] freed)
    fun freed => Alone.given fun hfreed => Alone.stored (fun s hs => hs) ?_
  subst hfreed
  exact Alone.ret fun _ hs => hs

theorem activeMask_alone :
    Alone (Ring.activeMask : RingM .single 2 UInt64) (x.Shows Q) fun mask s =>
      mask = 1 ∧ x.Shows Q s := by
  refine Alone.post (Alone.pre (Alone.fold (fun done mask s =>
    (mask = if 0 ∈ done then 1 else 0) ∧ x.Shows Q s) (fun done i mask => Alone.given fun hm => ?_)
    (List.finRange 64) [] 0) fun s hs => ⟨rfl, hs⟩) fun mask s hs => ⟨hs.1, hs.2⟩
  refine Alone.known (v := if i = 0 then .active else .free) (fun s hs => hs.entries i) ?_
  by_cases hi : i = 0
  · subst hi
    refine Alone.ret fun s hs => ⟨?_, hs⟩
    rw [hm]
    by_cases h0 : (0 : Fin 64) ∈ done <;> simp [h0] <;> decide
  · rw [if_neg hi, if_neg nofun]
    refine Alone.ret fun s hs => ⟨?_, hs⟩
    rw [hm]
    simp [Ne.symm hi]

/-- The second slot is the one that can be had. -/
theorem chooseSlot_alone :
    Alone (Producer.chooseSlot : RingM .single 2 _) (x.Shows Idle) fun chosen s =>
      chosen = some 1 ∧ x.Shows Idle s := by
  refine Alone.seq (Ψ := fun found s =>
    found.1.or (found.2.map (·.2)) = some 1 ∧ x.Shows Idle s) ?_ fun found =>
      Alone.ret fun _ hs => hs
  rw [show List.finRange 2 = [0, 1] from rfl, List.foldlM_cons]
  refine Alone.seq (Ψ := fun found s => found = (none, none) ∧ x.Shows Idle s) ?_ fun found =>
    Alone.given fun hf => ?_
  · refine Alone.known (v := .committed) (fun s hs => hs.first.state) ?_
    exact Alone.known (v := 1) (fun s hs => hs.first.mask) (Alone.ret fun s hs => ⟨rfl, hs⟩)
  · subst hf
    rw [List.foldlM_cons]
    refine Alone.seq (Ψ := fun found s =>
      found.1.or (found.2.map (·.2)) = some 1 ∧ x.Shows Idle s) ?_ fun found =>
        Alone.ret fun _ hs => hs
    refine Alone.known (v := .committed) (fun s hs => hs.second.1) ?_
    refine Alone.known (v := 0) (fun s hs => hs.second.2) ?_
    exact Alone.unknown fun q => Alone.ret fun s hs => ⟨rfl, hs⟩

/-- A slot whose header is being written, as far as it matters. -/
structure Writing (q mask : UInt64) (Q : TensorHeader → Prop) (t : Slot) : Prop where
  sequence : t.sequence = q
  mask : t.readersMask = mask
  header : Q t.header

/-- The stores of a reservation of the second slot. -/
theorem writeHeader_alone {q : UInt64} :
    Alone (Producer.writeHeader (P := .single) 0 1 q 1 nothing.dtype nothing.ndim nothing.shape
        nothing.strides nothing.data.length nothing.timestampNs) (x.Shows Idle)
      fun _ => ({ x with next := q + 1 } : Stage).Shows (Writing q 1 Plain) := by
  refine store_second (fun t => t.readersMask = 0) (fun t ht => by exact ht.2) ?_
  refine store_second (fun t => t.readersMask = 0) (fun t ht => by exact ht) ?_
  refine Alone.unknown fun token => ?_
  refine store_second (fun t => t.readersMask = 0) (fun t ht => by exact ht) ?_
  refine store_second (Writing q 0 fun _ => True) (fun t ht => by exact ⟨rfl, ht, trivial⟩) ?_
  refine Alone.unknown fun stamp => ?_
  refine store_second (Writing q 0 fun _ => True) (fun t ht => by exact ⟨ht.1, ht.2, ht.3⟩) ?_
  refine store_second (Writing q 0 fun h => h.nbytes = 0)
    (fun t ht => by exact ⟨ht.1, ht.2, rfl⟩) ?_
  refine store_second (Writing q 0 fun h => h.dtype = 3 ∧ h.nbytes = 0)
    (fun t ht => by exact ⟨ht.1, ht.2, rfl, ht.3⟩) ?_
  refine store_second (Writing q 0 Plain) (fun t ht => by exact ⟨ht.1, ht.2, rfl, ht.3⟩) ?_
  refine store_second (Writing q 0 Plain) (fun t ht => by exact ⟨ht.1, ht.2, ht.3⟩) ?_
  refine Alone.seq (Alone.each (fun d => ?_) _) fun _ => ?_
  · refine store_second (Writing q 0 Plain) (fun t ht => by exact ⟨ht.1, ht.2, ht.3⟩) ?_
    exact Alone.modifyWith fun s hs => { hs with
      first := by simpa [Ring.setSlot] using hs.first
      second := by simpa [Ring.setSlot] using ⟨hs.second.1, hs.second.2, hs.second.3⟩ }
  refine store_second (Writing q 1 Plain) (fun t ht => by exact ⟨ht.1, rfl, ht.3⟩) ?_
  refine store_second (Writing q 1 Plain) (fun t ht => by exact ⟨ht.1, ht.2, ht.3⟩) ?_
  exact Alone.modifyWith fun s hs => { hs with next := rfl }

/-- A publication into the second slot. -/
theorem publish_alone (hlock : x.lock = none) :
    Alone (void (Producer.publish (P := .single) two 0 nothing .dropNewest 0)) (x.Shows Idle)
      fun _ => x.published.Shows (Waits x.next) := by
  refine Alone.seq (Ψ := fun _ => x.published.Shows (Waits x.next)) ?_
    fun _ => Alone.ret fun _ hs => hs
  unfold Producer.publish
  rw [if_neg (by decide)]
  refine Alone.unknown fun start => Alone.once ?_
  refine Alone.seq (Ψ := fun r s => r = some (1, x.next, 1) ∧
    x.published.Shows (Writing x.next 1 Plain) s) ?_
    fun r => Alone.given fun hr => ?_
  · refine Alone.seq (Ψ := fun _ => ({ x with lock := some (.writer 0) } : Stage).Shows Idle)
      (Alone.act fun s hs => ⟨(), _, if_pos ?_, { hs with lock := rfl }⟩) fun _ => ?_
    · simp [State.lockFree, hs.lock, hlock]
    refine Alone.seq (Ψ := fun r s => r = some (1, x.next, 1) ∧
      ({ x with lock := some (.writer 0), next := x.next + 1 } : Stage).Shows
        (Writing x.next 1 Plain) s) ?_ fun r =>
      Alone.given fun hr => Alone.stored (fun s hs => by exact ⟨hr, { hs with lock := hlock.symm }⟩)
        (Alone.ret fun _ hs => hs)
    refine Alone.seq (reapDead_alone _ fun t ht => ht.1) fun _ => ?_
    refine Alone.seq chooseSlot_alone fun chosen => Alone.given fun hchosen => ?_
    subst hchosen
    refine Alone.known (v := x.next) (fun s hs => hs.next) ?_
    refine Alone.seq activeMask_alone fun mask => Alone.given fun hmask => ?_
    subst hmask
    exact Alone.seq writeHeader_alone fun _ => Alone.ret fun s hs => ⟨rfl, hs⟩
  · subst hr
    -- there are no bytes to copy
    refine Alone.seq (Ψ := fun _ =>
      x.published.Shows (Writing x.next 1 Plain))
      (Alone.ret fun _ hs => hs) fun _ => ?_
    refine Alone.seq (Ψ := fun _ => x.published.Shows (Waits x.next))
      ?_ fun _ => Alone.ret fun s hs => ⟨_, rfl, hs⟩
    refine store_second (Waits x.next) (fun t ht => by exact ⟨rfl, ht.1, ht.2, ht.3⟩) ?_
    exact store_other (wake .publish)

/-! ## the consumer -/

variable {con : Consumer} {j : Fin 2} {q : UInt64}

/-- Slot `j` has a publication that is new to the consumer, and no other slot has. -/
structure Offers (x : Stage) (Q : Slot → Prop) (j : Fin 2) (q : UInt64) (s : Memory) : Prop where
  shows : x.Shows Q s
  waits : Waits q (s.ring.slots j)
  newer : seqNewer q x.last = true
  others : ∀ i ≠ j, Idle (s.ring.slots i) ∨
    Waits 0 (s.ring.slots i) ∧ seqNewer 0 x.last = false

theorem scanSlot_alone (hcon : con.index = 0) (i : Fin 2)
    (best : Option (UInt64 × Fin 2)) (hj : i = j → best = none) :
    Alone (Consumer.scanSlot con x.last best i : RingM .single 2 _) (Offers x Q j q) fun r s =>
      r = (if i = j then some (q, j) else best) ∧ Offers x Q j q s := by
  have hbit : bit con.index = 1 := by rw [hcon]; decide
  by_cases hi : i = j
  · subst hi
    rw [hj rfl, if_pos rfl]
    refine Alone.known (v := .committed) (fun s hs => hs.waits.state) ?_
    refine Alone.known (v := 1) (fun s hs => hs.waits.mask) ?_
    rw [if_neg (by rw [hbit]; decide)]
    refine Alone.known (v := q) (fun s hs => hs.waits.sequence) ?_
    refine Alone.pre (Alone.given fun hn => ?_) fun s hs => ⟨hs.newer, hs⟩
    rw [if_neg (by simp [hn])]
    exact Alone.ret fun s hs => ⟨rfl, hs⟩
  · rw [if_neg hi]
    refine Alone.known (v := .committed) (fun s hs => ?_) ?_
    · exact (hs.others i hi).elim (·.1) (·.1.state)
    rw [if_neg (by decide)]
    refine Alone.seq (Ψ := fun mask s => (mask = 0 ∨ mask = 1 ∧
      Waits 0 (s.ring.slots i) ∧ seqNewer 0 x.last = false) ∧ Offers x Q j q s)
      (Alone.read fun s hs => ⟨?_, hs⟩) fun mask => ?_
    · exact (hs.others i hi).imp (·.2) fun h => ⟨h.1.mask, h⟩
    split
    · exact Alone.ret fun s hs => ⟨rfl, hs.2⟩
    next hm =>
    refine Alone.pre (Φ := fun s => seqNewer 0 x.last = false ∧ Waits 0 (s.ring.slots i) ∧
      Offers x Q j q s) (Alone.given fun hn => ?_) fun s hs => ?_
    · refine Alone.known (v := 0) (fun s hs => hs.1.sequence) ?_
      rw [if_pos (by simp [hn])]
      exact Alone.ret fun s hs => ⟨rfl, hs.2⟩
    · rcases hs.1 with rfl | ⟨-, hw, hn⟩
      · exact absurd (by rw [hbit]; decide) hm
      · exact ⟨hn, hw, hs.2⟩

theorem scanOldest_alone (hcon : con.index = 0) :
    Alone (Consumer.scanOldest 0 con : RingM .single 2 _) (Offers x Q j q) fun r s =>
      r = some (q, j) ∧ Offers x Q j q s := by
  refine Alone.known (v := x.last) (fun s hs => ?_) ?_
  · obtain ⟨g, hg⟩ := hs.shows.consumer
    rw [hg]; rfl
  rw [show List.finRange 2 = [0, 1] from rfl, List.foldlM_cons]
  refine Alone.seq (scanSlot_alone hcon 0 none fun _ => rfl) fun r => Alone.given fun hr => ?_
  subst hr
  rw [List.foldlM_cons]
  refine Alone.seq (scanSlot_alone hcon 1 _ fun h => by subst h; rfl) fun r =>
    Alone.given fun hr => Alone.ret fun s hs => ⟨hr.trans ?_, hs⟩
  match j with
  | 0 => rfl
  | 1 => rfl

theorem readValidated_alone (hcon : con.index = 0) :
    Alone (Consumer.readValidated 64 0 con j q : RingM .single 2 _) (Offers x Q j q) fun r s =>
      (∃ m, r = some m ∧ m.slotIndex = j ∧ m.sequence = q) ∧ Offers x Q j q s := by
  have hbit : bit con.index = 1 := by rw [hcon]; decide
  refine Alone.known (v := .committed) (fun s hs => hs.waits.state) ?_
  refine Alone.known (v := q) (fun s hs => hs.waits.sequence) ?_
  rw [if_neg (not_not.mpr rfl)]
  refine Alone.known (v := 1) (fun s hs => hs.waits.header.1) ?_
  refine Alone.known (v := 3) (fun s hs => hs.waits.header.2.1) ?_
  refine Alone.known (v := 0) (fun s hs => hs.waits.header.2.2) ?_
  refine Alone.unknown fun stamp => ?_
  refine Alone.seq (Ψ := fun _ => Offers x Q j q)
    (Alone.fold (fun _ _ => Offers x Q j q) (fun _ d dims => Alone.unknown fun extent =>
      Alone.unknown fun stride => Alone.ret fun _ hs => hs) _ [] _) fun dims => ?_
  refine Alone.known (v := 1) (fun s hs => hs.waits.mask) ?_
  refine Alone.known (v := .committed) (fun s hs => hs.waits.state) ?_
  refine Alone.known (v := q) (fun s hs => hs.waits.sequence) ?_
  rw [if_neg (not_not.mpr rfl), if_neg (by rw [hbit]; decide)]
  refine Alone.known (v := 1) (fun s hs => hs.waits.mask) ?_
  rw [if_neg (by rw [hbit]; decide)]
  exact Alone.stored (fun s hs => hs) (Alone.ret fun s hs => ⟨⟨_, rfl, rfl, rfl⟩, hs⟩)

/-- A store to a registry entry that leaves its state and its pid alone. -/
theorem store_entry {f : ConsumerEntry → ConsumerEntry} {i : Fin 64}
    (hstate : ∀ t, (f t).state = t.state := by intro; rfl)
    (hpid : ∀ t, (f t).pid = t.pid := by intro; rfl) :
    Alone (storeEntry i f : RingM .single 2 Unit) (x.Shows Q) fun _ => x.Shows Q :=
  Alone.modify fun s h => { h with
    entries := fun e => by
      by_cases he : e = i
      · subst he; simpa [Ring.setEntry, hstate] using h.entries e
      · simpa [Ring.setEntry, he] using h.entries e
    pid := by
      by_cases he : (0 : Fin 64) = i
      · subst he; simpa [Ring.setEntry, hpid] using h.pid
      · simpa [Ring.setEntry, he] using h.pid }

theorem heartbeat_alone :
    Alone (Consumer.heartbeat con : RingM .single 2 Unit) (x.Shows Q) fun _ => x.Shows Q :=
  Alone.unknown fun _ => store_entry

/-- The consumer takes what is offered. -/
theorem nextRaw_alone (hcon : con.index = 0) :
    Alone (void (Consumer.nextRaw (P := .single) (n := 2) 64 0 con 0)) (Offers x Q j q) fun _ s =>
      ∃ m, m.slotIndex = j ∧ m.sequence = q ∧
        (x.took m).Shows Q s := by
  refine Alone.seq (Ψ := fun _ s => ∃ m, m.slotIndex = j ∧ m.sequence = q ∧
    (x.took m).Shows Q s) ?_
    fun _ => Alone.ret fun _ hs => hs
  refine Alone.unknown fun start => Alone.once (Alone.unknown fun observed => ?_)
  refine Alone.seq (Ψ := fun r s => (∃ m, r = some m ∧ m.slotIndex = j ∧ m.sequence = q) ∧
    Offers x Q j q s) ?_ fun r => Alone.given fun hr => ?_
  · refine Alone.stored (fun s hs => hs) ?_
    refine Alone.seq (scanOldest_alone hcon) fun found => Alone.given fun hfound => ?_
    subst hfound
    refine Alone.seq (Ψ := fun best s => best = (q, j) ∧ Offers x Q j q s) ?_ fun best =>
      Alone.given fun hbest => ?_
    · refine Alone.seq (scanOldest_alone hcon) fun found => Alone.given fun hfound => ?_
      subst hfound
      dsimp only
      rw [if_neg (by simp)]
      exact Alone.ret fun s hs => ⟨rfl, hs⟩
    · subst hbest
      refine Alone.seq (readValidated_alone hcon) fun r => Alone.given fun hr => ?_
      exact Alone.stored (fun s hs => hs) (Alone.ret fun s hs => ⟨hr, hs⟩)
  · obtain ⟨m, rfl, hm, hq⟩ := hr
    refine Alone.stored (Θ := (x.took m).Shows Q)
      (fun s hs => ?_) ?_
    · obtain ⟨g, hg⟩ := hs.shows.consumer
      exact { hs.shows with
        consumer := ⟨g, by simp [hg, Stage.took]⟩
        leases := by simp [hs.shows.leases, Stage.took] }
    · refine Alone.seq store_entry fun _ =>
        Alone.seq heartbeat_alone fun _ => Alone.ret fun s hs => ⟨_, rfl, m, hm, hq, hs⟩

/-- The consumer releases what it took from the second slot. -/
theorem release_alone (hcon : con.index = 0) {m : TensorMeta 2} (hm : m.slotIndex = 1)
    {leases : List (TensorMeta 2)} (hx : x.leases = m :: leases) :
    Alone (void (Consumer.release (P := .single) (n := 2) 0 con m)) (x.Shows (Waits m.sequence))
      fun _ => (x.released leases).Shows Idle := by
  have hbit : bit con.index = 1 := by rw [hcon]; decide
  refine Alone.seq (Ψ := fun _ => (x.released leases).Shows Idle) ?_
    fun _ => Alone.ret fun _ hs => hs
  unfold Consumer.release
  rw [hm]
  refine Alone.known (v := m.sequence) (fun s hs => hs.second.sequence) ?_
  rw [if_neg (not_not.mpr rfl)]
  refine Alone.seq (Ψ := fun b s => b = 1 ∧ (x.released leases).Shows Idle s)
    (Alone.act fun s hs => ⟨1, _, by rw [hs.second.mask], rfl, ?_⟩) fun b =>
      Alone.given fun hb => ?_
  · exact { hs with
      first := by simpa [Consumer.dropLease, Ring.setSlot] using hs.first
      second := by
        refine ⟨by simpa [Consumer.dropLease, Ring.setSlot] using hs.second.state, ?_⟩
        simp only [Consumer.dropLease, Ring.setSlot, Function.update_self, hs.second.mask, hbit]
        decide
      leases := by simp [Consumer.dropLease, Stage.released, hs.leases, hx] }
  · subst hb
    rw [if_neg (by rw [hbit]; decide)]
    refine store_second Idle (fun t ht => by exact ht) ?_
    refine Alone.seq heartbeat_alone fun _ => ?_
    rw [if_pos (by rw [hbit]; decide)]
    exact Alone.seq (wake .reclaim) fun _ => Alone.ret fun _ hs => hs

/-- Releasing a lease on the first slot clears its bit, whoever else holds a lease on it. -/
theorem release_first (hcon : con.index = 0) {m : TensorMeta 2} (hm : m.slotIndex = 0)
    (hq : m.sequence = 0) {leases : List (TensorMeta 2)} (hx : x.leases = m :: leases) :
    Alone (void (Consumer.release (P := .single) (n := 2) 0 con m)) (x.Shows Q) fun _ s =>
      s.leases 0 = leases ∧ (∃ h, s.isOpen 0 h) ∧ (s.ring.slots 0).readersMask = 0 := by
  have hbit : bit con.index = 1 := by rw [hcon]; decide
  let Cleared : Memory → Prop := fun s =>
    s.leases 0 = leases ∧ (∃ h, s.isOpen 0 h) ∧ (s.ring.slots 0).readersMask = 0
  refine Alone.seq (Ψ := fun _ => Cleared) ?_ fun _ => Alone.ret fun _ hs => hs
  unfold Consumer.release
  rw [hm, hq]
  refine Alone.known (v := 0) (fun s hs => hs.first.sequence) ?_
  rw [if_neg (not_not.mpr rfl)]
  refine Alone.seq (Ψ := fun b s => b = 1 ∧ Cleared s)
    (Alone.act fun s hs => ⟨1, _, by rw [hs.first.mask], rfl, ?_, ?_, ?_⟩) fun b =>
      Alone.given fun hb => ?_
  · simp [Consumer.dropLease, hs.leases, hx]
  · obtain ⟨g, hg⟩ := hs.consumer
    exact ⟨_, hg, rfl⟩
  · simp only [Consumer.dropLease, Ring.setSlot, Function.update_self, hs.first.mask, hbit]
    decide
  · subst hb
    rw [if_neg (by rw [hbit]; decide)]
    refine Alone.stored (Θ := Cleared) (fun s hs => ⟨hs.1, hs.2.1, ?_⟩) ?_
    · simpa [Ring.setSlot] using hs.2.2
    refine Alone.seq (Ψ := fun _ => Cleared) (Alone.unknown fun _ => Alone.modify fun s hs => hs)
      fun _ => ?_
    rw [if_pos (by rw [hbit]; decide)]
    refine Alone.seq (Ψ := fun _ => Cleared) ?_ fun _ => Alone.ret fun _ hs => hs
    exact Alone.stored (Θ := Cleared) (fun s hs => hs) (Alone.modify fun s hs => hs)

/-! ## the run -/

/-- A run in which consumer and producer are idle now. -/
def Reached (s : Memory) : Prop :=
  ∃ c, (ringSystem .single two).Reach (fun _ _ => True)
    (Fresh .single two 0 Platform.single.allAlive) c ∧ c.mem.1 = s ∧
      c.pool (.consumer 0) = .ret () ∧ c.pool (.writer 0) = .ret ()

/-- An operation, run alone. -/
theorem Reached.alone {a : Actor} (ha : a = .consumer 0 ∨ a = .writer 0) {p : RingM .single 2 Unit}
    {Φ : Memory → Prop} {Ψ : Unit → Memory → Prop} {s : Memory} (h : Reached s) (hp : Alone p Φ Ψ)
    (hstart : Starts two s a p) (hs : Φ s) : ∃ s', Reached s' ∧ Ψ () s' := by
  obtain ⟨c, h, rfl, hc, hw⟩ := h
  have hidle : c.pool a = .ret () := by rcases ha with rfl | rfl <;> assumption
  obtain ⟨d, hd, hs', hpool⟩ := h.alone (fun _ => rfl) hp hidle ⟨rfl, hstart⟩ hs
  exact ⟨d.mem.1, ⟨d, hd, rfl, hpool _ hc, hpool _ hw⟩, hs'⟩

/-- Between two rounds: so many publications have gone through the second slot. -/
def between (first : TensorMeta 2) (rounds : Nat) : Stage :=
  { lock := none, next := seqWord (rounds + 2), last := seqWord (rounds + 1), leases := [first] }

/-- A round: a publication goes through the second slot. -/
theorem round {first : TensorMeta 2} {i : Nat} (hi : i < 2 ^ 63) {s : Memory} (h : Reached s)
    (hs : (between first i).Shows Idle s) :
    ∃ s', Reached s' ∧ (between first (i + 1)).Shows Idle s' := by
  have hnew : seqNewer (seqWord (i + 2)) (seqWord (i + 1)) = true :=
    (seqNewer_seqWord (by omega) (by omega)).mpr (by omega)
  -- the first publication is not yet taken for a new one
  have hold : seqNewer 0 (seqWord (i + 1)) = false := by
    rw [← Bool.not_eq_true, show (0 : UInt64) = seqWord 0 from rfl,
      seqNewer_seqWord (by omega) (by omega)]
    omega
  obtain ⟨s₁, h₁, hs₁⟩ := h.alone (.inr rfl) (publish_alone rfl)
    (.publish 0 hs.writer nothing .dropNewest 0) hs
  obtain ⟨g, hg⟩ := hs₁.consumer
  obtain ⟨s₂, h₂, m, hm, hq, hs₂⟩ :=
    h₁.alone (.inl rfl) (nextRaw_alone (j := 1) (q := seqWord (i + 2)) rfl)
    (.next 0 _ ⟨hg, rfl⟩ 0) ⟨hs₁, hs₁.second, hnew, fun j hj => by
      have hj : j = 0 := by omega
      subst hj
      exact .inr ⟨hs₁.first, hold⟩⟩
  obtain ⟨g, hg⟩ := hs₂.consumer
  have hheld : m ∈ s₂.leases 0 := by rw [hs₂.leases]; simp [Stage.took]
  have hs₂' : ((between first i).published.took m).Shows (Waits m.sequence) s₂ := by
    rw [hq]; exact hs₂
  have hstart := Starts.release (P := .single) (L := two) 0 _ ⟨hg, rfl⟩ m hheld
  obtain ⟨s₃, h₃, hs₃⟩ := h₂.alone (.inl rfl) (release_alone rfl hm rfl) hstart hs₂'
  obtain ⟨g, hg⟩ := hs₃.consumer
  refine ⟨s₃, h₃, { hs₃ with consumer := ⟨g, hg.trans ?_⟩, next := hs₃.next.trans ?_ }⟩
  · simp only [between, Stage.took, Stage.released, hq]
    congr 3
  · simp only [between, Stage.took, Stage.released, Stage.published, seqWord_add_one]
    congr 1

theorem rounds {first : TensorMeta 2} {s : Memory} (h : Reached s)
    (hs : (between first 0).Shows Idle s) : ∀ i ≤ 2 ^ 63,
      ∃ s', Reached s' ∧ (between first i).Shows Idle s' := by
  intro i
  induction i with
  | zero => exact fun _ => ⟨s, h, hs⟩
  | succ i ih =>
    intro hi
    obtain ⟨s', h', hs'⟩ := ih (by omega)
    exact round (by omega) h' hs'

/-- What is to be checked after the first operations, of this entry and these slots. -/
def started (e₀ : Fin 64) (first second : Fin 2) (s : Memory) : Bool :=
  decide (s.lock = none) && (s.writer 0).isNone &&
    (s.consumer 0).any (fun h => h.index = e₀ ∧ h.lastSequence = 1 ∧ h.closed = false) &&
    (match s.leases 0 with
      | [m] => decide (m.slotIndex = first ∧ m.sequence = 0)
      | _ => false) &&
    decide (∀ e, (s.ring.entries e).state = if e = e₀ then .active else .free) &&
    decide ((s.ring.entries e₀).pid = 7 ∧ s.ring.nextSeq = 2) &&
    decide ((s.ring.slots first).state = .committed ∧ (s.ring.slots first).sequence = 0 ∧
      (s.ring.slots first).readersMask = 1 ∧ (s.ring.slots first).header.ndim = 1 ∧
      (s.ring.slots first).header.dtype = 3 ∧ (s.ring.slots first).header.nbytes = 0) &&
    decide ((s.ring.slots second).state = .committed ∧ (s.ring.slots second).readersMask = 0)

theorem between_of_started {s : Memory} (h : started 0 0 1 s = true) :
    ∃ m, m.slotIndex = 0 ∧ m.sequence = 0 ∧ (between m 0).Shows Idle s := by
  simp only [started, Bool.and_eq_true, decide_eq_true_eq] at h
  obtain ⟨⟨⟨⟨⟨⟨⟨hlock, hw⟩, hc⟩, hl⟩, he⟩, hp, hn⟩, hz⟩, ho⟩ := h
  obtain ⟨con, hcon, hfit⟩ : ∃ con, s.consumer 0 = some con ∧
      con.index = 0 ∧ con.lastSequence = 1 ∧ con.closed = false := by
    cases hcon : s.consumer 0 with
    | none => simp [hcon] at hc
    | some con => exact ⟨con, rfl, by simpa [hcon] using hc⟩
  split at hl
  · next m hm =>
    simp only [decide_eq_true_eq] at hl
    refine ⟨m, hl.1, hl.2, hlock, by simpa using hw, ⟨con.generation, ?_⟩, hm, he, hp, ?_,
      ⟨hz.1, hz.2.1, hz.2.2.1, hz.2.2.2⟩, ho⟩
    · rw [hcon, ← hfit.1, ← hfit.2.2]
      simp only [between]
      rw [show seqWord (((0 : Nat) : Int) + 1) = 1 from rfl, ← hfit.2.1]
    · exact hn
  · cases hl

open Script in
theorem reached_start : ∃ m s, m.slotIndex = 0 ∧ m.sequence = 0 ∧ Reached s ∧
    (between m 0).Shows Idle s := by
  obtain ⟨d, hd, ht⟩ := Script.reach two 0 Platform.single.allAlive
    (fun _ => rfl) (fun _ _ => True) (fun _ _ => true) (fun _ _ _ => trivial)
    (whole (.consumer 0) (register 0) ++ whole (.writer 0) (publish 0 nothing) ++
      whole (.consumer 0) (next 0) ++ whole (.writer 0) (publish 0 nothing) ++
      whole (.consumer 0) (next 0) ++ whole (.consumer 0) (release 0))
    (fun d => started 0 0 1 d.mem.1 && (d.pool (.consumer 0)).isDone &&
      (d.pool (.writer 0)).isDone) (by decide +kernel)
  simp only [Bool.and_eq_true] at ht
  obtain ⟨m, hm, hq, hs⟩ := between_of_started ht.1.1
  exact ⟨m, _, hm, hq, ⟨d, hd, rfl, Prog.eq_ret_of_isDone ht.1.2, Prog.eq_ret_of_isDone ht.2⟩, hs⟩

/-- In a run of live processes a consumer loses the reader bit of a slot on which it holds a
lease. -/
theorem disturbed : ∃ (c : RingConfig .single two) (m : TensorMeta 2),
    (ringSystem .single two).Reach Calm (Fresh .single two 0 Platform.single.allAlive) c ∧
      Holding 0 m c.mem ∧ ¬Undisturbed 0 m c.mem c.mem := by
  obtain ⟨m, s₀, hm, hq, h₀, hs₀⟩ := reached_start
  obtain ⟨s₁, h₁, hs₁⟩ := rounds h₀ hs₀ (2 ^ 63) le_rfl
  -- now the first publication is taken for a new one
  have hnew : seqNewer 0 (seqWord (((2 ^ 63 : Nat) : Int) + 1)) = true := by decide
  obtain ⟨g, hg⟩ := hs₁.consumer
  obtain ⟨s₂, h₂, m', hm', hq', hs₂⟩ := h₁.alone (.inl rfl) (nextRaw_alone (j := 0) (q := 0) rfl)
    (.next 0 _ ⟨hg, rfl⟩ 0) ⟨hs₁, hs₁.first, hnew, fun j hj => by
      have hj : j = 1 := by omega
      subst hj
      exact .inl hs₁.second⟩
  obtain ⟨g, hg⟩ := hs₂.consumer
  have hheld : m' ∈ s₂.leases 0 := by rw [hs₂.leases]; simp [Stage.took]
  have hstart := Starts.release (P := .single) (L := two) 0 _ ⟨hg, rfl⟩ m' hheld
  obtain ⟨s₃, ⟨c, h₃, rfl, -⟩, hl, ⟨con, hcon⟩, hmask⟩ := h₂.alone (.inl rfl)
    (release_first rfl hm' hq' rfl) hstart hs₂
  refine ⟨c, m, reach_calm h₃, ⟨?_, con, hcon⟩, fun hu => hu.reader con hcon ?_⟩
  · rw [hl]; simp [between]
  · rw [hm, hmask]; simp

end TenzorBus.Overrun
