import TenzorBus.Guarantee.Oracle

/-!
# The registry and its count

As long as nobody dies between the store of an entry's state and that of `G_CONSUMERS`, the count is
that of the active entries, but for the one entry that is being counted.

* `Proto.heldEntries` : the registry entries that somebody holds
* `Counted` : `G_CONSUMERS` counts them
* `countMode_lawful` : it does in every run in which nobody dies while counting
-/

namespace TenzorBus

open Conc Refine

variable {P : Platform} {L : RingLayout} {n : Nat} {token : Nat → UInt32} {k : UInt64}
  {start : P.Os → Prop}

/-- The registry entries that somebody holds. -/
def Ghost.heldEntries (g : Ghost n) : Finset (Fin 64) :=
  Finset.univ.filter fun i => g.holder i ≠ none

theorem Ghost.mem_heldEntries {g : Ghost n} {i : Fin 64} :
    i ∈ g.heldEntries ↔ g.holder i ≠ none := by
  simp [Ghost.heldEntries]

theorem Ghost.card_heldEntries_le (g : Ghost n) : g.heldEntries.card ≤ 64 :=
  (Finset.card_le_univ _).trans (by simp)

theorem Ghost.heldEntries_register {g : Ghost n} {c : Nat} {i : Fin 64} (h : g.holder i = none) :
    (g.register c i).heldEntries.card = g.heldEntries.card + 1 := by
  have hi : i ∉ g.heldEntries := by simp [Ghost.mem_heldEntries, h]
  rw [← Finset.card_insert_of_notMem hi]
  congr 1
  ext j
  rw [Finset.mem_insert, Ghost.mem_heldEntries, Ghost.mem_heldEntries]
  by_cases hj : j = i
  · simp [Ghost.register, hj]
  · simp [Ghost.register, hj]

theorem Ghost.heldEntries_deregister {g : Ghost n} {a : Actor} {i : Fin 64}
    (h : g.holder i ≠ none) :
    (g.deregister a i).heldEntries.card + 1 = g.heldEntries.card := by
  have hi : i ∈ g.heldEntries := Ghost.mem_heldEntries.mpr h
  rw [← Finset.card_erase_add_one hi]
  congr 2
  ext j
  rw [Finset.mem_erase, Ghost.mem_heldEntries, Ghost.mem_heldEntries]
  by_cases hj : j = i
  · simp [Ghost.deregister, hj]
  · simp [Ghost.deregister, hj]

/-- What is still to be added to `G_CONSUMERS`. -/
def Ghost.uncounted (g : Ghost n) : Int :=
  match g.counting with
  | none => 0
  | some (_, true) => 1
  | some (_, false) => -1

/-- `G_CONSUMERS` counts the entries that somebody holds; whoever has still to count holds the lock
and is alive. -/
structure Counted (v : View P n) : Prop where
  counting : ∀ a b, v.proto.hist.counting = some (a, b) →
    v.proto.lock = some a ∧ v.proto.alive a
  count : (v.consumers.toNat : Int) + v.proto.hist.uncounted = v.proto.hist.heldEntries.card

/-- Nobody dies while counting. -/
def CountersAlive (v : View P n) : Prop :=
  ∀ a b, v.proto.hist.counting = some (a, b) → v.proto.alive a

/-- What a transition of `a` does to the registry. -/
inductive Proto.Registers (p p' : Proto n) (a : Actor) : Prop
  | same (holder : p'.hist.holder = p.hist.holder) (counting : p'.hist.counting = p.hist.counting)
      (lock : ∀ x, p.alive x → ¬p.counted x → p.lock = some x → p'.lock = some x)
  | register (c : Nat) (i : Fin 64) (actor : a = .consumer c) (locked : p.lock = some a)
      (free : p.hist.holder i = none) (counted : p.counted a) (lock : p'.lock = p.lock)
      (mask : p'.mask = p.mask)
      (hist : p'.hist = p.hist.register c i)
  | deregister (i : Fin 64) (locked : p.lock = some a) (held : p.hist.holder i ≠ none)
      (counted : p.counted a) (lock : p'.lock = p.lock) (hist : p'.hist = p.hist.deregister a i)
  | count (b : Bool) (own : p.hist.counting = some (a, b)) (lock : p'.lock = p.lock)
      (hist : p'.hist = p.hist.count)

theorem Step.registers {G : Guards n} {cap : Nat} {a : Actor} {p p' : Proto n}
    (hs : Step G cap a p p') : p.Registers p' a := by
  cases hs with
  | acquire _ _ free =>
    refine .same rfl rfl fun x hx _ hl => ?_
    rcases free with hn | ⟨b, hb, hd⟩
    · rw [hn] at hl; cases hl
    · rw [hl] at hb
      rw [Option.some.inj hb] at hx
      exact absurd hx hd
  | unlock _ _ locked done counted =>
    refine .same rfl rfl fun x _ hn hl => absurd counted ?_
    rw [locked] at hl
    rwa [Option.some.inj hl]
  | register c _ i locked free fresh counted =>
    exact .register c i rfl locked free counted rfl rfl rfl
  | deregister _ _ c i locked holder leaving clear idle counted =>
    exact .deregister i locked (by rw [holder]; nofun) counted rfl rfl
  | count _ _ b locked own => exact .count b own rfl rfl
  | _ => exact .same rfl rfl fun _ _ _ hl => hl

namespace Counted

variable {G : Guards n} {cap : Nat} {a : Actor} {v v' : View P n}

/-- Nobody is counting when somebody under the lock begins to. -/
theorem idle (h : Counted v) (hl : v.proto.lock = some a) (hc : v.proto.counted a) :
    v.proto.hist.counting = none := by
  by_contra hne
  obtain ⟨⟨x, b⟩, hx⟩ := Option.ne_none_iff_exists'.mp hne
  have hxl := (h.counting x b hx).1
  rw [hl] at hxl
  rw [← Option.some.inj hxl] at hx
  exact hc b hx

/-- Where nobody counts, the count is right. -/
theorem exact' (h : Counted v) (hc : v.proto.hist.counting = none) :
    v.consumers.toNat = v.proto.hist.heldEntries.card := by
  have hcount := h.count
  simp only [Ghost.uncounted, hc] at hcount
  omega

/-- What is counted next is what has changed. -/
theorem counts (h : Counted v) {b : Bool} (hc : v.proto.hist.counting = some (a, b)) :
    ((countConsumers b v.consumers).toNat : Int) = v.proto.hist.heldEntries.card := by
  have hle := v.proto.hist.card_heldEntries_le
  have hcount := h.count
  cases b with
  | true =>
    simp only [Ghost.uncounted, hc] at hcount
    have hadd : (v.consumers + 1).toNat = v.consumers.toNat + 1 := by
      rw [UInt32.toNat_add]
      exact Nat.mod_eq_of_lt (by simp only [UInt32.toNat_one]; omega)
    simp only [countConsumers, if_true, hadd]
    omega
  | false =>
    simp only [Ghost.uncounted, hc] at hcount
    have hpos : v.consumers ≠ 0 := by
      intro h0
      rw [h0] at hcount
      simp only [UInt32.toNat_zero] at hcount
      omega
    have hsub : (v.consumers - 1).toNat = v.consumers.toNat - 1 := by
      refine UInt32.toNat_sub_of_le _ _ ?_
      rw [UInt32.le_iff_toNat_le, UInt32.toNat_one]
      omega
    simp only [countConsumers, Bool.false_eq_true, if_false, if_neg hpos, hsub]
    omega

/-- The count of a transition that does not finish a count. -/
theorem same_consumers (hg : Private a v v')
    (hc : v'.proto.hist.counting = none → v.proto.hist.counting = none) :
    v'.consumers = v.consumers := by
  rcases hg.consumers with h | ⟨b, hb, hn, -⟩
  · exact h.1
  · rw [hc hn] at hb
    cases hb

theorem step (h : Counted v) (hg : Guar G cap a v v') (ok : CountersAlive v') : Counted v' := by
  rcases hg.step.registers with ⟨holder, counting, lock⟩ |
    ⟨c, i, rfl, locked, free, counted, lock, -, hist⟩ | ⟨i, locked, held, counted, lock, hist⟩ |
    ⟨b, own, lock, hist⟩
  · refine ⟨fun x b hx => ⟨?_, ok x b hx⟩, ?_⟩
    · rw [counting] at hx
      obtain ⟨hl, hlive⟩ := h.counting x b hx
      exact lock x hlive (fun hn => hn b hx) hl
    · rw [same_consumers hg.private' fun hn => counting ▸ hn, Ghost.uncounted, counting,
        Ghost.heldEntries, holder]
      exact h.count
  · have hidle := h.idle locked counted
    have hcount := h.exact' hidle
    refine ⟨fun x b hx => ?_, ?_⟩
    · rw [hist] at hx
      have hx : (Actor.consumer c, true) = (x, b) := Option.some.inj hx
      cases hx
      exact ⟨lock.trans locked, hg.step.alive ▸ hg.live⟩
    · have hsame := same_consumers hg.private' fun hn => absurd (hist ▸ hn) (Option.some_ne_none _)
      rw [hsame, hist, Ghost.heldEntries_register free, hcount]
      simp [Ghost.uncounted, Ghost.register]
  · have hidle := h.idle locked counted
    have hcount := h.exact' hidle
    have hcard := Ghost.heldEntries_deregister (a := a) held
    refine ⟨fun x b hx => ?_, ?_⟩
    · rw [hist] at hx
      have hx : (a, false) = (x, b) := Option.some.inj hx
      cases hx
      exact ⟨lock.trans locked, hg.step.alive ▸ hg.live⟩
    · have hsame := same_consumers hg.private' fun hn => absurd (hist ▸ hn) (Option.some_ne_none _)
      rw [hsame, hist, hcount, ← hcard]
      simp [Ghost.uncounted, Ghost.deregister]
  · refine ⟨fun x b hx => ?_, ?_⟩
    · rw [hist] at hx
      cases hx
    · rcases hg.private'.consumers with ⟨-, hn⟩ | ⟨b', hb', -, hcons⟩
      · rw [hn (by rw [hist]; rfl)] at own
        cases own
      · rw [hcons, hist]
        have := h.counts hb'
        simp only [Ghost.uncounted, Ghost.count, add_zero]
        exact this

theorem env (h : Counted v) (hp : Passes v v') (ok : CountersAlive v') : Counted v' := by
  have hw := hp.words
  have hf := hp.fades.eq
  refine ⟨fun x b hx => ⟨?_, ok x b hx⟩, ?_⟩
  · rw [hf] at hx ⊢
    exact (h.counting x b hx).1
  · rw [hw, hf]
    exact h.count

end Counted

/-! ## the use of the ring -/

/-- The use of the ring in which nobody dies while counting, and sweeps may be careless. -/
def countMode (P : Platform) (n : Nat) : Mode P n where
  guards := .lax n True
  inv := Counted
  ok _ v' := CountersAlive v'

theorem countMode_lawful (P : Platform) (L : RingLayout) (k : UInt64) (start : P.Os → Prop) :
    (countMode P L.slotCount).Lawful (L := L) k start where
  initial _ _ := by
    refine ⟨nofun, ?_⟩
    have : (Ghost.init L.slotCount k).heldEntries = ∅ := by
      ext i
      simp [Ghost.heldEntries, Ghost.init]
    show ((0 : UInt32).toNat : Int) + 0 = (Ghost.init L.slotCount k).heldEntries.card
    rw [this]
    rfl
  delivers := delivers_lax rfl
  step _ _ _ hi hg _ hok _ := hi.mode.step hg hok
  env _ _ hi hp hok := hi.mode.env hp hok

end TenzorBus
