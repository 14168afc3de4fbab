import TenzorBus.Protocol.Frame

/-!
# Leases

A consumer that takes only what is new to it holds at most one lease on a slot, and every lease is
on a committed slot that carries its reader bit.

* `Proto.concerns` : the consumers that a result speaks of
* `Step.client` : what a transition can do to an open consumer
* `Leasing` : the invariant of the leases
* `Leasing.held_step` : the slot of a lease is not touched as long as the lease is held
* `Leasing.step` : the invariant survives every transition, if what is taken is newer
-/

namespace TenzorBus

variable {n : Nat}

/-- The open consumers; with `strict`, those that registered while no reservation was
unfinished. -/
def Proto.concerns (p : Proto n) (strict : Prop) (c : Nat) (k : Registration) : Prop :=
  p.client c k ∧ (strict → k.quiet)

/-! ## what becomes of a consumer -/

/-- How consumer `c` came to be open with registration `k` in one transition. -/
inductive Proto.Becomes (p p' : Proto n) (c : Nat) (k : Registration) : Prop
  | registered (i : Fin 64) (locked : p.lock = some (.consumer c))
      (fresh : p.hist.registration c = none) (free : p.hist.holder i = none)
      (eq : k = p.hist.registrationNow i) (same : p' = { p with hist := p.hist.register c i })
  | stayed (client : p.client c k) (leases : (p'.leases c).Sublist (p.leases c))
      (handed : p'.hist.handed c = p.hist.handed c)
  | took (k₀ : Registration) (m : TensorMeta n) (client : p.client c k₀) (good : p.Matches m)
      (reader : k₀.index ∈ p.mask m.slotIndex)
      (newer : seqNewer m.sequence (seqWord k₀.last) = true)
      (eq : k = { k₀ with last := p.hist.num m.slotIndex })
      (same : p' = { p with
        leases := Function.update p.leases c (m :: p.leases c)
        hist := p.hist.hand c m })

theorem Step.client {G : Guards n} {cap : Nat} {a : Actor} {p p' : Proto n}
    (h : Step G cap a p p') (hG : ¬G.careless) {c : Nat} {k : Registration}
    (hk : p'.client c k) : p.Becomes p' c k := by
  cases h with
  | register c' _ i locked free fresh =>
    by_cases hc : c = c'
    · subst hc
      refine .registered i locked fresh free ?_ rfl
      exact (Option.some.inj (by simpa [Ghost.register] using hk.1)).symm
    · exact .stayed (by simpa [Proto.client, Ghost.register, hc] using hk) (List.Sublist.refl _)
        rfl
  | closing c' =>
    by_cases hc : c = c'
    · subst hc
      obtain ⟨hk, ho⟩ := hk
      obtain ⟨k₀, -, rfl⟩ := Option.map_eq_some_iff.mp
        (show (p.hist.registration c).map _ = some k by simpa [Ghost.closing] using hk)
      cases ho
    · exact .stayed (by simpa [Proto.client, Ghost.closing, hc] using hk) (List.Sublist.refl _) rfl
  | take c' _ k₀ m client grants =>
    by_cases hc : c = c'
    · subst hc
      obtain ⟨⟨good, reader⟩, newer, -⟩ := grants hG
      refine .took k₀ m client good reader newer ?_ rfl
      exact (Option.some.inj (by simpa [Ghost.hand, client.1] using hk.1)).symm
    · exact .stayed (by simpa [Proto.client, Ghost.hand, hc] using hk)
        (by simp [hc]) (by simp [Ghost.hand, hc])
  | release c' _ k₀ m client held =>
    by_cases hc : c = c'
    · subst hc; exact .stayed hk (by simpa using List.erase_sublist) rfl
    · exact .stayed hk (by simp [hc]) rfl
  | dropLease c' _ k₀ m client held loose =>
    by_cases hc : c = c'
    · subst hc; exact .stayed hk (by simpa using List.erase_sublist) rfl
    · exact .stayed hk (by simp [hc]) rfl
  | _ => exact .stayed hk (List.Sublist.refl _) rfl

/-! ## the invariant -/

/-- The slot of a lease is committed, as the lease says, and carries the consumer's bit; its number
is one that the consumer has seen. -/
structure Proto.Held (p : Proto n) (k : Registration) (m : TensorMeta n) : Prop where
  good : p.Matches m
  reader : k.index ∈ p.mask m.slotIndex
  seen : p.hist.num m.slotIndex ≤ k.last

theorem Proto.Held.kept {p p' : Proto n} {k : Registration} {m : TensorMeta n} (h : p.Held k m)
    (hu : Untouched p p' m.slotIndex) (hb : k.index ∈ p'.mask m.slotIndex) : p'.Held k m where
  good := {
    committed := hu.state.trans h.good.committed
    sequence := h.good.sequence.trans (by rw [hu.num])
    header := by rw [hu.header]; exact h.good.header }
  reader := hb
  seen := by rw [hu.num]; exact h.seen

/-- The leases of the consumers concerned that are alive. -/
structure Leasing (strict : Prop) (p : Proto n) : Prop where
  held : ∀ c k, p.concerns strict c k → p.alive (.consumer c) → ∀ m ∈ p.leases c, p.Held k m
  once : ∀ c k, p.concerns strict c k → p.alive (.consumer c) →
    (p.leases c).Pairwise fun m m' => m.slotIndex ≠ m'.slotIndex
  fresh : ∀ c, p.hist.registration c = none → p.leases c = []

/-- What is handed over is newer than anything the consumer has seen. -/
def Ascends (strict : Prop) (p p' : Proto n) : Prop :=
  ∀ c k m, p.concerns strict c k → p'.hist.handed c = p.hist.handed c ++ [m] →
    k.last < p.hist.num m.slotIndex

namespace Leasing

variable {strict : Prop} {G : Guards n} {cap : Nat} {a : Actor} {p p' : Proto n} {c : Nat}
  {k : Registration}

/-- Leases on one slot are one lease. -/
theorem unique (h : Leasing strict p) (hk : p.concerns strict c k) (hl : p.alive (.consumer c))
    {m m' : TensorMeta n} (hm : m ∈ p.leases c) (hm' : m' ∈ p.leases c)
    (hs : m.slotIndex = m'.slotIndex) : m = m' := by
  by_contra hne
  have : Std.Symm fun m m' : TensorMeta n => m.slotIndex ≠ m'.slotIndex := ⟨fun _ _ h e => h e.symm⟩
  exact (h.once c k hk hl).forall hm hm' hne hs

theorem nodup (h : Leasing strict p) (hk : p.concerns strict c k) (hl : p.alive (.consumer c)) :
    (p.leases c).Nodup :=
  (h.once c k hk hl).imp fun hne e => hne (by rw [e])

/-- As long as the consumer is open and holds the lease, nobody touches the slot. -/
theorem held_step (h : Leasing strict p) (hi : Inv cap p) (hG : ¬G.careless)
    (hs : Step G cap a p p') (ha : p.alive a) (hk : p.concerns strict c k)
    (hl : p.alive (.consumer c)) (hopen : ∃ k', p'.client c k') {m : TensorMeta n}
    (hm : m ∈ p.leases c) (hm' : m ∈ p'.leases c) :
    Untouched p p' m.slotIndex ∧ k.index ∈ p'.mask m.slotIndex := by
  have hh := h.held c k hk hl m hm
  by_cases hac : a = .consumer c
  · subst hac
    obtain ⟨hu, hb⟩ := hs.own_pinned hG hi hl hk.1 hopen hh.good.committed hh.reader
    refine ⟨hu, hb.resolve_right ?_⟩
    rintro ⟨m₀, hm₀, hslot, he⟩
    rw [h.unique hk hl hm₀ hm hslot] at he
    exact (h.nodup hk hl).not_mem_erase (he ▸ hm')
  · have hr : Rely G cap (.consumer c) p p' := ⟨hi, hs.alive ▸ hl, .inl ⟨a, hac, ha, hs⟩⟩
    exact hr.pinned hG hk.1 hh.good.committed hh.reader

theorem step (h : Leasing strict p) (hi : Inv cap p) (hG : ¬G.careless) (hs : Step G cap a p p')
    (ha : p.alive a) (hasc : Ascends strict p p') : Leasing strict p' where
  held c k hk hl m hm := by
    have hl : p.alive (.consumer c) := hs.alive ▸ hl
    rcases hs.client hG hk.1 with ⟨i, -, fresh, -, -, rfl⟩ | ⟨client, leases, -⟩ |
      ⟨k₀, m₀, client, good, reader, -, rfl, rfl⟩
    · simp [h.fresh c fresh] at hm
    · have hk₀ : p.concerns strict c k := ⟨client, hk.2⟩
      have hm₀ := leases.subset hm
      obtain ⟨hu, hb⟩ := h.held_step hi hG hs ha hk₀ hl ⟨k, hk.1⟩ hm₀ hm
      exact (h.held c k hk₀ hl m hm₀).kept hu hb
    · have hk₀ : p.concerns strict c k₀ := ⟨client, hk.2⟩
      have hlast := hasc c k₀ m₀ hk₀ (by simp [Ghost.hand])
      have hm : m = m₀ ∨ m ∈ p.leases c := by simpa using hm
      rcases hm with rfl | hm
      · exact ⟨⟨good.1, good.2, good.3⟩, reader, le_rfl⟩
      · have hh := h.held c k₀ hk₀ hl m hm
        exact ⟨⟨hh.good.1, hh.good.2, hh.good.3⟩, hh.reader, hh.seen.trans hlast.le⟩
  once c k hk hl := by
    have hl : p.alive (.consumer c) := hs.alive ▸ hl
    rcases hs.client hG hk.1 with ⟨i, -, fresh, -, -, rfl⟩ | ⟨client, leases, -⟩ |
      ⟨k₀, m₀, client, good, reader, -, rfl, rfl⟩
    · simp [h.fresh c fresh]
    · exact (h.once c k ⟨client, hk.2⟩ hl).sublist leases
    · have hk₀ : p.concerns strict c k₀ := ⟨client, hk.2⟩
      have hlast := hasc c k₀ m₀ hk₀ (by simp [Ghost.hand])
      have hcons : (m₀ :: p.leases c).Pairwise fun m m' => m.slotIndex ≠ m'.slotIndex :=
        List.pairwise_cons.mpr ⟨fun m hm e => by
          have := (h.held c k₀ hk₀ hl m hm).seen
          rw [← e] at this
          omega, h.once c k₀ hk₀ hl⟩
      simpa using hcons
  fresh c hc := by
    have hold : p.hist.registration c = none := by
      by_contra hne
      obtain ⟨k, hk⟩ := Option.ne_none_iff_exists'.mp hne
      obtain ⟨last, closing, hk'⟩ := hs.registration hk
      rw [hk'] at hc
      cases hc
    -- nobody without a registration is handed anything
    cases hs with
    | take c' _ k m client =>
      have hne : c ≠ c' := fun e => by rw [e, client.1] at hold; cases hold
      simpa [hne] using h.fresh c hold
    | release c' _ k m client | dropLease c' _ k m client =>
      have hne : c ≠ c' := fun e => by rw [e, client.1] at hold; cases hold
      simpa [hne] using h.fresh c hold
    | _ => exact h.fresh c hold

theorem fades (h : Leasing strict p) (hf : Fades p p') : Leasing strict p' := by
  rw [hf.eq]
  exact {
    held := fun c k hk hl m hm =>
      let hh := h.held c k hk (hf.alive _ hl) m hm
      hh.kept ⟨rfl, rfl, rfl, rfl, rfl⟩ hh.reader
    once := fun c k hk hl => h.once c k hk (hf.alive _ hl)
    fresh := h.fresh }

end Leasing

end TenzorBus
