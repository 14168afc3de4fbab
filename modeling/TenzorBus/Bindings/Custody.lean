import TenzorBus.Bindings.Views

/-!
# Who has the leases and the slot writers

The ring keeps a list of the leases that a consumer has not released, and the slot writers that have
not been used up. Each of them is with exactly one object, or in the hands of a call.

* `Accounts` : what an actor's call has on its hands, and what its objects own, is what there is
* `Custody` : so it is for every actor
* `Custody.next` : every event keeps it so, and is at most one step of the ring
* `Run.accounted` : so it is in every run
* `Run.reach` : a run of the bindings in which no consumer is used after its `close` is a run of the
  ring
-/

namespace TenzorBus.Bindings

open Conc

variable {P : Platform} {L : RingLayout} {n : Nat} {tidy : Prop}

def Hand.leases : Hand n → List (TensorMeta n)
  | .lease m => [m]
  | _ => []

def Hand.writers : Hand n → List (SlotWriter n)
  | .writer w => [w]
  | _ => []

/-- Actor `a` has `h` on its hands, and its objects have the rest. If everything is `tidy`, a
consumer with a lease is open. -/
structure Accounts (tidy : Prop) (s : State P n) (leases : List (PyLease n))
    (writers : List (PySlotWriter n)) (a : Actor) (h : Hand n) : Prop where
  lease : ∀ c, a = .consumer c → (s.leases c).Perm (Hand.leases h ++ items c leases)
  writer : ∀ t, a = .writer t → (s.writer t).toList.Perm (Hand.writers h ++ items t writers)
  room : ∀ t, a = .writer t → h = .room → items t writers = []
  opened : tidy → ∀ c, a = .consumer c → h = .opened ∨ s.leases c ≠ [] → ∃ y, s.isOpen c y
  closing : tidy → ∀ c, a = .consumer c → h = .closing → items c leases = []

section

variable {s s' : State P n} {leases leases' : List (PyLease n)}
  {writers writers' : List (PySlotWriter n)} {a b : Actor} {h g g' : Hand n}

theorem Accounts.ofConsumer {c : Nat}
    (lease : (s.leases c).Perm (Hand.leases h ++ items c leases))
    (opened : tidy → h = .opened ∨ s.leases c ≠ [] → ∃ y, s.isOpen c y)
    (closing : tidy → h = .closing → items c leases = []) :
    Accounts tidy s leases writers (.consumer c) h where
  lease _ hc := by cases hc; exact lease
  writer _ ht := by cases ht
  room _ ht := by cases ht
  opened ht _ hc := by cases hc; exact opened ht
  closing ht _ hc := by cases hc; exact closing ht

theorem Accounts.ofWriter {t : Nat}
    (writer : (s.writer t).toList.Perm (Hand.writers h ++ items t writers))
    (room : h = .room → items t writers = []) :
    Accounts tidy s leases writers (.writer t) h where
  lease _ hc := by cases hc
  writer _ ht := by cases ht; exact writer
  room _ ht := by cases ht; exact room
  opened _ _ hc := by cases hc
  closing _ _ hc := by cases hc

/-- It does not matter in which order the objects are. -/
theorem Accounts.congr (ha : Accounts tidy s leases writers a h)
    (hl : ∀ c, a = .consumer c → (items c leases').Perm (items c leases))
    (hw : ∀ t, a = .writer t → (items t writers').Perm (items t writers)) :
    Accounts tidy s leases' writers' a h where
  lease c hc := (ha.lease c hc).trans ((hl c hc).symm.append_left _)
  writer t ht := (ha.writer t ht).trans ((hw t ht).symm.append_left _)
  room t ht hh := List.perm_nil.mp (ha.room t ht hh ▸ hw t ht)
  opened := ha.opened
  closing ht c hc hh := List.perm_nil.mp (ha.closing ht c hc hh ▸ hl c hc)

/-- What somebody else does is no matter. -/
theorem Accounts.other (ha : Accounts tidy s leases writers a h) (hab : a ≠ b)
    (hs : Handles b s s' g g') : Accounts tidy s' leases writers a h := by
  have hkeep : (∀ c, a = .consumer c → s'.leases c = s.leases c) ∧
      (∀ t, a = .writer t → s'.writer t = s.writer t) ∧
      ∀ c x, a = .consumer c → s.isOpen c x → ∃ y, s'.isOpen c y := by
    cases hs with
    | keep _ kept =>
      exact ⟨fun c _ => by rw [kept.leases], fun t _ => by rw [kept.writer],
        fun c x _ => kept.consumer c x⟩
    | take c m actor consumer leases writer =>
      refine ⟨fun c' hc => ?_, fun t _ => by rw [writer], fun c' x _ => consumer c' x⟩
      rw [leases, Function.update_of_ne]
      rintro rfl
      exact hab (hc.trans actor.symm)
    | give c m actor consumer leases writer =>
      refine ⟨fun c' hc => ?_, fun t _ => by rw [writer],
        fun c' x _ hx => ⟨x, by rwa [State.isOpen, consumer]⟩⟩
      rw [leases, Function.update_of_ne]
      rintro rfl
      exact hab (hc.trans actor.symm)
    | close c actor consumer leases writer =>
      refine ⟨fun c' _ => by rw [leases], fun t _ => by rw [writer],
        fun c' x hc => consumer c' x fun e => hab (hc.trans (e ▸ actor.symm))⟩
    | reserve t w actor consumer leases writer | consume t w actor consumer leases writer =>
      refine ⟨fun c' _ => by rw [leases], fun t' ht => ?_,
        fun c' x _ hx => ⟨x, by rwa [State.isOpen, consumer]⟩⟩
      rw [writer, Function.update_of_ne]
      rintro rfl
      exact hab (ht.trans actor.symm)
  obtain ⟨hleases, hwriter, hopen⟩ := hkeep
  exact {
    lease := fun c hc => by rw [hleases c hc]; exact ha.lease c hc
    writer := fun t ht => by rw [hwriter t ht]; exact ha.writer t ht
    room := ha.room
    opened := fun ht c hc hh => by
      rw [hleases c hc] at hh
      obtain ⟨y, hy⟩ := ha.opened ht c hc hh
      exact hopen c y hc hy
    closing := ha.closing }

/-- What the actor does itself goes through its hands. -/
theorem Accounts.own (ha : Accounts tidy s leases writers a h) (hs : Handles a s s' h g) :
    Accounts tidy s' leases writers a g := by
  cases hs with
  | keep _ kept =>
    exact {
      lease := fun c hc => by rw [kept.leases]; exact ha.lease c hc
      writer := fun t ht => by rw [kept.writer]; exact ha.writer t ht
      room := ha.room
      opened := fun ht c hc hh => by
        rw [kept.leases] at hh
        obtain ⟨y, hy⟩ := ha.opened ht c hc hh
        exact kept.consumer c y hy
      closing := ha.closing }
  | take c m actor consumer hleases hwriter =>
    subst actor
    refine .ofConsumer ?_ (fun ht _ => ?_) fun _ hh => by cases hh
    · rw [hleases, Function.update_self]
      exact (ha.lease c rfl).cons m
    · obtain ⟨y, hy⟩ := ha.opened ht c rfl (.inl rfl)
      exact consumer c y hy
  | give c m actor consumer hleases hwriter =>
    subst actor
    refine .ofConsumer ?_ (fun ht _ => ?_) fun _ hh => by cases hh
    · rw [hleases, Function.update_self]
      simpa [Hand.leases] using (ha.lease c rfl).erase m
    · have hne : s.leases c ≠ [] := fun e => by
        have := (ha.lease c rfl).length_eq
        rw [e] at this
        simp [Hand.leases] at this
      obtain ⟨y, hy⟩ := ha.opened ht c rfl (.inr hne)
      exact ⟨y, by rwa [State.isOpen, consumer]⟩
  | close c actor consumer hleases hwriter =>
    subst actor
    have hl := ha.lease c rfl
    refine .ofConsumer (by rwa [hleases]) (fun ht hh => ?_) fun ht => ha.closing ht c rfl
    -- a consumer that is being closed has no lease
    rw [ha.closing ht c rfl rfl] at hl
    rw [hleases] at hh
    exact absurd (List.perm_nil.mp hl) (hh.resolve_left fun e => by cases e)
  | reserve t w actor consumer hleases hwriter =>
    subst actor
    refine .ofWriter ?_ fun hh => by cases hh
    rw [hwriter, Function.update_self, ha.room t rfl rfl]
    exact .refl _
  | consume t w actor consumer hleases hwriter =>
    subst actor
    refine .ofWriter ?_ fun hh => by cases hh
    have hlen := (ha.writer t rfl).length_eq
    have hnil : items t writers = [] := by
      cases hw : s.writer t <;> simp [hw, Hand.writers] at hlen
      exact hlen
    rw [hwriter, Function.update_self, hnil]
    exact .refl _

end

/-! ## every actor -/

namespace Interp

variable {x y z : Interp P L} {a b : Actor} {h : Hand L.slotCount}

abbrev accounts (tidy : Prop) (x : Interp P L) (a : Actor) (h : Hand L.slotCount) : Prop :=
  Accounts tidy x.mem.1 x.leases x.writers a h

/-- The call of `a`, if there is one, has `h` on its hands. -/
structure Holds (tidy : Prop) (x : Interp P L) (a : Actor) (h : Hand L.slotCount) : Prop where
  accounts : x.accounts tidy a h
  busy : ∀ p, x.pool a = some p → Returns a p h
  idle : x.pool a = none → h = .nothing

def Custody (tidy : Prop) (x : Interp P L) : Prop := ∀ a, ∃ h, x.Holds tidy a h

theorem Custody.fresh (k : UInt64) (os : P.Os) : (Interp.fresh L k os).Custody tidy := fun a => by
  refine ⟨.nothing, ?_, fun p hp => (by cases hp), fun _ => rfl⟩
  exact {
    lease := fun c _ => .refl _
    writer := fun t _ => .refl _
    room := fun t _ hh => by cases hh
    opened := fun _ c _ hh => absurd rfl (hh.resolve_left fun e => by cases e)
    closing := fun _ c _ hh => by cases hh }

/-- An idle actor begins a call; on the way objects may change that belong to it. Under the
condition `φ` the call is one that the ring knows. -/
theorem Custody.begin {φ : Prop} (h : x.Custody tidy)
    {p : RingM P L.slotCount (Reply L.slotCount)}
    (hmem : z.mem = x.mem) (hpool : z.pool = x.pool) (hs : z.start a p = some y)
    (other : ∀ b g, b ≠ a → x.accounts tidy b g → z.accounts tidy b g)
    (own : x.accounts tidy a .nothing →
      (∃ g, z.accounts tidy a g ∧ Returns a p g) ∧ (φ → Starts L x.mem.1 a (void p))) :
    y.Custody tidy ∧ (φ → (ringSystem P L).Step x.config y.config) := by
  obtain ⟨rfl, hidle, halive, hrunning⟩ := start_eq hs
  rw [hpool] at hidle
  rw [hmem] at halive hrunning
  obtain ⟨g₀, hg₀⟩ := h a
  obtain rfl := hg₀.idle hidle
  obtain ⟨⟨g, hg, hret⟩, hstarts⟩ := own hg₀.accounts
  refine ⟨fun b => ?_, fun hφ => ?_⟩
  · by_cases hb : b = a
    · subst hb
      refine ⟨g, hg, fun q hq => ?_, fun hq => ?_⟩
      · cases (Function.update_self ..).symm.trans hq
        exact hret
      · cases (Function.update_self ..).symm.trans hq
    · obtain ⟨g', hg'⟩ := h b
      refine ⟨g', other b g' hb hg'.accounts, fun q hq => hg'.busy q ?_, fun hq => hg'.idle ?_⟩
      all_goals
        rw [← hpool]
        exact (Function.update_of_ne hb _ _).symm.trans hq
  · have hconfig : Session.config
        { z.toSession with pool := Function.update z.pool a (some p) } =
        { mem := x.mem, pool := Function.update x.config.pool a (void p) } := by
      rw [Session.config_update z.toSession z.mem a p, hmem]
      congr 1
      unfold Session.config
      simp only [hpool]
    change (ringSystem P L).Step x.config (Session.config _)
    rw [hconfig]
    exact .start a (void p) (by simp [Session.config, hidle]) halive ⟨hrunning, hstarts hφ⟩

/-- A call that has nothing to do with objects. -/
theorem Custody.call (h : x.Custody tidy) {r : Request}
    {p : RingM P L.slotCount (Reply L.slotCount)} (hr : plain r = true)
    (hp : r.program L x.mem.1 = some p) (hs : x.start r.actor p = some y)
    (ht : tidy → Prompt (.call r) x) :
    y.Custody tidy ∧ (Prompt (.call r) x → (ringSystem P L).Step x.config y.config) := by
  refine h.begin rfl rfl hs (fun _ _ _ hb => hb) fun ha =>
    ⟨?_, Session.starts_of_program hp⟩
  cases r with
  | register c =>
    obtain ⟨-, hp⟩ := Option.ite_none_right_eq_some.mp hp
    cases hp
    exact ⟨.nothing, ha, .replying (.of_acts (keeps_consumer _ c).acts) fun r g hg => by
      subst hg; rfl⟩
  | next c timeout =>
    obtain ⟨con, hcon, rfl⟩ := Option.map_eq_some_iff.mp hp
    refine ⟨.opened, ?_, ?_⟩
    · exact .ofConsumer (ha.lease c rfl)
        (fun hti _ => ⟨con, hcon, ht hti c rfl con hcon⟩) fun _ hh => by cases hh
    · refine .replying (nextRaw_carries _ c con timeout) fun r g hg => ?_
      subst hg
      cases r <;> rfl
  | publish t tensor policy timeout =>
    obtain ⟨-, hp⟩ := Option.ite_none_right_eq_some.mp hp
    cases hp
    exact ⟨.nothing, ha, .replying (publish_carries t tensor policy timeout) fun r g hg => by
      subst hg; rfl⟩
  | reserve t dtype shape policy timeout =>
    obtain ⟨hw, hp⟩ := Option.ite_none_right_eq_some.mp hp
    cases hp
    have hwriter := ha.writer t rfl
    rw [Option.isNone_iff_eq_none.mp hw] at hwriter
    refine ⟨.room, .ofWriter ?_ fun _ => List.nil_perm.mp hwriter, ?_⟩
    · rw [Option.isNone_iff_eq_none.mp hw]
      exact hwriter
    · refine .replying (reserve_carries t dtype shape policy timeout) fun r g hg => ?_
      subst hg
      rcases r with _ | (_ | w) <;> rfl
  | sweep j =>
    cases hp
    exact ⟨.nothing, ha, .replying (.of_acts (keeps_inner (inner_sweep _)).acts) fun r g hg => by
      subst hg; rfl⟩
  | _ => cases hr

/-- Objects change, and own what they owned. -/
theorem Custody.objects (h : x.Custody tidy) (hmem : z.mem = x.mem) (hpool : z.pool = x.pool)
    (hl : ∀ c, (items c z.leases).Perm (items c x.leases))
    (hw : ∀ t, (items t z.writers).Perm (items t x.writers)) : z.Custody tidy := fun a => by
  obtain ⟨g, hg⟩ := h a
  refine ⟨g, ?_, by rw [hpool]; exact hg.busy, by rw [hpool]; exact hg.idle⟩
  rw [accounts, hmem]
  exact hg.accounts.congr (fun c _ => hl c) fun t _ => hw t

variable {i : Nat} {o o' : PyLease L.slotCount} {q q' : PySlotWriter L.slotCount}

theorem keeper_of_spent (ho' : o' = o.empty ∨ o' = o.drop) :
    o'.keeper = o.keeper ∧ o'.item = none := by
  obtain rfl | rfl := ho' <;> exact ⟨rfl, rfl⟩

theorem keeper_of_finished (hq' : q' = q.empty ∨ q' = q.drop) :
    q'.keeper = q.keeper ∧ q'.item = none := by
  obtain rfl | rfl := hq' <;> exact ⟨rfl, rfl⟩

theorem Custody.setLease (h : x.Custody tidy) (ho : x.leases[i]? = some o)
    (hk : o'.keeper = o.keeper) (hi : o'.item = o.item) : (x.setLease i o').Custody tidy :=
  h.objects rfl rfl (fun _ => items_same ho hk hi) fun _ => .refl _

theorem Custody.setWriter (h : x.Custody tidy) (hq : x.writers[i]? = some q)
    (hk : q'.keeper = q.keeper) (hi : q'.item = q.item) : (x.setWriter i q').Custody tidy :=
  h.objects rfl rfl (fun _ => .refl _) fun _ => items_same hq hk hi

/-- An object gives its lease to the call that releases it. -/
theorem Custody.release {φ : Prop} (h : x.Custody tidy) {m : TensorMeta L.slotCount}
    {f : Except Error Unit → Reply L.slotCount} {con : Consumer} (ho : x.leases[i]? = some o)
    (hm : o.item = some m) (ho' : o' = o.empty ∨ o' = o.drop) (hf : ∀ r, (f r).hand = .nothing)
    (hc : φ → x.mem.1.isOpen o.keeper con)
    (hs : (x.setLease i o').start (.consumer o.keeper)
      (replying f (Consumer.release o.keeper con m)) = some y) :
    y.Custody tidy ∧ (φ → (ringSystem P L).Step x.config y.config) := by
  obtain ⟨hk, hi⟩ := keeper_of_spent ho'
  have hgone := items_gone ho hk hm hi
  refine h.begin (z := x.setLease i o') rfl rfl hs (fun b g hb ha => ?_) fun ha =>
    ⟨⟨.lease m, ?_, ?_⟩, fun hφ => ?_⟩
  · refine ha.congr (fun c hc => items_other ho hk ?_) fun _ _ => .refl _
    rintro rfl
    exact hb hc
  · exact .ofConsumer ((ha.lease _ rfl).trans hgone)
      (fun hti hh => ha.opened hti _ rfl (.inr (hh.resolve_left fun e => by cases e)))
      fun _ hh => by cases hh
  · refine .replying (release_carries o.keeper con m) fun r g hg => ?_
    subst hg
    exact (hf r).symm
  · rw [Session.void_replying]
    refine .release o.keeper con (hc hφ) m ?_
    have hmem : m ∈ Hand.leases .nothing ++ items o.keeper x.leases :=
      (hgone.symm.subset (List.mem_cons_self ..))
    exact (ha.lease _ rfl).symm.subset hmem

/-- The slot writer of an object is the one that the ring knows. -/
theorem accounts_writer {q : PySlotWriter L.slotCount}
    (ha : x.accounts tidy (.writer q.keeper) h) {w : SlotWriter L.slotCount}
    (hq : x.writers[i]? = some q) (hw : q.item = some w) : x.mem.1.writer q.keeper = some w := by
  have hmem : w ∈ items q.keeper x.writers := mem_items.mpr ⟨i, q, hq, rfl, hw⟩
  exact Option.mem_toList.mp ((ha.writer _ rfl).symm.subset (List.mem_append_right _ hmem))

/-- An object gives its slot writer to the call that uses it up. -/
theorem Custody.finish (h : x.Custody tidy) {w : SlotWriter L.slotCount}
    {p : RingM P L.slotCount (Reply L.slotCount)} (hq : x.writers[i]? = some q)
    (hw : q.item = some w) (hq' : q' = q.empty ∨ q' = q.drop)
    (hret : Returns (.writer q.keeper) p (.writer w))
    (hstarts : x.mem.1.writer q.keeper = some w → Starts L x.mem.1 (.writer q.keeper) (void p))
    (hs : (x.setWriter i q').start (.writer q.keeper) p = some y) :
    y.Custody tidy ∧ (ringSystem P L).Step x.config y.config := by
  obtain ⟨hk, hi⟩ := keeper_of_finished hq'
  refine (h.begin (z := x.setWriter i q') rfl rfl hs (fun b g hb ha => ?_) fun ha =>
    ⟨⟨.writer w, ?_, hret⟩, fun _ => hstarts (accounts_writer ha hq hw)⟩).imp_right
      fun hstep => hstep trivial
  · refine ha.congr (fun _ _ => .refl _) fun t ht => items_other hq hk ?_
    rintro rfl
    exact hb ht
  · exact .ofWriter ((ha.writer _ rfl).trans (items_gone hq hk hw hi)) fun hh => by cases hh

/-- A call that works on the slot in hand. -/
theorem Custody.edit (h : x.Custody tidy) {w : SlotWriter L.slotCount}
    {p : RingM P L.slotCount Unit} (hq : x.writers[i]? = some q) (hw : q.item = some w)
    (hp : p.Acts Inner)
    (hstarts : x.mem.1.writer q.keeper = some w → Starts L x.mem.1 (.writer q.keeper) p)
    (hs : x.start (.writer q.keeper) (replying (fun _ => .done) p) = some y) :
    y.Custody tidy ∧ (ringSystem P L).Step x.config y.config := by
  refine (h.begin rfl rfl hs (fun _ _ _ ha => ha) fun ha =>
    ⟨⟨.nothing, ha, ?_⟩, fun _ => ?_⟩).imp_right fun hstep => hstep trivial
  · exact .replying (.of_acts (keeps_inner hp).acts) fun r g hg => by subst hg; rfl
  · rw [Session.void_replying, Session.void_unit]
    exact hstarts (accounts_writer ha hq hw)

/-- An atomic action of a call. -/
theorem Custody.step (h : x.Custody tidy) {p q : RingM P L.slotCount (Reply L.slotCount)}
    {m : State P L.slotCount × Ghost L.slotCount} (alive : x.mem.1.aliveActor a)
    (busy : x.pool a = some p) (hn : p.next? x.mem = some (q, m)) :
    ({ x with mem := m, pool := Function.update x.pool a (some q) } : Interp P L).Custody tidy ∧
      (ringSystem P L).Step x.config
        (Session.config { x.toSession with
          mem := m
          pool := Function.update x.pool a (some q) }) := by
  obtain ⟨g, hg⟩ := h a
  obtain ⟨g', hs, hq⟩ := (hg.busy p busy).next (fun g m => .keep g (.refl m.1)) hn
  refine ⟨fun b => ?_, ?_⟩
  · by_cases hb : b = a
    · subst hb
      refine ⟨g', hg.accounts.own hs, fun r hr => ?_, fun hr => ?_⟩
      · cases (Function.update_self ..).symm.trans hr
        exact hq
      · cases (Function.update_self ..).symm.trans hr
    · obtain ⟨g₁, hg₁⟩ := h b
      exact ⟨g₁, hg₁.accounts.other hb hs,
        fun r hr => hg₁.busy r ((Function.update_of_ne hb _ _).symm.trans hr),
        fun hr => hg₁.idle ((Function.update_of_ne hb _ _).symm.trans hr)⟩
  · rw [Session.config_update x.toSession m a q]
    refine .act a (void q) m alive ?_
    have := Session.next?_bind (k := fun _ => .ret ()) hn
    simpa [Session.config, busy, void] using this

theorem leases_goods (g : Hand n) : Hand.leases g.goods = Hand.leases g := by
  cases g <;> rfl

theorem writers_goods (g : Hand n) : Hand.writers g.goods = Hand.writers g := by
  cases g <;> rfl

/-- What has been handed over is with a new object. -/
theorem accounts_receive {r : Reply L.slotCount} (ha : x.accounts tidy a h)
    (hr : h.goods = r.hand) : (x.receive a r).accounts tidy a .nothing := by
  cases a with
  | consumer c =>
    have hlease := ha.lease c rfl
    rw [← leases_goods, hr] at hlease
    have hopen : tidy → (.nothing : Hand L.slotCount) = .opened ∨ x.mem.1.leases c ≠ [] →
        ∃ y, x.mem.1.isOpen c y := fun ht hh =>
      ha.opened ht c rfl (.inr (hh.resolve_left fun e => by cases e))
    have hsame : Hand.leases r.hand = [] → x.accounts tidy (.consumer c) .nothing := fun he =>
      .ofConsumer (by rwa [he] at hlease) hopen fun _ e => by cases e
    rcases r with _ | (_ | m) | _ | _ | (_ | (_ | w)) | _ | _
    case delivered.ok =>
      refine .ofConsumer (hlease.trans ?_) hopen fun _ e => by cases e
      change ([m] ++ _).Perm (items c (x.leases ++ [.new c m]))
      rw [items_new, if_pos rfl]
      exact List.perm_append_comm
    all_goals exact hsame rfl
  | writer t =>
    have hwriter := ha.writer t rfl
    rw [← writers_goods, hr] at hwriter
    have hsame : Hand.writers r.hand = [] → x.accounts tidy (.writer t) .nothing := fun he =>
      .ofWriter (by rwa [he] at hwriter) fun e => by cases e
    rcases r with _ | (_ | m) | _ | _ | (_ | (_ | w)) | _ | _
    case reserved.ok.some =>
      refine .ofWriter (hwriter.trans ?_) fun e => by cases e
      change ([w] ++ _).Perm (items t (x.writers ++ [.new t w]))
      rw [items_new, if_pos rfl]
      exact List.perm_append_comm
    all_goals exact hsame rfl
  | sweeper k =>
    exact {
      lease := fun _ hc => by cases hc
      writer := fun _ ht => by cases ht
      room := fun _ ht => by cases ht
      opened := fun _ _ hc => by cases hc
      closing := fun _ _ hc => by cases hc }

/-- It is not for anybody else. -/
theorem accounts_received {r : Reply L.slotCount} (ha : x.accounts tidy b h) (hb : b ≠ a) :
    (x.receive a r).accounts tidy b h := by
  unfold receive
  split
  · rename_i c m
    refine ha.congr (fun c' hc => ?_) fun _ _ => .refl _
    rw [items_new, if_neg fun e => hb (by rw [hc, e]), List.append_nil]
  · rename_i t w
    refine ha.congr (fun _ _ => .refl _) fun t' ht => ?_
    rw [items_new, if_neg fun e => hb (by rw [ht, e]), List.append_nil]
  · exact ha

theorem receive_session (x : Interp P L) (a : Actor) (r : Reply L.slotCount) :
    (x.receive a r).toSession = x.toSession := by
  unfold receive
  split <;> rfl

/-- The return of a call. -/
theorem Custody.reply (h : x.Custody tidy) {r : Reply L.slotCount} {raised : List PyErr}
    (busy : x.pool a = some (.ret r))
    (hz : z = { x with
      pool := Function.update x.pool a none, log := x.log ++ [(a, r)], raised := raised }) :
    (z.receive a r).Custody tidy ∧ (z.receive a r).config = x.config := by
  subst hz
  obtain ⟨g, hg⟩ := h a
  refine ⟨fun b => ?_, ?_⟩
  · by_cases hb : b = a
    · subst hb
      refine ⟨.nothing, accounts_receive (h := g) hg.accounts (hg.busy _ busy), ?_, fun _ => rfl⟩
      intro p hp
      rw [receive_session] at hp
      cases (Function.update_self ..).symm.trans hp
    · obtain ⟨g₁, hg₁⟩ := h b
      refine ⟨g₁, accounts_received hg₁.accounts hb, fun p hp => hg₁.busy p ?_,
        fun hp => hg₁.idle ?_⟩
      all_goals
        rw [receive_session] at hp
        exact (Function.update_of_ne hb _ _).symm.trans hp
  · rw [Session.config, receive_session, Session.config]
    congr 1
    funext b
    by_cases hb : b = a
    · subst hb
      simp [busy, void]
    · simp [hb]

/-- No consumer is closed that has a lease which has not been released. -/
def Tidy (e : Event) (x : Interp P L) : Prop :=
  ∀ c, e = .close c → ∀ o ∈ x.leases, o.keeper = c → o.item = none

theorem items_eq_nil {α : Type} {c : Nat} {objects : List (Owner α)}
    (h : ∀ o ∈ objects, o.keeper = c → o.item = none) : items c objects = [] := by
  refine List.filterMap_eq_nil_iff.mpr fun o ho => ?_
  by_cases hk : o.keeper = c
  · rw [if_pos hk, h o ho hk]
  · rw [if_neg hk]

/-- No consumer is closed that has a lease, and none is used that has been closed. -/
def Orderly (e : Event) (x : Interp P L) : Prop := Tidy e x ∧ Prompt e x

/-- Every event keeps everything where it belongs; and it is one step of the ring, or none, unless
it uses a consumer that has been closed. -/
theorem Custody.next (h : x.Custody tidy) {e : Event} (ht : tidy → Orderly e x)
    (he : Effect x e y) :
    y.Custody tidy ∧
      (Prompt e x → (ringSystem P L).Step x.config y.config ∨ y.config = x.config) := by
  cases he with
  | raise err =>
    exact ⟨h.objects rfl rfl (fun _ => .refl _) fun _ => .refl _, fun _ => .inr rfl⟩
  | call r p event hr hp hs =>
    subst event
    exact (h.call hr hp hs fun hti => (ht hti).2).imp_right fun hstep hprompt =>
      .inl (hstep hprompt)
  | close c con event hc hs =>
    have hcons : x.consumer? e = some c := by
      obtain rfl | ⟨rfl, -⟩ := event <;> rfl
    have hz : tidy → items c x.leases = [] := fun hti =>
      items_eq_nil (event.elim (fun he => (ht hti).1 c he) And.right)
    obtain ⟨hy, hstep⟩ := h.begin (φ := Prompt e x) rfl rfl hs (fun _ _ _ ha => ha) fun ha =>
      ⟨⟨.closing, .ofConsumer (ha.lease c rfl)
        (fun hti hh => ha.opened hti c rfl (.inr (hh.resolve_left fun e => by cases e)))
          fun hti _ => hz hti, .replying (close_carries c con) fun r g hg => by subst hg; rfl⟩,
        fun hprompt => by
          rw [Session.void_replying, Session.void_unit]
          exact .close c con ⟨hc, hprompt c hcons con hc⟩⟩
    exact ⟨hy, fun hprompt => .inl (hstep hprompt)⟩
  | viewLease i o ho hi =>
    exact ⟨h.objects rfl rfl (fun _ => items_same ho rfl rfl) fun _ => .refl _, fun _ => .inr rfl⟩
  | viewWriter i o ho hi =>
    exact ⟨h.objects rfl rfl (fun _ => .refl _) fun _ => items_same ho rfl rfl, fun _ => .inr rfl⟩
  | forgetLease i o ho hv =>
    exact ⟨h.objects rfl rfl (fun _ => items_same ho rfl rfl) fun _ => .refl _, fun _ => .inr rfl⟩
  | forgetWriter i o ho hv =>
    exact ⟨h.objects rfl rfl (fun _ => .refl _) fun _ => items_same ho rfl rfl, fun _ => .inr rfl⟩
  | emptyLease i o o' ho hi ho' =>
    refine ⟨?_, fun _ => .inr rfl⟩
    obtain rfl | ⟨-, rfl⟩ := ho'
    · exact h.setLease ho rfl rfl
    · exact h.setLease ho rfl hi.symm
  | release i o o' m f con event ho hm _ ho' hf hc hs =>
    have hcons : x.consumer? e = some o.keeper := by
      obtain rfl | rfl := event <;> simp [consumer?, ho, hm]
    exact (h.release (φ := Prompt e x) ho hm ho' hf
      (fun hprompt => ⟨hc, hprompt _ hcons con hc⟩) hs).imp_right fun hstep hprompt =>
        .inl (hstep hprompt)
  | write i o w off b ho hw hoff hs =>
    obtain ⟨hy, hstep⟩ := h.edit ho hw (inner_writeByte _ _ _)
      (fun hx => .payload o.keeper w hx off hoff b) hs
    exact ⟨hy, fun _ => .inl hstep⟩
  | stamp i o w ts ho hw hs =>
    obtain ⟨hy, hstep⟩ := h.edit ho hw inner_slot
      (fun hx => .setTimestampNs o.keeper w hx ts) hs
    exact ⟨hy, fun _ => .inl hstep⟩
  | emptyWriter i o o' ho hi _ ho' =>
    obtain ⟨hk, hi'⟩ := keeper_of_finished ho'
    exact ⟨h.setWriter ho hk (hi'.trans hi.symm), fun _ => .inr rfl⟩
  | commit i o w ho hw _ hs =>
    obtain ⟨hy, hstep⟩ := h.finish ho hw (.inl rfl)
      (.replying (commit_carries o.keeper w) fun r g hg => by subst hg; rfl)
      (fun hx => by rw [Session.void_replying]; exact .commit o.keeper w hx) hs
    exact ⟨hy, fun _ => .inl hstep⟩
  | abort i o o' w ho hw _ ho' hs =>
    obtain ⟨hy, hstep⟩ := h.finish ho hw ho'
      (.replying (abort_carries o.keeper w) fun r g hg => by subst hg; rfl)
      (fun hx => by
        rw [Session.void_replying, Session.void_unit]
        exact .abort o.keeper w hx) hs
    exact ⟨hy, fun _ => .inl hstep⟩
  | step a p q m alive busy hn =>
    obtain ⟨hy, hstep⟩ := h.step alive busy hn
    exact ⟨hy, fun _ => .inl hstep⟩
  | reply a r raised _ alive busy =>
    obtain ⟨hy, hsame⟩ := h.reply busy rfl
    exact ⟨hy, fun _ => .inr hsame⟩

end Interp

section

variable {may : Event → Interp P L → Prop}
  {ok : State P L.slotCount × Ghost L.slotCount → State P L.slotCount × Ghost L.slotCount → Prop}
  {k : UInt64} {start : P.Os → Prop} {x : Interp P L}

open Interp in
/-- At the end of a run everything is where it belongs. -/
theorem Run.accounted (ht : ∀ e x, may e x → tidy → Orderly e x)
    (h : Run may ok (Begins P L k start) x) : x.Custody tidy := by
  induction h with
  | init h =>
    obtain ⟨os, -, rfl⟩ := h
    exact .fresh k os
  | event e h hm hs _ ih => exact (ih.next (ht e _ hm) (h.objects.effect hs)).1
  | os os _ _ _ ih =>
    intro a
    obtain ⟨g, hg⟩ := ih a
    exact ⟨g, ⟨hg.accounts.lease, hg.accounts.writer, hg.accounts.room, hg.accounts.opened,
      hg.accounts.closing⟩, hg.busy, hg.idle⟩

/-- A run in which anything may happen. -/
theorem Run.plain (h : Run may ok (Begins P L k start) x) : x.Custody False :=
  h.accounted fun _ _ _ => False.elim

/-- A run of the bindings in which no consumer is used after its `close` is a run of the ring. -/
theorem Run.reach (hp : ∀ e x, may e x → Interp.Prompt e x)
    (h : Run may ok (Begins P L k start) x) :
    (ringSystem P L).Reach ok (Fresh P L k start) x.config := by
  induction h with
  | init h =>
    obtain ⟨os, hos, rfl⟩ := h
    exact .init ⟨os, hos, rfl⟩
  | event e h hm hs hok ih =>
    obtain hstep | hsame :=
      (h.plain.next (fun hti => hti.elim) (h.objects.effect hs)).2 (hp e _ hm)
    · exact ih.step hstep hok
    · exact hsame ▸ ih
  | os os h hs hok ih => exact ih.step (.env _ ⟨os, hs, rfl⟩) hok

end

/-- A run in which no consumer is closed that has a lease, and none is used that has been closed. -/
theorem Run.orderly
    {ok : State P L.slotCount × Ghost L.slotCount → State P L.slotCount × Ghost L.slotCount → Prop}
    {k : UInt64} {start : P.Os → Prop} {x : Interp P L}
    (h : Run Interp.Orderly ok (Begins P L k start) x) :
    (ringSystem P L).Reach ok (Fresh P L k start) x.config ∧ x.Custody True :=
  ⟨h.reach fun _ _ ho => ho.2, h.accounted fun _ _ ho _ => ho⟩

end TenzorBus.Bindings
