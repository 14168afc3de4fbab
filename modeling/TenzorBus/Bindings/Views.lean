import TenzorBus.Bindings.System
import TenzorBus.Ring.Handles

/-!
# Views and their objects

Whatever a program does, an object counts its views, and an object with views has not given away
what it owns.

* `Interp.Objects` : the invariant
* `Run.objects` : it holds in every run
-/

namespace TenzorBus.Bindings

open Conc

variable {P : Platform} {L : RingLayout}

namespace Interp

/-! ## calls touch no object -/

/-- The objects and the views are the same. -/
structure SameObjects (x y : Interp P L) : Prop where
  leases : y.leases = x.leases
  writers : y.writers = x.writers
  views : y.views = x.views

variable {x y : Interp P L}

theorem start_eq {a : Actor} {p : RingM P L.slotCount (Reply L.slotCount)}
    (h : x.start a p = some y) :
    y = { x with pool := Function.update x.pool a (some p) } ∧ x.pool a = none ∧
      x.mem.1.aliveActor a ∧ x.mem.1.running a := by
  obtain ⟨⟨hidle, halive, hrunning⟩, h⟩ := Option.ite_none_right_eq_some.mp h
  exact ⟨(Option.some.inj h).symm, Option.isNone_iff_eq_none.mp hidle, halive, hrunning⟩

theorem start_same {a : Actor} {p : RingM P L.slotCount (Reply L.slotCount)}
    (h : x.start a p = some y) : SameObjects x y := by
  rw [(start_eq h).1]
  exact ⟨rfl, rfl, rfl⟩

theorem onLease_eq {i : Nat} {f : PyLease L.slotCount → Option (Interp P L)}
    (h : x.onLease i f = some y) :
    ∃ o, x.leases[i]? = some o ∧ o.dropped = false ∧ f o = some y := by
  obtain ⟨o, ho, h⟩ := Option.bind_eq_some_iff.mp h
  obtain ⟨hd, h⟩ := Option.ite_none_left_eq_some.mp h
  exact ⟨o, ho, by simpa using hd, h⟩

theorem onWriter_eq {i : Nat} {f : PySlotWriter L.slotCount → Option (Interp P L)}
    (h : x.onWriter i f = some y) :
    ∃ o, x.writers[i]? = some o ∧ o.dropped = false ∧ f o = some y := by
  obtain ⟨o, ho, h⟩ := Option.bind_eq_some_iff.mp h
  obtain ⟨hd, h⟩ := Option.ite_none_left_eq_some.mp h
  exact ⟨o, ho, by simpa using hd, h⟩

/-! ## the invariant -/

/-- How many views there are of a lease, and of a slot writer. -/
abbrev ofLease (x : Interp P L) (i : Nat) : Nat := x.views.count (.lease i)

abbrev ofWriter (x : Interp P L) (i : Nat) : Nat := x.views.count (.writer i)

structure Objects (x : Interp P L) : Prop where
  leases : Counted x.leases x.ofLease
  writers : Counted x.writers x.ofWriter
  lease : ∀ i, .lease i ∈ x.views → i < x.leases.length
  writer : ∀ i, .writer i ∈ x.views → i < x.writers.length

namespace Objects

theorem of_same (h : Objects x) (hs : SameObjects x y) : Objects y := by
  obtain ⟨hl, hw, hv⟩ := hs
  exact {
    leases := by
      rw [hl, show y.ofLease = x.ofLease by funext i; simp only [ofLease, hv]]; exact h.leases
    writers := by
      rw [hw, show y.ofWriter = x.ofWriter by funext i; simp only [ofWriter, hv]]; exact h.writers
    lease := by rw [hl, hv]; exact h.lease
    writer := by rw [hw, hv]; exact h.writer }

variable {i : Nat}

/-- A lease changes whose views stay the same. -/
theorem setLease (h : Objects x) {o : PyLease L.slotCount} (ho : o.Ok (x.ofLease i)) :
    Objects (x.setLease i o) where
  leases := h.leases.set ho fun _ _ => rfl
  writers := h.writers
  lease j hj := by simpa [Interp.setLease] using h.lease j hj
  writer := h.writer

theorem setWriter (h : Objects x) {o : PySlotWriter L.slotCount} (ho : o.Ok (x.ofWriter i)) :
    Objects (x.setWriter i o) where
  leases := h.leases
  writers := h.writers.set ho fun _ _ => rfl
  lease := h.lease
  writer j hj := by simpa [Interp.setWriter] using h.writer j hj

theorem viewLease (h : Objects x) {o : PyLease L.slotCount} (ho : x.leases[i]? = some o)
    (hi : o.item.isSome = true) :
    Objects { x.setLease i o.acquire with views := .lease i :: x.views } where
  leases := by
    refine h.leases.set ?_ fun j hj => List.count_cons_of_ne fun e => hj (View.lease.inj e).symm
    have := (h.leases i o ho).acquire hi
    rwa [← List.count_cons_self] at this
  writers j w hw := by
    have := h.writers j w hw
    rwa [ofWriter, ← List.count_cons_of_ne (b := View.lease i) (by simp)] at this
  lease j hj := by
    rcases List.mem_cons.mp hj with e | hj
    · rw [View.lease.inj e]
      simpa [Interp.setLease] using (List.getElem?_eq_some_iff.mp ho).1
    · simpa [Interp.setLease] using h.lease j hj
  writer j hj := h.writer j ((List.mem_cons.mp hj).resolve_left (by simp))

theorem viewWriter (h : Objects x) {o : PySlotWriter L.slotCount} (ho : x.writers[i]? = some o)
    (hi : o.item.isSome = true) :
    Objects { x.setWriter i o.acquire with views := .writer i :: x.views } where
  leases j w hw := by
    have := h.leases j w hw
    rwa [ofLease, ← List.count_cons_of_ne (b := View.writer i) (by simp)] at this
  writers := by
    refine h.writers.set ?_ fun j hj => List.count_cons_of_ne fun e => hj (View.writer.inj e).symm
    have := (h.writers i o ho).acquire hi
    rwa [← List.count_cons_self] at this
  lease j hj := h.lease j ((List.mem_cons.mp hj).resolve_left (by simp))
  writer j hj := by
    rcases List.mem_cons.mp hj with e | hj
    · rw [View.writer.inj e]
      simpa [Interp.setWriter] using (List.getElem?_eq_some_iff.mp ho).1
    · simpa [Interp.setWriter] using h.writer j hj

/-- Of `k` views of `v` one is let go of. -/
theorem count_erase_succ {v : View} {views : List View} (hv : v ∈ views) :
    views.count v = (views.erase v).count v + 1 := by
  have := List.count_pos_iff.mpr hv
  rw [List.count_erase_self]
  omega

theorem forgetLease (h : Objects x) {o : PyLease L.slotCount} (ho : x.leases[i]? = some o)
    (hv : .lease i ∈ x.views) : Objects ((x.setLease i o.letGo).forget (.lease i)) where
  leases := by
    refine h.leases.set ?_ fun j hj => List.count_erase_of_ne fun e => hj (View.lease.inj e)
    have := h.leases i o ho
    rw [ofLease, count_erase_succ hv] at this
    exact this.letGo
  writers j w hw := by
    have := h.writers j w hw
    rwa [ofWriter, ← List.count_erase_of_ne (b := View.lease i) (by simp)] at this
  lease j hj := by
    simpa [Interp.setLease, Interp.forget] using h.lease j (List.mem_of_mem_erase hj)
  writer j hj := h.writer j (List.mem_of_mem_erase hj)

theorem forgetWriter (h : Objects x) {o : PySlotWriter L.slotCount} (ho : x.writers[i]? = some o)
    (hv : .writer i ∈ x.views) : Objects ((x.setWriter i o.letGo).forget (.writer i)) where
  leases j w hw := by
    have := h.leases j w hw
    rwa [ofLease, ← List.count_erase_of_ne (b := View.writer i) (by simp)] at this
  writers := by
    refine h.writers.set ?_ fun j hj => List.count_erase_of_ne fun e => hj (View.writer.inj e)
    have := h.writers i o ho
    rw [ofWriter, count_erase_succ hv] at this
    exact this.letGo
  lease j hj := h.lease j (List.mem_of_mem_erase hj)
  writer j hj := by
    simpa [Interp.setWriter, Interp.forget] using h.writer j (List.mem_of_mem_erase hj)

/-- Nobody has a view of an object that has yet to be made. -/
theorem unmade (h : Objects x) :
    x.ofLease x.leases.length = 0 ∧ x.ofWriter x.writers.length = 0 :=
  ⟨List.count_eq_zero.mpr fun hv => Nat.lt_irrefl _ (h.lease _ hv),
    List.count_eq_zero.mpr fun hv => Nat.lt_irrefl _ (h.writer _ hv)⟩

theorem newLease (h : Objects x) (c : Nat) (m : TensorMeta L.slotCount) :
    Objects { x with leases := x.leases ++ [.new c m] } where
  leases := h.leases.append h.unmade.1 (Owner.ok_new c m)
  writers := h.writers
  lease j hj := by
    have := h.lease j hj
    simp only [List.length_append]
    omega
  writer := h.writer

theorem newWriter (h : Objects x) (t : Nat) (w : SlotWriter L.slotCount) :
    Objects { x with writers := x.writers ++ [.new t w] } where
  leases := h.leases
  writers := h.writers.append h.unmade.2 (Owner.ok_new t w)
  lease := h.lease
  writer j hj := by
    have := h.writer j hj
    simp only [List.length_append]
    omega

/-- A lease without views gives away what it owns. -/
theorem spent (h : Objects x) {o : PyLease L.slotCount} (ho : x.leases[i]? = some o)
    (hz : x.ofLease i = 0) : Objects (x.setLease i o.empty) ∧ Objects (x.setLease i o.drop) := by
  have hok := h.leases i o ho
  rw [hz] at hok
  exact ⟨h.setLease (hz ▸ hok.empty), h.setLease (hz ▸ hok.drop)⟩

theorem finished (h : Objects x) {o : PySlotWriter L.slotCount} (ho : x.writers[i]? = some o)
    (hz : x.ofWriter i = 0) :
    Objects (x.setWriter i o.empty) ∧ Objects (x.setWriter i o.drop) := by
  have hok := h.writers i o ho
  rw [hz] at hok
  exact ⟨h.setWriter (hz ▸ hok.empty), h.setWriter (hz ▸ hok.drop)⟩

theorem receive (h : Objects x) (a : Actor) (r : Reply L.slotCount) :
    Objects (x.receive a r) := by
  unfold Interp.receive
  split
  · exact h.newLease _ _
  · exact h.newWriter _ _
  · exact h

end Objects

/-! ## what an event does -/

/-- What event `e` does. -/
inductive Effect (x : Interp P L) (e : Event) : Interp P L → Prop
  | raise (err : PyErr) : Effect x e (x.raise err)
  | call {y : Interp P L} (r : Request) (p : RingM P L.slotCount (Reply L.slotCount))
      (event : e = .call r) (hr : plain r = true) (hp : r.program L x.mem.1 = some p)
      (hs : x.start r.actor p = some y) : Effect x e y
  | close {y : Interp P L} (c : Nat) (con : Consumer)
      (event : e = .close c ∨ e = .dropConsumer c ∧ ∀ o ∈ x.leases, o.keeper = c → o.item = none)
      (hc : x.mem.1.consumer c = some con)
      (hs : x.start (.consumer c) (replying (fun _ => .done) (Consumer.close c con)) = some y) :
      Effect x e y
  | viewLease (i : Nat) (o : PyLease L.slotCount) (ho : x.leases[i]? = some o)
      (hi : o.item.isSome = true) :
      Effect x e { x.setLease i o.acquire with views := .lease i :: x.views }
  | viewWriter (i : Nat) (o : PySlotWriter L.slotCount) (ho : x.writers[i]? = some o)
      (hi : o.item.isSome = true) :
      Effect x e { x.setWriter i o.acquire with views := .writer i :: x.views }
  | forgetLease (i : Nat) (o : PyLease L.slotCount) (ho : x.leases[i]? = some o)
      (hv : .lease i ∈ x.views) : Effect x e ((x.setLease i o.letGo).forget (.lease i))
  | forgetWriter (i : Nat) (o : PySlotWriter L.slotCount) (ho : x.writers[i]? = some o)
      (hv : .writer i ∈ x.views) : Effect x e ((x.setWriter i o.letGo).forget (.writer i))
  | emptyLease (i : Nat) (o o' : PyLease L.slotCount) (ho : x.leases[i]? = some o)
      (hi : o.item = none) (ho' : o' = o ∨ x.ofLease i = 0 ∧ o' = o.drop) :
      Effect x e (x.setLease i o')
  | release {y : Interp P L} (i : Nat) (o o' : PyLease L.slotCount) (m : TensorMeta L.slotCount)
      (f : Except Error Unit → Reply L.slotCount) (con : Consumer)
      (event : e = .releaseLease i ∨ e = .dropLease i) (ho : x.leases[i]? = some o)
      (hm : o.item = some m) (hz : x.ofLease i = 0) (ho' : o' = o.empty ∨ o' = o.drop)
      (hf : ∀ r, (f r).hand = .nothing) (hc : x.mem.1.consumer o.keeper = some con)
      (hs : (x.setLease i o').start (.consumer o.keeper)
        (replying f (Consumer.release o.keeper con m)) = some y) : Effect x e y
  | write {y : Interp P L} (i : Nat) (o : PySlotWriter L.slotCount) (w : SlotWriter L.slotCount)
      (off : Nat) (b : UInt8) (ho : x.writers[i]? = some o) (hw : o.item = some w)
      (hoff : off < w.nbytes)
      (hs : x.start (.writer o.keeper)
        (replying (fun _ => .done) (Producer.writeByte w.slot off b)) = some y) : Effect x e y
  | stamp {y : Interp P L} (i : Nat) (o : PySlotWriter L.slotCount) (w : SlotWriter L.slotCount)
      (timestampNs : UInt64) (ho : x.writers[i]? = some o) (hw : o.item = some w)
      (hs : x.start (.writer o.keeper)
        (replying (fun _ => .done) (w.setTimestampNs timestampNs)) = some y) : Effect x e y
  | emptyWriter (i : Nat) (o o' : PySlotWriter L.slotCount) (ho : x.writers[i]? = some o)
      (hi : o.item = none) (hz : x.ofWriter i = 0) (ho' : o' = o.empty ∨ o' = o.drop) :
      Effect x e (x.setWriter i o')
  | commit {y : Interp P L} (i : Nat) (o : PySlotWriter L.slotCount)
      (w : SlotWriter L.slotCount) (ho : x.writers[i]? = some o) (hw : o.item = some w)
      (hz : x.ofWriter i = 0)
      (hs : (x.setWriter i o.empty).start (.writer o.keeper)
        (replying .committed (w.commit o.keeper)) = some y) : Effect x e y
  | abort {y : Interp P L} (i : Nat) (o o' : PySlotWriter L.slotCount)
      (w : SlotWriter L.slotCount) (ho : x.writers[i]? = some o) (hw : o.item = some w)
      (hz : x.ofWriter i = 0) (ho' : o' = o.empty ∨ o' = o.drop)
      (hs : (x.setWriter i o').start (.writer o.keeper)
        (replying (fun _ => .done) (w.abort o.keeper)) = some y) : Effect x e y
  | step (a : Actor) (p q : RingM P L.slotCount (Reply L.slotCount))
      (m : State P L.slotCount × Ghost L.slotCount) (alive : x.mem.1.aliveActor a)
      (busy : x.pool a = some p) (hn : p.next? x.mem = some (q, m)) :
      Effect x e { x with mem := m, pool := Function.update x.pool a (some q) }
  | reply (a : Actor) (r : Reply L.slotCount) (raised : List PyErr) (event : e = .reply a)
      (alive : x.mem.1.aliveActor a) (busy : x.pool a = some (.ret r)) :
      Effect x e ({ x with
        pool := Function.update x.pool a none
        log := x.log ++ [(a, r)]
        raised := raised }.receive a r)

/-- Closing a consumer. -/
theorem Effect.ofClose {e : Event} {c : Nat}
    (he : e = .close c ∨ e = .dropConsumer c ∧ ∀ o ∈ x.leases, o.keeper = c → o.item = none)
    (hs : x.request (.close c) = some y) : Effect x e y := by
  obtain ⟨p, hp, hs⟩ := Option.bind_eq_some_iff.mp hs
  obtain ⟨con, hcon, rfl⟩ := Option.map_eq_some_iff.mp hp
  exact .close c con he hcon hs

/-- `release` or the drop of a lease that has something to release. -/
theorem Effect.ofRelease {e : Event} {i : Nat} {o o' : PyLease L.slotCount}
    {f : Except Error Unit → Reply L.slotCount} {m : TensorMeta L.slotCount}
    (he : e = .releaseLease i ∨ e = .dropLease i) (ho : x.leases[i]? = some o)
    (hm : o.item = some m) (hz : x.ofLease i = 0)
    (ho' : o' = o.empty ∨ o' = o.drop) (hf : ∀ r, (f r).hand = .nothing)
    (hs : (x.setLease i o').releaseRaw f o.keeper (some m) = some y) : Effect x e y := by
  obtain ⟨con, hcon, hs⟩ := Option.bind_eq_some_iff.mp hs
  exact .release i o o' m f con he ho hm hz ho' hf hcon hs

/-- What becomes of a slot writer that is aborted or dropped. -/
theorem Effect.ofAbort {e : Event} {i : Nat} {o o' : PySlotWriter L.slotCount}
    (ho : x.writers[i]? = some o) (hz : x.ofWriter i = 0) (ho' : o' = o.empty ∨ o' = o.drop)
    (hs : (x.setWriter i o').abortRaw o.keeper o.item = some y) : Effect x e y := by
  cases hi : o.item with
  | none =>
    rw [hi] at hs
    cases hs
    exact .emptyWriter i o o' ho hi hz ho'
  | some w =>
    rw [hi] at hs
    exact .abort i o o' w ho hi hz ho' hs

theorem Objects.effect (h : Objects x) {e : Event} (hs : x.next? e = some y) :
    Effect x e y := by
  cases e with
  | call r =>
    obtain ⟨hr, hs⟩ := Option.ite_none_right_eq_some.mp hs
    obtain ⟨p, hp, hs⟩ := Option.bind_eq_some_iff.mp hs
    exact .call r p rfl hr hp hs
  | close c => exact .ofClose (.inl rfl) hs
  | dropConsumer c =>
    obtain ⟨hall, hs⟩ := Option.ite_none_right_eq_some.mp hs
    refine .ofClose (.inr ⟨rfl, fun o ho hk => ?_⟩) hs
    obtain ⟨i, hi⟩ := List.mem_iff_getElem?.mp ho
    have := List.all_eq_true.mp hall o ho
    exact (h.leases i o hi).dropped (by simpa [hk] using this)
  | getBuffer v =>
    cases v with
    | lease i =>
      obtain ⟨o, ho, -, hs⟩ := onLease_eq hs
      cases hi : o.item with
      | none =>
        simp only [PyLease.getBuffer, hi] at hs
        cases hs
        exact .raise _
      | some m =>
        simp only [PyLease.getBuffer, hi] at hs
        cases hs
        exact .viewLease i o ho (by rw [hi]; rfl)
    | writer i =>
      obtain ⟨o, ho, -, hs⟩ := onWriter_eq hs
      cases hi : o.item with
      | none =>
        simp only [PySlotWriter.getBuffer, PySlotWriter.getWriter, hi] at hs
        cases hs
        exact .raise _
      | some w =>
        simp only [PySlotWriter.getBuffer, PySlotWriter.getWriter, hi] at hs
        cases hs
        exact .viewWriter i o ho (by rw [hi]; rfl)
  | releaseBuffer v =>
    cases v with
    | lease i =>
      obtain ⟨o, ho, -, hs⟩ := onLease_eq hs
      obtain ⟨hv, hs⟩ := Option.ite_none_right_eq_some.mp hs
      cases hs
      exact .forgetLease i o ho hv
    | writer i =>
      obtain ⟨o, ho, -, hs⟩ := onWriter_eq hs
      obtain ⟨hv, hs⟩ := Option.ite_none_right_eq_some.mp hs
      cases hs
      exact .forgetWriter i o ho hv
  | releaseLease i =>
    obtain ⟨o, ho, -, hs⟩ := onLease_eq hs
    cases hi : o.item with
    | none =>
      simp only [PyLease.release, hi] at hs
      cases hs
      exact .emptyLease i o o ho hi (.inl rfl)
    | some m =>
      by_cases hz : 0 < o.exports
      · simp only [PyLease.release, hi, hz, if_true] at hs
        cases hs
        exact .raise _
      · simp only [PyLease.release, hi, hz] at hs
        have hz := (h.leases i o ho).unviewed hz
        exact .ofRelease (.inl rfl) ho hi hz (.inl rfl) (fun _ => rfl) hs
  | dropLease i =>
    obtain ⟨o, ho, -, hs⟩ := onLease_eq hs
    obtain ⟨hv, hs⟩ := Option.ite_none_left_eq_some.mp hs
    have hz : x.ofLease i = 0 := List.count_eq_zero.mpr hv
    cases hi : o.item with
    | none =>
      rw [hi] at hs
      cases hs
      exact .emptyLease i o o.drop ho hi (.inr ⟨hz, rfl⟩)
    | some m =>
      rw [hi] at hs
      exact .ofRelease (.inr rfl) ho hi hz (.inr rfl) (fun _ => rfl) hs
  | write i off b =>
    obtain ⟨o, ho, -, hs⟩ := onWriter_eq hs
    obtain ⟨-, hs⟩ := Option.ite_none_right_eq_some.mp hs
    obtain ⟨w, hw, hs⟩ := Option.bind_eq_some_iff.mp hs
    obtain ⟨hoff, hs⟩ := Option.ite_none_right_eq_some.mp hs
    exact .write i o w off b ho hw hoff hs
  | setTimestampNs i timestampNs =>
    obtain ⟨o, ho, -, hs⟩ := onWriter_eq hs
    cases hi : o.item with
    | none =>
      simp only [PySlotWriter.getWriter, hi] at hs
      cases hs
      exact .raise _
    | some w =>
      simp only [PySlotWriter.getWriter, hi] at hs
      exact .stamp i o w timestampNs ho hi hs
  | commit i =>
    obtain ⟨o, ho, -, hs⟩ := onWriter_eq hs
    by_cases hz : 0 < o.exports
    · simp only [PySlotWriter.commit, hz, if_true] at hs
      cases hs
      exact .raise _
    cases hi : o.item with
    | none =>
      simp only [PySlotWriter.commit, hz, PySlotWriter.getWriter, hi] at hs
      cases hs
      exact .raise _
    | some w =>
      simp only [PySlotWriter.commit, hz, PySlotWriter.getWriter, hi] at hs
      exact .commit i o w ho hi ((h.writers i o ho).unviewed hz) hs
  | abort i =>
    obtain ⟨o, ho, -, hs⟩ := onWriter_eq hs
    by_cases hz : 0 < o.exports
    · simp only [PySlotWriter.abort, hz, if_true] at hs
      cases hs
      exact .raise _
    simp only [PySlotWriter.abort, hz] at hs
    exact .ofAbort ho ((h.writers i o ho).unviewed hz) (.inl rfl) hs
  | dropWriter i =>
    obtain ⟨o, ho, -, hs⟩ := onWriter_eq hs
    obtain ⟨hv, hs⟩ := Option.ite_none_left_eq_some.mp hs
    exact .ofAbort ho (List.count_eq_zero.mpr hv) (.inr rfl) hs
  | step a =>
    obtain ⟨alive, hs⟩ := Option.ite_none_right_eq_some.mp hs
    obtain ⟨p, hp, hs⟩ := Option.bind_eq_some_iff.mp hs
    obtain ⟨⟨q, m⟩, hn, rfl⟩ := Option.map_eq_some_iff.mp hs
    exact .step a p q m alive hp hn
  | reply a =>
    obtain ⟨alive, hs⟩ := Option.ite_none_right_eq_some.mp hs
    obtain ⟨r, hr, rfl⟩ := Option.map_eq_some_iff.mp hs
    obtain ⟨p, hp, hr⟩ := Option.bind_eq_some_iff.mp hr
    rw [Prog.eq_ret_of_result? hr] at hp
    exact .reply a r _ rfl alive hp

/-- Every event keeps the invariant. -/
theorem Objects.next (h : Objects x) {e : Event} (hs : x.next? e = some y) : Objects y := by
  cases h.effect hs with
  | raise err => exact h.of_same ⟨rfl, rfl, rfl⟩
  | call r p _ _ _ hs => exact h.of_same (start_same hs)
  | close c con _ _ hs => exact h.of_same (start_same hs)
  | viewLease i o ho hi => exact h.viewLease ho hi
  | viewWriter i o ho hi => exact h.viewWriter ho hi
  | forgetLease i o ho hv => exact h.forgetLease ho hv
  | forgetWriter i o ho hv => exact h.forgetWriter ho hv
  | emptyLease i o o' ho hi ho' =>
    obtain rfl | ⟨hz, rfl⟩ := ho'
    · exact h.setLease (h.leases i o' ho)
    · exact (h.spent ho hz).2
  | release i o o' m f con _ ho hm hz ho' _ _ hs =>
    refine Objects.of_same ?_ (start_same hs)
    obtain rfl | rfl := ho'
    · exact (h.spent ho hz).1
    · exact (h.spent ho hz).2
  | write i o w off b ho hw _ hs => exact h.of_same (start_same hs)
  | stamp i o w ts ho hw hs => exact h.of_same (start_same hs)
  | emptyWriter i o o' ho hi hz ho' =>
    obtain rfl | rfl := ho'
    · exact (h.finished ho hz).1
    · exact (h.finished ho hz).2
  | commit i o w ho hw hz hs => exact (h.finished ho hz).1.of_same (start_same hs)
  | abort i o o' w ho hw hz ho' hs =>
    refine Objects.of_same ?_ (start_same hs)
    obtain rfl | rfl := ho'
    · exact (h.finished ho hz).1
    · exact (h.finished ho hz).2
  | step a p q m _ _ _ => exact h.of_same ⟨rfl, rfl, rfl⟩
  | reply a r raised _ _ _ =>
    refine Objects.receive ?_ a r
    exact h.of_same ⟨rfl, rfl, rfl⟩

theorem Objects.fresh (k : UInt64) (os : P.Os) : Objects (Interp.fresh L k os) where
  leases i o h := by cases h
  writers i o h := by cases h
  lease i h := by cases h
  writer i h := by cases h

end Interp

/-- Whatever happens, objects count their views, and keep what they own as long as there are any. -/
theorem Run.objects {may : Event → Interp P L → Prop}
    {ok : State P L.slotCount × Ghost L.slotCount → State P L.slotCount × Ghost L.slotCount → Prop}
    {k : UInt64} {start : P.Os → Prop} {x : Interp P L}
    (h : Run may ok (Begins P L k start) x) : x.Objects := by
  induction h with
  | init h =>
    obtain ⟨os, -, rfl⟩ := h
    exact .fresh k os
  | event e _ _ hs _ ih => exact ih.next hs
  | os os _ _ _ ih => exact ih.of_same ⟨rfl, rfl, rfl⟩

end TenzorBus.Bindings
