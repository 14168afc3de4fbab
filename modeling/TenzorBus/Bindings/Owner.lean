import Mathlib.Data.List.Perm.Basic

/-!
# Objects that own something and export views of it

An object owns an item until it gives it away, and counts the views of it that are alive. It must
not give the item away while there are any.

* `Owner` : such an object
* `Owner.Ok` : the count is right, and what has views has an item
* `Counted` : so it is for all objects of a list
* `items` : what somebody's objects own
* `Aged` : what becomes of the objects in the course of time
-/

namespace TenzorBus.Bindings

variable {α β : Type}

structure Owner (α : Type) where
  /-- For whom the item is kept. -/
  keeper : Nat
  item : Option α
  exports : Nat
  /-- Nothing refers to the object any more. -/
  dropped : Bool

namespace Owner

def new (keeper : Nat) (x : α) : Owner α :=
  { keeper := keeper, item := some x, exports := 0, dropped := false }

/-- One view more, and one less. -/
def acquire (self : Owner α) : Owner α := { self with exports := self.exports + 1 }

def letGo (self : Owner α) : Owner α := { self with exports := self.exports - 1 }

/-- The item is given away. -/
def empty (self : Owner α) : Owner α := { self with item := none }

def drop (self : Owner α) : Owner α := { self with item := none, dropped := true }

/-- The object has this many views. -/
structure Ok (o : Owner α) (views : Nat) : Prop where
  counted : o.exports = views
  alive : 0 < views → o.item.isSome = true
  dropped : o.dropped = true → o.item = none

variable {o : Owner α} {views : Nat}

theorem ok_new (keeper : Nat) (x : α) : (new keeper x).Ok 0 :=
  ⟨rfl, fun _ => rfl, fun h => by cases h⟩

theorem Ok.acquire (h : o.Ok views) (hi : o.item.isSome = true) :
    o.acquire.Ok (views + 1) :=
  ⟨by simp [Owner.acquire, h.counted], fun _ => hi, h.dropped⟩

theorem Ok.letGo (h : o.Ok (views + 1)) : o.letGo.Ok views :=
  ⟨by simp [Owner.letGo, h.counted], fun _ => h.alive views.succ_pos, h.dropped⟩

theorem Ok.empty (h : o.Ok 0) : o.empty.Ok 0 :=
  ⟨h.counted, fun hlt => absurd hlt (Nat.lt_irrefl 0), fun _ => rfl⟩

/-- An object from which nothing is exported has no views. -/
theorem Ok.unviewed (h : o.Ok views) (hz : ¬0 < o.exports) : views = 0 := by
  have := h.counted
  omega

theorem Ok.drop (h : o.Ok 0) : o.drop.Ok 0 :=
  ⟨h.counted, fun hlt => absurd hlt (Nat.lt_irrefl 0), fun _ => rfl⟩

end Owner

/-! ## many objects -/

/-- Object `i` has `views i` views. -/
def Counted (objects : List (Owner α)) (views : Nat → Nat) : Prop :=
  ∀ i (o : Owner α), objects[i]? = some o → o.Ok (views i)

variable {objects : List (Owner α)} {views views' : Nat → Nat} {i : Nat} {o : Owner α}

theorem Counted.set (h : Counted objects views) (ho : o.Ok (views' i))
    (hv : ∀ j, j ≠ i → views' j = views j) : Counted (objects.set i o) views' := by
  intro j x hj
  by_cases hji : j = i
  · subst hji
    rw [List.getElem?_set_self'] at hj
    obtain ⟨y, -, rfl⟩ := Option.map_eq_some_iff.mp hj
    exact ho
  · rw [List.getElem?_set_ne (Ne.symm hji)] at hj
    rw [hv j hji]
    exact h j x hj

theorem Counted.append (h : Counted objects views) (hv : views objects.length = 0)
    (ho : o.Ok 0) : Counted (objects ++ [o]) views := by
  intro j x hj
  rcases Nat.lt_trichotomy j objects.length with hlt | rfl | hlt
  · exact h j x (by rwa [List.getElem?_append_left hlt] at hj)
  · rw [hv]
    obtain rfl : o = x := by simpa using hj
    exact ho
  · rw [List.getElem?_append_right (Nat.le_of_lt hlt),
      List.getElem?_eq_none (Nat.sub_pos_of_lt hlt)] at hj
    cases hj

/-- What the objects keep for `a`. -/
def items (a : Nat) (objects : List (Owner α)) : List α :=
  objects.filterMap fun o => if o.keeper = a then o.item else none

theorem filterMap_set {f : α → Option β} {l : List α} {x : α} (h : l[i]? = some x) (y : α) :
    ∃ rest, (l.filterMap f).Perm ((f x).toList ++ rest) ∧
      ((l.set i y).filterMap f).Perm ((f y).toList ++ rest) := by
  obtain ⟨hi, rfl⟩ := List.getElem?_eq_some_iff.mp h
  refine ⟨(l.eraseIdx i).filterMap f, ?_, ?_⟩
  · have := (List.getElem_cons_eraseIdx_perm hi).symm.filterMap f
    rw [List.filterMap_cons] at this
    cases hf : f l[i] <;> simpa [hf] using this
  · have := (List.set_perm_cons_eraseIdx hi y).filterMap f
    rw [List.filterMap_cons] at this
    cases hf : f y <;> simpa [hf] using this

section

variable {o' : Owner α} {a : Nat} {x : α} (h : objects[i]? = some o) (hk : o'.keeper = o.keeper)
include h hk

/-- An object that owns what it owned. -/
theorem items_same (hx : o'.item = o.item) :
    (items a (objects.set i o')).Perm (items a objects) := by
  obtain ⟨rest, hold, hnew⟩ :=
    filterMap_set (f := fun p => if p.keeper = a then p.item else none) h o'
  rw [hk, hx] at hnew
  exact hnew.trans hold.symm

/-- An object gives its item away. -/
theorem items_gone (hx : o.item = some x) (hx' : o'.item = none) :
    (items o.keeper objects).Perm (x :: items o.keeper (objects.set i o')) := by
  obtain ⟨rest, hold, hnew⟩ :=
    filterMap_set (f := fun p => if p.keeper = o.keeper then p.item else none) h o'
  simp only [hk, hx, hx', if_true, Option.toList] at hold hnew
  exact hold.trans (hnew.symm.cons x)

/-- What the objects keep for others stays the same. -/
theorem items_other (ha : o.keeper ≠ a) :
    (items a (objects.set i o')).Perm (items a objects) := by
  obtain ⟨rest, hold, hnew⟩ :=
    filterMap_set (f := fun p => if p.keeper = a then p.item else none) h o'
  simp only [hk, ha, if_false, Option.toList] at hold hnew
  exact hnew.trans hold.symm

end

theorem items_new (a b : Nat) (x : α) :
    items b (objects ++ [.new a x]) = items b objects ++ if a = b then [x] else [] := by
  by_cases h : a = b <;> simp [items, Owner.new, h]

theorem mem_items {a : Nat} {x : α} :
    x ∈ items a objects ↔
      ∃ (i : Nat) (o : Owner α), objects[i]? = some o ∧ o.keeper = a ∧ o.item = some x := by
  constructor
  · intro hx
    obtain ⟨o, ho, hx⟩ := List.mem_filterMap.mp hx
    obtain ⟨i, hi⟩ := List.mem_iff_getElem?.mp ho
    obtain ⟨hk, hx⟩ := Option.ite_none_right_eq_some.mp hx
    exact ⟨i, o, hi, hk, hx⟩
  · rintro ⟨i, o, hi, hk, hx⟩
    exact List.mem_filterMap.mpr ⟨o, List.mem_iff_getElem?.mpr ⟨i, hi⟩, by simp [hk, hx]⟩

/-- If there is no more than one item that is kept for `a`, one object has it. -/
theorem item_unique {a i j : Nat} {o p : Owner α} {x y : α} (h : (items a objects).length ≤ 1)
    (ho : objects[i]? = some o) (hp : objects[j]? = some p) (hko : o.keeper = a)
    (hkp : p.keeper = a) (hx : o.item = some x) (hy : p.item = some y) : i = j := by
  subst hko
  by_contra hij
  have hmem : y ∈ items o.keeper (objects.set i o.empty) :=
    mem_items.mpr ⟨j, p, by rw [List.getElem?_set_ne hij, hp], hkp, hy⟩
  have hlen := (items_gone ho (show o.empty.keeper = _ from rfl) hx rfl).length_eq
  have := List.length_pos_of_mem hmem
  simp only [List.length_cons] at hlen
  omega

/-- New objects come after the old ones. An old object keeps its item or has given it away. -/
def Aged (objects objects' : List (Owner α)) : Prop :=
  objects.length ≤ objects'.length ∧ ∀ (i : Nat) (o' : Owner α), objects'[i]? = some o' →
    i < objects.length → ∃ o, objects[i]? = some o ∧ o'.keeper = o.keeper ∧
      (o'.item = o.item ∨ o'.item = none)

theorem Aged.refl (objects : List (Owner α)) : Aged objects objects :=
  ⟨Nat.le_refl _, fun _ o ho _ => ⟨o, ho, rfl, .inl rfl⟩⟩

theorem Aged.trans {a b c : List (Owner α)} (hab : Aged a b) (hbc : Aged b c) : Aged a c := by
  refine ⟨Nat.le_trans hab.1 hbc.1, fun i o'' ho'' hi => ?_⟩
  obtain ⟨o', ho', hk', hx'⟩ := hbc.2 i o'' ho'' (Nat.lt_of_lt_of_le hi hab.1)
  obtain ⟨o, ho, hk, hx⟩ := hab.2 i o' ho' hi
  refine ⟨o, ho, hk'.trans hk, ?_⟩
  rcases hx' with hx' | hx'
  · rwa [hx']
  · exact .inr hx'

theorem Aged.set {o' : Owner α} (ho : objects[i]? = some o) (hk : o'.keeper = o.keeper)
    (hx : o'.item = o.item ∨ o'.item = none) : Aged objects (objects.set i o') := by
  refine ⟨by simp, fun j p hp hj => ?_⟩
  by_cases hji : j = i
  · subst hji
    rw [List.getElem?_set_self', ho] at hp
    cases hp
    exact ⟨o, ho, hk, hx⟩
  · rw [List.getElem?_set_ne (Ne.symm hji)] at hp
    exact ⟨p, hp, rfl, .inl rfl⟩

theorem Aged.append (objects new : List (Owner α)) : Aged objects (objects ++ new) :=
  ⟨by simp, fun j p hp hj =>
    ⟨p, by rwa [List.getElem?_append_left hj] at hp, rfl, .inl rfl⟩⟩

end TenzorBus.Bindings
