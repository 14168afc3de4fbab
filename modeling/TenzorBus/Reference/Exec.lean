import TenzorBus.Reference.Ring

/-!
# What computations of the reference do

A computation gives a result and a buffer. Most of them are writes to one slot that are guarded:
they happen if the values fit, and raise otherwise.

* `exec` : the result and the buffer
* `Guarded` : a guarded write to a slot
* `Guarded.seq`, `Guarded.each` : one after the other
-/

namespace TenzorBus.Reference

variable {n : Nat} {α β : Type}

/-- What a computation gives, from buffer `b`. -/
def exec (c : PyM n α) (b : Buf n) : Except Raise α × Buf n := (ExceptT.run c).run b

@[simp] theorem exec_pure (a : α) (b : Buf n) : exec (pure a : PyM n α) b = (.ok a, b) := rfl

@[simp] theorem exec_throw (e : Raise) (b : Buf n) :
    exec (throw e : PyM n α) b = (.error e, b) := rfl

@[simp] theorem exec_get (b : Buf n) : exec (get : PyM n (Buf n)) b = (.ok b, b) := rfl

@[simp] theorem exec_modify (f : Buf n → Buf n) (b : Buf n) :
    exec (modify f : PyM n PUnit) b = (.ok ⟨⟩, f b) := rfl

theorem exec_bind (c : PyM n α) (k : α → PyM n β) (b : Buf n) :
    exec (c >>= k) b = match exec c b with
      | (.ok a, b') => exec (k a) b'
      | (.error e, b') => (.error e, b') := by
  unfold exec
  rw [ExceptT.run_bind, StateT.run_bind]
  rcases (ExceptT.run c).run b with ⟨r | a, b'⟩
  · rfl
  · rfl

theorem exec_bind_ok {c : PyM n α} {k : α → PyM n β} {b b' : Buf n} {a : α}
    (h : exec c b = (.ok a, b')) : exec (c >>= k) b = exec (k a) b' := by
  rw [exec_bind, h]

theorem exec_bind_error {c : PyM n α} {k : α → PyM n β} {b b' : Buf n} {e : Raise}
    (h : exec c b = (.error e, b')) : exec (c >>= k) b = (.error e, b') := by
  rw [exec_bind, h]

/-- The value fits a field of so many bits. -/
def Packs (bits : Nat) (v : Int) : Prop := 0 ≤ v ∧ v < 2 ^ bits

instance (bits : Nat) (v : Int) : Decidable (Packs bits v) := inferInstanceAs (Decidable (_ ∧ _))

section

variable {bits : Nat} {v : Int} {put : Nat → Buf n → Buf n}

theorem exec_pack (h : Packs bits v) (b : Buf n) :
    exec (pack bits v put) b = (.ok ⟨⟩, put v.toNat b) := by
  unfold pack
  rw [if_pos (show 0 ≤ v ∧ v < 2 ^ bits from h)]
  rfl

theorem exec_pack_error (h : ¬Packs bits v) (b : Buf n) :
    exec (pack bits v put) b = (.error .struct, put 0 b) := by
  unfold pack
  rw [if_neg (show ¬(0 ≤ v ∧ v < 2 ^ bits) from h)]
  rfl

end

theorem Packs.ofNat {bits v : Nat} (h : v < 2 ^ bits) : Packs bits v := by
  unfold Packs
  exact ⟨Int.natCast_nonneg v, by exact_mod_cast h⟩

theorem exec_writeSlot (i : Fin n) (f : Slot → Slot) (b : Buf n) :
    exec (writeSlot i f) b = (.ok ⟨⟩, b.setSlot i f) := rfl

theorem exec_writeGlobal64 {v : Int} {f : UInt64 → Buf n → Buf n} (h : Packs 64 v) (b : Buf n) :
    exec (writeGlobal64 v f) b = (.ok ⟨⟩, f (UInt64.ofNat v.toNat) b) := exec_pack h b

theorem exec_writeGlobal64_error {v : Int} {f : UInt64 → Buf n → Buf n} (h : ¬Packs 64 v)
    (b : Buf n) : exec (writeGlobal64 v f) b = (.error .struct, f 0 b) := exec_pack_error h b

theorem exec_writeGlobal32 {v : Int} {f : UInt32 → Buf n → Buf n} (h : Packs 32 v) (b : Buf n) :
    exec (writeGlobal32 v f) b = (.ok ⟨⟩, f (UInt32.ofNat v.toNat) b) := exec_pack h b

/-! ## slots -/

@[simp] theorem Buf.setSlot_slots_self (b : Buf n) (i : Fin n) (f : Slot → Slot) :
    (b.setSlot i f).slots i = f (b.slots i) := by
  simp [Buf.setSlot]

@[simp] theorem Buf.setSlot_slots_ne (b : Buf n) {i j : Fin n} (f : Slot → Slot) (h : j ≠ i) :
    (b.setSlot i f).slots j = b.slots j := by
  simp [Buf.setSlot, h]

theorem Buf.setSlot_setSlot (b : Buf n) (i : Fin n) (f g : Slot → Slot) :
    (b.setSlot i f).setSlot i g = b.setSlot i (g ∘ f) := by
  simp [Buf.setSlot]

/-! ## guarded writes -/

/-- If `φ` holds, the computation makes the slot what `f` says; otherwise it raises, and in either
case it leaves the state of the slot alone. -/
structure Guarded (c : PyM n PUnit) (i : Fin n) (φ : Prop) (f : Slot → Slot) : Prop where
  done : φ → ∀ b, exec c b = (.ok ⟨⟩, b.setSlot i f)
  raised : ¬φ → ∀ b, ∃ e f', exec c b = (.error e, b.setSlot i f') ∧ ∀ s, (f' s).state = s.state
  state : ∀ s, (f s).state = s.state

namespace Guarded

variable {c c' : PyM n PUnit} {i : Fin n} {φ φ' : Prop} {f f' : Slot → Slot}

theorem seq (h : Guarded c i φ f) (h' : Guarded c' i φ' f') :
    Guarded (c >>= fun _ => c') i (φ ∧ φ') (f' ∘ f) where
  done hφ b := by
    rw [exec_bind_ok (h.done hφ.1 b), h'.done hφ.2, Buf.setSlot_setSlot]
  raised hφ b := by
    by_cases hc : φ
    · obtain ⟨e, g, hg, hstate⟩ := h'.raised (fun hc' => hφ ⟨hc, hc'⟩) (b.setSlot i f)
      refine ⟨e, g ∘ f, ?_, fun s => (hstate _).trans (h.state s)⟩
      rw [exec_bind_ok (h.done hc b), hg, Buf.setSlot_setSlot]
    · obtain ⟨e, g, hg, hstate⟩ := h.raised hc b
      exact ⟨e, g, exec_bind_error hg, hstate⟩
  state s := (h'.state _).trans (h.state s)

theorem congr (h : Guarded c i φ f) (hφ : φ' ↔ φ) (hf : f' = f) : Guarded c i φ' f' := by
  rw [hf, propext hφ]
  exact h

theorem write (hf : ∀ s, (f s).state = s.state) : Guarded (writeSlot i f) i True f where
  done _ _ := rfl
  raised h := absurd trivial h
  state := hf

theorem packed {bits : Nat} {v : Int} {g : Nat → Slot → Slot}
    (hg : ∀ w s, (g w s).state = s.state) :
    Guarded (pack bits v fun w b => b.setSlot i (g w)) i (Packs bits v) (g v.toNat) where
  done h b := exec_pack h b
  raised h b := ⟨.struct, g 0, exec_pack_error h b, hg 0⟩
  state := hg _

theorem writeU64 {v : Int} {g : UInt64 → Slot → Slot} (hg : ∀ w s, (g w s).state = s.state) :
    Guarded (Reference.writeU64 i v g) i (Packs 64 v) (g (UInt64.ofNat v.toNat)) :=
  packed fun _ => hg _

theorem writeU32 {v : Int} {g : UInt32 → Slot → Slot} (hg : ∀ w s, (g w s).state = s.state) :
    Guarded (Reference.writeU32 i v g) i (Packs 32 v) (g (UInt32.ofNat v.toNat)) :=
  packed fun _ => hg _

theorem writeU16 {v : Int} {g : UInt16 → Slot → Slot} (hg : ∀ w s, (g w s).state = s.state) :
    Guarded (Reference.writeU16 i v g) i (Packs 16 v) (g (UInt16.ofNat v.toNat)) :=
  packed fun _ => hg _

/-- A check, and then a write. -/
theorem check {e : Raise} {ψ : Prop} [Decidable ψ] (h : Guarded c i φ f) :
    Guarded
      (do
        if ψ then throw e
        c) i (¬ψ ∧ φ) f where
  done hφ b := by
    rw [if_neg hφ.1]
    exact h.done hφ.2 b
  raised hφ b := by
    by_cases hψ : ψ
    · refine ⟨e, id, ?_, fun _ => rfl⟩
      rw [if_pos hψ]
      simp [Buf.setSlot]
    · rw [if_neg hψ]
      exact h.raised (fun hc => hφ ⟨hψ, hc⟩) b
  state := h.state

/-- Writes for every element of a list. -/
theorem each {c : β → PyM n PUnit} {ψ : β → Prop} {g : β → Slot → Slot}
    (h : ∀ x, Guarded (c x) i (ψ x) (g x)) :
    ∀ l : List β, Guarded (l.forM c) i (∀ x ∈ l, ψ x) (fun s => l.foldl (fun s x => g x s) s)
  | [] =>
    { done := fun _ b => by simp [Buf.setSlot]
      raised := fun hφ => absurd (fun _ hx => nomatch hx) hφ
      state := fun _ => rfl }
  | x :: xs => by
    refine ((h x).seq (each h xs)).congr ?_ rfl
    simp

end Guarded

end TenzorBus.Reference
