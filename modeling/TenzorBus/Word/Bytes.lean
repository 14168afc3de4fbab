import Mathlib.Algebra.Group.Nat.Defs
import Mathlib.Data.List.Basic

/-!
# Bytes

A memory as a function from addresses to bytes, words in little-endian order, and what is left of
many writes.

* `le`, `ofLe` : the bytes of a number, and the number of some bytes
* `Image.write`, `Image.slice`, `Image.load` : write some bytes, read some bytes, read a word
* `Image.slice_writes` : writes that are apart from each other can all be read back
* `Image.writes_over` : what was written before to the same places is gone
-/

namespace TenzorBus

/-! ## words -/

/-- The `w` little-endian bytes of a number. What does not fit is lost. -/
def le : Nat → Nat → List UInt8
  | 0, _ => []
  | w + 1, v => UInt8.ofNat v :: le w (v / 256)

/-- The number with these little-endian bytes. -/
def ofLe : List UInt8 → Nat
  | [] => 0
  | b :: bs => b.toNat + 256 * ofLe bs

@[simp] theorem length_le (w v : Nat) : (le w v).length = w := by
  induction w generalizing v with
  | zero => rfl
  | succ w ih => rw [le, List.length_cons, ih]

theorem ofLe_le {w v : Nat} (h : v < 256 ^ w) : ofLe (le w v) = v := by
  induction w generalizing v with
  | zero =>
    rw [Nat.pow_zero] at h
    rw [le, ofLe]
    omega
  | succ w ih =>
    have hdiv : v / 256 < 256 ^ w := by
      rw [Nat.pow_succ] at h
      exact Nat.div_lt_of_lt_mul (by omega)
    rw [le, ofLe, ih hdiv, UInt8.toNat_ofNat']
    omega

/-! ## memory -/

/-- A memory, byte by byte. -/
abbrev Image := Nat → UInt8

/-- Some bytes that are written to some place. -/
structure Write where
  off : Nat
  bytes : List UInt8
  deriving DecidableEq

namespace Write

/-- A word of `w` bytes. -/
def word (off w v : Nat) : Write := { off := off, bytes := le w v }

/-- The same bytes at a place that is given relative to `base`. -/
def shifted (base : Nat) (x : Write) : Write := { off := base + x.off, bytes := x.bytes }

/-- One ends before the other begins. -/
def Apart (x y : Write) : Prop :=
  x.off + x.bytes.length ≤ y.off ∨ y.off + y.bytes.length ≤ x.off

instance (x y : Write) : Decidable (Apart x y) := inferInstanceAs (Decidable (_ ∨ _))

/-- Where a write goes: where it begins, and how many bytes it has. -/
def span (x : Write) : Nat × Nat := (x.off, x.bytes.length)

/-- Whether writes are apart can be seen from where they go. -/
theorem pairwise_apart {xs : List Write} (spans : List (Nat × Nat)) (hx : xs.map span = spans)
    (h : spans.Pairwise fun p q => p.1 + p.2 ≤ q.1 ∨ q.1 + q.2 ≤ p.1) : xs.Pairwise Apart := by
  subst hx
  exact (List.pairwise_map (f := span)).mp h

theorem Apart.symm {x y : Write} (h : Apart x y) : Apart y x := Or.symm h

theorem Apart.shifted {x y : Write} (h : Apart x y) (base : Nat) :
    Apart (x.shifted base) (y.shifted base) := by
  unfold Apart Write.shifted at *
  simp only
  omega

end Write

namespace Image

variable {m m' : Image} {off len a : Nat} {x : Write} {xs : List Write}

def write (m : Image) (x : Write) : Image := fun a =>
  if x.off ≤ a then (x.bytes[a - x.off]?).getD (m a) else m a

/-- Writes, one after the other. -/
def writes (m : Image) (xs : List Write) : Image := xs.foldl write m

/-- The bytes of a place. -/
def slice (m : Image) (off len : Nat) : List UInt8 := (List.range len).map fun k => m (off + k)

/-- A word of `w` bytes. -/
def load (m : Image) (off w : Nat) : Nat := ofLe (m.slice off w)

@[simp] theorem writes_nil : m.writes [] = m := rfl

theorem writes_cons : m.writes (x :: xs) = (m.write x).writes xs := rfl

theorem writes_append (xs ys : List Write) : m.writes (xs ++ ys) = (m.writes xs).writes ys :=
  List.foldl_append

theorem slice_congr (h : ∀ a, off ≤ a → a < off + len → m a = m' a) :
    m.slice off len = m'.slice off len := by
  refine List.map_congr_left fun k hk => h _ (by omega) ?_
  have := List.mem_range.mp hk
  omega

/-- What lies elsewhere stays as it is. -/
theorem write_outside (h : a < x.off ∨ x.off + x.bytes.length ≤ a) : m.write x a = m a := by
  unfold write
  split
  · rw [List.getElem?_eq_none (by omega), Option.getD_none]
  · rfl

theorem writes_outside (h : ∀ x ∈ xs, a < x.off ∨ x.off + x.bytes.length ≤ a) :
    m.writes xs a = m a := by
  induction xs generalizing m with
  | nil => rfl
  | cons x xs ih =>
    rw [writes_cons, ih fun y hy => h y (List.mem_cons_of_mem _ hy),
      write_outside (h x List.mem_cons_self)]

theorem slice_write_self : (m.write x).slice x.off x.bytes.length = x.bytes := by
  refine List.ext_getElem (by simp [slice]) fun k hk hk' => ?_
  simp [slice, write, hk']

/-- What is written over does not matter. -/
theorem writes_congr
    (h : ∀ a, (∀ x ∈ xs, a < x.off ∨ x.off + x.bytes.length ≤ a) → m a = m' a) :
    m.writes xs = m'.writes xs := by
  induction xs generalizing m m' with
  | nil => exact funext fun a => h a nofun
  | cons x xs ih =>
    rw [writes_cons, writes_cons]
    refine ih fun a ha => ?_
    by_cases hx : a < x.off ∨ x.off + x.bytes.length ≤ a
    · rw [write_outside hx, write_outside hx]
      refine h a fun y hy => ?_
      rcases List.mem_cons.mp hy with rfl | hy
      · exact hx
      · exact ha y hy
    · have hlt : a - x.off < x.bytes.length := by omega
      unfold write
      rw [if_pos (by omega), if_pos (by omega), List.getElem?_eq_getElem hlt, Option.getD_some,
        Option.getD_some]

theorem writes_over {zs : List Write} (h : ∀ z ∈ zs, ∃ x ∈ xs, x.span = z.span) :
    (m.writes zs).writes xs = m.writes xs := by
  refine writes_congr fun a ha => writes_outside fun z hz => ?_
  obtain ⟨x, hx, hspan⟩ := h z hz
  obtain ⟨hoff, hlen⟩ := Prod.mk.inj hspan
  rw [← hoff, ← hlen]
  exact ha x hx

/-- Writes that are apart from each other can all be read back. -/
theorem slice_writes (hx : x ∈ xs) (hapart : xs.Pairwise Write.Apart) :
    (m.writes xs).slice x.off x.bytes.length = x.bytes := by
  induction xs generalizing m with
  | nil => cases hx
  | cons y ys ih =>
    obtain ⟨hy, hys⟩ := List.pairwise_cons.mp hapart
    rcases List.mem_cons.mp hx with rfl | hx
    · rw [writes_cons]
      refine Eq.trans (slice_congr fun a _ _ => writes_outside fun z hz => ?_) slice_write_self
      rcases hy z hz with h | h
      · exact .inl (by omega)
      · exact .inr (by omega)
    · rw [writes_cons]
      exact ih hx hys

theorem slice_mk {off : Nat} {bytes : List UInt8} (hx : Write.mk off bytes ∈ xs)
    (hapart : xs.Pairwise Write.Apart) : (m.writes xs).slice off bytes.length = bytes :=
  slice_writes hx hapart

/-- The same for a word. -/
theorem load_writes {w v : Nat} (hx : Write.word off w v ∈ xs) (hapart : xs.Pairwise Write.Apart)
    (hv : v < 256 ^ w) : (m.writes xs).load off w = v := by
  have h := slice_writes (m := m) hx hapart
  rw [show (Write.word off w v).bytes.length = w from length_le w v] at h
  rw [load, show (m.writes xs).slice off w = le w v from h, ofLe_le hv]

end Image

end TenzorBus
