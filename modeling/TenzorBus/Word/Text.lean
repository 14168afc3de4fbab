import Mathlib.Data.List.Basic
import Mathlib.Data.UInt

/-!
# Fields of a line of text

Words between white space, what follows the last occurrence of a character, and decimal numbers:
how they are written, and that reading gives back what was written.

* `words`, `words_spaced` : the fields of a line
* `afterLast`, `afterLast_append` : the part behind a name that may contain anything
* `parseU64`, `parseU64_signedDecimal` : numbers
-/

namespace TenzorBus.Text

/-- The letters of ASCII, by their codes. -/
theorem isAlpha_iff {c : Char} : c.isAlpha = true ↔
    (65 ≤ c.toNat ∧ c.toNat ≤ 90) ∨ (97 ≤ c.toNat ∧ c.toNat ≤ 122) := by
  have hval : c.val.toNat = c.toNat := rfl
  show (decide (c.val ≥ 65 ∧ c.val ≤ 90) ||
    (decide (c.val ≥ 97) && decide (c.val ≤ 122))) = true ↔ _
  simp [UInt32.le_iff_toNat_le, hval]

/-- The characters with the Unicode property `White_Space`. -/
def isWhiteSpace (c : Char) : Bool :=
  let n := c.toNat
  (0x09 ≤ n && n ≤ 0x0D) || n == 0x20 || n == 0x85 || n == 0xA0 || n == 0x1680 ||
    (0x2000 ≤ n && n ≤ 0x200A) || n == 0x2028 || n == 0x2029 || n == 0x202F || n == 0x205F ||
    n == 0x3000

/-- The maximal runs of characters that are not white space. -/
def words (l : List Char) : List (List Char) :=
  (l.splitOnP isWhiteSpace).filter fun w => !w.isEmpty

/-- What follows the last `c`. -/
def afterLast (c : Char) : List Char → Option (List Char)
  | [] => none
  | x :: xs =>
    match afterLast c xs with
    | some rest => some rest
    | none => if x = c then some xs else none

/-- A number as it is written. -/
def decimal (n : Nat) : List Char := Nat.toDigits 10 n

/-- A number with its sign. -/
def signedDecimal : Int → List Char
  | .ofNat n => decimal n
  | .negSucc n => '-' :: decimal (n + 1)

/-- `parse::<u64>`: a number of at least one digit, which may have a plus sign, if it fits. -/
def parseU64 (l : List Char) : Option UInt64 :=
  let digits := if l.head? = some '+' then l.tail else l
  if digits ≠ [] ∧ digits.all Char.isDigit = true ∧ Nat.ofDigitChars 10 digits 0 < 2 ^ 64 then
    some (UInt64.ofNat (Nat.ofDigitChars 10 digits 0))
  else none

/-! ## words -/

theorem words_nil : words [] = [] := by
  simp [words]

/-- White space before a word. -/
theorem words_cons_space {c : Char} (hc : isWhiteSpace c = true) (l : List Char) :
    words (c :: l) = words l := by
  unfold words
  rw [List.splitOnP_cons_eq_if_modifyHead, if_pos hc, List.filter_cons_of_neg (by simp)]

/-- A word that white space follows. -/
theorem words_word_append {w : List Char} (hw : w ≠ []) (hn : ∀ c ∈ w, isWhiteSpace c = false)
    {c : Char} (hc : isWhiteSpace c = true) (l : List Char) :
    words (w ++ c :: l) = w :: words l := by
  unfold words
  rw [List.splitOnP_append_cons_of_forall_mem hn c hc, List.filter_cons_of_pos (by simpa using hw)]

/-- Words that are set apart by spaces, on a line of their own. -/
theorem words_spaced (ws : List (List Char)) (hw : ∀ w ∈ ws, w ≠ [] ∧
    ∀ c ∈ w, isWhiteSpace c = false) : words (ws.flatMap (' ' :: ·) ++ ['\n']) = ws := by
  have hspace : isWhiteSpace ' ' = true := by decide
  have hline : isWhiteSpace '\n' = true := by decide
  induction ws with
  | nil => exact (words_cons_space hline []).trans words_nil
  | cons w ws ih =>
    obtain ⟨hne, hnot⟩ := hw w List.mem_cons_self
    have ih := ih fun w' hw' => hw w' (List.mem_cons_of_mem _ hw')
    rw [List.flatMap_cons, List.cons_append, List.cons_append, words_cons_space hspace,
      List.append_assoc]
    -- white space follows the word, that of the next one or the end of the line
    cases ws with
    | nil =>
      rw [List.flatMap_nil, List.nil_append, words_word_append hne hnot hline, words_nil]
    | cons w' ws =>
      rw [List.flatMap_cons, List.cons_append, List.cons_append] at ih ⊢
      rw [words_cons_space hspace] at ih
      rw [words_word_append hne hnot hspace, ih]

/-! ## the last occurrence -/

theorem afterLast_of_notMem {c : Char} {l : List Char} (h : c ∉ l) : afterLast c l = none := by
  induction l with
  | nil => rfl
  | cons x xs ih =>
    rw [List.mem_cons, not_or] at h
    rw [afterLast, ih h.2]
    exact if_neg fun e => h.1 e.symm

/-- Whatever stands before the last `c` does not matter. -/
theorem afterLast_append {c : Char} {rest : List Char} (h : c ∉ rest) (l : List Char) :
    afterLast c (l ++ c :: rest) = some rest := by
  induction l with
  | nil =>
    rw [List.nil_append, afterLast, afterLast_of_notMem h]
    exact if_pos rfl
  | cons x xs ih => rw [List.cons_append, afterLast, ih]

/-! ## numbers -/

theorem isDigit_of_mem_decimal {n : Nat} {c : Char} (hc : c ∈ decimal n) : c.isDigit = true :=
  Nat.isDigit_of_mem_toDigits (by decide) (by decide) hc

theorem decimal_ne_nil (n : Nat) : decimal n ≠ [] := Nat.toDigits_ne_nil

theorem isWhiteSpace_of_isDigit {c : Char} (h : c.isDigit = true) : isWhiteSpace c = false := by
  have hc : 48 ≤ c.toNat ∧ c.toNat ≤ 57 := by
    simpa [Char.isDigit, UInt32.le_iff_toNat_le] using h
  simp only [isWhiteSpace, Bool.or_eq_false_iff, Bool.and_eq_false_iff, decide_eq_false_iff_not,
    beq_eq_false_iff_ne]
  omega

/-- The characters of a number. -/
theorem mem_signedDecimal {z : Int} {c : Char} (hc : c ∈ signedDecimal z) :
    c = '-' ∨ c.isDigit = true := by
  cases z with
  | ofNat n => exact .inr (isDigit_of_mem_decimal hc)
  | negSucc n =>
    rcases List.mem_cons.mp hc with rfl | hc
    · exact .inl rfl
    · exact .inr (isDigit_of_mem_decimal hc)

theorem signedDecimal_word (z : Int) :
    signedDecimal z ≠ [] ∧ ∀ c ∈ signedDecimal z, isWhiteSpace c = false := by
  constructor
  · cases z with
    | ofNat n => exact decimal_ne_nil n
    | negSucc n => exact List.cons_ne_nil _ _
  · intro c hc
    rcases mem_signedDecimal hc with rfl | hd
    · decide
    · exact isWhiteSpace_of_isDigit hd

theorem parseU64_decimal_eq (n : Nat) :
    parseU64 (decimal n) = if n < 2 ^ 64 then some (UInt64.ofNat n) else none := by
  have hplus : (decimal n).head? ≠ some '+' := by
    intro h
    have hd := isDigit_of_mem_decimal (List.mem_of_mem_head? (Option.mem_def.mpr h))
    exact absurd hd (by decide)
  have hdigits : (decimal n).all Char.isDigit = true :=
    List.all_eq_true.mpr fun c hc => isDigit_of_mem_decimal hc
  have hvalue : Nat.ofDigitChars 10 (decimal n) 0 = n := Nat.ofDigitChars_ten_toDigits
  unfold parseU64
  simp only [if_neg hplus, hvalue]
  by_cases hn : n < 2 ^ 64
  · rw [if_pos ⟨decimal_ne_nil _, hdigits, hn⟩, if_pos hn]
  · rw [if_neg (fun h => hn h.2.2), if_neg hn]

/-- A number that is written down and read again. -/
theorem parseU64_decimal (q : UInt64) : parseU64 (decimal q.toNat) = some q := by
  rw [parseU64_decimal_eq, if_pos q.toNat_lt, UInt64.ofNat_toNat]

/-- Only the decimal of a number is read as that number. -/
theorem parseU64_signedDecimal {z : Int} {q : UInt64} :
    parseU64 (signedDecimal z) = some q ↔ z = q.toNat := by
  constructor
  · intro h
    cases z with
    | ofNat n =>
      change parseU64 (decimal n) = some q at h
      rw [parseU64_decimal_eq] at h
      obtain ⟨hn, hq⟩ := Option.ite_none_right_eq_some.mp h
      cases hq
      show (n : Int) = ((UInt64.ofNat n).toNat : Int)
      rw [UInt64.toNat_ofNat_of_lt' hn]
    | negSucc n => cases h
  · rintro rfl
    exact parseU64_decimal q

end TenzorBus.Text
