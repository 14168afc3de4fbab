import TenzorBus.Word.Strip
import TenzorBus.Word.Text

/-!
# The name of a ring

`safe_name` is written twice, and the two do not agree on every name: the extension replaces each
character that is not safe, the reference each run of them, and the reference also takes the
separators U+001C to U+001F for white space.

* `safeName`, `Shm.objectName` : the object of a name, in the extension
* `Reference.safeName`, `Reference.shmName` : in the reference
* `objectOf_eq_iff` : the names for which the two meet
-/

namespace TenzorBus

open Text

/-- The characters that a name keeps. -/
def isSafe (c : Char) : Bool := c.isAlphanum || c == '_' || c == '.' || c == '-'

def noSafeCharacter : String := "ring name must contain at least one safe character"

/-- What `safe_name` makes of one character. -/
def clean (c : Char) : Char := if isSafe c then c else '_'

def safeName (name : String) : Except String String :=
  let cleaned := (strip isWhiteSpace name.toList).map clean
  if cleaned.isEmpty then .error noSafeCharacter else .ok (String.ofList (cleaned.take 64))

def Shm.objectName (logical : String) : String := "/tzbus_" ++ logical

namespace Reference

/-- `str.isspace`. -/
def isSpace (c : Char) : Bool := isWhiteSpace c || (0x1C ≤ c.toNat && c.toNat ≤ 0x1F)

def safeName (name : String) : Except String String :=
  let cleaned := subRuns (fun c => !isSafe c) '_' false (strip isSpace name.toList)
  if cleaned.isEmpty then .error noSafeCharacter else .ok (String.ofList (cleaned.take 64))

def shmName (logical : String) : String := "tzbus_" ++ logical

/-- The object that `SharedMemory` opens. -/
def objectName (name : String) : String := "/" ++ name

end Reference

/-! ## what the reference leaves out -/

/-- The characters of a trimmed name, marked where the reference leaves them out: what its `strip`
takes off besides, and what goes on with a run of characters that are not safe. -/
def leftOut (trimmed : List Char) : List (Char × Bool) :=
  (trimmed.takeWhile Reference.isSpace).map (fun c => (c, true)) ++
  repeats (fun c => !isSafe c) false (strip Reference.isSpace trimmed) ++
  ((trimmed.dropWhile Reference.isSpace).rtakeWhile Reference.isSpace).map fun c => (c, true)

/-- The names for which what the reference leaves out does not show: none of the first 64 characters
is left out, or all that is kept from the first one on, as far as it shows, is `'_'` as well. -/
def Meets (name : String) : Prop :=
  hidden '_' 64 ((leftOut (strip isWhiteSpace name.toList)).map fun x => (clean x.1, x.2)) = true

instance (name : String) : Decidable (Meets name) := inferInstanceAs (Decidable (_ = true))

theorem isSafe_eq_false {c : Char} (h : Reference.isSpace c = true) : isSafe c = false := by
  have hrange : c.toNat ≤ 0x20 ∨ 0x85 ≤ c.toNat := by
    simp only [Reference.isSpace, isWhiteSpace, Bool.or_eq_true, Bool.and_eq_true, beq_iff_eq,
      decide_eq_true_eq] at h
    omega
  have hnot : ∀ d : Char, 0x20 < d.toNat → d.toNat < 0x85 → c ≠ d := by
    rintro d hlo hhi rfl
    omega
  have halnum : c.isAlphanum = false := by
    have halpha : c.isAlpha = false := by
      rw [Bool.eq_false_iff, Ne, isAlpha_iff]
      omega
    have hdigit : c.isDigit = false := by
      simp only [Char.isDigit, Bool.and_eq_false_iff, decide_eq_false_iff_not, ge_iff_le,
        UInt32.le_iff_toNat_le]
      have hval : c.val.toNat = c.toNat := rfl
      simp
      omega
    rw [Char.isAlphanum, halpha, hdigit, Bool.or_false]
  simp [isSafe, halnum, hnot '_' (by decide) (by decide), hnot '.' (by decide) (by decide),
    hnot '-' (by decide) (by decide)]

theorem clean_eq_underscore {c : Char} (h : isSafe c = false) : clean c = '_' := by
  simp [clean, h]

theorem leftOut_fst (trimmed : List Char) : (leftOut trimmed).map Prod.fst = trimmed := by
  have hmark : ∀ l : List Char, (l.map fun c => (c, true)).map Prod.fst = l := fun l => by
    simp [Function.comp_def]
  unfold leftOut
  rw [List.map_append, List.map_append, repeats_fst, hmark, hmark]
  exact (strip_split _ _).symm

/-- What is left out is never safe. -/
theorem isSafe_of_leftOut {trimmed : List Char} {x : Char × Bool} (hx : x ∈ leftOut trimmed)
    (hout : x.2 = true) : isSafe x.1 = false := by
  simp only [leftOut, List.mem_append, List.mem_map] at hx
  rcases hx with (⟨c, hc, rfl⟩ | hx) | ⟨c, hc, rfl⟩
  · exact isSafe_eq_false (List.mem_takeWhile_imp hc)
  · simpa using of_mem_repeats hx hout
  · exact isSafe_eq_false (List.mem_rtakeWhile_imp hc)

theorem kept_map_clean (xs : List (Char × Bool)) :
    kept (xs.map fun x => (clean x.1, x.2)) = (kept xs).map clean := by
  simp [kept, List.filter_map, Function.comp_def]

/-- What the reference makes of a name, from what it leaves out of the trimmed one. -/
theorem reference_cleaned (name : String) :
    subRuns (fun c => !isSafe c) '_' false (strip Reference.isSpace name.toList) =
      kept ((leftOut (strip isWhiteSpace name.toList)).map fun x => (clean x.1, x.2)) := by
  have hspace : ∀ c, isWhiteSpace c = true → Reference.isSpace c = true := by
    intro c hc
    simp [Reference.isSpace, hc]
  rw [kept_map_clean, leftOut, kept_append, kept_append, kept_out, kept_out,
    strip_strip hspace, subRuns_eq]
  have hclean : (fun x : Char × Bool => if !isSafe x.1 then '_' else x.1) =
      fun x => clean x.1 := by
    funext x
    unfold clean
    cases isSafe x.1 <;> rfl
  rw [hclean, List.nil_append, List.append_nil, kept, List.map_map]
  rfl

/-! ## the object of a name -/

/-- The object that the extension opens, if it takes the name. -/
def objectOf (name : String) : Option String :=
  (safeName name).toOption.map Shm.objectName

/-- The object that the reference opens, if it takes the name. -/
def Reference.objectOf (name : String) : Option String :=
  (Reference.safeName name).toOption.map (Reference.objectName ∘ Reference.shmName)

/-- The first `k + 1` of two lists say whether they are empty. -/
theorem isEmpty_eq_of_take {α : Type} {k : Nat} {xs ys : List α}
    (h : xs.take (k + 1) = ys.take (k + 1)) : xs.isEmpty = ys.isEmpty := by
  cases xs <;> cases ys <;> simp_all

/-- The object of a cleaned name. -/
def objectOfCleaned (cleaned : List Char) : Option String :=
  if cleaned.isEmpty then none else some ("/tzbus_" ++ String.ofList (cleaned.take 64))

theorem objectOf_eq (name : String) :
    objectOf name = objectOfCleaned ((strip isWhiteSpace name.toList).map clean) := by
  unfold objectOf safeName objectOfCleaned
  dsimp only
  split <;> rfl

theorem reference_objectOf_eq (name : String) :
    Reference.objectOf name = objectOfCleaned
      (subRuns (fun c => !isSafe c) '_' false (strip Reference.isSpace name.toList)) := by
  unfold Reference.objectOf Reference.safeName objectOfCleaned
  dsimp only
  split
  · rfl
  · simp [Except.toOption, Reference.objectName, Reference.shmName, ← String.append_assoc]

theorem objectOfCleaned_inj {xs ys : List Char} :
    objectOfCleaned xs = objectOfCleaned ys ↔ xs.take 64 = ys.take 64 := by
  constructor
  · intro h
    unfold objectOfCleaned at h
    cases xs with
    | nil => cases ys <;> simp_all
    | cons x xs =>
      cases ys with
      | nil => simp at h
      | cons y ys => simpa [String.ofList_inj] using h
  · intro h
    have hempty := isEmpty_eq_of_take h
    unfold objectOfCleaned
    rw [hempty, h]

/-- The two open the same object, or neither takes the name, exactly if nothing that the reference
leaves out shows. -/
theorem objectOf_eq_iff (name : String) :
    objectOf name = Reference.objectOf name ↔ Meets name := by
  have hout : ∀ x ∈ (leftOut (strip isWhiteSpace name.toList)).map fun x => (clean x.1, x.2),
      x.2 = true → x.1 = '_' := by
    intro x hx hx'
    obtain ⟨y, hy, rfl⟩ := List.mem_map.mp hx
    exact clean_eq_underscore (isSafe_of_leftOut hy hx')
  have hall : ((leftOut (strip isWhiteSpace name.toList)).map fun x => (clean x.1, x.2)).map
      Prod.fst = (strip isWhiteSpace name.toList).map clean := by
    conv_rhs => rw [← leftOut_fst (strip isWhiteSpace name.toList), List.map_map]
    rw [List.map_map]
    rfl
  rw [objectOf_eq, reference_objectOf_eq, objectOfCleaned_inj, reference_cleaned, ← hall,
    take_kept_iff hout]
  rfl

/-- Two blanks in a row: the extension makes two characters of them, the reference one. -/
theorem objectOf_two_blanks :
    objectOf "a  b" = some "/tzbus_a__b" ∧ Reference.objectOf "a  b" = some "/tzbus_a_b" ∧
      objectOf "a  b" ≠ Reference.objectOf "a  b" := by
  decide

-- U+001C is white space to `str.strip` alone.
example : ¬ Meets "\x1cframes" := by decide

end TenzorBus
