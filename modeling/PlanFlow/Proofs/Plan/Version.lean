import Mathlib.Data.List.TakeWhile
import Mathlib.Data.Nat.Digits.Defs
import PlanFlow.Plan.Check
import PlanFlow.Proofs.Text.Placeholder

/-!
# The major part of a version

A version may stand between blanks and begin with any number of letters `v`.  Then comes its major
part, decimal digits with a plus sign allowed in front, and then nothing, or a point and any text.
-/

namespace PlanFlow
namespace Text

variable {c : Char} {s : List Char}

/-- What is dropped at the start of a text ends before a character that stays. -/
theorem dropWhile_append_cons {α : Type} {drop : α → Bool} {a : α} (ha : drop a = false)
    (before after : List α) :
    (before ++ a :: after).dropWhile drop = before.dropWhile drop ++ a :: after := by
  rw [List.dropWhile_append]
  split
  · rename_i hempty
    rw [List.isEmpty_iff.mp hempty, List.dropWhile_cons_of_neg (by simp [ha]), List.nil_append]
  · rfl

/-- Nothing is left of a text exactly if it is blank. -/
theorem trim_eq_nil_iff : trim s = [] ↔ ∀ c ∈ s, isBlank c = true := by
  unfold trim trimLeft
  rw [List.reverse_eq_nil_iff, List.dropWhile_eq_nil_iff]
  constructor
  · intro h c hc
    by_contra hblank
    have hkept : c ∈ s.dropWhile isBlank := by
      obtain ⟨before, after, rfl⟩ := List.append_of_mem hc
      rw [dropWhile_append_cons (by simpa using hblank)]
      simp
    exact hblank (h c (List.mem_reverse.mpr hkept))
  · intro h c hc
    exact h c (List.dropWhile_subset _ (List.mem_reverse.mp hc))

/-- A text is what is left of it between blanks. -/
theorem exists_blanks_trim (s : List Char) : ∃ before after, s = before ++ trim s ++ after ∧
    (∀ c ∈ before, isBlank c = true) ∧ ∀ c ∈ after, isBlank c = true := by
  refine ⟨s.takeWhile isBlank, ((trimLeft s).reverse.takeWhile isBlank).reverse, ?_, ?_, ?_⟩
  · have hright : trim s ++ ((trimLeft s).reverse.takeWhile isBlank).reverse = trimLeft s := by
      unfold trim
      rw [trimLeft, ← List.reverse_append, List.takeWhile_append_dropWhile, List.reverse_reverse]
    rw [List.append_assoc, hright]
    exact List.takeWhile_append_dropWhile.symm
  · exact fun c hc => List.mem_takeWhile_imp hc
  · exact fun c hc => List.mem_takeWhile_imp (List.mem_reverse.mp hc)

/-- A text without the white space at its end. -/
def trimRight (s : List Char) : List Char := (trimLeft s.reverse).reverse

theorem trimRight_append_cons (hc : isBlank c = false) (before after : List Char) :
    trimRight (before ++ c :: after) = before ++ c :: trimRight after := by
  unfold trimRight trimLeft
  have hreverse : (before ++ c :: after).reverse = after.reverse ++ c :: before.reverse := by simp
  rw [hreverse, dropWhile_append_cons hc]
  simp

theorem trimRight_of_blank (h : ∀ c ∈ s, isBlank c = true) : trimRight s = [] := by
  unfold trimRight trimLeft
  rw [List.reverse_eq_nil_iff, List.dropWhile_eq_nil_iff]
  exact fun c hc => h c (List.mem_reverse.mp hc)

/-- Up to the last character that is known to be none, only the blanks in front are dropped. -/
theorem trim_append_cons {before inner : List Char} (hbefore : ∀ b ∈ before, isBlank b = true)
    (hinner : ∀ b ∈ inner, isBlank b = false) (hc : isBlank c = false) (after : List Char) :
    trim (before ++ (inner ++ c :: after)) = inner ++ c :: trimRight after := by
  have hleft : trimLeft (before ++ (inner ++ c :: after)) = inner ++ c :: after := by
    unfold trimLeft
    rw [List.dropWhile_append_of_pos hbefore]
    cases inner with
    | nil => rw [List.nil_append, List.dropWhile_cons_of_neg (by simp [hc])]
    | cons b inner =>
        have hb := hinner b List.mem_cons_self
        rw [List.cons_append, List.dropWhile_cons_of_neg (by simp [hb])]
  show trimRight (trimLeft (before ++ (inner ++ c :: after))) = _
  rw [hleft, trimRight_append_cons hc]

end Text

namespace Plan

/-- The number that decimal digits stand for. -/
def decimal (digits : List Char) : ℕ := Nat.ofDigits 10 (digits.reverse.map fun c => c.toNat - 48)

/-- A text spells a number of at most 32 bits: decimal digits, with a plus sign allowed in front. -/
def SpellsNumber (s : List Char) (n : ℕ) : Prop :=
  ∃ sign digits, s = sign ++ digits ∧ (sign = [] ∨ sign = ['+']) ∧ digits ≠ [] ∧
    (∀ c ∈ digits, '0' ≤ c ∧ c ≤ '9') ∧ decimal digits = n ∧ n < 2 ^ 32

/-- A version names its major part. -/
def NamesMajor (version : String) (n : ℕ) : Prop :=
  ∃ before letters number after, version.toList = before ++ letters ++ number ++ after ∧
    (∀ c ∈ before, Text.isBlank c = true) ∧ (∀ c ∈ letters, c = 'v') ∧ SpellsNumber number n ∧
    ((∀ c ∈ after, Text.isBlank c = true) ∨ ∃ rest, after = '.' :: rest)

theorem foldl_eq_decimal (digits : List Char) :
    digits.foldl (fun n c => n * 10 + (c.toNat - '0'.toNat)) 0 = decimal digits := by
  induction digits using List.reverseRecOn with
  | nil => rfl
  | append_singleton digits c ih =>
      rw [List.foldl_concat, ih]
      unfold decimal
      rw [List.reverse_append, List.reverse_singleton, List.singleton_append, List.map_cons,
        Nat.ofDigits_cons]
      show _ * 10 + (c.toNat - 48) = (c.toNat - 48) + 10 * _
      omega

theorem toNat_of_isDigit {c : Char} (h : '0' ≤ c ∧ c ≤ '9') : 48 ≤ c.toNat ∧ c.toNat ≤ 57 := h

theorem SpellsNumber.ne_nil {s : List Char} {n : ℕ} (h : SpellsNumber s n) : s ≠ [] := by
  obtain ⟨sign, digits, rfl, -, hne, -⟩ := h
  simp [hne]

/-- A character of a number is no blank, no letter and no point. -/
theorem SpellsNumber.char {s : List Char} {n : ℕ} (h : SpellsNumber s n) {c : Char} (hc : c ∈ s) :
    Text.isBlank c = false ∧ c ≠ 'v' ∧ c ≠ '.' := by
  obtain ⟨sign, digits, rfl, hsign, -, hdigits, -⟩ := h
  rcases List.mem_append.mp hc with hc | hc
  · rcases hsign with rfl | rfl
    · cases hc
    · rw [List.mem_singleton.mp hc]
      decide
  · have hrange := toNat_of_isDigit (hdigits c hc)
    refine ⟨?_, ?_, ?_⟩
    · rw [Bool.eq_false_iff]
      intro hblank
      have := Text.toNat_of_isBlank hblank
      omega
    · rintro rfl
      simp at hrange
    · rintro rfl
      simp at hrange

/-- The number of at most 32 bits that decimal digits stand for. -/
def parseDigits (digits : List Char) : Option ℕ :=
  if digits.isEmpty then none
  else if digits.all fun c => decide ('0' ≤ c ∧ c ≤ '9') then
    if decimal digits < 2 ^ 32 then some (decimal digits) else none
  else none

theorem parseDigits_eq_some_iff {digits : List Char} {n : ℕ} :
    parseDigits digits = some n ↔
      digits ≠ [] ∧ (∀ c ∈ digits, '0' ≤ c ∧ c ≤ '9') ∧ decimal digits = n ∧ n < 2 ^ 32 := by
  unfold parseDigits
  rw [← List.isEmpty_eq_false_iff]
  cases digits.isEmpty with
  | true => simp
  | false =>
      by_cases hall : ∀ c ∈ digits, '0' ≤ c ∧ c ≤ '9'
      · have hdigits : (digits.all fun c => decide ('0' ≤ c ∧ c ≤ '9')) = true := by
          simpa using hall
        rw [if_neg Bool.false_ne_true, if_pos hdigits]
        by_cases hlt : decimal digits < 2 ^ 32
        · rw [if_pos hlt, Option.some.injEq]
          constructor
          · rintro rfl
            exact ⟨rfl, hall, rfl, hlt⟩
          · rintro ⟨-, -, h, -⟩
            exact h
        · rw [if_neg hlt]
          simp only [reduceCtorEq, false_iff]
          rintro ⟨-, -, rfl, hlt'⟩
          exact hlt hlt'
      · have hdigits : ¬(digits.all fun c => decide ('0' ≤ c ∧ c ≤ '9')) = true := by
          simpa using hall
        rw [if_neg Bool.false_ne_true, if_neg hdigits]
        simp only [reduceCtorEq, false_iff]
        exact fun h => hall h.2.1

theorem parseMajor_plus (digits : List Char) : parseMajor ('+' :: digits) = parseDigits digits := by
  show (if digits.isEmpty then none else _) = _
  rw [foldl_eq_decimal]
  rfl

theorem parseMajor_of_ne {s : List Char} (h : ∀ rest, s ≠ '+' :: rest) :
    parseMajor s = parseDigits s := by
  unfold parseMajor
  split
  · exact absurd rfl (h _)
  · show (if s.isEmpty then none else _) = _
    rw [foldl_eq_decimal]
    rfl

theorem parseMajor_eq_some_iff {s : List Char} {n : ℕ} :
    parseMajor s = some n ↔ SpellsNumber s n := by
  by_cases hplus : ∃ rest, s = '+' :: rest
  · obtain ⟨rest, rfl⟩ := hplus
    rw [parseMajor_plus, parseDigits_eq_some_iff]
    constructor
    · intro h
      exact ⟨['+'], rest, rfl, .inr rfl, h⟩
    · rintro ⟨sign, digits, hs, hsign, hne, hdigits, hvalue⟩
      rcases hsign with rfl | rfl
      · -- A plus sign is no digit.
        subst hs
        have := toNat_of_isDigit (hdigits '+' (by simp))
        simp at this
      · obtain rfl : rest = digits := by simpa using hs
        exact ⟨hne, hdigits, hvalue⟩
  · have hne : ∀ rest, s ≠ '+' :: rest := fun rest h => hplus ⟨rest, h⟩
    rw [parseMajor_of_ne hne, parseDigits_eq_some_iff]
    constructor
    · intro h
      exact ⟨[], s, rfl, .inl rfl, h⟩
    · rintro ⟨sign, digits, hs, hsign, h⟩
      rcases hsign with rfl | rfl
      · rwa [hs]
      · exact absurd hs (hne digits)

/-- What a version is cut into: letters, a part without a point, and the rest. -/
theorem exists_cut (s : List Char) : ∃ letters rest, (∀ c ∈ letters, c = 'v') ∧
    s = letters ++ (s.dropWhile (· == 'v')).takeWhile (· != '.') ++ rest ∧
    (rest = [] ∨ ∃ more, rest = '.' :: more) := by
  refine ⟨s.takeWhile (· == 'v'), (s.dropWhile (· == 'v')).dropWhile (· != '.'), ?_, ?_, ?_⟩
  · intro c hc
    simpa using List.mem_takeWhile_imp hc
  · rw [List.append_assoc, List.takeWhile_append_dropWhile, List.takeWhile_append_dropWhile]
  · have hhead := List.head?_dropWhile_not (· != '.') (s.dropWhile (· == 'v'))
    cases hrest : (s.dropWhile (· == 'v')).dropWhile (· != '.') with
    | nil => exact .inl rfl
    | cons c more =>
        rw [hrest] at hhead
        obtain rfl : c = '.' := by simpa using hhead
        exact .inr ⟨more, rfl⟩

/-- Letters in front of a number are dropped, and the number ends before a point. -/
theorem takeWhile_dropWhile_append {letters number rest : List Char} {n : ℕ}
    (hletters : ∀ c ∈ letters, c = 'v') (hnumber : SpellsNumber number n)
    (hrest : rest = [] ∨ ∃ more, rest = '.' :: more) :
    ((letters ++ (number ++ rest)).dropWhile (· == 'v')).takeWhile (· != '.') = number := by
  have hdrop : (letters ++ (number ++ rest)).dropWhile (· == 'v') = number ++ rest := by
    rw [List.dropWhile_append_of_pos (by simpa using hletters)]
    cases number with
    | nil => exact absurd rfl hnumber.ne_nil
    | cons c number =>
        have hc := (hnumber.char List.mem_cons_self).2.1
        rw [List.cons_append, List.dropWhile_cons_of_neg (by simpa using hc)]
  rw [hdrop, List.takeWhile_append_of_pos fun c hc => by simpa using (hnumber.char hc).2.2]
  rcases hrest with rfl | ⟨more, rfl⟩
  · simp
  · simp

/-- A number between blanks, letters and what follows is found with the letters in front of it. -/
theorem exists_trim_eq {before letters number after : List Char} {n : ℕ}
    (hbefore : ∀ c ∈ before, Text.isBlank c = true) (hletters : ∀ c ∈ letters, c = 'v')
    (hnumber : SpellsNumber number n)
    (hafter : (∀ c ∈ after, Text.isBlank c = true) ∨ ∃ rest, after = '.' :: rest) :
    ∃ rest, Text.trim (before ++ letters ++ number ++ after) = letters ++ (number ++ rest) ∧
      (rest = [] ∨ ∃ more, rest = '.' :: more) := by
  refine ⟨Text.trimRight after, ?_, ?_⟩
  · -- The last digit is the last character that is known to be no blank.
    rcases List.eq_nil_or_concat number with rfl | ⟨init, last, rfl⟩
    · exact absurd rfl hnumber.ne_nil
    · have hlast := (hnumber.char (c := last) (by simp)).1
      have hinner : ∀ c ∈ letters ++ init, Text.isBlank c = false := by
        intro c hc
        rcases List.mem_append.mp hc with hc | hc
        · rw [hletters c hc]
          decide
        · exact (hnumber.char (by simp [hc])).1
      have htrim := Text.trim_append_cons hbefore hinner hlast after
      simpa using htrim
  · rcases hafter with hblank | ⟨rest, rfl⟩
    · exact .inl (Text.trimRight_of_blank hblank)
    · exact .inr ⟨_, Text.trimRight_append_cons (by decide) [] rest⟩

/-- The major part of a version is a number exactly if the version names that number. -/
theorem majorOf_eq_some_iff {version : String} {n : ℕ} :
    majorOf version = some n ↔ NamesMajor version n := by
  unfold majorOf
  rw [parseMajor_eq_some_iff]
  constructor
  · intro hnumber
    obtain ⟨before, after, hversion, hbefore, hafter⟩ := Text.exists_blanks_trim version.toList
    obtain ⟨letters, rest, hletters, htrim, hrest⟩ := exists_cut (Text.trim version.toList)
    refine ⟨before, letters, _, rest ++ after, ?_, hbefore, hletters, hnumber, ?_⟩
    · calc version.toList
        _ = before ++ Text.trim version.toList ++ after := hversion
        _ = before ++ (letters ++ _ ++ rest) ++ after := by rw [← htrim]
        _ = _ := by simp only [List.append_assoc]
    · rcases hrest with rfl | ⟨more, rfl⟩
      · exact .inl hafter
      · exact .inr ⟨more ++ after, rfl⟩
  · rintro ⟨before, letters, number, after, hversion, hbefore, hletters, hnumber, hafter⟩
    obtain ⟨rest, htrim, hrest⟩ := exists_trim_eq hbefore hletters hnumber hafter
    rw [hversion, htrim, takeWhile_dropWhile_append hletters hnumber hrest]
    exact hnumber

end Plan
end PlanFlow
