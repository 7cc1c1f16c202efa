import Mathlib.Data.List.TakeWhile
import PlanFlow.Proofs.Listing
import PlanFlow.Text.Placeholder

/-!
# Which placeholders are found

A placeholder begins with two opening braces and has none after them, so two placeholders never
overlap.  A search that goes on behind each placeholder that it finds therefore finds all of them,
in the order in which they stand in the text.
-/

namespace PlanFlow
namespace Text

/-- The names that inputs may have: one or more of the characters of names. -/
def IsName (name : List Char) : Prop := name ≠ [] ∧ ∀ c ∈ name, isNameChar c = true

instance (name : List Char) : Decidable (IsName name) :=
  decidable_of_iff ((!name.isEmpty && name.all isNameChar) = true) (by simp [IsName])

/-- A text is nothing but a placeholder of a name. -/
def IsPlaceholder (name text : List Char) : Prop :=
  ∃ left right : List Char, (∀ c ∈ left, isBlank c = true) ∧ (∀ c ∈ right, isBlank c = true) ∧
    text = ['\x7b', '\x7b'] ++ left ++ inputWord ++ name ++ right ++ ['\x7d', '\x7d']

/-- Somewhere in a text stands a placeholder of a name. -/
def HasPlaceholder (text name : String) : Prop :=
  ∃ before inner after, IsPlaceholder name.toList inner ∧ text.toList = before ++ inner ++ after

variable {name : List Char} {c : Char}

theorem toNat_of_isNameChar (h : isNameChar c = true) : 48 ≤ c.toNat ∧ c.toNat ≤ 122 := by
  have hle (a b : Char) : a ≤ b ↔ a.toNat ≤ b.toNat := Iff.rfl
  simp only [isNameChar, Bool.or_eq_true, Bool.and_eq_true, decide_eq_true_iff, beq_iff_eq,
    hle] at h
  rcases h with ((⟨hlow, hhigh⟩ | ⟨hlow, hhigh⟩) | ⟨hlow, hhigh⟩) | rfl
  · exact ⟨Nat.le_trans (by decide) hlow, hhigh⟩
  · exact ⟨Nat.le_trans (by decide) hlow, Nat.le_trans hhigh (by decide)⟩
  · exact ⟨hlow, Nat.le_trans hhigh (by decide)⟩
  · decide

theorem toNat_of_isBlank (h : isBlank c = true) : c.toNat ≤ 32 ∨ 133 ≤ c.toNat := by
  simp only [isBlank, Bool.or_eq_true, Bool.and_eq_true, decide_eq_true_iff, beq_iff_eq] at h
  omega

theorem isNameChar_of_isBlank (h : isBlank c = true) : isNameChar c = false := by
  rw [Bool.eq_false_iff]
  intro hname
  have hrange := toNat_of_isNameChar hname
  have hblank := toNat_of_isBlank h
  omega

theorem after?_eq_some_iff {first s rest : List Char} :
    after? first s = some rest ↔ s = first ++ rest := by
  induction first generalizing s with
  | nil => simp [after?, eq_comm]
  | cons c first ih =>
      cases s with
      | nil => simp [after?]
      | cons d s =>
          simp only [after?, List.cons_append, List.cons.injEq]
          split
          · rename_i heq
            simp [ih, heq]
          · rename_i hne
            simp [Ne.symm hne]

/-- The placeholder with which a text starts, if there is one, is found with its name. -/
theorem placeholder?_eq_some_iff {s rest : List Char} :
    placeholder? s = some (name, rest) ↔
      IsName name ∧ ∃ text, IsPlaceholder name text ∧ s = text ++ rest := by
  simp only [placeholder?, Option.bind_eq_bind, Option.bind_eq_some_iff, after?_eq_some_iff]
  constructor
  · rintro ⟨s, rfl, t, ht, u, hu, hresult⟩
    split at hresult
    · cases hresult
    · rename_i hne
      obtain ⟨rfl, rfl⟩ := Prod.mk.inj (Option.some.inj hresult)
      refine ⟨⟨by simpa using hne, fun c hc => List.mem_takeWhile_imp hc⟩, _,
        ⟨s.takeWhile isBlank, (t.dropWhile isNameChar).takeWhile isBlank,
          fun c hc => List.mem_takeWhile_imp hc, fun c hc => List.mem_takeWhile_imp hc, rfl⟩, ?_⟩
      have hs : s = s.takeWhile isBlank ++ (inputWord ++ t) := by
        rw [← ht, List.takeWhile_append_dropWhile]
      have ht : t = t.takeWhile isNameChar ++ ((t.dropWhile isNameChar).takeWhile isBlank ++
          (['\x7d', '\x7d'] ++ u)) := by
        rw [← hu, List.takeWhile_append_dropWhile, List.takeWhile_append_dropWhile]
      calc ['\x7b', '\x7b'] ++ s
        _ = ['\x7b', '\x7b'] ++ (s.takeWhile isBlank ++ (inputWord ++ t)) := by rw [← hs]
        _ = ['\x7b', '\x7b'] ++ (s.takeWhile isBlank ++ (inputWord ++
              (t.takeWhile isNameChar ++ ((t.dropWhile isNameChar).takeWhile isBlank ++
                (['\x7d', '\x7d'] ++ u))))) := by rw [← ht]
        _ = _ := by simp only [List.append_assoc]
  · rintro ⟨⟨hne, hname⟩, _, ⟨left, right, hleft, hright, rfl⟩, rfl⟩
    let u := ['\x7d', '\x7d'] ++ rest
    have hend : (right ++ u).takeWhile isNameChar = [] ∧
        (right ++ u).dropWhile isNameChar = right ++ u := by
      cases right with
      | nil => exact ⟨rfl, rfl⟩
      | cons c right =>
          have hc := isNameChar_of_isBlank (hright c List.mem_cons_self)
          simp [hc]
    refine ⟨left ++ (inputWord ++ (name ++ (right ++ u))), by simp [u],
      name ++ (right ++ u), ?_, rest, ?_, ?_⟩
    · rw [List.dropWhile_append_of_pos hleft]
      rfl
    · rw [List.dropWhile_append_of_pos hname, hend.2, List.dropWhile_append_of_pos hright]
      rfl
    · rw [List.takeWhile_append_of_pos hname, hend.1, List.append_nil]
      simp [hne]

/-- The two opening braces of a placeholder are all that it has. -/
theorem exists_of_isPlaceholder {text : List Char} (hname : IsName name)
    (h : IsPlaceholder name text) :
    ∃ body, text = '{' :: '{' :: body ∧ body ≠ [] ∧ '{' ∉ body := by
  obtain ⟨left, right, hleft, hright, rfl⟩ := h
  refine ⟨left ++ inputWord ++ name ++ right ++ ['}', '}'], by simp, by simp, ?_⟩
  intro hmem
  simp only [List.mem_append] at hmem
  rcases hmem with (((hmem | hmem) | hmem) | hmem) | hmem
  · exact absurd (hleft _ hmem) (by decide)
  · exact absurd hmem (by decide)
  · exact absurd (hname.2 _ hmem) (by decide)
  · exact absurd (hright _ hmem) (by decide)
  · exact absurd hmem (by decide)

/-- What does not have an opening brace ends before the next one. -/
theorem length_le_of_brace {body after before rest : List Char} (hbody : '\x7b' ∉ body)
    (h : body ++ after = before ++ '\x7b' :: rest) : body.length ≤ before.length := by
  rcases List.append_eq_append_iff.mp h with ⟨more, rfl, -⟩ | ⟨more, rfl, hmore⟩
  · simp
  · cases more with
    | nil => simp
    | cons c more =>
        obtain ⟨rfl, -⟩ := List.cons.inj hmore
        simp at hbody

/-- A placeholder that begins behind the start of another one begins behind its end. -/
theorem length_le_of_placeholders {after before t rest other : List Char}
    (hs : placeholder? (before ++ t) = some (name, after))
    (ht : placeholder? t = some (other, rest)) (hbefore : before ≠ []) :
    (before ++ t).length - after.length ≤ before.length := by
  obtain ⟨hname, _, htext, hsplit⟩ := placeholder?_eq_some_iff.mp hs
  obtain ⟨hother, _, hinner, rfl⟩ := placeholder?_eq_some_iff.mp ht
  obtain ⟨body, rfl, hbody, hbraces⟩ := exists_of_isPlaceholder hname htext
  obtain ⟨inner, rfl, -⟩ := exists_of_isPlaceholder hother hinner
  rw [hsplit]
  simp only [List.cons_append, List.length_cons, List.length_append]
  match before, hbefore with
  -- One character on stands the second brace, and there is none behind it.
  | [c], _ =>
      obtain ⟨-, hsplit⟩ : c = '\x7b' ∧ [] ++ '\x7b' :: (inner ++ rest) = body ++ after := by
        simpa using hsplit
      have hle := length_le_of_brace hbraces hsplit.symm
      exact absurd (List.eq_nil_of_length_eq_zero (Nat.le_zero.mp hle)) hbody
  | c :: d :: before, _ =>
      obtain ⟨-, -, hsplit⟩ : c = '\x7b' ∧ d = '\x7b' ∧
          before ++ '\x7b' :: ('\x7b' :: inner ++ rest) = body ++ after := by
        simpa using hsplit
      have hle := length_le_of_brace hbraces hsplit.symm
      simp only [List.length_cons]
      omega

/-! ## The search -/

/-- So many characters behind its start, a text goes on with a placeholder of a name. -/
def PlaceholderAt (text name : String) (place : Nat) : Prop :=
  ∃ before inner after, IsPlaceholder name.toList inner ∧
    text.toList = before ++ inner ++ after ∧ before.length = place

theorem hasPlaceholder_iff {text name : String} :
    HasPlaceholder text name ↔ ∃ place, PlaceholderAt text name place := by
  constructor
  · rintro ⟨before, inner, after, hinner, hsplit⟩
    exact ⟨before.length, before, inner, after, hinner, hsplit, rfl⟩
  · rintro ⟨_, before, inner, after, hinner, hsplit, -⟩
    exact ⟨before, inner, after, hinner, hsplit⟩

/-- So many characters behind its start, a placeholder is found in a text. -/
def OccursAt (s : List Char) (place : Nat) (found : String) : Prop :=
  ∃ name rest, placeholder? (s.drop place) = some (name, rest) ∧ found = String.ofList name

theorem occursAt_toList_iff {text found : String} {place : Nat} :
    OccursAt text.toList place found ↔ IsName found.toList ∧ PlaceholderAt text found place := by
  constructor
  · rintro ⟨name, rest, hdrop, rfl⟩
    have hplace : place ≤ text.toList.length := by
      by_contra hbehind
      rw [List.drop_eq_nil_of_le (Nat.le_of_not_le hbehind)] at hdrop
      cases hdrop
    obtain ⟨hname, inner, hinner, hsplit⟩ := placeholder?_eq_some_iff.mp hdrop
    rw [PlaceholderAt, String.toList_ofList]
    refine ⟨hname, text.toList.take place, inner, rest, hinner, ?_, ?_⟩
    · rw [List.append_assoc, ← hsplit, List.take_append_drop]
    · exact List.length_take_of_le hplace
  · rintro ⟨hname, before, inner, after, hinner, hsplit, rfl⟩
    refine ⟨found.toList, after, ?_, String.ofList_toList.symm⟩
    rw [hsplit, List.append_assoc, List.drop_left]
    exact placeholder?_eq_some_iff.mpr ⟨hname, inner, hinner, rfl⟩

section Search

variable {place : Nat} {s after : List Char} {found : String}

/-- Behind the start of a placeholder, the next one begins behind its end. -/
theorem le_of_occursAt (hs : placeholder? (c :: s) = some (name, after))
    (h : OccursAt s place found) : s.length - after.length ≤ place := by
  obtain ⟨other, rest, hdrop, -⟩ := h
  have hs : placeholder? ((c :: s.take place) ++ s.drop place) = some (name, after) := by
    rwa [List.cons_append, List.take_append_drop]
  have hle := length_le_of_placeholders hs hdrop (List.cons_ne_nil _ _)
  simp only [List.cons_append, List.take_append_drop, List.length_cons, List.length_take] at hle
  omega

theorem occursAt_zero_iff (hs : placeholder? (c :: s) = some (name, after)) :
    OccursAt (c :: s) 0 found ↔ found = String.ofList name := by
  constructor
  · rintro ⟨other, rest, hother, rfl⟩
    obtain ⟨rfl, -⟩ := Prod.mk.inj (Option.some.inj (hs.symm.trans hother))
    rfl
  · rintro rfl
    exact ⟨name, after, hs, rfl⟩

/-- What is listed of the rest of a text is found one character later in the text. -/
theorem lists_cons (c : Char) {skip : Nat} {l : List String}
    (h : Lists (fun place found => skip ≤ place ∧ OccursAt s place found) l) :
    Lists (fun place found => skip + 1 ≤ place ∧ OccursAt (c :: s) place found) l := by
  refine (h.map fun place later => Nat.succ_lt_succ).congr fun place found => ?_
  constructor
  · rintro ⟨place, rfl, hskip, hoccurs⟩
    exact ⟨Nat.succ_le_succ hskip, hoccurs⟩
  · rintro ⟨hskip, hoccurs⟩
    cases place with
    | zero => cases hskip
    | succ place => exact ⟨place, rfl, Nat.le_of_succ_le_succ hskip, hoccurs⟩

/-- The search lists exactly the names in the placeholders that are still ahead. -/
theorem inputNamesFrom_lists (skip : Nat) (s : List Char) :
    Lists (fun place found => skip ≤ place ∧ OccursAt s place found) (inputNamesFrom skip s) := by
  induction s generalizing skip with
  | nil => exact .nil fun place found => by simp [OccursAt, placeholder?, after?]
  | cons c s ih =>
      cases skip with
      | succ skip => exact lists_cons c (ih skip)
      | zero =>
          rw [inputNamesFrom]
          split
          · rename_i name after hname
            have hfirst : ∀ later found, s.length - after.length + 1 ≤ later ∧
                OccursAt (c :: s) later found → 0 < later := fun later _ hlater =>
              Nat.lt_of_lt_of_le (Nat.succ_pos _) hlater.1
            refine ((lists_cons c (ih _)).cons hfirst).congr fun place found => ?_
            cases place with
            | zero => simp [occursAt_zero_iff hname]
            | succ place =>
                -- The next placeholder comes behind the end of this one.
                have hbehind : OccursAt (c :: s) (place + 1) found →
                    s.length - after.length ≤ place := le_of_occursAt hname
                simpa using hbehind
          · rename_i hnone
            refine (lists_cons c (ih 0)).congr fun place found => ?_
            cases place with
            | zero => simp [OccursAt, hnone]
            | succ place => simp

end Search

/-- The names in the placeholders of a text are listed in the order in which they stand there. -/
theorem inputNames_lists (text : String) :
    Lists (fun place name => IsName name.toList ∧ PlaceholderAt text name place)
      (inputNames text) :=
  (inputNamesFrom_lists 0 text.toList).congr fun place _ =>
    (and_iff_right (Nat.zero_le place)).trans occursAt_toList_iff

/-- A brace in front of a placeholder does not hide it, and a point behind the name does. -/
example : inputNames
    "\x7b\x7b\x7b input.a \x7d\x7d\x7b\x7binput.b\x7d\x7d \x7b\x7binput.c.d\x7d\x7d" =
      ["a", "b"] := by
  decide

/-- A text that begins with two opening braces and has no others has no placeholder but at the
start. -/
theorem exists_of_hasPlaceholder {name text : String} {body : List Char}
    (htext : text.toList = '\x7b' :: '\x7b' :: body) (hbody : '\x7b' ∉ body)
    (h : HasPlaceholder text name) :
    ∃ left right after : List Char, (∀ c ∈ left, isBlank c = true) ∧
      (∀ c ∈ right, isBlank c = true) ∧
      body = left ++ inputWord ++ name.toList ++ right ++ ['\x7d', '\x7d'] ++ after := by
  obtain ⟨before, _, after, ⟨left, right, hleft, hright, rfl⟩, hsplit⟩ := h
  refine ⟨left, right, after, hleft, hright, ?_⟩
  rw [htext] at hsplit
  match before with
  | [] => simpa using hsplit
  | [c] =>
      obtain ⟨-, rfl⟩ : '\x7b' = c ∧ body = '\x7b' ::
          (left ++ (inputWord ++ (name.toList ++ (right ++ '\x7d' :: '\x7d' :: after)))) := by
        simpa using hsplit
      simp at hbody
  | c :: d :: before =>
      obtain ⟨-, -, rfl⟩ : '\x7b' = c ∧ '\x7b' = d ∧ body = before ++ '\x7b' :: '\x7b' ::
          (left ++ (inputWord ++ (name.toList ++ (right ++ '\x7d' :: '\x7d' :: after)))) := by
        simpa using hsplit
      simp at hbody

end Text
end PlanFlow
