/-
Patterns with wildcards, as LIKE has them: `_` stands for any one letter and `%` for any letters. What a
pattern matches is what comes of it when the wildcards are replaced.
-/
import Mathlib.Data.List.Forall2
import Mathlib.Data.List.Infix

namespace Relational

/-- A place of a pattern. -/
inductive Wild (α : Type) where
  | letter (a : α)
  /-- any one letter -/
  | one
  /-- any letters -/
  | many
  deriving DecidableEq, Repr

namespace Wild

variable {α : Type}

/-- Letters are compared by `same`. -/
def matchesText (same : α → α → Bool) : List (Wild α) → List α → Bool
  | [], text => text.isEmpty
  | letter a :: pattern, text => text.head?.any (same a) && matchesText same pattern (text.drop 1)
  | one :: pattern, text => !text.isEmpty && matchesText same pattern (text.drop 1)
  | many :: pattern, text => text.tails.any (matchesText same pattern)

/-- The text is the pattern with each wildcard replaced. -/
inductive Replaced (same : α → α → Bool) : List (Wild α) → List α → Prop
  | nil : Replaced same [] []
  | letter {a b : α} {pattern : List (Wild α)} {text : List α} : same a b = true → Replaced same pattern text →
      Replaced same (letter a :: pattern) (b :: text)
  | one {pattern : List (Wild α)} {text : List α} (b : α) : Replaced same pattern text →
      Replaced same (one :: pattern) (b :: text)
  | many {pattern : List (Wild α)} {text : List α} (letters : List α) : Replaced same pattern text →
      Replaced same (many :: pattern) (letters ++ text)

variable {same : α → α → Bool}

theorem matchesText_iff {pattern : List (Wild α)} {text : List α} :
    matchesText same pattern text = true ↔ Replaced same pattern text := by
  induction pattern generalizing text with
  | nil =>
    cases text with
    | nil => exact iff_of_true rfl .nil
    | cons b text => exact iff_of_false Bool.false_ne_true fun h => by cases h
  | cons place pattern ih =>
    cases place with
    | letter a =>
      cases text with
      | nil => exact iff_of_false Bool.false_ne_true fun h => by cases h
      | cons b text =>
        have hmatches : matchesText same (letter a :: pattern) (b :: text) =
          (same a b && matchesText same pattern text) := rfl
        rw [hmatches, Bool.and_eq_true, ih]
        constructor
        · rintro ⟨hab, h⟩
          exact .letter hab h
        · rintro (_ | ⟨hab, h⟩)
          exact ⟨hab, h⟩
    | one =>
      cases text with
      | nil => exact iff_of_false Bool.false_ne_true fun h => by cases h
      | cons b text =>
        have hmatches : matchesText same (one :: pattern) (b :: text) = matchesText same pattern text := rfl
        rw [hmatches, ih]
        constructor
        · exact fun h => .one b h
        · rintro (_ | _ | ⟨_, h⟩)
          exact h
    | many =>
      have hmatches : matchesText same (many :: pattern) text = text.tails.any (matchesText same pattern) := rfl
      rw [hmatches, List.any_eq_true]
      constructor
      · rintro ⟨rest, hrest, h⟩
        obtain ⟨letters, rfl⟩ := (List.mem_tails _ _).1 hrest
        exact .many letters (ih.1 h)
      · intro h
        cases h with
        | many letters h => exact ⟨_, (List.mem_tails _ _).2 (List.suffix_append _ _), ih.2 h⟩

theorem replaced_append {first second : List (Wild α)} {text : List α} :
    Replaced same (first ++ second) text ↔
      ∃ before after, text = before ++ after ∧ Replaced same first before ∧ Replaced same second after := by
  constructor
  · intro h
    induction first generalizing text with
    | nil => exact ⟨[], text, rfl, .nil, h⟩
    | cons place first ih =>
      cases h with
      | letter hab h =>
        obtain ⟨before, after, rfl, hfirst, hsecond⟩ := ih h
        exact ⟨_ :: before, after, rfl, .letter hab hfirst, hsecond⟩
      | one b h =>
        obtain ⟨before, after, rfl, hfirst, hsecond⟩ := ih h
        exact ⟨b :: before, after, rfl, .one b hfirst, hsecond⟩
      | many letters h =>
        obtain ⟨before, after, rfl, hfirst, hsecond⟩ := ih h
        exact ⟨letters ++ before, after, (List.append_assoc ..).symm, .many letters hfirst, hsecond⟩
  · rintro ⟨before, after, rfl, hfirst, hsecond⟩
    induction hfirst with
    | nil => exact hsecond
    | letter hab _ ih => exact .letter hab ih
    | one b _ ih => exact .one b ih
    | many letters _ ih =>
      rw [List.append_assoc]
      exact .many letters ih

theorem replaced_many {text : List α} : Replaced same [many] text := by
  have h : Replaced same [many] (text ++ []) := .many text .nil
  rwa [List.append_nil] at h

/-- After a `%` a pattern is looked for at the end of the text. -/
theorem replaced_atEnd {pattern : List (Wild α)} {text : List α} :
    Replaced same (many :: pattern) text ↔ ∃ part, part <:+ text ∧ Replaced same pattern part := by
  constructor
  · intro h
    cases h with
    | many before h => exact ⟨_, List.suffix_append _ _, h⟩
  · rintro ⟨part, ⟨before, rfl⟩, hpart⟩
    exact .many before hpart

/-- Between two `%` a pattern is looked for anywhere in the text. -/
theorem replaced_anywhere {pattern : List (Wild α)} {text : List α} :
    Replaced same (many :: (pattern ++ [many])) text ↔ ∃ part, part <:+: text ∧ Replaced same pattern part := by
  constructor
  · intro h
    cases h with
    | many before h =>
      obtain ⟨part, after, rfl, hpart, -⟩ := replaced_append.1 h
      exact ⟨part, ⟨before, after, List.append_assoc ..⟩, hpart⟩
  · rintro ⟨part, ⟨before, after, rfl⟩, hpart⟩
    rw [List.append_assoc]
    exact .many before (replaced_append.2 ⟨part, after, rfl, hpart, replaced_many⟩)

/-- A pattern of letters matches these letters. -/
theorem replaced_letters {letters text : List α} :
    Replaced same (letters.map letter) text ↔ List.Forall₂ (fun a b => same a b = true) letters text := by
  induction letters generalizing text with
  | nil =>
    constructor
    · rintro (_ | _)
      exact .nil
    · rintro (_ | _)
      exact .nil
  | cons a letters ih =>
    constructor
    · rintro (_ | ⟨hab, h⟩)
      exact .cons hab (ih.1 h)
    · rintro (_ | ⟨hab, h⟩)
      exact .letter hab (ih.2 h)

end Wild

end Relational
