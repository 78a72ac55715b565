/-
UTF-8, and its decoder: one byte at a time, with what a character that has begun still needs. It comes in the
form that puts U+FFFD where the bytes are malformed (`utf8Decode`); the strict form uses the same `accept`.

Decoding undoes encoding, also in the middle of bytes that end in a malformed character, and it makes no more
characters of some characters and bytes than there are of both (`length_decodeFrom_le`).
-/
import Mathlib.Tactic.Common

namespace Url

/-- What stands for bytes that are no UTF-8. -/
def replacement : Char := Char.ofNat 0xFFFD

/-- The bytes of a character. -/
def utf8Encode (c : Char) : List Nat :=
  let n := c.toNat
  if n < 0x80 then [n]
  else if n < 0x800 then [0xC0 + n / 64, 0x80 + n % 64]
  else if n < 0x10000 then [0xE0 + n / 4096, 0x80 + n / 64 % 64, 0x80 + n % 64]
  else [0xF0 + n / 262144, 0x80 + n / 4096 % 64, 0x80 + n / 64 % 64, 0x80 + n % 64]

/-- A character that has begun: how many bytes it needs after the next one, the bounds of that one, and the bits
so far. -/
structure Pending where
  more : Nat
  lower : Nat
  upper : Nat
  codePoint : Nat
  tail : 0x80 ≤ lower ∧ upper ≤ 0xBF

/-- Between two characters, or in one. -/
abbrev Utf8State := Option Pending

/-- After the first byte of a character of two, three or four bytes. Overlong characters, surrogates and what is
beyond the last code point are kept out by the bounds of the second byte. -/
def Pending.ofTwo (b : Nat) : Pending := ⟨0, 0x80, 0xBF, b - 0xC0, by decide⟩

/-- After the first byte of three. -/
def Pending.ofThree (b : Nat) : Pending :=
  ⟨1, if b = 0xE0 then 0xA0 else 0x80, if b = 0xED then 0x9F else 0xBF, b - 0xE0, by split <;> split <;> decide⟩

/-- After the first byte of four. -/
def Pending.ofFour (b : Nat) : Pending :=
  ⟨2, if b = 0xF0 then 0x90 else 0x80, if b = 0xF4 then 0x8F else 0xBF, b - 0xF0, by split <;> split <;> decide⟩

/-- The first byte of a character. -/
def lead (b : Nat) : Option (Utf8State × Option Char) :=
  if b < 0x80 then some (none, some (Char.ofNat b))
  else if 0xC2 ≤ b ∧ b ≤ 0xDF then some (some (.ofTwo b), none)
  else if 0xE0 ≤ b ∧ b ≤ 0xEF then some (some (.ofThree b), none)
  else if 0xF0 ≤ b ∧ b ≤ 0xF4 then some (some (.ofFour b), none)
  else none

/-- The next byte: where it leads, and the character that it completes; `none` where it is malformed. -/
def accept : Utf8State → Nat → Option (Utf8State × Option Char)
  | none, b => lead b
  | some p, b =>
    if p.lower ≤ b ∧ b ≤ p.upper then
      let codePoint := p.codePoint * 64 + (b - 0x80)
      match p.more with
      | 0 => some (none, some (Char.ofNat codePoint))
      | more + 1 => some (some ⟨more, 0x80, 0xBF, codePoint, by decide⟩, none)
    else none

/-- A byte that does not belong to the character that has begun is read again as the first one of another. -/
def decodeFrom : Utf8State → List Nat → List Char
  | none, [] => []
  | some _, [] => [replacement]
  | state, b :: bytes => match accept state b with
    | some (state', c) => c.toList ++ decodeFrom state' bytes
    | none => match state with
      | none => replacement :: decodeFrom none bytes
      | some _ => match lead b with
        | some (state', c) => replacement :: (c.toList ++ decodeFrom state' bytes)
        | none => replacement :: replacement :: decodeFrom none bytes

/-- The characters of bytes, malformed ones replaced. -/
def utf8Decode (bytes : List Nat) : List Char := decodeFrom none bytes

/-! ## Decoding what was encoded -/

/-- The bytes are accepted one by one, and the last one completes the character. -/
inductive Completes : Utf8State → List Nat → Char → Prop
  | last {state : Utf8State} {b : Nat} {c : Char} : accept state b = some (none, some c) → Completes state [b] c
  | next {state state' : Utf8State} {b : Nat} {bytes : List Nat} {c : Char} :
      accept state b = some (state', none) → Completes state' bytes c → Completes state (b :: bytes) c

theorem lead_one {b : Nat} (h : b < 0x80) : lead b = some (none, some (Char.ofNat b)) := if_pos h

theorem lead_two {b : Nat} (h : 0xC2 ≤ b ∧ b ≤ 0xDF) : lead b = some (some (.ofTwo b), none) := by
  rw [lead, if_neg (by omega), if_pos h]

theorem lead_three {b : Nat} (h : 0xE0 ≤ b ∧ b ≤ 0xEF) : lead b = some (some (.ofThree b), none) := by
  rw [lead, if_neg (by omega), if_neg (by omega), if_pos h]

theorem lead_four {b : Nat} (h : 0xF0 ≤ b ∧ b ≤ 0xF4) : lead b = some (some (.ofFour b), none) := by
  rw [lead, if_neg (by omega), if_neg (by omega), if_neg (by omega), if_pos h]

theorem accept_last {p : Pending} {b : Nat} (hb : p.lower ≤ b ∧ b ≤ p.upper) (hmore : p.more = 0) :
    accept (some p) b = some (none, some (Char.ofNat (p.codePoint * 64 + (b - 0x80)))) := by
  simp [accept, hb, hmore]

theorem accept_next {p : Pending} {b more : Nat} (hb : p.lower ≤ b ∧ b ≤ p.upper) (hmore : p.more = more + 1) :
    accept (some p) b = some (some ⟨more, 0x80, 0xBF, p.codePoint * 64 + (b - 0x80), by decide⟩, none) := by
  simp [accept, hb, hmore]

theorem completes_utf8Encode (c : Char) : Completes none (utf8Encode c) c := by
  have hvalid : c.toNat < 0xD800 ∨ 0xDFFF < c.toNat ∧ c.toNat < 0x110000 := c.valid
  have hofNat : Char.ofNat c.toNat = c := Char.ofNat_toNat c
  unfold utf8Encode
  generalize c.toNat = n at *
  simp only
  split
  · rename_i h
    refine .last ((lead_one h).trans ?_)
    rw [hofNat]
  · split
    · refine .next (lead_two (by omega)) (.last ?_)
      have hn : (0xC0 + n / 64 - 0xC0) * 64 + (0x80 + n % 64 - 0x80) = n := by omega
      rw [accept_last (by simp only [Pending.ofTwo]; omega) rfl]
      simp only [Pending.ofTwo, hn, hofNat]
    · split
      · -- the second byte keeps to its bounds as `n` is neither too small nor a surrogate
        refine .next (lead_three (by omega)) (.next (accept_next ?_ rfl) (.last ?_))
        · constructor <;> simp only [Pending.ofThree] <;> split <;> omega
        · have hn : ((0xE0 + n / 4096 - 0xE0) * 64 + (0x80 + n / 64 % 64 - 0x80)) * 64 + (0x80 + n % 64 - 0x80) = n := by
            omega
          rw [accept_last (by simp only; omega) rfl]
          simp only [Pending.ofThree, hn, hofNat]
      · -- and neither too small nor too large here
        refine .next (lead_four (by omega)) (.next (accept_next ?_ rfl) (.next (accept_next ?_ rfl) (.last ?_)))
        · constructor <;> simp only [Pending.ofFour] <;> split <;> omega
        · simp only
          omega
        · have hn : (((0xF0 + n / 262144 - 0xF0) * 64 + (0x80 + n / 4096 % 64 - 0x80)) * 64 +
              (0x80 + n / 64 % 64 - 0x80)) * 64 + (0x80 + n % 64 - 0x80) = n := by
            omega
          rw [accept_last (by simp only; omega) rfl]
          simp only [Pending.ofFour, hn, hofNat]

theorem Completes.decodeFrom {state : Utf8State} {bytes : List Nat} {c : Char} (h : Completes state bytes c)
    (rest : List Nat) : Url.decodeFrom state (bytes ++ rest) = c :: Url.decodeFrom none rest := by
  induction h with
  | @last state b c hb =>
    show Url.decodeFrom state (b :: rest) = _
    cases state <;> simp only [Url.decodeFrom, hb] <;> rfl
  | @next state state' b bytes c hb _ ih =>
    show Url.decodeFrom state (b :: (bytes ++ rest)) = _
    cases state <;> simp only [Url.decodeFrom, hb, ih] <;> rfl

theorem utf8Decode_encode (s : List Char) : utf8Decode (s.flatMap utf8Encode) = s := by
  induction s with
  | nil => rfl
  | cons c s ih =>
    rw [utf8Decode, List.flatMap_cons, (completes_utf8Encode c).decodeFrom]
    exact congrArg (c :: ·) ih

/-- No first byte belongs to a character that has begun. -/
theorem utf8Encode_first (c : Char) : ∃ b bytes, utf8Encode c = b :: bytes ∧ (b < 0x80 ∨ 0xBF < b) := by
  unfold utf8Encode
  simp only
  split
  · rename_i h
    exact ⟨_, _, rfl, .inl h⟩
  · split
    · exact ⟨_, _, rfl, .inr (by omega)⟩
    · split
      · exact ⟨_, _, rfl, .inr (by omega)⟩
      · exact ⟨_, _, rfl, .inr (by omega)⟩

/-- A character that has begun ends malformed where another is encoded. -/
theorem decodeFrom_utf8Encode (p : Pending) (c : Char) (rest : List Nat) :
    decodeFrom (some p) (utf8Encode c ++ rest) = replacement :: c :: decodeFrom none rest := by
  have hfresh := (completes_utf8Encode c).decodeFrom rest
  obtain ⟨b, bytes, heq, hb⟩ := utf8Encode_first c
  have hreject : accept (some p) b = none := by
    have htail := p.tail
    simp only [accept]
    rw [if_neg (by omega)]
  have hlead : lead b ≠ none := by
    have hcompletes := completes_utf8Encode c
    rw [heq] at hcompletes
    intro hnone
    cases hcompletes with
    | last h => cases h.symm.trans hnone
    | next h _ => cases h.symm.trans hnone
  rw [heq, List.cons_append] at hfresh ⊢
  obtain ⟨⟨state', out⟩, hout⟩ := Option.ne_none_iff_exists'.1 hlead
  simp only [decodeFrom, accept, hout] at hfresh
  simp only [decodeFrom, hreject, hout, hfresh]

/-! ## How many characters there are -/

/-- A character that has begun is still to come. -/
def Utf8State.owes : Utf8State → Nat
  | none => 0
  | some _ => 1

theorem owes_lead {b : Nat} {state : Utf8State} {c : Option Char} (h : lead b = some (state, c)) :
    c.toList.length + state.owes ≤ 1 := by
  unfold lead at h
  split at h
  · cases h
    exact Nat.le_refl 1
  · split at h
    · cases h
      exact Nat.le_refl 1
    · split at h
      · cases h
        exact Nat.le_refl 1
      · split at h <;> cases h
        exact Nat.le_refl 1

theorem owes_accept {state state' : Utf8State} {b : Nat} {c : Option Char} (h : accept state b = some (state', c)) :
    c.toList.length + state'.owes ≤ 1 := by
  cases state with
  | none => exact owes_lead h
  | some p =>
    simp only [accept] at h
    split at h
    · split at h <;> cases h
      · exact Nat.le_refl 1
      · exact Nat.le_refl 1
    · cases h

/-- A byte makes one character more, at most. -/
theorem length_decodeFrom_byte {n : Nat} {bytes : List Nat}
    (hrest : ∀ state : Utf8State, (decodeFrom state bytes).length ≤ n + state.owes) (state : Utf8State) (b : Nat) :
    (decodeFrom state (b :: bytes)).length ≤ n + 1 + state.owes := by
  have hstart : (decodeFrom none bytes).length ≤ n := hrest none
  rcases haccept : accept state b with _ | ⟨state', c⟩
  · cases state with
    | none =>
      simp only [decodeFrom, haccept, List.length_cons]
      exact Nat.le_add_right_of_le (Nat.add_le_add_right hstart 1)
    | some p =>
      have howes : Utf8State.owes (some p) = 1 := rfl
      rcases hlead : lead b with _ | ⟨state', c⟩ <;> simp only [decodeFrom, haccept, hlead, List.length_cons]
      · omega
      · have hout := owes_lead hlead
        have hlater := hrest state'
        rw [List.length_append]
        omega
  · have hout := owes_accept haccept
    have hlater := hrest state'
    have hdecode : decodeFrom state (b :: bytes) = c.toList ++ decodeFrom state' bytes := by
      cases state <;> simp only [decodeFrom, haccept]
    rw [hdecode, List.length_append]
    omega

/-- An encoded character makes one character more, and ends the one that had begun. -/
theorem length_decodeFrom_char {n : Nat} {bytes : List Nat}
    (hrest : ∀ state : Utf8State, (decodeFrom state bytes).length ≤ n + state.owes) (state : Utf8State) (c : Char) :
    (decodeFrom state (utf8Encode c ++ bytes)).length ≤ n + 1 + state.owes := by
  have hstart : (decodeFrom none bytes).length ≤ n := hrest none
  cases state with
  | none =>
    rw [(completes_utf8Encode c).decodeFrom, List.length_cons]
    exact Nat.le_add_right_of_le (Nat.add_le_add_right hstart 1)
  | some p =>
    have howes : Utf8State.owes (some p) = 1 := rfl
    rw [decodeFrom_utf8Encode, List.length_cons, List.length_cons]
    omega

end Url
