/-
Queries in the form `name=value&name=value`, and percent-decoding. `parse` and `get` are what the class
`URLSearchParams` does with a query, `decodeURIComponent` is the function of that name.

Text without `%`, `+` and `&` comes back as it is. Whatever else is decoded, the text gets shorter where a
percent-encoded byte is found, and else stays as it is but for `+` (`decodeForm_length`, `decodeURIComponent_length`).
-/
import Squeaknode.Url.Utf8

namespace Url

/-! ## Percent-decoding -/

def hexDigit? (c : Char) : Option Nat :=
  if '0' ≤ c ∧ c ≤ '9' then some (c.toNat - 48)
  else if 'A' ≤ c ∧ c ≤ 'F' then some (c.toNat - 55)
  else if 'a' ≤ c ∧ c ≤ 'f' then some (c.toNat - 87)
  else none

/-- A character that stands for itself, or a byte that was percent-encoded. -/
inductive Token where
  | char (c : Char)
  | byte (b : Nat)
  deriving DecidableEq

/-- A `%` that no two hexadecimal digits follow stands for itself. -/
def tokens : List Char → List Token
  | '%' :: a :: b :: rest => match hexDigit? a, hexDigit? b with
    | some x, some y => .byte (16 * x + y) :: tokens rest
    | _, _ => .char '%' :: tokens (a :: b :: rest)
  | c :: rest => .char c :: tokens rest
  | [] => []

def Token.bytes : Token → List Nat
  | .char c => utf8Encode c
  | .byte b => [b]

def percentDecode (s : List Char) : List Nat := (tokens s).flatMap Token.bytes

/-- Every run of percent-encoded bytes is to be well-formed, and every `%` the start of such a byte. -/
def decodeStrict : Utf8State → List Token → Option (List Char)
  | none, [] => some []
  | some _, [] => none
  | none, .char c :: ts => if c = '%' then none else (decodeStrict none ts).map (c :: ·)
  | some _, .char _ :: _ => none
  | state, .byte b :: ts => (accept state b).bind fun r => (decodeStrict r.1 ts).map (r.2.toList ++ ·)

/-- `none` where it throws a `URIError`. -/
def decodeURIComponent (s : List Char) : Option (List Char) := decodeStrict none (tokens s)

/-! ## Queries -/

def plusToSpace (c : Char) : Char := if c = '+' then ' ' else c

/-- A name or a value of a query. -/
def decodeForm (s : List Char) : List Char := utf8Decode (percentDecode (s.map plusToSpace))

def parsePair (piece : List Char) : List Char × List Char :=
  (decodeForm (piece.takeWhile (· ≠ '=')), decodeForm ((piece.dropWhile (· ≠ '=')).drop 1))

/-- The pairs of a query, with or without the `?` in front of it. -/
def parse (search : List Char) : List (List Char × List Char) :=
  let query := if search.head? = some '?' then search.drop 1 else search
  ((query.splitOn '&').filter (· ≠ [])).map parsePair

/-- The value of the first pair with the name. -/
def get (name : List Char) (pairs : List (List Char × List Char)) : Option (List Char) :=
  (pairs.find? fun pair => pair.1 = name).map Prod.snd

/-! ## What is decoded -/

theorem tokens_percent {a b : Char} {x y : Nat} (ha : hexDigit? a = some x) (hb : hexDigit? b = some y) (rest : List Char) :
    tokens ('%' :: a :: b :: rest) = .byte (16 * x + y) :: tokens rest := by
  simp [tokens, ha, hb]

/-- Either every character stands for itself, or there are fewer tokens. -/
theorem tokens_length (s : List Char) :
    (tokens s).length ≤ s.length ∧ ((tokens s).length = s.length → tokens s = s.map .char) := by
  induction s using tokens.induct with
  | case1 a b rest x y hb ha ih =>
    rw [tokens_percent ha hb, List.length_cons, List.length_cons, List.length_cons, List.length_cons]
    exact ⟨by omega, fun h => by omega⟩
  | case2 a b rest hdigits ih =>
    have htokens : tokens ('%' :: a :: b :: rest) = .char '%' :: tokens (a :: b :: rest) := by
      rw [tokens]
      split
      · rename_i x y ha hb
        exact (hdigits x y ha hb).elim
      · rfl
    rw [htokens, List.length_cons, List.length_cons]
    exact ⟨Nat.succ_le_succ ih.1, fun h => by rw [ih.2 (Nat.succ.inj h)]; rfl⟩
  | case3 c rest hpercent ih =>
    have htokens : tokens (c :: rest) = .char c :: tokens rest := by
      rw [tokens]
      exact hpercent
    rw [htokens, List.length_cons, List.length_cons]
    exact ⟨Nat.succ_le_succ ih.1, fun h => by rw [ih.2 (Nat.succ.inj h)]; rfl⟩
  | case4 => exact ⟨Nat.le_refl 0, fun _ => rfl⟩

theorem tokens_cons {c : Char} (h : c ≠ '%') (rest : List Char) : tokens (c :: rest) = .char c :: tokens rest := by
  rw [tokens]
  intro a b rest' heq
  exact absurd heq h

theorem tokens_plain {s : List Char} (h : '%' ∉ s) : tokens s = s.map .char := by
  induction s with
  | nil => rfl
  | cons c s ih =>
    rw [List.mem_cons, not_or] at h
    rw [tokens_cons (fun heq => h.1 heq.symm), ih h.2]
    rfl

/-! ## Decoding a form -/

theorem length_utf8Decode_tokens (ts : List Token) (state : Utf8State) :
    (decodeFrom state (ts.flatMap Token.bytes)).length ≤ ts.length + state.owes := by
  induction ts generalizing state with
  | nil => cases state <;> exact Nat.le_refl _
  | cons t ts ih =>
    rw [List.flatMap_cons, List.length_cons]
    cases t with
    | char c => exact length_decodeFrom_char ih state c
    | byte b => exact length_decodeFrom_byte ih state b

theorem utf8Decode_chars (s : List Char) : utf8Decode ((s.map Token.char).flatMap Token.bytes) = s := by
  rw [List.flatMap_map]
  exact utf8Decode_encode s

/-- Decoding shortens a text in which bytes are encoded, and puts a space for each `+` in any other. -/
theorem decodeForm_length (s : List Char) :
    (decodeForm s).length ≤ s.length ∧ ((decodeForm s).length = s.length → decodeForm s = s.map plusToSpace) := by
  have hdecoded : (decodeForm s).length ≤ (tokens (s.map plusToSpace)).length :=
    length_utf8Decode_tokens (tokens (s.map plusToSpace)) none
  obtain ⟨htokens, hchars⟩ := tokens_length (s.map plusToSpace)
  rw [List.length_map] at htokens hchars
  refine ⟨Nat.le_trans hdecoded htokens, fun heq => ?_⟩
  rw [decodeForm, percentDecode, hchars (by omega), utf8Decode_chars]

theorem decodeForm_plain {s : List Char} (hpercent : '%' ∉ s) (hplus : '+' ∉ s) : decodeForm s = s := by
  have hspaces : s.map plusToSpace = s := by
    refine (List.map_congr_left fun c hc => ?_).trans s.map_id
    rw [plusToSpace, if_neg]
    · rfl
    · rintro rfl
      exact hplus hc
  rw [decodeForm, hspaces, percentDecode, tokens_plain hpercent, utf8Decode_chars]

/-! ## `decodeURIComponent` -/

theorem decodeStrict_length {ts : List Token} {state : Utf8State} {s : List Char} (h : decodeStrict state ts = some s) :
    s.length ≤ ts.length + state.owes := by
  induction ts generalizing state s with
  | nil =>
    cases state with
    | none =>
      cases h
      exact Nat.le_refl 0
    | some p => cases h
  | cons t ts ih =>
    cases t with
    | char c =>
      cases state with
      | none =>
        obtain ⟨-, h⟩ := Option.ite_none_left_eq_some.1 h
        obtain ⟨rest, hrest, rfl⟩ := Option.map_eq_some_iff.1 h
        exact Nat.succ_le_succ (ih hrest)
      | some p => cases h
    | byte b =>
      have hbind : (accept state b).bind (fun r => (decodeStrict r.1 ts).map (r.2.toList ++ ·)) = some s := by
        cases state <;> exact h
      obtain ⟨⟨state', c⟩, haccept, h⟩ := Option.bind_eq_some_iff.1 hbind
      obtain ⟨rest, hrest, rfl⟩ := Option.map_eq_some_iff.1 h
      have howes := owes_accept haccept
      have hlater : rest.length ≤ ts.length + state'.owes := ih hrest
      rw [List.length_append, List.length_cons]
      show c.toList.length + rest.length ≤ _
      omega

theorem decodeStrict_chars {s t : List Char} : decodeStrict none (s.map .char) = some t ↔ '%' ∉ s ∧ t = s := by
  induction s generalizing t with
  | nil =>
    constructor
    · intro h
      cases h
      exact ⟨List.not_mem_nil, rfl⟩
    · rintro ⟨-, rfl⟩
      rfl
  | cons c s ih =>
    rw [List.map_cons, decodeStrict, Option.ite_none_left_eq_some, Option.map_eq_some_iff, List.mem_cons, not_or]
    constructor
    · rintro ⟨hc, rest, hrest, rfl⟩
      obtain ⟨hs, rfl⟩ := ih.1 hrest
      exact ⟨⟨fun heq => hc heq.symm, hs⟩, rfl⟩
    · rintro ⟨⟨hc, hs⟩, rfl⟩
      exact ⟨fun heq => hc heq.symm, s, ih.2 ⟨hs, rfl⟩, rfl⟩

theorem decodeURIComponent_plain {s : List Char} (h : '%' ∉ s) : decodeURIComponent s = some s := by
  rw [decodeURIComponent, tokens_plain h]
  exact decodeStrict_chars.2 ⟨h, rfl⟩

/-- Decoding shortens a text in which bytes are encoded, and leaves any other alone unless it throws. -/
theorem decodeURIComponent_length {s t : List Char} (h : decodeURIComponent s = some t) :
    t.length ≤ s.length ∧ (t.length = s.length → '%' ∉ s ∧ t = s) := by
  have hdecoded : t.length ≤ (tokens s).length := decodeStrict_length h
  obtain ⟨htokens, hchars⟩ := tokens_length s
  refine ⟨Nat.le_trans hdecoded htokens, fun heq => decodeStrict_chars.1 ?_⟩
  rw [← hchars (by omega)]
  exact h

/-! ## Reading a query -/

/-- The first piece of a query ends at the first `&`. -/
theorem head?_splitOn (s : List Char) : (s.splitOn '&').head? = some (s.takeWhile (· ≠ '&')) := by
  induction s with
  | nil => rfl
  | cons c s ih =>
    rw [List.splitOn_cons_eq_if_modifyHead, List.takeWhile_cons]
    by_cases hc : c = '&'
    · simp [hc]
    · simp [hc, ih]

theorem parsePair_eq {name value : List Char} (hname : ∀ c ∈ name, c ≠ '=') :
    parsePair (name ++ '=' :: value) = (decodeForm name, decodeForm value) := by
  have htake : (name ++ '=' :: value).takeWhile (· ≠ '=') = name := by
    rw [List.takeWhile_append_of_pos (by simpa using hname)]
    simp
  have hdrop : (name ++ '=' :: value).dropWhile (· ≠ '=') = '=' :: value := by
    rw [List.dropWhile_append_of_pos (by simpa using hname)]
    simp
  rw [parsePair, htake, hdrop, List.drop_one, List.tail_cons]

/-- What is read of the first pair: a name that is written as it is, and a value up to the first `&`. -/
theorem get_parse {name : List Char} (hname : ∀ c ∈ name, c ≠ '&' ∧ c ≠ '=' ∧ c ≠ '%' ∧ c ≠ '+') (value : List Char) :
    get name (parse ('?' :: (name ++ '=' :: value))) = some (decodeForm (value.takeWhile (· ≠ '&'))) := by
  have hpiece : (name ++ '=' :: value).takeWhile (· ≠ '&') = name ++ '=' :: value.takeWhile (· ≠ '&') := by
    rw [List.takeWhile_append_of_pos (by simpa using fun c hc => (hname c hc).1), List.takeWhile_cons_of_pos (by decide)]
  obtain ⟨pieces, hpieces⟩ : ∃ pieces, (name ++ '=' :: value).splitOn '&' =
      (name ++ '=' :: value.takeWhile (· ≠ '&')) :: pieces := by
    have hhead := head?_splitOn (name ++ '=' :: value)
    rw [hpiece] at hhead
    obtain ⟨pieces, heq⟩ := List.head?_eq_some_iff.1 hhead
    exact ⟨pieces, heq⟩
  have hplain : decodeForm name = name :=
    decodeForm_plain (fun h => (hname _ h).2.2.1 rfl) fun h => (hname _ h).2.2.2 rfl
  have hparse : ∃ pairs, parse ('?' :: (name ++ '=' :: value)) =
      (name, decodeForm (value.takeWhile (· ≠ '&'))) :: pairs := by
    refine ⟨(pieces.filter (· ≠ [])).map parsePair, ?_⟩
    show (((name ++ '=' :: value).splitOn '&').filter (· ≠ [])).map parsePair = _
    rw [hpieces, List.filter_cons_of_pos (by simp), List.map_cons, parsePair_eq fun c hc => (hname c hc).2.1, hplain]
  obtain ⟨pairs, heq⟩ := hparse
  rw [heq, get, List.find?_cons_of_pos (by simp)]
  rfl

end Url
