/-
JSON text for flat values, arrays of texts and objects of texts and integers, in UTF-8. It is one
codec that satisfies the laws the node relies on: what it writes, it reads back.
-/
import Squeaknode.Wire.Json

namespace Squeaknode

namespace JsonText

/-! ## Texts -/

/-- Quotes and backslashes are escaped; control characters are not, other than in Python's `json`. -/
def escape (c : Char) : List Char := if c = '"' ∨ c = '\\' then ['\\', c] else [c]

/-- A text in quotes. -/
def printText (s : String) : List Char := '"' :: (s.toList.flatMap escape ++ ['"'])

/-- The characters up to the closing quote, and what follows it. -/
def readChars : List Char → Option (List Char × List Char)
  | [] => none
  | '"' :: rest => some ([], rest)
  | '\\' :: c :: rest => (readChars rest).map fun r => (c :: r.1, r.2)
  | c :: rest => (readChars rest).map fun r => (c :: r.1, r.2)

/-- A text in quotes at the front, and what follows it. -/
def readText : List Char → Option (String × List Char)
  | '"' :: rest => (readChars rest).map fun r => (String.ofList r.1, r.2)
  | _ => none

theorem readChars_escape (rest : List Char) : ∀ cs : List Char,
    readChars (cs.flatMap escape ++ '"' :: rest) = some (cs, rest)
  | [] => by simp [readChars]
  | c :: cs => by
    have ih := readChars_escape rest cs
    by_cases hc : c = '"' ∨ c = '\\'
    · simp [escape, hc, readChars, ih]
    · obtain ⟨hquote, hslash⟩ := not_or.1 hc
      simp [escape, hquote, hslash, readChars, ih]

theorem readText_printText (s : String) (rest : List Char) : readText (printText s ++ rest) = some (s, rest) := by
  simp [printText, readText, readChars_escape]

/-! ## Integers -/

/-- An integer in decimal. -/
def printInt (n : Int) : List Char := (toString n).toList

/-- An integer at the front, and what follows it. -/
def readInt (cs : List Char) : Option (Int × List Char) :=
  match pythonInt (String.ofList (cs.takeWhile isNumeric)) with
  | .ok n => some (n, cs.dropWhile isNumeric)
  | .error _ => none

theorem readInt_printInt (n : Int) {c : Char} (hc : isNumeric c = false) (rest : List Char) :
    readInt (printInt n ++ c :: rest) = some (n, c :: rest) := by
  have hall : ∀ d ∈ printInt n, isNumeric d = true := isNumeric_toString n
  have htake : (printInt n ++ c :: rest).takeWhile isNumeric = printInt n := by
    rw [List.takeWhile_append_of_pos hall]
    simp [hc]
  have hdrop : (printInt n ++ c :: rest).dropWhile isNumeric = c :: rest := by
    rw [List.dropWhile_append_of_pos hall]
    simp [hc]
  unfold readInt
  rw [htake, hdrop, printInt, String.ofList_toList, pythonInt_toString]

/-! ## Values and fields -/

/-- A text or an integer. -/
def isFlat : Json → Bool
  | .str _ | .int _ => true
  | _ => false

/-- Other values than texts and integers are not written. -/
def printValue : Json → List Char
  | .str s => printText s
  | .int n => printInt n
  | _ => "null".toList

/-- A text or an integer at the front, and what follows it. -/
def readValue (cs : List Char) : Option (Json × List Char) :=
  match readText cs with
  | some (s, rest) => some (.str s, rest)
  | none => (readInt cs).map fun r => (.int r.1, r.2)

theorem readText_printInt (n : Int) (rest : List Char) : readText (printInt n ++ rest) = none := by
  obtain ⟨c, cs, hcs⟩ : ∃ c cs, printInt n = c :: cs := by
    refine List.exists_cons_of_ne_nil fun hnil => ?_
    have hread := pythonInt_toString n
    rw [show toString n = String.ofList (printInt n) from String.ofList_toList.symm, hnil] at hread
    cases hread
  have hc : isNumeric c = true := isNumeric_toString n c (show c ∈ printInt n by rw [hcs]; exact List.mem_cons_self)
  have hquote : c ≠ '"' := by rintro rfl; exact absurd hc (by decide)
  rw [hcs]
  simp [readText, hquote]

theorem readValue_printValue {v : Json} (hv : isFlat v = true) {c : Char} (hc : isNumeric c = false)
    (rest : List Char) :
    readValue (printValue v ++ c :: rest) = some (v, c :: rest) := by
  unfold readValue
  cases v with
  | str s => simp only [printValue, readText_printText]
  | int n => simp only [printValue, readText_printInt, readInt_printInt n hc, Option.map_some]
  | _ => cases hv

/-- A key with its value. -/
def printField (f : String × Json) : List Char := printText f.1 ++ ':' :: printValue f.2

/-- A key with its value at the front, and what follows them. -/
def readField (cs : List Char) : Option ((String × Json) × List Char) :=
  match readText cs with
  | some (key, ':' :: rest) => (readValue rest).map fun r => ((key, r.1), r.2)
  | _ => none

theorem readField_printField {f : String × Json} (hf : isFlat f.2 = true) {c : Char} (hc : isNumeric c = false)
    (rest : List Char) : readField (printField f ++ c :: rest) = some (f, c :: rest) := by
  unfold readField printField
  rw [List.append_assoc, readText_printText]
  simp only [List.cons_append, readValue_printValue hf hc, Option.map_some]

/-! ## Sequences -/

section Items

variable {α : Type}

/-- Items with commas between them. -/
def printItems (print : α → List Char) (close : Char) : List α → List Char
  | [] => [close]
  | [a] => print a ++ [close]
  | a :: as => print a ++ ',' :: printItems print close as

/-- The items up to the closing bracket; no more than `fuel` of them. -/
def readItems (read : List Char → Option (α × List Char)) (close : Char) : Nat → List Char → Option (List α × List Char)
  | 0, _ => none
  | fuel + 1, cs => match read cs with
    | some (a, c :: rest) =>
      if c = ',' then (readItems read close fuel rest).map fun r => (a :: r.1, r.2)
      else if c = close then some ([a], rest)
      else none
    | _ => none

theorem readItems_printItems {print : α → List Char} {read : List Char → Option (α × List Char)} {close : Char}
    (hclose : close ≠ ',') (rest : List Char) : ∀ {as : List α} {fuel : Nat}, as ≠ [] → as.length ≤ fuel →
    (∀ a ∈ as, ∀ c rest, c = ',' ∨ c = close → read (print a ++ c :: rest) = some (a, c :: rest)) →
    readItems read close fuel (printItems print close as ++ rest) = some (as, rest)
  | [], _, hne, _, _ => absurd rfl hne
  | _ :: _, 0, _, hlen, _ => by simp at hlen
  | [a], fuel + 1, _, _, hread => by
    simp [printItems, readItems, hread a List.mem_cons_self close rest (.inr rfl), hclose]
  | a :: b :: as, fuel + 1, _, hlen, hread => by
    have hshorter : (b :: as).length ≤ fuel := by simpa using hlen
    have ih := readItems_printItems hclose rest (List.cons_ne_nil b as) hshorter
      fun x hx => hread x (List.mem_cons_of_mem a hx)
    have ha := hread a List.mem_cons_self ',' (printItems print close (b :: as) ++ rest) (.inl rfl)
    simp only [printItems, List.append_assoc, List.cons_append]
    unfold readItems
    rw [ha]
    simp only [if_true, ih, Option.map_some]

theorem length_le_printItems (print : α → List Char) (close : Char) : ∀ as : List α,
    as.length ≤ (printItems print close as).length
  | [] => by simp
  | [a] => by simp [printItems]
  | a :: b :: as => by
    have ih := length_le_printItems print close (b :: as)
    simp only [printItems, List.length_append, List.length_cons] at ih ⊢
    omega

end Items

/-! ## Documents -/

def asText : Json → String
  | .str s => s
  | _ => ""

/-- Arrays are written as arrays of texts. -/
def printDocument : Json → List Char
  | .arr items => '[' :: printItems printText ']' (items.map asText)
  | .obj fields => '{' :: printItems printField '}' fields
  | v => printValue v

/-- All items of a bracketed sequence that ends the document. -/
def readAll {α : Type} (read : List Char → Option (α × List Char)) (close : Char) (cs : List Char) : Option (List α) :=
  if cs = [close] then some []
  else match readItems read close cs.length cs with
    | some (items, []) => some items
    | _ => none

def readDocument : List Char → Option Json
  | '[' :: cs => (readAll readText ']' cs).map fun items => .arr (items.map .str)
  | '{' :: cs => (readAll readField '}' cs).map .obj
  | _ => none

theorem readAll_printItems {α : Type} {print : α → List Char} {read : List Char → Option (α × List Char)} {close : Char}
    (hclose : close ≠ ',') (as : List α) (hne : ∀ a ∈ as, print a ≠ [])
    (hread : ∀ a ∈ as, ∀ c rest, c = ',' ∨ c = close → read (print a ++ c :: rest) = some (a, c :: rest)) :
    readAll read close (printItems print close as) = some as := by
  unfold readAll
  rcases as with _ | ⟨a, as⟩
  · simp [printItems]
  · have hlong : printItems print close (a :: as) ≠ [close] := by
      obtain ⟨c, cs, hcs⟩ := List.exists_cons_of_ne_nil (hne a List.mem_cons_self)
      rcases as with _ | ⟨b, as⟩ <;> simp [printItems, hcs]
    have hitems := readItems_printItems hclose [] (List.cons_ne_nil a as)
      (length_le_printItems print close (a :: as)) hread
    rw [List.append_nil] at hitems
    rw [if_neg hlong, hitems]

theorem readDocument_texts (ts : List String) :
    readDocument (printDocument (.arr (ts.map .str))) = some (.arr (ts.map .str)) := by
  have htexts : (ts.map Json.str).map asText = ts := by
    rw [List.map_map]
    exact List.map_id ts
  have hall : readAll readText ']' (printItems printText ']' ts) = some ts :=
    readAll_printItems (by decide) ts (fun t _ => by simp [printText]) fun t _ c rest _ =>
      readText_printText t (c :: rest)
  simp only [printDocument, readDocument, htexts, hall, Option.map_some]

theorem readDocument_fields {fields : List (String × Json)} (h : ∀ f ∈ fields, isFlat f.2 = true) :
    readDocument (printDocument (.obj fields)) = some (.obj fields) := by
  have hend : ∀ c : Char, c = ',' ∨ c = '}' → isNumeric c = false := by
    rintro c (rfl | rfl) <;> decide
  have hall : readAll readField '}' (printItems printField '}' fields) = some fields :=
    readAll_printItems (by decide) fields (fun f _ => by simp [printField, printText])
      fun f hf c rest hc => readField_printField (h f hf) (hend c hc) rest
  simp only [printDocument, readDocument, hall, Option.map_some]

/-! ## Bytes -/

def encode (cs : List Char) : Bytes := (String.ofList cs).toUTF8.data.toList

def decode (bytes : Bytes) : Option (List Char) := (String.fromUTF8? ⟨bytes.toArray⟩).map String.toList

theorem decode_encode (cs : List Char) : decode (encode cs) = some cs := by
  have hbytes : (⟨(encode cs).toArray⟩ : ByteArray) = (String.ofList cs).toByteArray := by simp [encode]
  unfold decode
  rw [hbytes, String.fromUTF8?, dif_pos (String.ofList cs).isValidUTF8]
  show some (String.ofList cs).toList = some cs
  rw [String.toList_ofList]

end JsonText

/-- The codec of JSON text. -/
def jsonText : JsonCodec where
  jsonify v := JsonText.encode (JsonText.printDocument v)
  loads bytes := match JsonText.decode bytes >>= JsonText.readDocument with
    | some v => .ok v
    | none => .error (.valueError "invalid JSON")

theorem jsonText_loads {v v' : Json} (h : JsonText.readDocument (JsonText.printDocument v) = some v') :
    jsonText.loads (jsonText.jsonify v) = .ok v' := by
  simp only [jsonText, JsonText.decode_encode, Option.bind_eq_bind, Option.bind_some, h]

theorem jsonText_laws : jsonText.Laws where
  texts ts := jsonText_loads (JsonText.readDocument_texts ts)
  object fields _ hflat := by
    refine ⟨fields, List.Perm.refl _, jsonText_loads (JsonText.readDocument_fields fun f hf => ?_)⟩
    rcases hflat f hf with ⟨s, hs⟩ | ⟨n, hn⟩
    · rw [hs]; rfl
    · rw [hn]; rfl

end Squeaknode
