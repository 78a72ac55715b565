/-
Bytes as text: `bytes.hex()`, `bytes.fromhex()`, their printed form, and Python's `int()`. What `hex` writes, `fromhex`
reads back.
-/
import Squeaknode.Core.Types
import Mathlib.Tactic.IntervalCases

namespace Squeaknode

/-! ## Hex -/

/-- The lower-case digit of a number below 16. -/
def hexDigit (n : Nat) : Char := if n < 10 then Char.ofNat (48 + n) else Char.ofNat (87 + n)

/-- Two digits for each byte. -/
def hexDigits (bytes : Bytes) : List Char :=
  bytes.flatMap fun b => [hexDigit (b.toNat / 16), hexDigit (b.toNat % 16)]

/-- `bytes.hex()` -/
def hex (bytes : Bytes) : String := String.ofList (hexDigits bytes)

/-- The value of a digit of either case. -/
def hexValue (c : Char) : Option Nat :=
  if '0' ≤ c ∧ c ≤ '9' then some (c.toNat - 48)
  else if 'a' ≤ c ∧ c ≤ 'f' then some (c.toNat - 87)
  else if 'A' ≤ c ∧ c ≤ 'F' then some (c.toNat - 55)
  else none

/-- The spaces that `bytes.fromhex` skips. -/
def isSpace (c : Char) : Bool := c == ' ' || ('\t' ≤ c && c ≤ '\r')

/-- Spaces may stand between two bytes, but not inside one. -/
def fromHexDigits : List Char → Option Bytes
  | [] => some []
  | [c] => if isSpace c then some [] else none
  | c :: d :: rest =>
    if isSpace c then fromHexDigits (d :: rest)
    else do
      let high ← hexValue c
      let low ← hexValue d
      let bytes ← fromHexDigits rest
      return UInt8.ofNat (16 * high + low) :: bytes

/-- `bytes.fromhex(text)` -/
def fromHex (text : String) : Except Err Bytes :=
  match fromHexDigits text.toList with
  | some bytes => .ok bytes
  | none => .error (.valueError "non-hexadecimal number found in fromhex() arg")

theorem hexValue_hexDigit {n : Nat} (h : n < 16) : hexValue (hexDigit n) = some n := by
  interval_cases n <;> decide

theorem isSpace_hexDigit {n : Nat} (h : n < 16) : isSpace (hexDigit n) = false := by
  interval_cases n <;> decide

theorem fromHexDigits_hexDigits : ∀ bytes : Bytes, fromHexDigits (hexDigits bytes) = some bytes
  | [] => rfl
  | b :: bytes => by
    have hlt : b.toNat < 256 := b.toNat_lt
    have hhigh : b.toNat / 16 < 16 := by omega
    have hlow : b.toNat % 16 < 16 := by omega
    have hsum : 16 * (b.toNat / 16) + b.toNat % 16 = b.toNat := Nat.div_add_mod _ _
    show fromHexDigits (hexDigit (b.toNat / 16) :: hexDigit (b.toNat % 16) :: hexDigits bytes) = _
    unfold fromHexDigits
    rw [isSpace_hexDigit hhigh, hexValue_hexDigit hhigh, hexValue_hexDigit hlow,
      fromHexDigits_hexDigits bytes]
    show some (UInt8.ofNat (16 * (b.toNat / 16) + b.toNat % 16) :: bytes) = _
    rw [hsum, UInt8.ofNat_toNat]

/-- What `hex` writes, `fromhex` reads back. -/
@[simp] theorem fromHex_hex (bytes : Bytes) : fromHex (hex bytes) = .ok bytes := by
  simp [fromHex, hex, fromHexDigits_hexDigits]

/-! ## The printed form of bytes -/

def reprByte (quote : Char) (b : UInt8) : List Char :=
  let c := Char.ofNat b.toNat
  if c = quote ∨ c = '\\' then ['\\', c]
  else if c = '\t' then ['\\', 't']
  else if c = '\n' then ['\\', 'n']
  else if c = '\r' then ['\\', 'r']
  else if c < ' ' ∨ '~' < c then '\\' :: 'x' :: hexDigits [b]
  else [c]

/-- `repr(bytes)`: double quotes only around bytes with a single quote and no double quote. -/
def reprBytes (bytes : Bytes) : String :=
  let quote := if 39 ∈ bytes ∧ 34 ∉ bytes then '"' else '\''
  String.ofList ('b' :: quote :: (bytes.flatMap (reprByte quote) ++ [quote]))

/-! ## Integers -/

/-- Decimal digits with single underscores between them; `started` says a digit stands before. -/
def intDigits (started : Bool) (acc : Nat) : List Char → Option Nat
  | [] => if started then some acc else none
  | '_' :: cs => if started then intDigits false acc cs else none
  | c :: cs => if c.isDigit then intDigits true (10 * acc + (c.toNat - 48)) cs else none

/-- The zeros of the other scripts in the Unicode version of the interpreter; the digits 1 to 9 follow each of them. -/
def decimalZeros : List Nat :=
  [0x660, 0x6f0, 0x7c0, 0x966, 0x9e6, 0xa66, 0xae6, 0xb66, 0xbe6, 0xc66, 0xce6, 0xd66, 0xde6, 0xe50, 0xed0, 0xf20,
    0x1040, 0x1090, 0x17e0, 0x1810, 0x1946, 0x19d0, 0x1a80, 0x1a90, 0x1b50, 0x1bb0, 0x1c40, 0x1c50, 0xa620, 0xa8d0,
    0xa900, 0xa9d0, 0xa9f0, 0xaa50, 0xabf0, 0xff10, 0x104a0, 0x10d30, 0x11066, 0x110f0, 0x11136, 0x111d0, 0x112f0,
    0x11450, 0x114d0, 0x11650, 0x116c0, 0x11730, 0x118e0, 0x11c50, 0x11d50, 0x11da0, 0x16a60, 0x16ac0, 0x16b50,
    0x1d7ce, 0x1d7d8, 0x1d7e2, 0x1d7ec, 0x1d7f6, 0x1e140, 0x1e2f0, 0x1e950]

/-- The white space of Unicode outside ASCII. -/
def isUnicodeSpace (c : Char) : Bool :=
  [0x85, 0xa0, 0x1680, 0x2028, 0x2029, 0x202f, 0x205f, 0x3000].contains c.toNat ||
    (0x2000 ≤ c.toNat && c.toNat ≤ 0x200a)

/-- `int` reads a digit of any script as the ASCII digit, and what is neither a digit nor a space as `?`. -/
def toAscii (c : Char) : Char :=
  if c.toNat < 127 then c
  else if isUnicodeSpace c then ' '
  else match decimalZeros.find? fun d => d ≤ c.toNat && c.toNat < d + 10 with
    | some d => Char.ofNat (48 + (c.toNat - d))
    | none => '?'

/-- Python's `int(text)` -/
def pythonInt (text : String) : Except Err Int :=
  let stripped := ((((text.toList.map toAscii).dropWhile isSpace).reverse).dropWhile isSpace).reverse
  let value : Option Int := match stripped with
    | '-' :: cs => (intDigits false 0 cs).map fun n => -(n : Int)
    | '+' :: cs => (intDigits false 0 cs).map fun n => (n : Int)
    | cs => (intDigits false 0 cs).map fun n => (n : Int)
  match value with
  | some n => .ok n
  | none => .error (.valueError "invalid literal for int() with base 10")

theorem intDigits_of_isDigit : ∀ {cs : List Char}, (∀ c ∈ cs, c.isDigit = true) → ∀ acc : Nat,
    intDigits true acc cs = some (Nat.ofDigitChars 10 cs acc)
  | [], _, acc => by simp [intDigits]
  | c :: cs, h, acc => by
    have hc : c.isDigit = true := h c List.mem_cons_self
    have hne : c ≠ '_' := by rintro rfl; exact absurd hc (by decide)
    unfold intDigits
    split
    · rename_i heq; cases heq
    · rename_i heq; cases heq; exact absurd rfl hne
    · rename_i heq
      cases heq
      rw [if_pos hc, intDigits_of_isDigit (fun d hd => h d (List.mem_cons_of_mem c hd)), Nat.ofDigitChars_cons]
      rfl

theorem intDigits_toDigits (n : Nat) : intDigits false 0 (Nat.toDigits 10 n) = some n := by
  have hdigits : ∀ c ∈ Nat.toDigits 10 n, c.isDigit = true := fun c hc =>
    Nat.isDigit_of_mem_toDigits (by decide) (by decide) hc
  have hvalue : Nat.ofDigitChars 10 (Nat.toDigits 10 n) 0 = n := Nat.ofDigitChars_ten_toDigits
  -- the first digit sets `started`, and does nothing else that a later one does not do
  have hstart : ∀ cs : List Char, cs ≠ [] → (∀ c ∈ cs, c.isDigit = true) →
    intDigits false 0 cs = intDigits true 0 cs := by
    intro cs hcs h
    obtain ⟨c, cs, rfl⟩ := List.exists_cons_of_ne_nil hcs
    have hne : c ≠ '_' := by rintro rfl; exact absurd (h '_' List.mem_cons_self) (by decide)
    simp [intDigits]
  rw [hstart _ Nat.toDigits_ne_nil hdigits, intDigits_of_isDigit hdigits, hvalue]

/-- A character of a number that is written in decimal. -/
def isNumeric (c : Char) : Bool := c.isDigit || c == '-'

theorem isSpace_of_isNumeric {c : Char} (h : isNumeric c = true) : isSpace c = false := by
  have hlow : 13 < c.toNat := by
    rcases Bool.or_eq_true _ _ ▸ h with hd | hd
    · simp only [Char.isDigit, Bool.and_eq_true, decide_eq_true_eq, ge_iff_le, UInt32.le_iff_toNat_le] at hd
      exact lt_of_lt_of_le (show 13 < '0'.val.toNat by decide) hd.1
    · rw [beq_iff_eq] at hd
      subst hd
      decide
  have hspace : c ≠ ' ' := by
    rintro rfl
    exact absurd h (by decide)
  have hle : ¬ c ≤ '\r' := by
    rw [Char.le_def, UInt32.le_iff_toNat_le]
    exact Nat.not_le.2 hlow
  simp [isSpace, hspace, hle]

theorem toAscii_of_isNumeric {c : Char} (h : isNumeric c = true) : toAscii c = c := by
  have hle : c ≤ '9' := by
    simp only [isNumeric, Bool.or_eq_true, beq_iff_eq] at h
    rcases h with h | rfl
    · exact (Bool.and_eq_true_iff.1 h).2 |> of_decide_eq_true
    · decide
  have hlow : c.toNat ≤ 57 := hle
  exact if_pos (by omega)

theorem dropWhile_isSpace {cs : List Char} (h : ∀ c ∈ cs, isNumeric c = true) : cs.dropWhile isSpace = cs := by
  cases cs with
  | nil => rfl
  | cons c cs => simp [isSpace_of_isNumeric (h c List.mem_cons_self)]

theorem isNumeric_toString (n : Int) : ∀ c ∈ (toString n).toList, isNumeric c = true := by
  have hdigit : ∀ (m : Nat) (c : Char), c ∈ m.repr.toList → isNumeric c = true := by
    intro m c hc
    rw [Nat.toList_repr] at hc
    simp [isNumeric, Nat.isDigit_of_mem_toDigits (by decide) (by decide) hc]
  intro c hc
  cases n with
  | ofNat m => exact hdigit m c hc
  | negSucc m =>
    rw [show toString (Int.negSucc m) = "-" ++ (m + 1).repr from rfl, String.toList_append] at hc
    rcases List.mem_append.1 hc with hc | hc
    · rw [show "-".toList = ['-'] from rfl, List.mem_singleton] at hc
      subst hc
      decide
    · exact hdigit _ c hc

/-- What `str` writes of an integer, `int` reads back. -/
theorem pythonInt_toString (n : Int) : pythonInt (toString n) = .ok n := by
  have hall := isNumeric_toString n
  have hascii : (toString n).toList.map toAscii = (toString n).toList :=
    (List.map_congr_left fun c hc => toAscii_of_isNumeric (hall c hc)).trans (List.map_id _)
  have hstrip : ((((toString n).toList.map toAscii).dropWhile isSpace).reverse.dropWhile isSpace).reverse =
      (toString n).toList := by
    rw [hascii, dropWhile_isSpace hall, dropWhile_isSpace fun c hc => hall c (List.mem_reverse.1 hc), List.reverse_reverse]
  unfold pythonInt
  rw [hstrip]
  cases n with
  | ofNat m =>
    have hlist : (toString (Int.ofNat m)).toList = Nat.toDigits 10 m := Nat.toList_repr
    obtain ⟨c, cs, hcs⟩ := List.exists_cons_of_ne_nil (Nat.toDigits_ne_nil (n := m) (b := 10))
    have hc : c.isDigit = true := Nat.isDigit_of_mem_toDigits (n := m) (by decide) (by decide)
      (hcs ▸ List.mem_cons_self)
    have hminus : c ≠ '-' := by rintro rfl; exact absurd hc (by decide)
    have hplus : c ≠ '+' := by rintro rfl; exact absurd hc (by decide)
    have hdigits := intDigits_toDigits m
    rw [hlist, hcs] at *
    simp [hminus, hplus, hdigits]
  | negSucc m =>
    have hlist : (toString (Int.negSucc m)).toList = '-' :: Nat.toDigits 10 (m + 1) := by
      rw [show toString (Int.negSucc m) = "-" ++ (m + 1).repr from rfl, String.toList_append, Nat.toList_repr]
      rfl
    rw [hlist]
    simp only [intDigits_toDigits]
    rfl

end Squeaknode
