/-
JSON values as Python's `json` module reads them, and what the client makes of them. The text form
is written and read by third-party code: it is a parameter with the laws the node relies on.
-/
import Squeaknode.Wire.Hex
import Mathlib.Data.List.Nodup

namespace Squeaknode

namespace Json

/-- The value iterated over in a `for` loop: a text gives its characters, an object its keys. -/
def iter : Json → Except Err (List Json)
  | arr items => .ok items
  | str s => .ok (s.toList.map fun c => str (String.singleton c))
  | obj fields => .ok ((fields.map Prod.fst).eraseDups.map str)
  | _ => .error (.valueError "object is not iterable")

/-- `value[key]`; the last of several fields with one key counts. -/
def get (key : String) : Json → Except Err Json
  | obj fields => match fields.reverse.find? fun f => f.1 == key with
    | some f => .ok f.2
    | none => .error (.valueError key)
  | _ => .error (.valueError "indices must be integers")

def asStr : Json → Except Err String
  | str s => .ok s
  | _ => .error (.valueError "not a string")

theorem asStr_ok {j : Json} {s : String} (h : j.asStr = .ok s) : j = .str s := by
  cases j <;> cases h
  rfl

/-- Python truth. -/
def truthy : Json → Bool
  | null | bool false | int 0 | str "" | arr [] | obj [] => false
  | float x => !x.isZero
  | _ => true

/-- `int(value)` -/
def toInt : Json → Except Err Int
  | int n => .ok n
  | bool b => .ok (if b then 1 else 0)
  | float ⟨_, some n, _⟩ => .ok n
  | str s => pythonInt s
  | _ => .error (.valueError "int() argument must be a string, a bytes-like object or a real number")

end Json

/-- `flask.jsonify` and `requests.Response.json`. -/
structure JsonCodec where
  jsonify : Json → Bytes
  loads : Bytes → Except Err Json

/-- An array of texts is read back as it was written; an object of texts and integers with distinct
keys is read back with its fields in some order. -/
structure JsonCodec.Laws (J : JsonCodec) : Prop where
  texts : ∀ ts : List String, J.loads (J.jsonify (.arr (ts.map .str))) = .ok (.arr (ts.map .str))
  object : ∀ fields : List (String × Json), (fields.map Prod.fst).Nodup →
    (∀ f ∈ fields, (∃ s, f.2 = .str s) ∨ ∃ n, f.2 = .int n) →
    ∃ fields', fields'.Perm fields ∧ J.loads (J.jsonify (.obj fields)) = .ok (.obj fields')

/-- In an object with distinct keys, the field of a key is found wherever it stands. -/
theorem Json.get_of_mem {fields : List (String × Json)} {key : String} {v : Json}
    (hn : (fields.map Prod.fst).Nodup) (hm : (key, v) ∈ fields) : Json.get key (.obj fields) = .ok v := by
  simp only [Json.get]
  cases hf : fields.reverse.find? fun f => f.1 == key with
  | none => exact absurd (List.find?_eq_none.1 hf (key, v) (List.mem_reverse.2 hm)) (by simp)
  | some f =>
    have hmem : f ∈ fields := List.mem_reverse.1 (List.mem_of_find?_eq_some hf)
    have hkey : f.1 = key := by simpa using List.find?_some hf
    have heq : f = (key, v) := List.inj_on_of_nodup_map hn hmem hm hkey
    rw [heq]

end Squeaknode
