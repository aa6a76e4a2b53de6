import Mathlib.Data.List.Basic

/-! # JSON values

The values of a JSON document and `dumps`, which writes a value as a text of
ASCII characters only. A number is kept as the literal that is written for it.
-/

/-- A JSON value. The members of an object are in insertion order. -/
inductive Json where
  | null
  | bool (b : Bool)
  | number (literal : String)
  | string (s : String)
  | array (elements : List Json)
  | object (members : List (String × Json))
deriving Repr

namespace Json

/-! ## Writing -/

/-- The four hexadecimal digits of a code unit. -/
def hexDigits (n : Nat) : List Char :=
  [n / 4096 % 16, n / 256 % 16, n / 16 % 16, n % 16].map Nat.digitChar

/-- The code unit `n` as an escape sequence. -/
def escapeUnit (n : Nat) : List Char := '\\' :: 'u' :: hexDigits n

/-- A character inside of a string. Characters outside of the basic plane are
written as a surrogate pair. -/
def escapeChar (c : Char) : List Char :=
  if c = '"' then ['\\', '"']
  else if c = '\\' then ['\\', '\\']
  else if c = '\n' then ['\\', 'n']
  else if c = '\r' then ['\\', 'r']
  else if c = '\t' then ['\\', 't']
  else if c.toNat = 12 then ['\\', 'f']
  else if c.toNat = 8 then ['\\', 'b']
  else if 32 ≤ c.toNat ∧ c.toNat ≤ 126 then [c]
  else if c.toNat < 65536 then escapeUnit c.toNat
  else escapeUnit (55296 + (c.toNat - 65536) / 1024) ++ escapeUnit (56320 + (c.toNat - 65536) % 1024)

/-- A string with its quotes. -/
def encodeString (s : String) : List Char := '"' :: (s.toList.flatMap escapeChar ++ ['"'])

mutual

/-- The characters of a value. -/
def encode : Json → List Char
  | .null => "null".toList
  | .bool true => "true".toList
  | .bool false => "false".toList
  | .number literal => literal.toList
  | .string s => encodeString s
  | .array elements => '[' :: (encodeElements elements ++ [']'])
  | .object members => '\x7b' :: (encodeMembers members ++ ['\x7d'])

/-- The elements of an array, separated by a comma and a blank. -/
def encodeElements : List Json → List Char
  | [] => []
  | [x] => encode x
  | x :: y :: rest => encode x ++ ',' :: ' ' :: encodeElements (y :: rest)

/-- The members of an object. -/
def encodeMembers : List (String × Json) → List Char
  | [] => []
  | [(k, x)] => encodeString k ++ ':' :: ' ' :: encode x
  | (k, x) :: m :: rest =>
      encodeString k ++ ':' :: ' ' :: (encode x ++ ',' :: ' ' :: encodeMembers (m :: rest))

end

/-- `json.dumps(v)`. -/
def dumps (v : Json) : String := String.ofList (encode v)

example : dumps (.object [("a\"", .array [.number "1", .null]), ("b", .string "é")]) =
    "\x7b\"a\\\"\": [1, null], \"b\": \"\\u00e9\"\x7d" := by decide

end Json
