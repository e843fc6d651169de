import Mathlib.Data.Nat.Digits

/-!
# JSON values and `json.MarshalIndent`

`StoreConfig` writes `json.MarshalIndent(Global, "", "  ")` (Go 1.19
`encoding/json`): `Marshal` builds the compact text, and `Indent` lays it out
with a newline and two spaces per nesting level before every member or
element, `": "` after every key, and empty arrays and objects kept as `[]` and
`{}`.

A JSON `Value` keeps what the text holds, not what it means: a number is its literal
and a string is its body between the quotes with the escapes as written.  This
is also what Go's decoder works on: it converts a number literal only when a Go
type asks for one, and hands `common.Address.UnmarshalJSON` the raw text.

## Honest boundary

* `Marshal` followed by `Indent` is modelled as one printer over the value
  `Marshal` encodes; `Indent` of compact text yields exactly this layout.
* Strings are Lean strings of characters: invalid UTF-8, which Go's encoder
  replaces by `�`, cannot occur.
-/

namespace EthEmu.Json

/-- A JSON value as written: numbers keep their literal, strings their body
between the quotes with the escapes as written, objects their members in text
order (duplicates included). -/
inductive Value where
  | null
  | bool (b : Bool)
  | num (lit : List Char)
  | str (raw : List Char)
  | arr (elems : List Value)
  | obj (members : List (List Char × Value))

/-! ## Encoding Go strings and numbers -/

/-- The lower-case hex digit of `d < 16`, as Go's `hex` table writes it. -/
def hexDigit (d : Nat) : Char := if d < 10 then Char.ofNat (48 + d) else Char.ofNat (87 + d)

/-- One character of a Go string in `encodeState.string` with HTML escaping:
`\\`, `\"`, `\n`, `\r`, `\t`, `\u00XX` for the other control characters and for
`<`, `>`, `&`, and `\u2028`, `\u2029` for the two line separators. -/
def escapeChar (c : Char) : List Char :=
  if c = '\\' ∨ c = '"' then ['\\', c]
  else if c = '\n' then ['\\', 'n']
  else if c = '\r' then ['\\', 'r']
  else if c = '\t' then ['\\', 't']
  else if c.toNat < 0x20 ∨ c = '<' ∨ c = '>' ∨ c = '&' then
    ['\\', 'u', '0', '0', hexDigit (c.toNat / 16), hexDigit (c.toNat % 16)]
  else if c = '\u2028' ∨ c = '\u2029' then ['\\', 'u', '2', '0', '2', hexDigit (c.toNat % 16)]
  else [c]

/-- The body of the JSON string `Marshal` writes for a Go string. -/
def encodeString (s : String) : List Char := s.toList.flatMap escapeChar

/-- The decimal digit character of `d < 10`. -/
def digitChar (d : Nat) : Char := Char.ofNat (48 + d)

/-- `strconv.FormatUint(n, 10)`: the decimal digits, most significant first. -/
def formatUint (n : Nat) : List Char :=
  if n = 0 then ['0'] else (Nat.digits 10 n).reverse.map digitChar

/-! ## `MarshalIndent(v, "", "  ")` -/

/-- `Indent`'s `newline`: a line break and two spaces per level. -/
def newline (depth : Nat) : List Char := '\n' :: List.replicate (2 * depth) ' '

mutual
/-- A value printed at nesting `depth`. -/
def printValue (depth : Nat) : Value → List Char
  | .null => ['n', 'u', 'l', 'l']
  | .bool true => ['t', 'r', 'u', 'e']
  | .bool false => ['f', 'a', 'l', 's', 'e']
  | .num lit => lit
  | .str raw => '"' :: raw ++ ['"']
  | .arr [] => ['[', ']']
  | .arr (x :: xs) =>
    '[' :: newline (depth + 1) ++ printValue (depth + 1) x ++ printElems (depth + 1) xs ++
      newline depth ++ [']']
  | .obj [] => ['{', '}']
  | .obj ((k, v) :: ms) =>
    '{' :: newline (depth + 1) ++ '"' :: k ++ '"' :: ':' :: ' ' :: printValue (depth + 1) v ++
      printMembers (depth + 1) ms ++ newline depth ++ ['}']
/-- The elements after the first, each after `,` and a new line. -/
def printElems (depth : Nat) : List Value → List Char
  | [] => []
  | x :: xs => ',' :: newline depth ++ printValue depth x ++ printElems depth xs
/-- The members after the first, each after `,` and a new line. -/
def printMembers (depth : Nat) : List (List Char × Value) → List Char
  | [] => []
  | (k, v) :: ms =>
    ',' :: newline depth ++ '"' :: k ++ '"' :: ':' :: ' ' :: printValue depth v ++ printMembers depth ms
end

/-- `json.MarshalIndent(v, "", "  ")` of the value `Marshal` encodes. -/
def marshalIndent (j : Value) : List Char := printValue 0 j

end EthEmu.Json
