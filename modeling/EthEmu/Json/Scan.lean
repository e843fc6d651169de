import EthEmu.Json.Value

/-!
# Reading JSON text

`json.Unmarshal` (Go 1.19) first runs `checkValid`, its scanner over the whole
input, and returns a `*SyntaxError` before it touches the target if the text is
not one JSON value surrounded by white space; only then does it decode.
`parseJson` is that scanner, building the `Value` the decoder then walks.

The grammar is the scanner's: white space is space, tab, newline and carriage
return; a string body allows every character from `U+0020` on except `"` and
`\`, and the escapes `\" \\ \/ \b \f \n \r \t \uXXXX`; a number is
`-? (0 | [1-9][0-9]*) (. [0-9]+)? ([eE] [+-]? [0-9]+)?`; and more than
`10000` nested arrays and objects are refused (`maxNestingDepth`).

`unquote` is the decoder's `unquoteBytes`, which the decoder applies to an
object key before it looks for the struct field of that name.

## Honest boundary

* The input is a list of characters; a file that is not valid UTF-8 is not
  modelled.
* `parseJson` runs on fuel `2 * length + 2`: every call either consumes a
  character or is followed by one that does.
-/

namespace EthEmu.Json

/-- The scanner's white space. -/
def isSpace (c : Char) : Bool := c = ' ' || c = '\t' || c = '\n' || c = '\r'

/-- Skip white space. -/
def skipSpace : List Char → List Char
  | [] => []
  | c :: cs => if isSpace c then skipSpace cs else c :: cs

/-- A hex digit of a `\u` escape. -/
def isHex (c : Char) : Bool :=
  c.isDigit || ('a'.toNat ≤ c.toNat && c.toNat ≤ 'f'.toNat) || ('A'.toNat ≤ c.toNat && c.toNat ≤ 'F'.toNat)

/-- The characters that may follow `\` besides `u`. -/
def shortEscapes : List Char := ['"', '\\', '/', 'b', 'f', 'n', 'r', 't']

/-- A string body after the opening quote: the body as written, and what follows
the closing quote. -/
def scanString : List Char → Option (List Char × List Char)
  | [] => none
  | c :: cs =>
    if c = '"' then some ([], cs)
    else if c = '\\' then
      match cs with
      | [] => none
      | e :: r =>
        if e ∈ shortEscapes then (scanString r).map fun p ↦ ('\\' :: e :: p.1, p.2)
        else if e = 'u' then
          match r with
          | h₁ :: h₂ :: h₃ :: h₄ :: r' =>
            if isHex h₁ && isHex h₂ && isHex h₃ && isHex h₄ then
              (scanString r').map fun p ↦ ('\\' :: 'u' :: h₁ :: h₂ :: h₃ :: h₄ :: p.1, p.2)
            else none
          | _ => none
        else none
    else if c.toNat < 0x20 then none
    else (scanString cs).map fun p ↦ (c :: p.1, p.2)

/-- The closing quote ends a string body. -/
theorem scanString_quote (r : List Char) : scanString ('"' :: r) = some ([], r) := by
  rw [scanString.eq_def]; simp

/-- A printable character other than `"` and `\` stands for itself. -/
theorem scanString_plain {c : Char} (hq : c ≠ '"') (hb : c ≠ '\\') (hc : ¬ c.toNat < 0x20)
    (r : List Char) : scanString (c :: r) = (scanString r).map fun p ↦ (c :: p.1, p.2) := by
  rw [scanString.eq_def]; simp [hq, hb, hc]

/-- A short escape is kept as written. -/
theorem scanString_short {e : Char} (he : e ∈ shortEscapes) (r : List Char) :
    scanString ('\\' :: e :: r) = (scanString r).map fun p ↦ ('\\' :: e :: p.1, p.2) := by
  rw [scanString.eq_def]; simp [he]

/-- A `\u` escape with four hex digits is kept as written. -/
theorem scanString_unicode {h₁ h₂ h₃ h₄ : Char} (hx : (isHex h₁ && isHex h₂ && isHex h₃ && isHex h₄) = true)
    (r : List Char) :
    scanString ('\\' :: 'u' :: h₁ :: h₂ :: h₃ :: h₄ :: r) =
      (scanString r).map fun p ↦ ('\\' :: 'u' :: h₁ :: h₂ :: h₃ :: h₄ :: p.1, p.2) := by
  have hu : 'u' ∉ shortEscapes := by decide
  rw [scanString.eq_def]; simp [hu, hx]

/-- The longest run of decimal digits. -/
def spanDigits : List Char → List Char × List Char
  | [] => ([], [])
  | c :: cs =>
    if c.isDigit then
      match spanDigits cs with
      | (ds, r) => (c :: ds, r)
    else ([], c :: cs)

/-- A non-empty run of digits. -/
def scanDigits (cs : List Char) : Option (List Char × List Char) :=
  match spanDigits cs with
  | ([], _) => none
  | p => some p

/-- The exponent of a number, from its `e` or `E` on. -/
def scanExponent : List Char → Option (List Char × List Char)
  | e :: cs =>
    if e = 'e' ∨ e = 'E' then
      match cs with
      | s :: r =>
        if s = '+' ∨ s = '-' then (scanDigits r).map fun p ↦ (e :: s :: p.1, p.2)
        else (scanDigits (s :: r)).map fun p ↦ (e :: p.1, p.2)
      | [] => none
    else some ([], e :: cs)
  | [] => some ([], [])

/-- The fraction and exponent of a number, after its integer part. -/
def scanFraction : List Char → Option (List Char × List Char)
  | c :: cs =>
    if c = '.' then do
      let (ds, r) ← scanDigits cs
      let (ex, r) ← scanExponent r
      pure ('.' :: ds ++ ex, r)
    else scanExponent (c :: cs)
  | [] => some ([], [])

/-- The integer part of a number after its sign: `0`, or a digit `1`–`9` and
more digits. -/
def scanInteger : List Char → Option (List Char × List Char)
  | c :: cs =>
    if c = '0' then some (['0'], cs)
    else if c.isDigit then
      match spanDigits cs with
      | (ds, r) => some (c :: ds, r)
    else none
  | [] => none

/-- A number literal. -/
def scanNumber (cs : List Char) : Option (List Char × List Char) := do
  let (sign, r) := match cs with
    | c :: r => if c = '-' then (['-'], r) else ([], c :: r)
    | [] => ([], [])
  let (int, r) ← scanInteger r
  let (rest, r) ← scanFraction r
  pure (sign ++ int ++ rest, r)

/-- `cs` with the literal `lit` removed from its front. -/
def stripLiteral (lit cs : List Char) : Option (List Char) :=
  if lit.isPrefixOf cs then some (cs.drop lit.length) else none

/-- The scanner's limit on nested arrays and objects. -/
def maxNestingDepth : Nat := 10000

mutual
/-- A value after optional white space, inside `depth` open arrays and objects. -/
def parseValue : Nat → Nat → List Char → Option (Value × List Char)
  | 0, _, _ => none
  | fuel + 1, depth, cs =>
    match skipSpace cs with
    | [] => none
    | c :: r =>
      if c = '{' then (if depth < maxNestingDepth then parseObject fuel (depth + 1) r else none)
      else if c = '[' then (if depth < maxNestingDepth then parseArray fuel (depth + 1) r else none)
      else if c = '"' then (scanString r).map fun p ↦ (.str p.1, p.2)
      else if c = 't' then (stripLiteral ['r', 'u', 'e'] r).map fun r' ↦ (.bool true, r')
      else if c = 'f' then (stripLiteral ['a', 'l', 's', 'e'] r).map fun r' ↦ (.bool false, r')
      else if c = 'n' then (stripLiteral ['u', 'l', 'l'] r).map fun r' ↦ (.null, r')
      else if c = '-' ∨ c.isDigit then (scanNumber (c :: r)).map fun p ↦ (.num p.1, p.2)
      else none
termination_by structural fuel => fuel
/-- An array after its `[`. -/
def parseArray : Nat → Nat → List Char → Option (Value × List Char)
  | 0, _, _ => none
  | fuel + 1, depth, cs =>
    if (skipSpace cs).head? = some ']' then some (.arr [], (skipSpace cs).tail)
    else do
      let (x, r) ← parseValue fuel depth cs
      let (xs, r) ← parseElems fuel depth r
      pure (.arr (x :: xs), r)
termination_by structural fuel => fuel
/-- The rest of an array after an element. -/
def parseElems : Nat → Nat → List Char → Option (List Value × List Char)
  | 0, _, _ => none
  | fuel + 1, depth, cs =>
    match skipSpace cs with
    | [] => none
    | c :: r =>
      if c = ']' then some ([], r)
      else if c = ',' then do
        let (x, r) ← parseValue fuel depth r
        let (xs, r) ← parseElems fuel depth r
        pure (x :: xs, r)
      else none
termination_by structural fuel => fuel
/-- An object after its `{`. -/
def parseObject : Nat → Nat → List Char → Option (Value × List Char)
  | 0, _, _ => none
  | fuel + 1, depth, cs =>
    match skipSpace cs with
    | [] => none
    | c :: r =>
      if c = '}' then some (.obj [], r)
      else if c = '"' then do
        let (m, r) ← parseMember fuel depth r
        let (ms, r) ← parseMembers fuel depth r
        pure (.obj (m :: ms), r)
      else none
termination_by structural fuel => fuel
/-- A member after the opening quote of its key. -/
def parseMember : Nat → Nat → List Char → Option ((List Char × Value) × List Char)
  | 0, _, _ => none
  | fuel + 1, depth, cs => do
    let (k, r) ← scanString cs
    match skipSpace r with
    | [] => none
    | c :: r =>
      if c = ':' then do
        let (v, r) ← parseValue fuel depth r
        pure ((k, v), r)
      else none
termination_by structural fuel => fuel
/-- The rest of an object after a member. -/
def parseMembers : Nat → Nat → List Char → Option (List (List Char × Value) × List Char)
  | 0, _, _ => none
  | fuel + 1, depth, cs =>
    match skipSpace cs with
    | [] => none
    | c :: r =>
      if c = '}' then some ([], r)
      else if c = ',' then
        match skipSpace r with
        | [] => none
        | c' :: r' =>
          if c' = '"' then do
            let (m, r) ← parseMember fuel depth r'
            let (ms, r) ← parseMembers fuel depth r
            pure (m :: ms, r)
          else none
      else none
termination_by structural fuel => fuel
end

/-- `checkValid` and the value it checked: one value, then only white space. -/
def parseJson (text : List Char) : Option Value :=
  match parseValue (2 * text.length + 2) 0 text with
  | some (j, r) => if skipSpace r = [] then some j else none
  | none => none

/-! ## `unquoteBytes` -/

/-- The value of a hex digit. -/
def hexVal (c : Char) : Nat :=
  if c.isDigit then c.toNat - 48
  else if c.toNat ≤ 'F'.toNat then c.toNat - 55
  else c.toNat - 87

/-- The code unit of four hex digits. -/
def hex4 (h₁ h₂ h₃ h₄ : Char) : Nat := ((hexVal h₁ * 16 + hexVal h₂) * 16 + hexVal h₃) * 16 + hexVal h₄

/-- The character a short escape stands for. -/
def unescape (e : Char) : Char :=
  if e = 'b' then '\x08' else if e = 'f' then '\x0c' else if e = 'n' then '\n'
  else if e = 'r' then '\r' else if e = 't' then '\t' else e

/-- `unicode.ReplacementChar`. -/
def replacementChar : Char := '\uFFFD'

/-- `unquoteBytes` of a scanned string body, on `fuel` characters: escapes
resolved, a `\u` surrogate pair combined by `utf16.DecodeRune`, and any other
surrogate replaced by `\uFFFD`. -/
def unquoteAux : Nat → List Char → List Char
  | 0, _ => []
  | _ + 1, [] => []
  | fuel + 1, c :: cs =>
    if c = '\\' then
      match cs with
      | [] => []
      | e :: r =>
        if e = 'u' then
          match r with
          | h₁ :: h₂ :: h₃ :: h₄ :: r' =>
            let u := hex4 h₁ h₂ h₃ h₄
            if 0xd800 ≤ u ∧ u < 0xe000 then
              match r' with
              | b :: f :: g₁ :: g₂ :: g₃ :: g₄ :: r'' =>
                let u₂ := hex4 g₁ g₂ g₃ g₄
                if b = '\\' ∧ f = 'u' ∧ isHex g₁ ∧ isHex g₂ ∧ isHex g₃ ∧ isHex g₄ ∧
                    u < 0xdc00 ∧ 0xdc00 ≤ u₂ ∧ u₂ < 0xe000 then
                  Char.ofNat (((u - 0xd800) * 0x400 + (u₂ - 0xdc00)) + 0x10000) :: unquoteAux fuel r''
                else replacementChar :: unquoteAux fuel r'
              | _ => replacementChar :: unquoteAux fuel r'
            else Char.ofNat u :: unquoteAux fuel r'
          | _ => []
        else unescape e :: unquoteAux fuel r
    else c :: unquoteAux fuel cs

/-- `unquoteBytes` of a scanned string body; every step consumes a character. -/
def unquote (raw : List Char) : List Char := unquoteAux raw.length raw

end EthEmu.Json
