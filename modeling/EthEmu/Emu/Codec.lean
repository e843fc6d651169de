import Mathlib.Data.String.Basic
import EthEmu.Emu.Types
import EthEmu.Json.RoundTrip

/-!
# `config.json` as `encoding/json` writes and reads it

`StoreConfig` writes `json.MarshalIndent(Global, "", "  ")` and `LoadConfig`
reads the file back with `json.Unmarshal(bytes, &Global)`.  This module models
both directions for the one type they are used on, `Config`, as Go 1.19's
reflection-driven encoder and decoder treat it:

* `Marshal` writes the struct fields in declaration order, a `uint64` in
  decimal, a `common.Address` through its `MarshalText` (`0x` and forty
  lower-case hex digits), a nil map, pointer or slice as `null`, and the keys of
  a map sorted by their text;
* `Unmarshal` decodes into the value already there.  A struct member is
  matched to a field by its exact name, else case-insensitively (`equalFold`);
  unknown members are skipped; a value of the wrong kind is a *saved*
  `UnmarshalTypeError` (the first one is returned at the end, and decoding goes
  on); an error of `Address.UnmarshalJSON` (`hexutil.UnmarshalFixedJSON`) *ends*
  the decode where it stands.  A map value is decoded from the zero `*Node`
  before its key is converted, and a slice reuses the elements it had.

The decoder works on the value tree of `EthEmu.Json.parseJson`, the text
`checkValid` accepted: Go's decoder scans the same text a second time.

## Honest boundary

* The byte offsets of errors are not modelled; an `UnmarshalTypeError` keeps
  its `Value`, `Type`, `Struct` and `Field`.
* Go picks one of three case-folding functions per field name; for the ten
  field names of `Config` and `Node`, made of letters only, they agree with
  `equalFold` here.
* A slice that grows into spare capacity exposes the old backing array; here a
  new slot starts from the zero address.  Every slot is overwritten or ends the
  decode of the `Node` holding it, which is then discarded, so no value that
  survives a decode differs.
* Text is a list of characters, so invalid UTF-8 cannot occur; lengths that Go
  measures in bytes (`hexutil`'s) are measured with `Char.utf8Size`.
-/

namespace EthEmu.Emu

open EthEmu.Json

/-! ## `hexutil`: addresses as text -/

/-- `hex.Encode` of one byte: the high nibble first, lower-case. -/
def byteHex (b : UInt8) : List Char := [hexDigit (b.toNat / 16), hexDigit (b.toNat % 16)]

/-- `Address.MarshalText`: `0x` and the forty hex digits of the bytes. -/
def Address.hexText (a : Address) : List Char := '0' :: 'x' :: a.bytes.flatMap byteHex

/-- The length in bytes of the UTF-8 encoding of a text. -/
def utf8Length (cs : List Char) : Nat := (cs.map Char.utf8Size).sum

/-- The errors `hexutil.UnmarshalFixedText` returns. -/
inductive HexError where
  /-- `ErrSyntax`: a character that is no hex digit. -/
  | invalidHex
  /-- `ErrMissingPrefix`: the text does not start with `0x` or `0X`. -/
  | without0x
  /-- `ErrOddLength`. -/
  | oddLength
  /-- `fmt.Errorf("hex string has length %d, want 40 for common.Address")`. -/
  | badLength (n : Nat)
deriving DecidableEq, Repr

/-- The message of an error of `hexutil`. -/
def HexError.text : HexError → String
  | .invalidHex => "invalid hex string"
  | .without0x => "hex string without 0x prefix"
  | .oddLength => "hex string of odd length"
  | .badLength n => s!"hex string has length {n}, want 40 for common.Address"

/-- `hexutil.checkText(input, true)`: the digits after `0x` or `0X`, of even length
in bytes; the empty text is let through. -/
def checkText : List Char → Except HexError (List Char)
  | [] => .ok []
  | '0' :: x :: raw =>
    if x = 'x' ∨ x = 'X' then
      if utf8Length raw % 2 = 0 then .ok raw else .error .oddLength
    else .error .without0x
  | _ => .error .without0x

/-- `hex.Decode`: one byte from each pair of hex digits. -/
def decodeHexBytes : List Char → List UInt8
  | h :: l :: r => (hexVal h * 16 + hexVal l).toUInt8 :: decodeHexBytes r
  | _ => []

theorem length_decodeHexBytes : ∀ raw : List Char, (decodeHexBytes raw).length = raw.length / 2
  | h :: l :: r => by simp [decodeHexBytes, length_decodeHexBytes r]; omega
  | [] => rfl
  | [_] => by simp [decodeHexBytes]

/-- A hex digit is ASCII, one byte in UTF-8. -/
theorem isHex_utf8Size {c : Char} (h : isHex c = true) : c.utf8Size = 1 := by
  have hc : c.toNat ≤ 127 := by
    simp only [isHex, Char.isDigit, Bool.or_eq_true, Bool.and_eq_true, decide_eq_true_eq] at h
    rcases h with (⟨-, h⟩ | ⟨-, h⟩) | ⟨-, h⟩
    · exact Nat.le_trans (h : c.toNat ≤ 57) (by decide)
    · exact Nat.le_trans h (by decide)
    · exact Nat.le_trans h (by decide)
  unfold Char.utf8Size
  rw [if_pos]
  exact hc

theorem utf8Length_of_isHex {raw : List Char} (h : raw.all isHex = true) : utf8Length raw = raw.length := by
  induction raw with
  | nil => rfl
  | cons c cs ih =>
    simp only [List.all_cons, Bool.and_eq_true] at h
    simp [utf8Length, isHex_utf8Size h.1, ← ih h.2]
    omega

/-- `hexutil.UnmarshalFixedText(typ.String(), input, a[:])` for `common.Address`:
`checkText`, then the length (20 bytes, so 40 digits), then every digit, and only
then `hex.Decode` into the address. -/
def unmarshalFixedText (input : List Char) : Except HexError Address :=
  match checkText input with
  | .error e => .error e
  | .ok raw =>
    if hlen : utf8Length raw / 2 = 20 then
      if hx : raw.all isHex = true then
        .ok ⟨decodeHexBytes raw, by rw [length_decodeHexBytes, ← utf8Length_of_isHex hx, hlen]⟩
      else .error .invalidHex
    else .error (.badLength (utf8Length raw))

/-! ## Errors -/

/-- `json.UnmarshalTypeError` with the context `addErrorContext` gives it: Go's
`Value` (what the text held), `Type` (the Go type it did not fit), `Struct` and
`Field` (the dotted path of field names to it). -/
structure UnmarshalTypeError where
  value : String
  goType : String
  struct : String
  field : String
deriving DecidableEq, Repr

/-- The errors `LoadConfig` and `StoreConfig` return. -/
inductive ConfigError where
  /-- `os.ReadFile` failed: `config.json` is missing or unreadable. -/
  | readFile
  /-- `os.WriteFile` failed. -/
  | writeFile
  /-- The `*json.SyntaxError` of `checkValid`. -/
  | invalidJson
  /-- A `*json.UnmarshalTypeError`. -/
  | unmarshalType (e : UnmarshalTypeError)
  /-- The `fmt` error of `hexutil` on a hex text of the wrong length. -/
  | hexLength (n : Nat)
deriving DecidableEq, Repr

/-- `decodeState.errorContext`: the struct being decoded and the names of the
fields on the way to the current value. -/
structure ErrorContext where
  struct : String
  fieldStack : List String
deriving DecidableEq, Repr

/-- No context: the top-level value. -/
def ErrorContext.top : ErrorContext := ⟨"", []⟩

/-- Entering field `field` of struct `struct`. -/
def ErrorContext.push (ctx : ErrorContext) (struct field : String) : ErrorContext :=
  ⟨struct, ctx.fieldStack ++ [field]⟩

/-- An `UnmarshalTypeError` with the context filled in by `addErrorContext`. -/
def ErrorContext.typeError (ctx : ErrorContext) (value goType : String) : ConfigError :=
  .unmarshalType ⟨value, goType, ctx.struct, ".".intercalate ctx.fieldStack⟩

/-- A type error in a field of the top-level struct names that field. -/
@[simp] theorem ErrorContext.typeError_top_push (struct field value goType : String) :
    (ErrorContext.top.push struct field).typeError value goType =
      .unmarshalType ⟨value, goType, struct, field⟩ := rfl

/-- `wrapTypeError`: a `hexutil` `*decError` becomes an `UnmarshalTypeError` of
`common.Address`; the length error is passed on as it is. -/
def wrapTypeError (ctx : ErrorContext) : HexError → ConfigError
  | .badLength n => .hexLength n
  | e => ctx.typeError e.text "common.Address"

/-! ## The decoder's state -/

/-- A decode so far: the value written, the first error `saveError` kept, and
the error that ended the decode early. -/
structure Decoded (α : Type) where
  value : α
  saved : Option ConfigError
  abort : Option ConfigError

namespace Decoded

variable {α β : Type}

/-- The value was written without error. -/
def ok (a : α) : Decoded α := ⟨a, none, none⟩

/-- `saveError`: the value stays as it was, and decoding goes on. -/
def save (a : α) (e : ConfigError) : Decoded α := ⟨a, some e, none⟩

/-- An error that ends the decode. -/
def fail (a : α) (e : ConfigError) : Decoded α := ⟨a, none, some e⟩

/-- The outcome of an `Unmarshaler`: the value it wrote, or an error ending the decode
with the value as it was. -/
def ofExcept (a : α) : Except ConfigError α → Decoded α
  | .ok x => ok x
  | .error e => fail a e

/-- The same decode seen through a write into a larger value. -/
def map (f : α → β) (r : Decoded α) : Decoded β := ⟨f r.value, r.saved, r.abort⟩

/-- Go on with `k` from `r`'s value unless `r` ended the decode; the first saved
error is kept. -/
def andThen (r : Decoded α) (k : α → Decoded α) : Decoded α :=
  match r.abort with
  | some _ => r
  | none => ⟨(k r.value).value, r.saved.or (k r.value).saved, (k r.value).abort⟩

@[simp] theorem map_ok (f : α → β) (a : α) : (ok a).map f = ok (f a) := rfl

@[simp] theorem ok_andThen (a : α) (k : α → Decoded α) : (ok a).andThen k = k a := by
  simp [ok, andThen]

end Decoded

/-! ## Decoding -/

/-- What `literalStore`, `array` and `object` report about a value that does not
fit its target: its kind. -/
def valueKind : Value → String
  | .null => "null"
  | .bool _ => "bool"
  | .num _ => "number"
  | .str _ => "string"
  | .arr _ => "array"
  | .obj _ => "object"

/-- `strconv.ParseUint(s, 10, 64)` as `literalStore` uses it: the value of a run
of decimal digits below `2^64`, and an error for any other literal. -/
def parseUint (s : List Char) : Option UInt64 :=
  if s ≠ [] ∧ s.all Char.isDigit = true then
    let n := s.foldl (fun acc c ↦ 10 * acc + (c.toNat - 48)) 0
    if n < 2 ^ 64 then some (UInt64.ofNat n) else none
  else none

/-- A `uint64` field: `null` leaves it, a number literal is parsed, and anything
else is a saved type error. -/
def decodeUint64 (ctx : ErrorContext) (old : UInt64) : Value → Decoded UInt64
  | .null => .ok old
  | .num lit =>
    match parseUint lit with
    | some n => .ok n
    | none => .save old (ctx.typeError ("number " ++ String.mk lit) "uint64")
  | j => .save old (ctx.typeError (valueKind j) "uint64")

/-- A `bool` field. -/
def decodeBool (ctx : ErrorContext) (old : Bool) : Value → Decoded Bool
  | .null => .ok old
  | .bool b => .ok b
  | j => .save old (ctx.typeError (valueKind j) "bool")

/-- `Address.UnmarshalJSON`, which `indirect` finds for every value, `null`
included: a string's bytes between the quotes, as written, are hex text; any other
value is the `"non-string"` error. -/
def decodeAddress (ctx : ErrorContext) : Value → Except ConfigError Address
  | .str raw => (unmarshalFixedText raw).mapError (wrapTypeError ctx)
  | _ => .error (ctx.typeError "non-string" "common.Address")

/-- `array`'s loop into a `[]common.Address` whose elements from slot `i` on are
`old`: each element is decoded into its slot; an error leaves the slot (the zero
address in a new one) and the slots after it. -/
def decodeAddrElems (ctx : ErrorContext) : List Address → List Value → Decoded (List Address)
  | _, [] => .ok []
  | old, j :: js =>
    match decodeAddress ctx j with
    | .error e => .fail (old.headD default :: old.tail) e
    | .ok a => (decodeAddrElems ctx old.tail js).map (a :: ·)

/-- The `Peers` slice: `null` makes it nil, an array replaces its elements (an
empty array gives an empty, non-nil slice). -/
def decodePeers (ctx : ErrorContext) (old : Option (List Address)) :
    Value → Decoded (Option (List Address))
  | .null => .ok none
  | .arr js => (decodeAddrElems ctx (sliceElems old) js).map some
  | j => .save old (ctx.typeError (valueKind j) "[]common.Address")

/-- Go 1.19's `equalFold` on one character of a field name: the same character,
an ASCII letter in the other case, `ſ` (U+017F) for `s` and the Kelvin sign
(U+212A) for `k`. -/
def foldEq (sb tc : Char) : Bool :=
  tc = sb || (sb.isAlpha && tc.toNat < 0x80 && tc.toUpper = sb.toUpper) ||
    ((sb = 's' || sb = 'S') && tc = 'ſ') || ((sb = 'k' || sb = 'K') && tc = 'K')

/-- A field name and a key equal up to `foldEq`. -/
def equalFold : List Char → List Char → Bool
  | [], [] => true
  | sb :: s, tc :: t => foldEq sb tc && equalFold s t
  | _, _ => false

/-- `object`'s choice of field for a key: the field of that exact name, else the
first field whose name folds to it. -/
def lookupField {φ : Type} (fields : List φ) (name : φ → String) (key : List Char) : Option φ :=
  (fields.find? fun f ↦ (name f).toList = key).or (fields.find? fun f ↦ equalFold (name f).toList key)

/-- `d.object`'s loop over the members of an object, stopping at an error that
ends the decode. -/
def decodeMembers {α : Type} (member : α → List Char → Value → Decoded α) :
    α → List (List Char × Value) → Decoded α
  | a, [] => .ok a
  | a, (k, j) :: ms => (member a k j).andThen fun a' ↦ decodeMembers member a' ms

/-- The fields of `emu.Node`, in declaration order. -/
inductive NodeField where
  | Identity
  | Address
  | IsMiner
  | Peers
deriving DecidableEq, Repr

/-- The Go name of a field of `Node`. -/
def NodeField.name : NodeField → String
  | .Identity => "Identity"
  | .Address => "Address"
  | .IsMiner => "IsMiner"
  | .Peers => "Peers"

/-- The fields of `Node` in the order `cachedTypeFields` lists them. -/
def NodeField.all : List NodeField := [.Identity, .Address, .IsMiner, .Peers]

/-- One field of a `Node` decoded from `j`. -/
def decodeNodeField (ctx : ErrorContext) (n : Node) : NodeField → Value → Decoded Node
  | .Identity, j => (decodeUint64 ctx n.Identity j).map fun x ↦ { n with Identity := x }
  | .Address, j => (Decoded.ofExcept n.Address (decodeAddress ctx j)).map fun x ↦ { n with Address := x }
  | .IsMiner, j => (decodeBool ctx n.IsMiner j).map fun x ↦ { n with IsMiner := x }
  | .Peers, j => (decodePeers ctx n.Peers j).map fun x ↦ { n with Peers := x }

/-- One member of an object decoded into a `Node`; a key that names no field is
skipped. -/
def decodeNodeMember (ctx : ErrorContext) (n : Node) (key : List Char) (j : Value) : Decoded Node :=
  match lookupField NodeField.all NodeField.name (unquote key) with
  | none => .ok n
  | some f => decodeNodeField (ctx.push "Node" f.name) n f j

/-- A `*Node`: `null` makes it nil; any other value first makes `indirect`
allocate a `Node` for a nil pointer, then an object is decoded into it and any
other kind is a saved type error. -/
def decodeNodePtr (ctx : ErrorContext) (p : Option Node) : Value → Decoded (Option Node)
  | .null => .ok none
  | .obj ms => (decodeMembers (decodeNodeMember ctx) (p.getD default) ms).map some
  | j => .save (some (p.getD default)) (ctx.typeError (valueKind j) "emu.Node")

/-- One member of the `Nodes` object: the value is decoded into a zero `*Node`,
then the key through `Address.UnmarshalJSON` on its quoted text, and only then is
the entry set. -/
def decodeEntry (ctx : ErrorContext) (m : GoMap Address (Option Node)) (key : List Char)
    (j : Value) : Decoded (GoMap Address (Option Node)) :=
  let r := decodeNodePtr ctx none j
  match r.abort with
  | some e => ⟨m, r.saved, some e⟩
  | none =>
    match decodeAddress ctx (.str key) with
    | .error e => ⟨m, r.saved, some e⟩
    | .ok k => ⟨m.set k r.value, r.saved, none⟩

/-- The `Nodes` map: `null` makes it nil; an object is decoded into the map there
is, made first if it is nil. -/
def decodeNodes (ctx : ErrorContext) (old : Option (GoMap Address (Option Node))) :
    Value → Decoded (Option (GoMap Address (Option Node)))
  | .null => .ok none
  | .obj ms => (decodeMembers (decodeEntry ctx) (old.getD .empty) ms).map some
  | j => .save old (ctx.typeError (valueKind j) "map[common.Address]*emu.Node")

/-- The fields of `emu.Config`, in declaration order. -/
inductive ConfigField where
  | Period
  | MinTxInterval
  | MaxTxInterval
  | Nodes
  | Latency
  | Bandwidth
deriving DecidableEq, Repr

/-- The Go name of a field of `Config`. -/
def ConfigField.name : ConfigField → String
  | .Period => "Period"
  | .MinTxInterval => "MinTxInterval"
  | .MaxTxInterval => "MaxTxInterval"
  | .Nodes => "Nodes"
  | .Latency => "Latency"
  | .Bandwidth => "Bandwidth"

/-- The fields of `Config` in the order `cachedTypeFields` lists them. -/
def ConfigField.all : List ConfigField :=
  [.Period, .MinTxInterval, .MaxTxInterval, .Nodes, .Latency, .Bandwidth]

/-- One field of a `Config` decoded from `j`. -/
def decodeConfigField (ctx : ErrorContext) (g : Config) : ConfigField → Value → Decoded Config
  | .Period, j => (decodeUint64 ctx g.Period j).map fun x ↦ { g with Period := x }
  | .MinTxInterval, j => (decodeUint64 ctx g.MinTxInterval j).map fun x ↦ { g with MinTxInterval := x }
  | .MaxTxInterval, j => (decodeUint64 ctx g.MaxTxInterval j).map fun x ↦ { g with MaxTxInterval := x }
  | .Nodes, j => (decodeNodes ctx g.Nodes j).map fun x ↦ { g with Nodes := x }
  | .Latency, j => (decodeUint64 ctx g.Latency j).map fun x ↦ { g with Latency := x }
  | .Bandwidth, j => (decodeUint64 ctx g.Bandwidth j).map fun x ↦ { g with Bandwidth := x }

/-- One member of the top-level object decoded into `Global`. -/
def decodeConfigMember (g : Config) (key : List Char) (j : Value) : Decoded Config :=
  match lookupField ConfigField.all ConfigField.name (unquote key) with
  | none => .ok g
  | some f => decodeConfigField (ErrorContext.top.push "Config" f.name) g f j

/-- `d.value(reflect.ValueOf(&Global))`: `null` changes nothing, an object is
decoded into `Global` member by member, and any other value is a saved type
error. -/
def decodeConfig (g : Config) : Value → Decoded Config
  | .null => .ok g
  | .obj ms => decodeMembers decodeConfigMember g ms
  | j => .save g (ErrorContext.top.typeError (valueKind j) "emu.Config")

/-- `json.Unmarshal(bytes, &Global)`: `checkValid` first, so that invalid JSON
leaves `Global` alone; then the decode, whose error is the one that ended it, else
the first saved one. -/
def unmarshal (text : List Char) (g : Config) : Option ConfigError × Config :=
  match parseJson text with
  | none => (some .invalidJson, g)
  | some j => let r := decodeConfig g j; (r.abort.or r.saved, r.value)

/-! ## What ends a decode early, and what is saved -/

/-- The errors of `Address.UnmarshalJSON`: the only `Unmarshaler` in a `Config`. -/
def ConfigError.fromAddress : ConfigError → Bool
  | .unmarshalType e => e.goType = "common.Address"
  | .hexLength _ => true
  | _ => false

theorem decodeAddress_error_fromAddress (ctx : ErrorContext) {j : Value} {e : ConfigError}
    (h : decodeAddress ctx j = .error e) : e.fromAddress = true := by
  cases j with
  | str raw =>
    simp only [decodeAddress, Except.mapError] at h
    split at h
    · cases h
      rename_i he _
      cases he <;> simp [wrapTypeError, ErrorContext.typeError, ConfigError.fromAddress]
    · cases h
  | _ => cases h; simp [ErrorContext.typeError, ConfigError.fromAddress]

namespace Decoded

variable {α : Type}

/-- A decode whose errors fall where `encoding/json` puts them: the error that ended
it early comes from `Address.UnmarshalJSON`, and the error it saved does not. -/
structure Sorted (r : Decoded α) : Prop where
  abort : ∀ e, r.abort = some e → e.fromAddress = true
  saved : ∀ e, r.saved = some e → e.fromAddress = false

theorem Sorted.ok (a : α) : (ok a).Sorted := ⟨nofun, nofun⟩

theorem Sorted.fail (a : α) {e : ConfigError} (he : e.fromAddress = true) : (fail a e).Sorted :=
  ⟨fun _ h ↦ Option.some.inj h ▸ he, nofun⟩

/-- A type error saved for any Go type but `common.Address`. -/
theorem Sorted.typeError (a : α) (ctx : ErrorContext) (value goType : String)
    (h : goType ≠ "common.Address") : (save a (ctx.typeError value goType)).Sorted :=
  ⟨nofun, fun _ he ↦ Option.some.inj he ▸ by simpa [ErrorContext.typeError, ConfigError.fromAddress]⟩

theorem Sorted.map {β : Type} {r : Decoded α} (h : r.Sorted) (f : α → β) : (r.map f).Sorted :=
  ⟨h.abort, h.saved⟩

theorem Sorted.andThen {r : Decoded α} {k : α → Decoded α} (h : r.Sorted) (hk : ∀ a, (k a).Sorted) :
    (r.andThen k).Sorted := by
  unfold Decoded.andThen
  split
  · exact h
  · refine ⟨(hk _).abort, fun e he ↦ ?_⟩
    cases hs : r.saved with
    | some e' => rw [hs, Option.or_some] at he; exact Option.some.inj he ▸ h.saved e' hs
    | none => rw [hs, Option.none_or] at he; exact (hk _).saved e he

theorem andThen_of_abort_eq_none {r : Decoded α} (h : r.abort = none) (k : α → Decoded α) :
    r.andThen k = ⟨(k r.value).value, r.saved.or (k r.value).saved, (k r.value).abort⟩ := by
  simp [andThen, h]

theorem andThen_assoc (r : Decoded α) (k k' : α → Decoded α) :
    (r.andThen k).andThen k' = r.andThen fun a ↦ (k a).andThen k' := by
  obtain ⟨v, s, _ | e⟩ := r
  · cases hk : (k v).abort <;> simp [andThen, hk, Option.or_assoc]
  · rfl

end Decoded

open Decoded

/-- The member loop over `ms₁ ++ ms₂` is the loop over `ms₁`, then over `ms₂`
unless `ms₁` ended the decode. -/
theorem decodeMembers_append {α : Type} (member : α → List Char → Value → Decoded α) (a : α)
    (ms₁ ms₂ : List (List Char × Value)) :
    decodeMembers member a (ms₁ ++ ms₂) =
      (decodeMembers member a ms₁).andThen fun a' ↦ decodeMembers member a' ms₂ := by
  induction ms₁ generalizing a with
  | nil => simp [decodeMembers]
  | cons m ms₁ ih => simp only [List.cons_append, decodeMembers, List.append_eq, ih, andThen_assoc]

theorem decodeMembers_sorted {α : Type} {member : α → List Char → Value → Decoded α}
    (h : ∀ a k j, (member a k j).Sorted) (a : α) (ms : List (List Char × Value)) :
    (decodeMembers member a ms).Sorted := by
  induction ms generalizing a with
  | nil => exact .ok a
  | cons m ms ih => exact (h a m.1 m.2).andThen ih

theorem decodeUint64_sorted (ctx : ErrorContext) (old : UInt64) (j : Value) :
    (decodeUint64 ctx old j).Sorted := by
  cases j with
  | null => exact .ok old
  | num lit =>
    simp only [decodeUint64]
    split
    · exact .ok _
    · exact .typeError _ _ _ "uint64" (by decide)
  | _ => exact .typeError _ _ _ "uint64" (by decide)

theorem decodeBool_sorted (ctx : ErrorContext) (old : Bool) (j : Value) : (decodeBool ctx old j).Sorted := by
  cases j with
  | null => exact .ok old
  | bool b => exact .ok b
  | _ => exact .typeError _ _ _ "bool" (by decide)

theorem ofExcept_decodeAddress_sorted (ctx : ErrorContext) (a : Address) (j : Value) :
    (ofExcept a (decodeAddress ctx j)).Sorted := by
  cases h : decodeAddress ctx j with
  | ok x => exact .ok x
  | error e => exact .fail a (decodeAddress_error_fromAddress ctx h)

theorem decodeAddrElems_sorted (ctx : ErrorContext) (old : List Address) (js : List Value) :
    (decodeAddrElems ctx old js).Sorted := by
  induction js generalizing old with
  | nil => exact .ok []
  | cons j js ih =>
    cases h : decodeAddress ctx j with
    | ok a => simpa only [decodeAddrElems, h] using (ih old.tail).map _
    | error e => simpa only [decodeAddrElems, h] using .fail _ (decodeAddress_error_fromAddress ctx h)

theorem decodePeers_sorted (ctx : ErrorContext) (old : Option (List Address)) (j : Value) :
    (decodePeers ctx old j).Sorted := by
  cases j with
  | null => exact .ok none
  | arr js => exact (decodeAddrElems_sorted ctx _ js).map _
  | _ => exact .typeError _ _ _ "[]common.Address" (by decide)

theorem decodeNodeField_sorted (ctx : ErrorContext) (n : Node) (f : NodeField) (j : Value) :
    (decodeNodeField ctx n f j).Sorted := by
  cases f <;> simp only [decodeNodeField]
  case Identity => exact (decodeUint64_sorted ..).map _
  case Address => exact (ofExcept_decodeAddress_sorted ..).map _
  case IsMiner => exact (decodeBool_sorted ..).map _
  case Peers => exact (decodePeers_sorted ..).map _

theorem decodeNodePtr_sorted (ctx : ErrorContext) (p : Option Node) (j : Value) :
    (decodeNodePtr ctx p j).Sorted := by
  have hm (n : Node) (k : List Char) (j : Value) : (decodeNodeMember ctx n k j).Sorted := by
    unfold decodeNodeMember
    split
    · exact .ok n
    · exact decodeNodeField_sorted ..
  cases j with
  | null => exact .ok none
  | obj ms => exact (decodeMembers_sorted hm _ ms).map _
  | _ => exact .typeError _ _ _ "emu.Node" (by decide)

theorem decodeEntry_sorted (ctx : ErrorContext) (m : GoMap Address (Option Node)) (key : List Char)
    (j : Value) : (decodeEntry ctx m key j).Sorted := by
  have hr := decodeNodePtr_sorted ctx none j
  cases ha : (decodeNodePtr ctx none j).abort with
  | some e => simpa only [decodeEntry, ha] using ⟨fun _ h ↦ Option.some.inj h ▸ hr.abort e ha, hr.saved⟩
  | none =>
    cases hk : decodeAddress ctx (.str key) with
    | ok k => simpa only [decodeEntry, ha, hk] using ⟨nofun, hr.saved⟩
    | error e =>
      simpa only [decodeEntry, ha, hk] using
        ⟨fun _ h ↦ Option.some.inj h ▸ decodeAddress_error_fromAddress ctx hk, hr.saved⟩

theorem decodeNodes_sorted (ctx : ErrorContext) (old : Option (GoMap Address (Option Node))) (j : Value) :
    (decodeNodes ctx old j).Sorted := by
  cases j with
  | null => exact .ok none
  | obj ms => exact (decodeMembers_sorted (decodeEntry_sorted ctx) _ ms).map _
  | _ => exact .typeError _ _ _ "map[common.Address]*emu.Node" (by decide)

theorem decodeConfigField_sorted (ctx : ErrorContext) (g : Config) (f : ConfigField) (j : Value) :
    (decodeConfigField ctx g f j).Sorted := by
  cases f <;> simp only [decodeConfigField]
  case Nodes => exact (decodeNodes_sorted ..).map _
  all_goals exact (decodeUint64_sorted ..).map _

theorem decodeConfigMember_sorted (g : Config) (key : List Char) (j : Value) :
    (decodeConfigMember g key j).Sorted := by
  unfold decodeConfigMember
  split
  · exact .ok g
  · exact decodeConfigField_sorted ..

/-- A `uint64`: `strconv.AppendUint(b, v, 10)`. -/
def encodeUint64 (n : UInt64) : Value := .num (formatUint n.toNat)

/-- A `common.Address`, through its `MarshalText`, as a JSON string. -/
def encodeAddress (a : Address) : Value := .str (encodeString ⟨a.hexText⟩)

/-- The `Peers` slice: `null` when nil. -/
def encodePeers : Option (List Address) → Value
  | none => .null
  | some xs => .arr (xs.map encodeAddress)

/-- One field of a `Node`. -/
def encodeNodeField (n : Node) : NodeField → Value
  | .Identity => encodeUint64 n.Identity
  | .Address => encodeAddress n.Address
  | .IsMiner => .bool n.IsMiner
  | .Peers => encodePeers n.Peers

/-- A `Node`: its fields in declaration order. -/
def encodeNode (n : Node) : Value :=
  .obj (NodeField.all.map fun f ↦ (encodeString f.name, encodeNodeField n f))

/-- A `*Node`: `null` when nil. -/
def encodeNodePtr : Option Node → Value
  | none => .null
  | some n => encodeNode n

/-- The order `sort.Slice` gives the map keys: by their `MarshalText`. -/
def keyLe (a b : Address × Option Node) : Bool := decide (a.1.hexText ≤ b.1.hexText)

/-- The `Nodes` map: `null` when nil, else its entries with sorted keys. -/
def encodeNodes : Option (GoMap Address (Option Node)) → Value
  | none => .null
  | some m => .obj ((m.entries.mergeSort keyLe).map fun e ↦ (encodeString ⟨e.1.hexText⟩, encodeNodePtr e.2))

/-- One field of a `Config`. -/
def encodeConfigField (g : Config) : ConfigField → Value
  | .Period => encodeUint64 g.Period
  | .MinTxInterval => encodeUint64 g.MinTxInterval
  | .MaxTxInterval => encodeUint64 g.MaxTxInterval
  | .Nodes => encodeNodes g.Nodes
  | .Latency => encodeUint64 g.Latency
  | .Bandwidth => encodeUint64 g.Bandwidth

/-- `Global` as `json.Marshal` encodes it: its fields in declaration order. -/
def encodeConfig (g : Config) : Value :=
  .obj (ConfigField.all.map fun f ↦ (encodeString f.name, encodeConfigField g f))

/-! ## Reading back what `Marshal` wrote -/

section RoundTrip

variable (ctx : ErrorContext)

theorem hexDigit_spec : ∀ d < 16,
    isHex (hexDigit d) = true ∧ hexVal (hexDigit d) = d ∧ escapeChar (hexDigit d) = [hexDigit d] := by
  decide

theorem byteHex_spec (b : UInt8) : ∀ c ∈ byteHex b, isHex c = true ∧ escapeChar c = [c] := by
  have hb : b.toNat < 256 := b.toNat_lt_size
  have h₁ := hexDigit_spec (b.toNat / 16) (by omega)
  have h₂ := hexDigit_spec (b.toNat % 16) (by omega)
  simp only [byteHex, List.mem_cons, List.mem_singleton, List.not_mem_nil, or_false]
  rintro c (rfl | rfl)
  exacts [⟨h₁.1, h₁.2.2⟩, ⟨h₂.1, h₂.2.2⟩]

/-- `hex.Decode` undoes `hex.Encode`. -/
theorem decodeHexBytes_flatMap_byteHex (bs : List UInt8) : decodeHexBytes (bs.flatMap byteHex) = bs := by
  induction bs with
  | nil => rfl
  | cons b bs ih =>
    have hlt : b.toNat < 256 := b.toNat_lt_size
    have h₁ := (hexDigit_spec (b.toNat / 16) (by omega)).2.1
    have h₂ := (hexDigit_spec (b.toNat % 16) (by omega)).2.1
    have hb : (b.toNat / 16 * 16 + b.toNat % 16).toUInt8 = b :=
      UInt8.toNat.inj (by rw [Nat.div_add_mod']; exact UInt8.toNat_ofNat_of_lt b.toNat_lt_size)
    show decodeHexBytes (hexDigit (b.toNat / 16) :: hexDigit (b.toNat % 16) :: bs.flatMap byteHex) = b :: bs
    rw [decodeHexBytes, h₁, h₂, hb, ih]

theorem length_flatMap_byteHex (bs : List UInt8) : (bs.flatMap byteHex).length = 2 * bs.length := by
  induction bs with
  | nil => rfl
  | cons b bs ih => simp [List.flatMap_cons, byteHex, ih]; omega

/-- `UnmarshalFixedText` reads back the text `MarshalText` wrote. -/
theorem unmarshalFixedText_hexText (a : Address) : unmarshalFixedText a.hexText = .ok a := by
  have hx : (a.bytes.flatMap byteHex).all isHex = true :=
    List.all_eq_true.mpr fun c hc ↦ by
      obtain ⟨b, -, hb⟩ := List.mem_flatMap.mp hc
      exact (byteHex_spec b c hb).1
  have hlen : utf8Length (a.bytes.flatMap byteHex) = 40 := by
    rw [utf8Length_of_isHex hx, length_flatMap_byteHex, a.length_bytes]
  simp only [unmarshalFixedText, Address.hexText, checkText, hlen]
  simp [hlen, hx, decodeHexBytes_flatMap_byteHex]

/-- Characters that `encodeState.string` writes as they are. -/
theorem flatMap_escapeChar {cs : List Char} (h : ∀ c ∈ cs, escapeChar c = [c]) :
    cs.flatMap escapeChar = cs := by
  induction cs with
  | nil => rfl
  | cons c cs ih => simp [h c (by simp), ih fun x hx ↦ h x (by simp [hx])]

/-- The text of an address needs no escaping. -/
theorem encodeString_hexText (a : Address) : encodeString ⟨a.hexText⟩ = a.hexText := by
  show (a.hexText).flatMap escapeChar = _
  refine flatMap_escapeChar fun c hc ↦ ?_
  simp only [Address.hexText, List.mem_cons, List.mem_flatMap] at hc
  rcases hc with rfl | rfl | ⟨b, -, hb⟩
  · rfl
  · rfl
  · exact (byteHex_spec b c hb).2

theorem decodeAddress_encodeAddress (a : Address) : decodeAddress ctx (encodeAddress a) = .ok a := by
  simp [decodeAddress, encodeAddress, encodeString_hexText, unmarshalFixedText_hexText, Except.mapError]

theorem digitChar_toNat : ∀ d < 10, (digitChar d).toNat - 48 = d := by decide

theorem foldr_digitChar {L : List Nat} (hL : ∀ d ∈ L, d < 10) :
    L.foldr (fun d acc ↦ 10 * acc + ((digitChar d).toNat - 48)) 0 = Nat.ofDigits 10 L := by
  induction L with
  | nil => rfl
  | cons d L ih =>
    rw [List.foldr_cons, ih fun x hx ↦ hL x (List.mem_cons_of_mem d hx), Nat.ofDigits_cons,
      digitChar_toNat d (hL d (List.mem_cons_self d L))]
    omega

/-- `ParseUint` reads back what `FormatUint` wrote. -/
theorem parseUint_formatUint (n : UInt64) : parseUint (formatUint n.toNat) = some n := by
  have hval : (formatUint n.toNat).foldl (fun acc c ↦ 10 * acc + (c.toNat - 48)) 0 = n.toNat := by
    unfold formatUint
    split
    · rename_i h; rw [h]; rfl
    · rw [List.foldl_map, List.foldl_reverse,
        foldr_digitChar fun d hd ↦ Nat.digits_lt_base (by norm_num) hd, Nat.ofDigits_digits]
  obtain ⟨c, cs, hcs, -⟩ := formatUint_cons n.toNat
  have hdig : (formatUint n.toNat).all Char.isDigit = true :=
    List.all_eq_true.mpr (formatUint_isDigit n.toNat)
  simp only [parseUint, hcs, ne_eq, reduceCtorEq, not_false_eq_true, true_and] at hdig hval ⊢
  have hlt : n.toNat < 2 ^ 64 := n.toNat_lt_size
  simp only [hdig, ↓reduceIte, hval, hlt]
  exact congrArg some (UInt64.toNat.inj (UInt64.toNat_ofNat_of_lt n.toNat_lt_size))

theorem decodeUint64_encodeUint64 (old n : UInt64) : decodeUint64 ctx old (encodeUint64 n) = .ok n := by
  simp [decodeUint64, encodeUint64, parseUint_formatUint]

theorem decodeAddrElems_map (xs old : List Address) :
    decodeAddrElems ctx old (xs.map encodeAddress) = .ok xs := by
  induction xs generalizing old with
  | nil => rfl
  | cons x xs ih => simp [decodeAddrElems, decodeAddress_encodeAddress, ih, Decoded.ok, Decoded.map]

theorem decodePeers_encodePeers (old p : Option (List Address)) : decodePeers ctx old (encodePeers p) = .ok p := by
  cases p with
  | none => rfl
  | some xs => simp [decodePeers, encodePeers, decodeAddrElems_map]

/-- Members that each decode without error are written in turn, and the loop goes
on with what follows them. -/
theorem decodeMembers_map_append {α φ : Type} (member : α → List Char → Value → Decoded α)
    (key : φ → List Char) (enc : φ → Value) (upd : α → φ → α)
    (h : ∀ a f, member a (key f) (enc f) = .ok (upd a f)) (fields : List φ)
    (rest : List (List Char × Value)) (a : α) :
    decodeMembers member a ((fields.map fun f ↦ (key f, enc f)) ++ rest) =
      decodeMembers member (fields.foldl upd a) rest := by
  induction fields generalizing a with
  | nil => rfl
  | cons f fs ih => simp [decodeMembers, h, ih]

/-- A loop over members that each decode without error writes them in turn. -/
theorem decodeMembers_map {α φ : Type} (member : α → List Char → Value → Decoded α)
    (key : φ → List Char) (enc : φ → Value) (upd : α → φ → α)
    (h : ∀ a f, member a (key f) (enc f) = .ok (upd a f)) (fields : List φ) (a : α) :
    decodeMembers member a (fields.map fun f ↦ (key f, enc f)) = .ok (fields.foldl upd a) := by
  simpa using decodeMembers_map_append member key enc upd h fields [] a

theorem lookupField_node (f : NodeField) :
    lookupField NodeField.all NodeField.name (unquote (encodeString f.name)) = some f := by
  cases f <;> rfl

theorem decodeNodePtr_encodeNodePtr (old p : Option Node) :
    decodeNodePtr ctx old (encodeNodePtr p) = .ok p := by
  cases p with
  | none => rfl
  | some n =>
    let upd : Node → NodeField → Node
      | a, .Identity => { a with Identity := n.Identity }
      | a, .Address => { a with Address := n.Address }
      | a, .IsMiner => { a with IsMiner := n.IsMiner }
      | a, .Peers => { a with Peers := n.Peers }
    have h : ∀ a f, decodeNodeMember ctx a (encodeString f.name) (encodeNodeField n f) = .ok (upd a f) := by
      intro a f
      cases f <;> simp [decodeNodeMember, lookupField_node, decodeNodeField, encodeNodeField, upd,
        decodeUint64_encodeUint64, decodeAddress_encodeAddress, decodePeers_encodePeers, decodeBool,
        Decoded.ofExcept]
    simp only [encodeNodePtr, encodeNode, decodeNodePtr]
    rw [decodeMembers_map _ _ _ upd h]
    rfl

/-- The members of the `Nodes` object set the entries they encode, in turn. -/
theorem decodeEntries_map (m : GoMap Address (Option Node)) (l : List (Address × Option Node)) :
    decodeMembers (decodeEntry ctx) m (l.map fun e ↦ (encodeString ⟨e.1.hexText⟩, encodeNodePtr e.2)) =
      .ok (l.foldl (fun m e ↦ m.set e.1 e.2) m) := by
  refine decodeMembers_map _ _ _ _ (fun m e ↦ ?_) l m
  have ha : decodeAddress ctx (.str (encodeString ⟨e.1.hexText⟩)) = .ok e.1 :=
    decodeAddress_encodeAddress ctx e.1
  simp [decodeEntry, decodeNodePtr_encodeNodePtr, Decoded.ok, ha]

theorem decodeNodes_encodeNodes (old nodes : Option (GoMap Address (Option Node))) :
    decodeNodes ctx old (encodeNodes nodes) =
      .ok (nodes.map fun m ↦ (m.entries.mergeSort keyLe).foldl (fun m e ↦ m.set e.1 e.2) (old.getD .empty)) := by
  cases nodes with
  | none => rfl
  | some m => simp [decodeNodes, encodeNodes, decodeEntries_map]

end RoundTrip

theorem lookupField_config (f : ConfigField) :
    lookupField ConfigField.all ConfigField.name (unquote (encodeString f.name)) = some f := by
  cases f <;> rfl

/-- What decoding `Marshal`'s value of `d` leaves in `g`: every field of `d`, except
that the entries of `d.Nodes` are set, in key order, into the map `g` holds. -/
def storedInto (g d : Config) : Config :=
  { d with Nodes := d.Nodes.map fun m ↦
      (m.entries.mergeSort keyLe).foldl (fun m e ↦ m.set e.1 e.2) (g.Nodes.getD .empty) }

/-- The members `Marshal` writes for `d`, decoded into `g` and followed by `rest`. -/
theorem decodeMembers_encodeConfig (g d : Config) (rest : List (List Char × Value)) :
    decodeMembers decodeConfigMember g
        ((ConfigField.all.map fun f ↦ (encodeString f.name, encodeConfigField d f)) ++ rest) =
      decodeMembers decodeConfigMember (storedInto g d) rest := by
  let upd : Config → ConfigField → Config
    | a, .Period => { a with Period := d.Period }
    | a, .MinTxInterval => { a with MinTxInterval := d.MinTxInterval }
    | a, .MaxTxInterval => { a with MaxTxInterval := d.MaxTxInterval }
    | a, .Nodes => { a with Nodes := d.Nodes.map fun m ↦
        (m.entries.mergeSort keyLe).foldl (fun m e ↦ m.set e.1 e.2) (a.Nodes.getD .empty) }
    | a, .Latency => { a with Latency := d.Latency }
    | a, .Bandwidth => { a with Bandwidth := d.Bandwidth }
  have h : ∀ a f, decodeConfigMember a (encodeString f.name) (encodeConfigField d f) = .ok (upd a f) := by
    intro a f
    cases f <;> simp [decodeConfigMember, lookupField_config, decodeConfigField, encodeConfigField, upd,
      decodeUint64_encodeUint64, decodeNodes_encodeNodes]
  rw [decodeMembers_map_append _ _ _ upd h]
  rfl

/-- Decoding `Marshal`'s value of `d` into `g`. -/
theorem decodeConfig_encodeConfig (g d : Config) :
    decodeConfig g (encodeConfig d) = .ok (storedInto g d) := by
  simpa using decodeMembers_encodeConfig g d []

end EthEmu.Emu
