import EthEmu.Json.Scan

/-!
# Reading back what `MarshalIndent` wrote

`parseJson (marshalIndent j) = some j` for every value whose strings are
well-formed bodies, whose numbers are what `strconv.FormatUint` writes, and
whose nesting stays within the scanner's limit (`Printable`).  These are the
values `Marshal` produces for a `Config`, so `LoadConfig`'s validity scan
accepts every file `StoreConfig` writes and rebuilds the value it encoded.

Each step of the scanner gets its lemma on `printed ++ rest`, with a
condition on `rest` where the step reads past the printed text (`NumEnd`
after a number).  Nesting is handled by induction on `Printable`, whose
hypotheses cover every element of an array or object; the loops over the
elements and members are lemmas by induction on the list.

## Honest boundary

* Only what `Marshal` writes for a `Config` is covered: numbers as
  `FormatUint` writes them, strings whose bodies `StrBody` admits.  Other valid
  JSON (fractions, exponents, negative numbers) is parsed by `parseJson` but not
  read back here.
* The fuel `parseJson` gives the parser is shown to be enough
  (`Printable.size_le`); the scanner itself has no fuel in Go.
-/

namespace EthEmu.Json

/-! ## White space -/

@[simp] theorem skipSpace_replicate (n : Nat) (r : List Char) :
    skipSpace (List.replicate n ' ' ++ r) = skipSpace r := by
  induction n with
  | zero => rfl
  | succ n ih => simp [List.replicate_succ, skipSpace, isSpace, ih]

/-- `Indent`'s line breaks are white space. -/
@[simp] theorem skipSpace_newline (depth : Nat) (r : List Char) :
    skipSpace (newline depth ++ r) = skipSpace r := by
  simp [newline, skipSpace, isSpace]

/-- White space stops at the first other character. -/
theorem skipSpace_cons {c : Char} (h : isSpace c = false) (r : List Char) :
    skipSpace (c :: r) = c :: r := by
  simp [skipSpace, h]

/-! ## Strings -/

/-- The string bodies the scanner accepts: printable characters other than `"`
and `\`, the short escapes, and `\u` with four hex digits. -/
inductive StrBody : List Char → Prop
  | nil : StrBody []
  | plain {c : Char} {b : List Char} (hc : 0x20 ≤ c.toNat) (hq : c ≠ '"') (hb : c ≠ '\\')
      (h : StrBody b) : StrBody (c :: b)
  | short {e : Char} {b : List Char} (he : e ∈ shortEscapes) (h : StrBody b) :
      StrBody ('\\' :: e :: b)
  | unicode {h₁ h₂ h₃ h₄ : Char} {b : List Char}
      (hx : (isHex h₁ && isHex h₂ && isHex h₃ && isHex h₄) = true) (h : StrBody b) :
      StrBody ('\\' :: 'u' :: h₁ :: h₂ :: h₃ :: h₄ :: b)

/-- The scanner reads a well-formed body up to its closing quote. -/
theorem scanString_body {b : List Char} (h : StrBody b) (r : List Char) :
    scanString (b ++ '"' :: r) = some (b, r) := by
  induction h with
  | nil => exact scanString_quote r
  | plain hc hq hb _ ih => simp [scanString_plain hq hb (Nat.not_lt.mpr hc), ih]
  | short he _ ih => simp [scanString_short he, ih]
  | unicode hx _ ih => simp [scanString_unicode hx, ih]

/-! ## Numbers -/

/-- What follows a number cannot continue it. -/
def NumEnd (r : List Char) : Prop :=
  ∀ c r', r = c :: r' → c.isDigit = false ∧ c ≠ '.' ∧ c ≠ 'e' ∧ c ≠ 'E'

theorem NumEnd.nil : NumEnd [] := fun _ _ h ↦ nomatch h

theorem NumEnd.cons {c : Char} (h : c.isDigit = false ∧ c ≠ '.' ∧ c ≠ 'e' ∧ c ≠ 'E')
    (r : List Char) : NumEnd (c :: r) := by
  rintro _ _ ⟨⟩; exact h

/-- A digit run stops where the digits end. -/
theorem spanDigits_append {ds : List Char} (hd : ∀ c ∈ ds, c.isDigit = true) {r : List Char}
    (hr : NumEnd r) : spanDigits (ds ++ r) = (ds, r) := by
  induction ds with
  | nil =>
    cases r with
    | nil => rfl
    | cons c r => simp [spanDigits, (hr c r rfl).1]
  | cons c ds ih =>
    simp [spanDigits, hd c (by simp), ih fun x hx ↦ hd x (by simp [hx])]

/-- After an integer part, no fraction and no exponent. -/
theorem scanFraction_end {r : List Char} (hr : NumEnd r) : scanFraction r = some ([], r) := by
  cases r with
  | nil => rfl
  | cons c r =>
    obtain ⟨-, hdot, he, hE⟩ := hr c r rfl
    simp [scanFraction, scanExponent, hdot, he, hE]

theorem digitChar_isDigit_all : ∀ d < 10, (digitChar d).isDigit = true := by decide

theorem digitChar_ne_zero_all : ∀ d < 10, d ≠ 0 → digitChar d ≠ '0' := by decide

/-- `FormatUint` writes digits only. -/
theorem formatUint_isDigit (n : Nat) : ∀ c ∈ formatUint n, c.isDigit = true := by
  unfold formatUint
  split
  · simp
  · simp only [List.mem_map, List.mem_reverse]
    rintro _ ⟨d, hd, rfl⟩
    exact digitChar_isDigit_all d (Nat.digits_lt_base (by norm_num) hd)

/-- `FormatUint` writes `0`, or digits that do not start with `0`. -/
theorem formatUint_cons (n : Nat) :
    ∃ c cs, formatUint n = c :: cs ∧ (c = '0' → cs = []) := by
  unfold formatUint
  split
  · exact ⟨'0', [], rfl, fun _ ↦ rfl⟩
  · rename_i hn
    have hne : Nat.digits 10 n ≠ [] := Nat.digits_ne_nil_iff_ne_zero.mpr hn
    obtain ⟨c, cs, hcs⟩ : ∃ c cs, ((Nat.digits 10 n).reverse.map digitChar) = c :: cs := by
      cases h : (Nat.digits 10 n).reverse.map digitChar with
      | nil => simp at h; exact absurd h hne
      | cons c cs => exact ⟨c, cs, rfl⟩
    refine ⟨c, cs, hcs, fun hc ↦ absurd hc ?_⟩
    have hlast := Nat.getLast_digit_ne_zero 10 hn
    have hhead : ((Nat.digits 10 n).reverse.map digitChar).head? = some c := by rw [hcs]; rfl
    rw [List.head?_map, List.head?_reverse, List.getLast?_eq_getLast _ hne] at hhead
    simp only [Option.map_some', Option.some.injEq] at hhead
    rw [← hhead]
    exact digitChar_ne_zero_all _ (Nat.digits_lt_base (by norm_num) (List.getLast_mem hne)) hlast

/-- The scanner reads back the number `FormatUint` wrote. -/
theorem scanNumber_formatUint (n : Nat) {r : List Char} (hr : NumEnd r) :
    scanNumber (formatUint n ++ r) = some (formatUint n, r) := by
  obtain ⟨c, cs, hfmt, hzero⟩ := formatUint_cons n
  have hdig := formatUint_isDigit n
  rw [hfmt] at hdig ⊢
  have hc : c.isDigit = true := hdig c (by simp)
  have hneg : c ≠ '-' := by rintro rfl; revert hc; decide
  by_cases h0 : c = '0'
  · obtain rfl := hzero h0
    subst h0
    simp [scanNumber, scanInteger, scanFraction_end hr]
  · have hcs : spanDigits (cs ++ r) = (cs, r) :=
      spanDigits_append (fun x hx ↦ hdig x (by simp [hx])) hr
    simp [scanNumber, scanInteger, hneg, h0, hc, hcs, scanFraction_end hr]

/-- A digit is no other token's first character. -/
theorem ne_of_isDigit {c : Char} (hc : c.isDigit = true) :
    isSpace c = false ∧ c ≠ '{' ∧ c ≠ '[' ∧ c ≠ '"' ∧ c ≠ 't' ∧ c ≠ 'f' ∧ c ≠ 'n' ∧
      c ≠ ']' ∧ c ≠ '}' := by
  refine ⟨?_, ?_, ?_, ?_, ?_, ?_, ?_, ?_, ?_⟩
  · cases h : isSpace c
    · rfl
    · simp only [isSpace, Bool.or_eq_true, decide_eq_true_eq] at h
      rcases h with ((rfl | rfl) | rfl) | rfl <;> revert hc <;> decide
  all_goals (rintro rfl; revert hc; decide)

/-! ## Values -/

/-- The values `MarshalIndent` prints and the scanner reads back, at `depth`
open arrays and objects: well-formed string bodies and keys, numbers as
`FormatUint` writes them, and no deeper nesting than the scanner allows. -/
inductive Printable : Nat → Value → Prop
  | null {d : Nat} : Printable d .null
  | bool {d : Nat} (b : Bool) : Printable d (.bool b)
  | num {d : Nat} (n : Nat) : Printable d (.num (formatUint n))
  | str {d : Nat} {raw : List Char} (h : StrBody raw) : Printable d (.str raw)
  | arr {d : Nat} {xs : List Value} (hd : d < maxNestingDepth) (h : ∀ x ∈ xs, Printable (d + 1) x) :
      Printable d (.arr xs)
  | obj {d : Nat} {ms : List (List Char × Value)} (hd : d < maxNestingDepth)
      (hk : ∀ m ∈ ms, StrBody m.1) (h : ∀ m ∈ ms, Printable (d + 1) m.2) : Printable d (.obj ms)

/-- A printed value starts with a character that is neither white space nor a
closing bracket. -/
theorem Printable.printValue_cons {d : Nat} {j : Value} (h : Printable d j) (k : Nat) :
    ∃ c cs, printValue k j = c :: cs ∧ isSpace c = false ∧ c ≠ ']' ∧ c ≠ '}' := by
  cases h with
  | num n =>
    obtain ⟨c, cs, hfmt, -⟩ := formatUint_cons n
    obtain ⟨hs, -, -, -, -, -, -, hb, hc⟩ := ne_of_isDigit (formatUint_isDigit n c (by simp [hfmt]))
    exact ⟨c, cs, by simp [printValue, hfmt], hs, hb, hc⟩
  | bool b => cases b <;> exact ⟨_, _, rfl, by decide, by decide, by decide⟩
  | @arr _ xs _ _ => cases xs <;> exact ⟨_, _, rfl, by decide, by decide, by decide⟩
  | @obj _ ms _ _ _ => cases ms <;> exact ⟨_, _, rfl, by decide, by decide, by decide⟩
  | _ => exact ⟨_, _, rfl, by decide, by decide, by decide⟩

mutual
/-- The calls `parseValue` makes on a value. -/
def sizeValue : Value → Nat
  | .arr xs => 1 + sizeElems xs
  | .obj ms => 1 + sizeMembers ms
  | _ => 1
/-- The calls `parseElems` makes on the elements of an array. -/
def sizeElems : List Value → Nat
  | [] => 1
  | x :: xs => 1 + sizeValue x + sizeElems xs
/-- The calls `parseMembers` makes on the members of an object. -/
def sizeMembers : List (List Char × Value) → Nat
  | [] => 1
  | (_, v) :: ms => 2 + sizeValue v + sizeMembers ms
end

theorem sizeElems_pos (xs : List Value) : 1 ≤ sizeElems xs := by
  cases xs <;> simp [sizeElems]; omega

theorem sizeMembers_pos (ms : List (List Char × Value)) : 1 ≤ sizeMembers ms := by
  cases ms <;> simp [sizeMembers]; omega

/-- `parseValue` at `depth` reads `j` back from its printed text, at every
indentation, with enough fuel and any continuation that does not extend a
number. -/
def ParsesBack (depth : Nat) (j : Value) : Prop :=
  ∀ (fuel indent : Nat) (r : List Char), sizeValue j ≤ fuel → NumEnd r →
    parseValue fuel depth (printValue indent j ++ r) = some (j, r)

/-- A value may follow a line break. -/
@[simp] theorem parseValue_newline (fuel depth k : Nat) (cs : List Char) :
    parseValue fuel depth (newline k ++ cs) = parseValue fuel depth cs := by
  cases fuel <;> simp [parseValue]

/-- A value may follow a space. -/
@[simp] theorem parseValue_space (fuel depth : Nat) (cs : List Char) :
    parseValue fuel depth (' ' :: cs) = parseValue fuel depth cs := by
  cases fuel <;> simp [parseValue, skipSpace, isSpace]

/-- After `[`, a value that is not `]` starts the elements. -/
theorem parseArray_of_head {fuel depth : Nat} {cs : List Char}
    (h : (skipSpace cs).head? ≠ some ']') :
    parseArray (fuel + 1) depth cs = (do
      let (x, r) ← parseValue fuel depth cs
      let (xs, r) ← parseElems fuel depth r
      pure (.arr (x :: xs), r)) := by
  simp [parseArray, h]

/-- Continuations that start with punctuation end a number. -/
theorem NumEnd.punct {c : Char} (h : c = ',' ∨ c = '\n') (r : List Char) : NumEnd (c :: r) :=
  NumEnd.cons (by rcases h with rfl | rfl <;> decide) r

/-- What follows an element: a comma or a line break. -/
theorem numEnd_printElems (k k' : Nat) (xs : List Value) (close : Char) (r : List Char) :
    NumEnd (printElems k xs ++ newline k' ++ close :: r) := by
  cases xs <;> simp only [printElems, List.nil_append, newline, List.cons_append] <;>
    exact NumEnd.punct (by simp) _

/-- What follows a member's value: a comma or a line break. -/
theorem numEnd_printMembers (k k' : Nat) (ms : List (List Char × Value)) (close : Char)
    (r : List Char) : NumEnd (printMembers k ms ++ newline k' ++ close :: r) := by
  cases ms <;> simp only [printMembers, List.nil_append, newline, List.cons_append] <;>
    exact NumEnd.punct (by simp) _

/-- The elements after the first. -/
theorem parseElems_print {depth : Nat} {xs : List Value} (hxs : ∀ x ∈ xs, ParsesBack depth x)
    (fuel k k' : Nat) (r : List Char) (hf : sizeElems xs ≤ fuel) :
    parseElems fuel depth (printElems k xs ++ newline k' ++ ']' :: r) = some (xs, r) := by
  induction xs generalizing fuel with
  | nil =>
    obtain ⟨f, rfl⟩ : ∃ f, fuel = f + 1 := ⟨fuel - 1, by simp [sizeElems] at hf; omega⟩
    simp [parseElems, printElems, skipSpace, isSpace]
  | cons x xs ih =>
    obtain ⟨f, rfl⟩ : ∃ f, fuel = f + 1 := ⟨fuel - 1, by simp [sizeElems] at hf; omega⟩
    simp only [sizeElems] at hf
    have hx := hxs x (by simp) f k _ (by omega) (numEnd_printElems k k' xs ']' r)
    have hrest := ih (fun y hy ↦ hxs y (List.mem_cons_of_mem _ hy)) f (by omega)
    simp only [List.append_assoc] at hx hrest
    rw [printElems, parseElems]
    simp [skipSpace, isSpace, hx, hrest]

/-- The members after the first. -/
theorem parseMembers_print {depth : Nat} {ms : List (List Char × Value)}
    (hks : ∀ m ∈ ms, StrBody m.1) (hms : ∀ m ∈ ms, ParsesBack depth m.2)
    (fuel k k' : Nat) (r : List Char) (hf : sizeMembers ms ≤ fuel) :
    parseMembers fuel depth (printMembers k ms ++ newline k' ++ '}' :: r) = some (ms, r) := by
  induction ms generalizing fuel with
  | nil =>
    obtain ⟨f, rfl⟩ : ∃ f, fuel = f + 1 := ⟨fuel - 1, by simp [sizeMembers] at hf; omega⟩
    simp [parseMembers, printMembers, skipSpace, isSpace]
  | cons m ms ih =>
    obtain ⟨key, v⟩ := m
    obtain ⟨g, rfl⟩ : ∃ g, fuel = g + 2 := ⟨fuel - 2, by simp [sizeMembers] at hf; omega⟩
    simp only [sizeMembers] at hf
    have hv := hms (key, v) (by simp) g k _ (by dsimp only; omega) (numEnd_printMembers k k' ms '}' r)
    have hrest := ih (fun y hy ↦ hks y (List.mem_cons_of_mem _ hy)) (fun y hy ↦ hms y (List.mem_cons_of_mem _ hy)) (g + 1)
      (by omega)
    have hkey := scanString_body (hks (key, v) (by simp))
      (':' :: ' ' :: (printValue k v ++ printMembers k ms ++ newline k' ++ '}' :: r))
    simp only [List.append_assoc] at hv hrest hkey
    rw [printMembers, parseMembers]
    simp [parseMember, skipSpace, isSpace, hkey, hv, hrest]

/-- A value costs at least one call. -/
theorem exists_fuel_succ {j : Value} {fuel : Nat} (hf : sizeValue j ≤ fuel) : ∃ f, fuel = f + 1 :=
  ⟨fuel - 1, by cases j <;> simp [sizeValue] at hf <;> omega⟩

/-- An array whose elements read back one level deeper reads back. -/
theorem parsesBack_arr {depth : Nat} {xs : List Value} (hd : depth < maxNestingDepth)
    (hxs : ∀ x ∈ xs, Printable (depth + 1) x) (ih : ∀ x ∈ xs, ParsesBack (depth + 1) x) :
    ParsesBack depth (.arr xs) := by
  intro fuel k r hf _
  obtain ⟨g, rfl⟩ : ∃ g, fuel = g + 2 :=
    ⟨fuel - 2, by have := sizeElems_pos xs; simp [sizeValue] at hf; omega⟩
  cases xs with
  | nil => simp [printValue, parseValue, skipSpace, isSpace, hd, parseArray]
  | cons x xs =>
    simp only [sizeValue, sizeElems] at hf
    have hx := ih x (by simp) g (k + 1) _ (by omega) (numEnd_printElems (k + 1) k xs ']' r)
    have hrest := parseElems_print (fun y hy ↦ ih y (List.mem_cons_of_mem _ hy)) g (k + 1) k r (by omega)
    obtain ⟨c, cs, hpx, hsp, hbr, -⟩ := (hxs x (by simp)).printValue_cons (k + 1)
    have hhead : (skipSpace (newline (k + 1) ++ (printValue (k + 1) x ++
        (printElems (k + 1) xs ++ (newline k ++ ']' :: r))))).head? ≠ some ']' := by
      simp [hpx, skipSpace_cons hsp, hbr]
    simp only [List.append_assoc] at hx hrest
    simp only [printValue, List.cons_append, List.append_assoc, List.singleton_append]
    simp [parseValue, skipSpace, isSpace, hd, parseArray_of_head hhead, hx, hrest]

/-- An object with well-formed keys whose values read back one level deeper reads
back. -/
theorem parsesBack_obj {depth : Nat} {ms : List (List Char × Value)} (hd : depth < maxNestingDepth)
    (hks : ∀ m ∈ ms, StrBody m.1) (ih : ∀ m ∈ ms, ParsesBack (depth + 1) m.2) :
    ParsesBack depth (.obj ms) := by
  intro fuel k r hf _
  obtain ⟨g, rfl⟩ : ∃ g, fuel = g + 2 :=
    ⟨fuel - 2, by have := sizeMembers_pos ms; simp [sizeValue] at hf; omega⟩
  cases ms with
  | nil => simp [printValue, parseValue, skipSpace, isSpace, hd, parseObject]
  | cons m ms =>
    obtain ⟨key, v⟩ := m
    obtain ⟨e, rfl⟩ : ∃ e, g = e + 1 := ⟨g - 1, by simp [sizeValue, sizeMembers] at hf; omega⟩
    simp only [sizeValue, sizeMembers] at hf
    have hv := ih (key, v) (by simp) e (k + 1) _ (by dsimp only; omega) (numEnd_printMembers (k + 1) k ms '}' r)
    have hrest := parseMembers_print (fun y hy ↦ hks y (List.mem_cons_of_mem _ hy))
      (fun y hy ↦ ih y (List.mem_cons_of_mem _ hy)) (e + 1) (k + 1) k r (by omega)
    have hkey := scanString_body (hks (key, v) (by simp))
      (':' :: ' ' :: (printValue (k + 1) v ++ printMembers (k + 1) ms ++ newline k ++ '}' :: r))
    simp only [List.append_assoc] at hv hrest hkey
    simp only [printValue, List.cons_append, List.append_assoc, List.singleton_append]
    simp [parseValue, parseObject, parseMember, skipSpace, isSpace, hd, hkey, hv, hrest]

/-- **The scanner reads back every printable value.** -/
theorem Printable.parsesBack {depth : Nat} {j : Value} (h : Printable depth j) :
    ParsesBack depth j := by
  induction h with
  | null =>
    intro fuel k r hf _
    obtain ⟨f, rfl⟩ := exists_fuel_succ hf
    simp [printValue, parseValue, skipSpace, isSpace, stripLiteral]
  | bool b =>
    intro fuel k r hf _
    obtain ⟨f, rfl⟩ := exists_fuel_succ hf
    cases b <;> simp [printValue, parseValue, skipSpace, isSpace, stripLiteral]
  | num n =>
    intro fuel k r hf hr
    obtain ⟨f, rfl⟩ := exists_fuel_succ hf
    obtain ⟨c, cs, hfmt, -⟩ := formatUint_cons n
    have hc : c.isDigit = true := formatUint_isDigit n c (by simp [hfmt])
    obtain ⟨hs, h1, h2, h3, h4, h5, h6, -, -⟩ := ne_of_isDigit hc
    have hnum := scanNumber_formatUint n hr
    rw [hfmt] at hnum
    simp only [printValue, hfmt, List.cons_append] at hnum ⊢
    simp [parseValue, skipSpace_cons hs, h1, h2, h3, h4, h5, h6, hc, hnum]
  | str hraw =>
    intro fuel k r hf _
    obtain ⟨f, rfl⟩ := exists_fuel_succ hf
    simp [printValue, parseValue, skipSpace, isSpace, scanString_body hraw]
  | arr hd hxs ih => exact parsesBack_arr hd hxs ih
  | obj hd hks _ ih => exact parsesBack_obj hd hks ih

/-! ## Fuel -/

theorem sizeElems_le {xs : List Value}
    (h : ∀ x ∈ xs, ∀ k, sizeValue x ≤ 2 * (printValue k x).length + 1) (k : Nat) :
    sizeElems xs ≤ 2 * (printElems k xs).length + 1 := by
  induction xs with
  | nil => simp [sizeElems, printElems]
  | cons x xs ih =>
    have := h x (by simp) k
    have := ih (fun y hy ↦ h y (List.mem_cons_of_mem _ hy))
    simp only [sizeElems, printElems, List.length_cons, List.length_append]
    omega

theorem sizeMembers_le {ms : List (List Char × Value)}
    (h : ∀ m ∈ ms, ∀ k, sizeValue m.2 ≤ 2 * (printValue k m.2).length + 1) (k : Nat) :
    sizeMembers ms ≤ 2 * (printMembers k ms).length + 1 := by
  induction ms with
  | nil => simp [sizeMembers, printMembers]
  | cons m ms ih =>
    obtain ⟨key, v⟩ := m
    have : sizeValue v ≤ 2 * (printValue k v).length + 1 := h (key, v) (by simp) k
    have := ih (fun y hy ↦ h y (List.mem_cons_of_mem _ hy))
    simp only [sizeMembers, printMembers, List.length_cons, List.length_append]
    omega

/-- A printed value is long enough to pay for the calls that read it back. -/
theorem Printable.size_le {depth : Nat} {j : Value} (h : Printable depth j) (k : Nat) :
    sizeValue j ≤ 2 * (printValue k j).length + 1 := by
  induction h generalizing k with
  | null => simp [sizeValue]
  | bool b => simp [sizeValue]
  | num n => simp [sizeValue]
  | str _ => simp [sizeValue]
  | @arr d xs _ _ ih =>
    cases xs with
    | nil => simp [sizeValue, sizeElems, printValue]
    | cons x xs =>
      have := ih x (by simp) (k + 1)
      have := sizeElems_le (fun y hy ↦ ih y (List.mem_cons_of_mem _ hy)) (k + 1)
      simp only [sizeValue, sizeElems, printValue, List.length_cons, List.length_append]
      omega
  | @obj d ms _ _ _ ih =>
    cases ms with
    | nil => simp [sizeValue, sizeMembers, printValue]
    | cons m ms =>
      obtain ⟨key, v⟩ := m
      have : sizeValue v ≤ 2 * (printValue (k + 1) v).length + 1 := ih (key, v) (by simp) (k + 1)
      have := sizeMembers_le (fun y hy ↦ ih y (List.mem_cons_of_mem _ hy)) (k + 1)
      simp only [sizeValue, sizeMembers, printValue, List.length_cons, List.length_append]
      omega

/-- **`checkValid` accepts what `MarshalIndent` wrote, and the value read back is
the value printed.** -/
theorem parseJson_marshalIndent {j : Value} (h : Printable 0 j) : parseJson (marshalIndent j) = some j := by
  have hback := h.parsesBack (2 * (marshalIndent j).length + 2) 0 [] (by
    have := h.size_le 0; unfold marshalIndent; omega) NumEnd.nil
  simp only [List.append_nil] at hback
  simp [parseJson, marshalIndent] at hback ⊢
  simp [hback, skipSpace]

end EthEmu.Json
