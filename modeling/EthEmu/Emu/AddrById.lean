import EthEmu.Emu.Codec

/-!
# `GetAddrById`: from a node's name to its address

```go
func GetAddrById(id string) (common.Address, error) {
	for addr, node := range Global.Nodes {
		if fmt.Sprintf("emu%06d", node.Identity) == id {
			return addr, nil
		}
	}
	return common.Address{}, ErrAddrNotFound
}
```

The name `emu%06d` of a node is also the directory `setAddr` stores the node's
key under.  The loop returns the first entry whose name is `id`, in the order the
`range` happens to take, and reads `node.Identity` through a `*Node` that may be
nil.

The results:

* `emuName_injective`: the name is injective on all of `uint64`, six digits or
  more, because its digits read back as the identity whatever zeros pad them;
* `getAddrById_of_all_isSome`: with no nil entry, the loop answers with the
  first matching entry of its order, or `ErrAddrNotFound`;
* `getAddrById_spec`: on a roster with no nil entry and pairwise distinct
  identities the answer is the address whose node has name `id`, or
  `ErrAddrNotFound`, whatever order the `range` takes;
* `getAddrById_nil_entry`, a remark outside the rosters `generateConfig`
  builds (every node allocated): a nil entry, which `LoadConfig` stores for a
  `null` node of `config.json`, makes the answer depend on the order, a panic
  or an address.

## Honest boundary

* A Go `string` is its bytes, so `id` ranges over all byte strings, UTF-8 or
  not; the name is ASCII and written byte for byte.
* `ErrAddrNotFound` is known by its text.
* A panic is `none`.
-/

namespace EthEmu.Emu

open EthEmu.Json

/-! ## The name of a node -/

/-- The bytes of a text written in ASCII. -/
def asciiBytes (cs : List Char) : List UInt8 := cs.map fun c ↦ c.toNat.toUInt8

/-- `fmt.Sprintf("emu%06d", x)`: with the `0` flag and width `6`, `%d` pads the
decimal digits of `x` on the left with zeros to six, and writes more digits
unpadded. -/
def emuName (x : UInt64) : List UInt8 :=
  asciiBytes ("emu".toList ++ List.replicate (6 - (formatUint x.toNat).length) '0' ++
    formatUint x.toNat)

/-- `ErrAddrNotFound = errors.New("Address not found!")`. -/
def errAddrNotFound : String := "Address not found!"

/-- `GetAddrById(id)` over the order `order` the `range` takes: the address and
the error (`none` for `nil`), or `none` for the panic of a nil `*Node`. -/
def getAddrById : List (Address × Option Node) → List UInt8 → Option (Address × Option String)
  | [], _ => some (default, some errAddrNotFound)
  | (addr, node) :: rest, id =>
    match node with
    | none => none
    | some node => if emuName node.Identity = id then some (addr, none) else getAddrById rest id

/-! ## The name is injective -/

/-- Zeros in front of a number's digits do not change what `ParseUint` reads. -/
theorem parseUint_zeros_append (k : Nat) {s : List Char} (hs : s ≠ []) :
    parseUint (List.replicate k '0' ++ s) = parseUint s := by
  have hzero : (List.replicate k '0').foldl (fun acc c ↦ 10 * acc + (c.toNat - 48)) 0 = 0 := by
    induction k with
    | zero => rfl
    | succ k ih => rw [List.replicate_succ', List.foldl_append, ih]; rfl
  have hdig : (List.replicate k '0').all Char.isDigit = true := by
    simp [List.all_eq_true, List.mem_replicate]
  simp only [parseUint, ne_eq, List.append_eq_nil, hs, and_false, not_false_eq_true, true_and,
    List.all_append, hdig, Bool.true_and, List.foldl_append, hzero]

/-- The text of the name: `ASCII` bytes for characters below 256 are one-to-one. -/
theorem asciiBytes_inj {cs ds : List Char} (hc : ∀ c ∈ cs, c.toNat < 256)
    (hd : ∀ d ∈ ds, d.toNat < 256) (h : asciiBytes cs = asciiBytes ds) : cs = ds := by
  have back : ∀ {es : List Char}, (∀ e ∈ es, e.toNat < 256) →
      (asciiBytes es).map (fun b ↦ Char.ofNat b.toNat) = es := by
    intro es hes
    rw [asciiBytes, List.map_map]
    refine (List.map_congr_left fun e he ↦ ?_).trans (List.map_id es)
    show Char.ofNat (e.toNat % 256) = e
    rw [Nat.mod_eq_of_lt (hes e he), Char.ofNat_toNat]
  rw [← back hc, ← back hd, h]

/-- Every character of a name is below 256. -/
theorem emuName_chars_lt (x : UInt64) :
    ∀ c ∈ "emu".toList ++ List.replicate (6 - (formatUint x.toNat).length) '0' ++ formatUint x.toNat,
      c.toNat < 256 := by
  intro c hc
  simp only [List.mem_append, List.mem_replicate] at hc
  rcases hc with (hc | ⟨-, rfl⟩) | hc
  · revert c; decide
  · decide
  · have := formatUint_isDigit _ c hc
    simp only [Char.isDigit, Bool.and_eq_true, decide_eq_true_eq] at this
    exact Nat.lt_of_le_of_lt this.2 (by decide)

/-- **The name is injective on all of `uint64`**: its digits, zeros in front or
not, read back as the identity. -/
theorem emuName_injective : Function.Injective emuName := by
  intro a b h
  have hchars := asciiBytes_inj (emuName_chars_lt a) (emuName_chars_lt b) h
  have hdigits := congrArg (fun cs : List Char ↦ parseUint (cs.drop 3)) hchars
  obtain ⟨c, cs, hca, -⟩ := formatUint_cons a.toNat
  obtain ⟨d, ds, hdb, -⟩ := formatUint_cons b.toNat
  have h3 : "emu".toList.length = 3 := rfl
  simp only [List.append_assoc] at hdigits
  rw [List.drop_left' h3, List.drop_left' h3, parseUint_zeros_append _ (by simp [hca]),
    parseUint_zeros_append _ (by simp [hdb]), parseUint_formatUint, parseUint_formatUint] at hdigits
  exact Option.some_injective _ hdigits

/-! ## The loop -/

/-- Whether the node of an entry has the name `id`; a nil entry has no name. -/
def hasName (id : List UInt8) (e : Address × Option Node) : Bool :=
  e.2.any fun node ↦ decide (emuName node.Identity = id)

/-- With no nil entry the loop answers with the first entry of its order whose
node has the name `id`, and with `ErrAddrNotFound` when there is none. -/
theorem getAddrById_of_all_isSome {l : List (Address × Option Node)} (h : l.all (·.2.isSome))
    (id : List UInt8) :
    getAddrById l id =
      some (((l.find? (hasName id)).map fun e ↦ (e.1, none)).getD (default, some errAddrNotFound)) := by
  induction l with
  | nil => rfl
  | cons e l ih =>
    obtain ⟨addr, node⟩ := e
    simp only [List.all_cons, Bool.and_eq_true] at h
    obtain ⟨node, rfl⟩ := Option.isSome_iff_exists.mp h.1
    by_cases hm : emuName node.Identity = id
    · simp [getAddrById, hasName, hm]
    · simp [getAddrById, hasName, hm, ih h.2]

/-- When at most one element satisfies `p`, the search finds exactly it. -/
theorem find?_eq_some_of_unique {α : Type} {p : α → Bool} {l : List α}
    (hu : ∀ x ∈ l, ∀ y ∈ l, p x → p y → x = y) {e : α} : l.find? p = some e ↔ e ∈ l ∧ p e := by
  refine ⟨fun h ↦ ⟨List.mem_of_find?_eq_some h, List.find?_some h⟩, fun ⟨he, hp⟩ ↦ ?_⟩
  obtain ⟨e', he'⟩ : ∃ e', l.find? p = some e' :=
    Option.ne_none_iff_exists'.mp fun h ↦ List.find?_eq_none.mp h e he hp
  rw [he', hu _ (List.mem_of_find?_eq_some he') _ he (List.find?_some he') hp]

section Roster

variable {m : GoMap Address (Option Node)}
  (hid : ∀ a b na nb, m.get? a = some (some na) → m.get? b = some (some nb) →
    na.Identity = nb.Identity → a = b)
include hid

/-- On a roster with distinct identities at most one entry has a given name. -/
theorem hasName_unique {l : List (Address × Option Node)} (hl : l.Perm m.entries) (id : List UInt8) :
    ∀ x ∈ l, ∀ y ∈ l, hasName id x → hasName id y → x = y := by
  rintro ⟨a, na⟩ hx ⟨b, nb⟩ hy hnx hny
  cases na with
  | none => cases hnx
  | some na =>
    cases nb with
    | none => cases hny
    | some nb =>
      simp only [hasName, Option.any_some, decide_eq_true_eq] at hnx hny
      have ha := (GoMap.get?_eq_some_iff m a _).mpr (hl.mem_iff.mp hx)
      have hb := (GoMap.get?_eq_some_iff m b _).mpr (hl.mem_iff.mp hy)
      obtain rfl := hid a b na nb ha hb (emuName_injective (hnx.trans hny.symm))
      rw [ha] at hb
      cases hb
      rfl

/-- On a roster, in any order of the `range`, the search for the name `id` finds
the entry of the node with that name and no other. -/
theorem find?_hasName_iff {l : List (Address × Option Node)} (hl : l.Perm m.entries)
    (id : List UInt8) (addr : Address) (node : Option Node) :
    l.find? (hasName id) = some (addr, node) ↔
      ∃ n, node = some n ∧ m.get? addr = some (some n) ∧ emuName n.Identity = id := by
  rw [find?_eq_some_of_unique (hasName_unique hid hl id), hl.mem_iff, ← GoMap.get?_eq_some_iff]
  cases node <;> simp [hasName]

end Roster

/-- **`GetAddrById` on a roster.**  With no nil entry and pairwise distinct
identities, `GetAddrById(id)` returns `(addr, nil)` exactly when the node stored
under `addr` has the name `id`, and `(common.Address{}, ErrAddrNotFound)` when no
node has that name; so its answer is the same for every order of the `range`,
the name being injective on all of `uint64`. -/
theorem getAddrById_spec (m : GoMap Address (Option Node)) (hnil : ∀ e ∈ m.entries, e.2.isSome)
    (hid : ∀ a b na nb, m.get? a = some (some na) → m.get? b = some (some nb) →
      na.Identity = nb.Identity → a = b)
    (order : m.Ranges) (id : List UInt8) :
    (∀ addr, getAddrById order.1 id = some (addr, none) ↔
      ∃ node, m.get? addr = some (some node) ∧ emuName node.Identity = id) ∧
    ((∀ addr node, m.get? addr = some (some node) → emuName node.Identity ≠ id) →
      getAddrById order.1 id = some (default, some errAddrNotFound)) ∧
    (∀ order' : m.Ranges, getAddrById order'.1 id = getAddrById order.1 id) ∧
    Function.Injective emuName := by
  have hall : ∀ order : m.Ranges, order.1.all (·.2.isSome) :=
    fun order ↦ List.all_eq_true.mpr fun e he ↦ hnil e (order.2.mem_iff.mp he)
  have hr := find?_hasName_iff hid (.refl m.entries) id
  -- every order finds what the entries themselves find
  have key : ∀ order : m.Ranges, getAddrById order.1 id =
      some (((m.entries.find? (hasName id)).map fun e ↦ (e.1, none)).getD
        (default, some errAddrNotFound)) := fun order ↦ by
    have hcanon : order.1.find? (hasName id) = m.entries.find? (hasName id) :=
      Option.ext fun ⟨a, node⟩ ↦ (find?_hasName_iff hid order.2 id a node).trans (hr a node).symm
    rw [getAddrById_of_all_isSome (hall order), hcanon]
  refine ⟨fun addr ↦ ?_, fun hno ↦ ?_, fun order' ↦ by rw [key, key], emuName_injective⟩
  · rw [key]
    calc _ ↔ ∃ node, m.entries.find? (hasName id) = some (addr, node) := by
          cases m.entries.find? (hasName id) <;> simp [Prod.ext_iff]
      _ ↔ _ := by
          simp only [hr]
          exact ⟨fun ⟨_, n, _, h⟩ ↦ ⟨n, h⟩, fun ⟨n, h⟩ ↦ ⟨_, n, rfl, h⟩⟩
  · have hnone : m.entries.find? (hasName id) = none :=
      Option.eq_none_iff_forall_not_mem.mpr fun ⟨a, node⟩ h ↦ by
        obtain ⟨n, -, hget, hname⟩ := (hr a node).mp h
        exact hno a n hget hname
    rw [key, hnone]
    rfl

theorem getAddrById_spec_two :
    let a : Address := default
    let b : Address := ⟨List.replicate 20 1, List.length_replicate 20 1⟩
    let m : GoMap Address (Option Node) :=
      ⟨[(a, some default), (b, some { (default : Node) with Identity := 1 })], by decide⟩
    (∀ e ∈ m.entries, e.2.isSome) ∧
    (∀ x y nx ny, m.get? x = some (some nx) → m.get? y = some (some ny) →
      nx.Identity = ny.Identity → x = y) ∧
    (∀ addr, getAddrById m.entries (emuName 1) = some (addr, none) ↔
      ∃ node, m.get? addr = some (some node) ∧ emuName node.Identity = emuName 1) ∧
    ((∀ addr node, m.get? addr = some (some node) → emuName node.Identity ≠ emuName 1) →
      getAddrById m.entries (emuName 1) = some (default, some errAddrNotFound)) ∧
    (∀ order' : m.Ranges, getAddrById order'.1 (emuName 1) = getAddrById m.entries (emuName 1)) ∧
    Function.Injective emuName := by
  intro a b m
  have hnil : ∀ e ∈ m.entries, e.2.isSome := by decide
  have hid : ∀ x y nx ny, m.get? x = some (some nx) → m.get? y = some (some ny) →
      nx.Identity = ny.Identity → x = y := by
    intro x y nx ny hx hy h
    simp only [GoMap.get?_eq_some_iff, m, List.mem_cons, Prod.mk.injEq, Option.some.injEq,
      List.mem_singleton, List.not_mem_nil, or_false] at hx hy
    rcases hx with ⟨rfl, rfl⟩ | ⟨rfl, rfl⟩ <;> rcases hy with ⟨rfl, rfl⟩ | ⟨rfl, rfl⟩ <;> first | rfl | cases h
  exact ⟨hnil, hid, getAddrById_spec m hnil hid ⟨m.entries, .refl _⟩ (emuName 1)⟩

/-- Outside the rosters `generateConfig` builds: a nil entry, which `LoadConfig`
stores for a `null` node, breaks the answer.  On a roster whose one identity is
trivially distinct, one order of the `range` finds the node and the other panics
on the nil `*Node` first. -/
theorem getAddrById_nil_entry :
    let a : Address := default
    let b : Address := ⟨List.replicate 20 1, List.length_replicate 20 1⟩
    let m : GoMap Address (Option Node) := ⟨[(a, some default), (b, none)], by decide⟩
    (∀ x y nx ny, m.get? x = some (some nx) → m.get? y = some (some ny) →
      nx.Identity = ny.Identity → x = y) ∧
    ∃ order order' : m.Ranges, getAddrById order.1 (emuName 0) = some (a, none) ∧
      getAddrById order'.1 (emuName 0) = none := by
  intro a b m
  refine ⟨?_, ⟨m.entries, .refl _⟩, ⟨[(b, none), (a, some default)], .swap _ _ _⟩, by decide, rfl⟩
  intro x y nx ny hx hy _
  simp only [GoMap.get?_eq_some_iff, m, List.mem_cons, Prod.mk.injEq, Option.some.injEq,
    List.mem_singleton, List.not_mem_nil, or_false, reduceCtorEq, and_false] at hx hy
  rw [hx.1, hy.1]

end EthEmu.Emu
