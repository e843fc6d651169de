import Mathlib.Data.Finset.Card
import Mathlib.Data.List.Sort

/-!
# The run descriptor of package `emu`

The data model of `emu/types.go`: a roster `Node` per emulated participant and
the run-wide `Config` that `StoreConfig` writes to `config.json` and every
`ethemu`, `gen` and `init` process reads back into the package variable
`Global`.

Go values are modelled as they behave, not as they are laid out:

* a `[]T` slice is `Option (List T)`, `none` being the nil slice, because the
  JSON encoding tells `nil` (`null`) from an empty slice (`[]`);
* a `*Node` is `Option Node`, `none` being the nil pointer;
* a `map[K]V` is a `GoMap`: an association list with distinct keys, whose order
  is the order one `range` loop happens to visit it in;
* the `uint64` fields are `UInt64`.

## Honest boundary

* `common.Address` is kept as its 20 bytes; its text form (`0x` and forty hex
  digits) belongs to the JSON layer, `EthEmu/Emu/Codec.lean`.
* `GetAddrById` and its decimal names are in `EthEmu/Emu/AddrById.lean`.
-/

namespace EthEmu.Emu

/-- `common.Address`: the 20 bytes of an account address. -/
structure Address where
  /-- The bytes of the address, most significant first. -/
  bytes : List UInt8
  /-- An address has exactly 20 bytes. -/
  length_bytes : bytes.length = 20
deriving DecidableEq, Repr

/-- The zero address `common.Address{}`. -/
instance : Inhabited Address := ⟨⟨List.replicate 20 0, List.length_replicate 20 0⟩⟩

/-- `common.Hash`: the 32 bytes of a transaction hash. -/
structure Hash where
  /-- The bytes of the hash, most significant first. -/
  bytes : List UInt8
  /-- A hash has exactly 32 bytes. -/
  length_bytes : bytes.length = 32
deriving DecidableEq, Repr

/-- The zero hash `common.Hash{}`, which `SendTransaction` returns with an error. -/
instance : Inhabited Hash := ⟨⟨List.replicate 32 0, List.length_replicate 32 0⟩⟩

/-- `emu.Node`: one roster entry of the run descriptor. -/
structure Node where
  Identity : UInt64
  Address : Address
  IsMiner : Bool
  /-- The `Peers` slice; `none` is the nil slice. -/
  Peers : Option (List EthEmu.Emu.Address)
deriving DecidableEq, Repr

/-- The zero `emu.Node{}` that `generateConfig` allocates for every index. -/
instance : Inhabited Node := ⟨⟨0, default, false, none⟩⟩

/-! ## Slices -/

/-- The elements of a slice; the nil slice has none. -/
def sliceElems {α : Type} (s : Option (List α)) : List α := s.getD []

/-- `append(s, x)`: the result is never the nil slice. -/
def goAppend {α : Type} (s : Option (List α)) (x : α) : Option (List α) :=
  some (sliceElems s ++ [x])

@[simp] theorem sliceElems_none {α : Type} : sliceElems (none : Option (List α)) = [] := rfl

@[simp] theorem sliceElems_some {α : Type} (xs : List α) : sliceElems (some xs) = xs := rfl

@[simp] theorem sliceElems_goAppend {α : Type} (s : Option (List α)) (x : α) :
    sliceElems (goAppend s x) = sliceElems s ++ [x] := rfl

/-- Appending the elements of `xs` one `append` call at a time. -/
def goAppendAll {α : Type} (s : Option (List α)) (xs : List α) : Option (List α) :=
  xs.foldl goAppend s

@[simp] theorem sliceElems_goAppendAll {α : Type} (s : Option (List α)) (xs : List α) :
    sliceElems (goAppendAll s xs) = sliceElems s ++ xs := by
  induction xs generalizing s with
  | nil => simp [goAppendAll]
  | cons x xs ih =>
    show sliceElems (goAppendAll (goAppend s x) xs) = _
    rw [ih]; simp

/-! ## Maps -/

/-- A Go `map[κ]ν`: its entries with pairwise distinct keys, listed in the order
one `range` loop over the map visits them. -/
structure GoMap (κ ν : Type) where
  /-- The key–value pairs, in iteration order. -/
  entries : List (κ × ν)
  /-- A map holds each key once. -/
  nodup_keys : (entries.map Prod.fst).Nodup

namespace GoMap

variable {κ ν : Type} [DecidableEq κ]

/-- `m[k]`, as the comma-ok lookup `v, ok := m[k]`. -/
def get? (m : GoMap κ ν) (k : κ) : Option ν := (m.entries.find? (·.1 = k)).map Prod.snd

/-- The empty map `make(map[κ]ν)`. -/
def empty : GoMap κ ν := ⟨[], List.nodup_nil⟩

/-- `m[k] = v`: overwrite the entry of `k`, or add one at the end. -/
def set (m : GoMap κ ν) (k : κ) (v : ν) : GoMap κ ν :=
  if h : k ∈ m.entries.map Prod.fst then
    ⟨m.entries.map fun e ↦ if e.1 = k then (k, v) else e, by
      rw [List.map_map]
      convert m.nodup_keys using 2
      funext e
      by_cases he : e.1 = k <;> simp [he]⟩
  else
    ⟨m.entries ++ [(k, v)], by
      rw [List.map_append, List.nodup_append]
      exact ⟨m.nodup_keys, List.nodup_singleton k, fun a ha hb ↦ h (by simp_all)⟩⟩

@[simp] theorem get?_empty (k : κ) : (empty : GoMap κ ν).get? k = none := rfl

/-- The keys of a map, in iteration order. -/
def keys (m : GoMap κ ν) : List κ := m.entries.map Prod.fst

/-- Setting a new key appends its entry. -/
theorem set_entries_of_not_mem {m : GoMap κ ν} {k : κ} (h : k ∉ m.keys) (v : ν) :
    (m.set k v).entries = m.entries ++ [(k, v)] := by
  simp only [set, keys] at h ⊢
  rw [dif_neg h]

/-- Setting entries with keys new to the map, one after another, appends them. -/
theorem entries_foldl_set (l : List (κ × ν)) (m : GoMap κ ν)
    (hl : ((m.entries ++ l).map Prod.fst).Nodup) :
    (l.foldl (fun m e ↦ m.set e.1 e.2) m).entries = m.entries ++ l := by
  induction l generalizing m with
  | nil => simp
  | cons e l ih =>
    have he : e.1 ∉ m.keys := by
      simp only [List.map_append, List.map_cons, List.nodup_append, List.nodup_cons] at hl
      exact fun h ↦ hl.2.2 h (List.mem_cons_self _ _)
    have hset : (m.set e.1 e.2).entries = m.entries ++ [e] := set_entries_of_not_mem he e.2
    rw [List.foldl_cons, ih _ (by rwa [hset, List.append_assoc]), hset, List.append_assoc,
      List.singleton_append]

/-- The orders in which a `range` loop may visit `m`: every entry exactly once. -/
def Ranges (m : GoMap κ ν) : Type := {order : List (κ × ν) // order.Perm m.entries}

/-! ### Lookups -/

/-- In a list of entries with distinct keys, the search for a key finds its one entry. -/
theorem find?_key_eq_some {l : List (κ × ν)} (hl : (l.map Prod.fst).Nodup) {k : κ} {e : κ × ν} :
    l.find? (·.1 = k) = some e ↔ e ∈ l ∧ e.1 = k := by
  constructor
  · intro h
    exact ⟨List.mem_of_find?_eq_some h, by simpa using List.find?_some h⟩
  · rintro ⟨he, rfl⟩
    obtain ⟨e', he'⟩ : ∃ e', l.find? (·.1 = e.1) = some e' :=
      Option.ne_none_iff_exists'.mp fun h ↦ List.find?_eq_none.mp h e he (by simp)
    rw [he', List.inj_on_of_nodup_map hl (List.mem_of_find?_eq_some he') he
      (by simpa using List.find?_some he')]

/-- Listing the entries in another order does not change what a key finds. -/
theorem find?_key_perm {l l' : List (κ × ν)} (hp : l.Perm l') (hl : (l.map Prod.fst).Nodup)
    (k : κ) : l.find? (·.1 = k) = l'.find? (·.1 = k) := by
  have hl' : (l'.map Prod.fst).Nodup := ((hp.map Prod.fst).nodup_iff).mp hl
  refine Option.ext fun e ↦ ?_
  change _ = some e ↔ _ = some e
  rw [find?_key_eq_some hl, find?_key_eq_some hl', hp.mem_iff]

/-- `m[k]` is `v` exactly when `(k, v)` is an entry. -/
theorem get?_eq_some_iff (m : GoMap κ ν) (k : κ) (v : ν) : m.get? k = some v ↔ (k, v) ∈ m.entries := by
  simp only [get?, Option.map_eq_some', find?_key_eq_some m.nodup_keys]
  constructor
  · rintro ⟨⟨k', v'⟩, ⟨he, rfl⟩, rfl⟩
    exact he
  · intro h
    exact ⟨(k, v), ⟨h, rfl⟩, rfl⟩

/-- The entries after `m[k] = v`. -/
theorem mem_set_entries {m : GoMap κ ν} {k k' : κ} {v v' : ν} :
    (k', v') ∈ (m.set k v).entries ↔ (k' = k ∧ v' = v) ∨ (k' ≠ k ∧ (k', v') ∈ m.entries) := by
  unfold set
  split
  · rename_i hk
    obtain ⟨e₀, hw, he₀⟩ := List.mem_map.mp hk
    simp only [List.mem_map]
    constructor
    · rintro ⟨⟨a, b⟩, he, hek⟩
      by_cases h : a = k <;> simp only [h, ↓reduceIte, Prod.mk.injEq] at hek
      · exact .inl ⟨hek.1.symm, hek.2.symm⟩
      · obtain ⟨rfl, rfl⟩ := hek
        exact .inr ⟨h, he⟩
    · rintro (⟨rfl, rfl⟩ | ⟨hne, he⟩)
      · exact ⟨e₀, hw, by simp [he₀]⟩
      · exact ⟨(k', v'), he, by simp [hne]⟩
  · rename_i hk
    have hne : (k', v') ∈ m.entries → k' ≠ k := fun he h ↦ hk (h ▸ List.mem_map_of_mem Prod.fst he)
    simp only [List.mem_append, List.mem_singleton, Prod.mk.injEq]
    exact ⟨fun h ↦ h.elim (fun he ↦ .inr ⟨hne he, he⟩) .inl, fun h ↦ h.elim .inr (.inl ·.2)⟩

/-- A lookup after `m[k] = v`. -/
theorem get?_set (m : GoMap κ ν) (k k' : κ) (v : ν) :
    (m.set k v).get? k' = if k' = k then some v else m.get? k' := by
  refine Option.ext fun w ↦ ?_
  change _ = some w ↔ _ = some w
  rw [get?_eq_some_iff, mem_set_entries]
  by_cases h : k' = k
  · simp [h, eq_comm]
  · simp [h, get?_eq_some_iff]

/-- `delete(m, k)`. -/
def erase (m : GoMap κ ν) (k : κ) : GoMap κ ν :=
  ⟨m.entries.filter (·.1 ≠ k), ((List.filter_sublist _).map Prod.fst).nodup m.nodup_keys⟩

/-- A lookup after `delete(m, k)`. -/
theorem get?_erase (m : GoMap κ ν) (k k' : κ) :
    (m.erase k).get? k' = if k' = k then none else m.get? k' := by
  refine Option.ext fun w ↦ ?_
  change _ = some w ↔ _ = some w
  rw [get?_eq_some_iff]
  by_cases h : k' = k
  · simp [erase, h]
  · simp [erase, h, get?_eq_some_iff]

/-- `delete(m, k)` for the keys of `l` in turn. -/
theorem get?_foldl_erase (l : List κ) (m : GoMap κ ν) (k : κ) :
    (l.foldl erase m).get? k = if k ∈ l then none else m.get? k := by
  induction l generalizing m with
  | nil => simp
  | cons a l ih =>
    rw [List.foldl_cons, ih, get?_erase]
    by_cases hl : k ∈ l
    · simp [hl]
    · by_cases h : k = a <;> simp [hl, h]

/-- `m[k] = v` for the entries of `l` in turn: the last entry of a key in `l`
wins, and keys `l` does not hold keep their value in `m`. -/
theorem get?_foldl_set (l : List (κ × ν)) (m : GoMap κ ν) (k : κ) :
    (l.foldl (fun m e ↦ m.set e.1 e.2) m).get? k =
      ((l.reverse.find? (·.1 = k)).map Prod.snd).or (m.get? k) := by
  induction l generalizing m with
  | nil => simp
  | cons e l ih =>
    rw [List.foldl_cons, ih, get?_set, List.reverse_cons, List.find?_append]
    cases l.reverse.find? (·.1 = k) with
    | some x => simp
    | none => by_cases h : k = e.1 <;> simp [h, eq_comm]

/-- `m[k] = v` for the keys of `l` in turn, one value for all: a key of `l`
holds `v`, and the others keep their value in `m`. -/
theorem get?_foldl_set_const (l : List κ) (v : ν) (m : GoMap κ ν) (k : κ) :
    (l.foldl (fun m k ↦ m.set k v) m).get? k = if k ∈ l then some v else m.get? k := by
  induction l generalizing m with
  | nil => simp
  | cons a l ih =>
    rw [List.foldl_cons, ih, get?_set]
    by_cases hl : k ∈ l
    · simp [hl]
    · by_cases h : k = a <;> simp [hl, h]

end GoMap

/-! ## The run descriptor -/

/-- `emu.Config`, the type of the package variable `Global`. -/
structure Config where
  Period : UInt64
  MinTxInterval : UInt64
  MaxTxInterval : UInt64
  /-- `map[common.Address]*Node`; `none` is the nil map. -/
  Nodes : Option (GoMap Address (Option Node))
  Latency : UInt64
  Bandwidth : UInt64

/-- The zero `Config`: `Global` before any `LoadConfig`. -/
instance : Inhabited Config := ⟨⟨0, 0, 0, none, 0, 0⟩⟩

@[simp] theorem Config.default_Nodes : (default : Config).Nodes = none := rfl

end EthEmu.Emu
