import EthEmu.Emu.Codec

/-!
# `LoadConfig`, `StoreConfig` and the processes that load the descriptor

```go
func LoadConfig(dataDir string) error {
	configPath := path.Join(dataDir, CONFIG_JSON)
	bytes, err := os.ReadFile(configPath)
	if err != nil {
		return err
	}
	return json.Unmarshal(bytes, &Global)
}

func StoreConfig(dataDir string) error {
	jsonString, err := json.MarshalIndent(Global, "", "  ")
	if err != nil {
		return err
	}
	configPath := path.Join(dataDir, CONFIG_JSON)
	return os.WriteFile(configPath, jsonString, 0744)
}
```

`ethemu` and `initGenesis` call `emu.LoadConfig(dataDir)` as a statement and go
on to range over `emu.Global.Nodes`, whatever it returned.

The main results:

* `loadConfig_storeConfig`: a `Config` stored and loaded again into a zero
  `Global` comes back equal as a Go value, with no error;
* `loadConfig_storeConfig_merges`: loaded into any other `Global`, the nodes
  of the file are added to the nodes already there;
* `loadConfig_mistyped_tail`: a stored descriptor followed by one mistyped
  member makes `LoadConfig` fail, yet `Global` already holds the whole
  descriptor, and both callers go on with it;
* `storeConfig_of_equiv`: what `StoreConfig` writes depends on the descriptor
  as a Go value, not on the order its map lists the nodes in, so a loaded
  descriptor is stored back as the same file.

## Honest boundary

* The file system is the content of `config.json` in each data directory and
  whether it can be written there; `path.Join`, file modes and concurrent
  writers are not modelled.
* `json.MarshalIndent` cannot fail on a `Config` (no channels, functions,
  cycles or NaNs), so `StoreConfig`'s first error return is not modelled.
* The callers are modelled up to the loop that creates the nodes: the
  entries they range over.
-/

namespace EthEmu.Emu

open EthEmu.Json

/-! ## Files -/

/-- The files `LoadConfig` and `StoreConfig` touch. -/
structure FileSys where
  /-- The content of `config.json` in a data directory; `none` when `os.ReadFile`
  fails. -/
  configJson : String → Option (List Char)
  /-- Whether `os.WriteFile` succeeds in a data directory. -/
  writable : String → Bool

/-- `config.json` in `dataDir` after a successful write of `text`. -/
def FileSys.write (fs : FileSys) (dataDir : String) (text : List Char) : FileSys :=
  { fs with configJson := fun d ↦ if d = dataDir then some text else fs.configJson d }

@[simp] theorem FileSys.write_configJson (fs : FileSys) (dataDir : String) (text : List Char) :
    (fs.write dataDir text).configJson dataDir = some text := by
  simp [FileSys.write]

/-- `StoreConfig(dataDir)` with `Global = g`: the error and the files after it. -/
def storeConfig (fs : FileSys) (dataDir : String) (g : Config) : Option ConfigError × FileSys :=
  if fs.writable dataDir then (none, fs.write dataDir (marshalIndent (encodeConfig g)))
  else (some .writeFile, fs)

/-- `LoadConfig(dataDir)` with `Global = g`: the error and `Global` after it. -/
def loadConfig (fs : FileSys) (dataDir : String) (g : Config) : Option ConfigError × Config :=
  match fs.configJson dataDir with
  | none => (some .readFile, g)
  | some bytes => unmarshal bytes g

/-! ## The callers -/

/-- What `ethemu` and `initGenesis` do before creating any node: load the
descriptor, drop the error, and range over `emu.Global.Nodes`.  The entries they
create nodes for, in one order the loop may take. -/
def rangeAfterLoad (fs : FileSys) (dataDir : String) (g : Config) : List (Address × Option Node) :=
  ((loadConfig fs dataDir g).2.Nodes.map GoMap.entries).getD []

/-- `ethemu` (`cmd/ethemu/main.go`): one `makeFullNode` per entry. -/
def ethemu (fs : FileSys) (dataDir : String) (g : Config) : List (Address × Option Node) :=
  rangeAfterLoad fs dataDir g

/-- `initGenesis` (`cmd/ethemu/initcmd.go`): a genesis account and a
`makeConfigNode` per entry. -/
def initGenesis (fs : FileSys) (dataDir : String) (g : Config) : List (Address × Option Node) :=
  rangeAfterLoad fs dataDir g

/-! ## What `MarshalIndent` writes, `checkValid` accepts -/

theorem strBody_of_plain {cs : List Char} (h : ∀ c ∈ cs, 0x20 ≤ c.toNat ∧ c ≠ '"' ∧ c ≠ '\\') :
    StrBody cs := by
  induction cs with
  | nil => exact .nil
  | cons c cs ih =>
    obtain ⟨hc, hq, hb⟩ := h c (by simp)
    exact .plain hc hq hb (ih fun x hx ↦ h x (by simp [hx]))

theorem hexDigit_plain : ∀ d < 16, 0x20 ≤ (hexDigit d).toNat ∧ hexDigit d ≠ '"' ∧ hexDigit d ≠ '\\' := by
  decide

theorem strBody_encodeAddress (a : Address) : StrBody (encodeString ⟨a.hexText⟩) := by
  rw [encodeString_hexText]
  refine strBody_of_plain fun c hc ↦ ?_
  simp only [Address.hexText, List.mem_cons, List.mem_flatMap, byteHex, List.mem_singleton,
    List.not_mem_nil, or_false] at hc
  have hb : ∀ b : UInt8, b.toNat < 256 := fun b ↦ b.toNat_lt_size
  rcases hc with rfl | rfl | ⟨b, -, rfl | rfl⟩
  · decide
  · decide
  · exact hexDigit_plain _ (by have := hb b; omega)
  · exact hexDigit_plain _ (by omega)

theorem printable_encodeAddress (d : Nat) (a : Address) : Printable d (encodeAddress a) :=
  .str (strBody_encodeAddress a)

theorem printable_encodeNode (n : Node) : Printable 2 (encodeNode n) := by
  refine .obj (by decide) ?_ ?_
  · simp only [NodeField.all, List.map_cons, List.map_nil, List.mem_cons, List.not_mem_nil, or_false]
    rintro m (rfl | rfl | rfl | rfl) <;> exact strBody_of_plain (by dsimp only; decide)
  · simp only [NodeField.all, List.map_cons, List.map_nil, List.mem_cons, List.not_mem_nil, or_false]
    rintro m (rfl | rfl | rfl | rfl)
    · exact .num _
    · exact printable_encodeAddress _ _
    · exact .bool _
    · cases h : n.Peers with
      | none => simp [encodeNodeField, encodePeers, h, Printable.null]
      | some xs =>
        simp only [encodeNodeField, encodePeers, h]
        exact .arr (by decide) (by simpa using fun a _ ↦ printable_encodeAddress 4 a)

theorem printable_encodeNodes (nodes : Option (GoMap Address (Option Node))) :
    Printable 1 (encodeNodes nodes) := by
  cases nodes with
  | none => exact .null
  | some m =>
    refine .obj (by decide) ?_ ?_
    · simp only [List.mem_map, forall_exists_index, and_imp]
      rintro _ ⟨a, p⟩ - rfl
      exact strBody_encodeAddress a
    · simp only [List.mem_map, forall_exists_index, and_imp]
      rintro _ ⟨a, p⟩ - rfl
      cases p with
      | none => exact .null
      | some n => exact printable_encodeNode n

/-- Every member `Marshal` writes for a `Config`, and the value it writes. -/
theorem printable_configMembers (d : Config) :
    (∀ m ∈ ConfigField.all.map (fun f ↦ (encodeString f.name, encodeConfigField d f)), StrBody m.1) ∧
    (∀ m ∈ ConfigField.all.map (fun f ↦ (encodeString f.name, encodeConfigField d f)),
      Printable 1 m.2) := by
  simp only [ConfigField.all, List.map_cons, List.map_nil, List.mem_cons, List.not_mem_nil, or_false]
  constructor
  · rintro m (rfl | rfl | rfl | rfl | rfl | rfl) <;> exact strBody_of_plain (by dsimp only; decide)
  · rintro m (rfl | rfl | rfl | rfl | rfl | rfl)
    all_goals first | exact .num _ | exact printable_encodeNodes _

theorem parseJson_storeConfig (d : Config) :
    parseJson (marshalIndent (encodeConfig d)) = some (encodeConfig d) :=
  parseJson_marshalIndent (.obj (by decide) (printable_configMembers d).1 (printable_configMembers d).2)

/-! ## The round trip -/

/-- Two descriptors equal as Go values: the same scalar fields, `Nodes` nil in
both or in neither, and the same node under every key.  A map's value is its
lookups, not the order a `range` loop happens to visit it in. -/
structure Config.Equiv (a b : Config) : Prop where
  Period : a.Period = b.Period
  MinTxInterval : a.MinTxInterval = b.MinTxInterval
  MaxTxInterval : a.MaxTxInterval = b.MaxTxInterval
  Latency : a.Latency = b.Latency
  Bandwidth : a.Bandwidth = b.Bandwidth
  nodes_isSome : a.Nodes.isSome = b.Nodes.isSome
  nodes_get? : ∀ k, a.Nodes.bind (·.get? k) = b.Nodes.bind (·.get? k)

/-- Setting the entries of `m`, in key order, into `m₀`: each key of `m` gets its
node, and the other keys keep theirs. -/
theorem get?_setSorted (m m₀ : GoMap Address (Option Node)) (k : Address) :
    ((m.entries.mergeSort keyLe).foldl (fun m e ↦ m.set e.1 e.2) m₀).get? k = (m.get? k).or (m₀.get? k) := by
  have hp : ((m.entries.mergeSort keyLe).reverse).Perm m.entries :=
    (List.reverse_perm _).trans (List.mergeSort_perm _ _)
  have hn : (((m.entries.mergeSort keyLe).reverse).map Prod.fst).Nodup :=
    ((hp.map Prod.fst).nodup_iff).mpr m.nodup_keys
  rw [GoMap.get?_foldl_set, GoMap.find?_key_perm hp hn]
  rfl

/-- `LoadConfig` of what `StoreConfig` wrote for `d`, into a `Global` that holds
`g`: no error, and `Global` holds `storedInto g d`. -/
theorem loadConfig_after_store (fs : FileSys) (dataDir : String) (g d : Config)
    (hw : fs.writable dataDir = true) :
    (storeConfig fs dataDir d).1 = none ∧
      loadConfig (storeConfig fs dataDir d).2 dataDir g = (none, storedInto g d) := by
  simp [storeConfig, hw, loadConfig, unmarshal, parseJson_storeConfig, decodeConfig_encodeConfig,
    Decoded.ok]

/-- **Round trip.** `StoreConfig` with `Global = d`, then `LoadConfig` in a process
whose `Global` is still zero: no error, and `Global` equals `d` as a Go value. -/
theorem loadConfig_storeConfig (fs : FileSys) (dataDir : String) (d : Config)
    (hw : fs.writable dataDir = true) :
    (storeConfig fs dataDir d).1 = none ∧
      (loadConfig (storeConfig fs dataDir d).2 dataDir default).1 = none ∧
      (loadConfig (storeConfig fs dataDir d).2 dataDir default).2.Equiv d := by
  obtain ⟨hs, hl⟩ := loadConfig_after_store fs dataDir default d hw
  rw [hl]
  obtain ⟨_, _, _, nodes, _, _⟩ := d
  refine ⟨hs, rfl, rfl, rfl, rfl, rfl, rfl, by cases nodes <;> rfl, fun k ↦ ?_⟩
  cases nodes with
  | none => rfl
  | some m => simp [storedInto, get?_setSorted]

/-- `loadConfig_storeConfig` on a descriptor with two nodes, one whose `Peers`
is the nil slice and one whose `Peers` is empty: both come back as they were. -/
theorem loadConfig_storeConfig_peers :
    let a : Address := default
    let b : Address := ⟨List.replicate 20 1, List.length_replicate 20 1⟩
    let d : Config := { (default : Config) with
      Nodes := some ⟨[(a, some ⟨0, a, true, none⟩), (b, some ⟨1, b, false, some []⟩)], by decide⟩ }
    let fs : FileSys := ⟨fun _ ↦ none, fun _ ↦ true⟩
    fs.writable "data" = true ∧ (storeConfig fs "data" d).1 = none ∧
      (loadConfig (storeConfig fs "data" d).2 "data" default).1 = none ∧
      (loadConfig (storeConfig fs "data" d).2 "data" default).2.Equiv d := by
  intro a b d fs
  exact ⟨rfl, loadConfig_storeConfig fs "data" d rfl⟩

/-- Loaded into a `Global` that already holds `g`, a stored descriptor whose
`Nodes` is the map `m` adds its nodes to those of `g`: a node of `g` under a key
that `m` does not hold survives the load. -/
theorem loadConfig_storeConfig_merges (fs : FileSys) (dataDir : String) (g d : Config)
    (m : GoMap Address (Option Node)) (hw : fs.writable dataDir = true) (hd : d.Nodes = some m)
    (k : Address) :
    (loadConfig (storeConfig fs dataDir d).2 dataDir g).2.Nodes.bind (·.get? k) =
      (m.get? k).or (g.Nodes.bind (·.get? k)) := by
  rw [(loadConfig_after_store fs dataDir g d hw).2]
  cases hg : g.Nodes <;> simp [storedInto, hd, hg, get?_setSorted]

theorem loadConfig_storeConfig_merges_kept :
    let a : Address := default
    let g : Config := { (default : Config) with Nodes := some (GoMap.empty.set a (some default)) }
    let d : Config := { (default : Config) with Nodes := some GoMap.empty }
    let fs : FileSys := ⟨fun _ ↦ none, fun _ ↦ true⟩
    fs.writable "data" = true ∧ d.Nodes = some GoMap.empty ∧
      (loadConfig (storeConfig fs "data" d).2 "data" g).2.Nodes.bind (·.get? a) =
        ((GoMap.empty : GoMap Address (Option Node)).get? a).or (g.Nodes.bind (·.get? a)) :=
  ⟨rfl, rfl, loadConfig_storeConfig_merges ⟨fun _ ↦ none, fun _ ↦ true⟩ "data"
    { (default : Config) with Nodes := some (GoMap.empty.set default (some default)) }
    { (default : Config) with Nodes := some GoMap.empty } GoMap.empty rfl rfl default⟩

/-! ## `config.json` does not depend on the order of the map

A Go map has no order, while a `GoMap` lists its entries in one.  `Marshal`
sorts the keys of a map by their text, so what `StoreConfig` writes depends on
the descriptor as a Go value only. -/

/-- The text of an address determines it. -/
theorem hexText_injective : Function.Injective Address.hexText := fun a b h ↦ by
  have hb := unmarshalFixedText_hexText b
  rw [← h, unmarshalFixedText_hexText] at hb
  exact Except.ok.inj hb

/-- The entries of a map in key order are strictly ascending: sorted by text,
and no two keys have the same text. -/
theorem sorted_mergeSort_keyLe (m : GoMap Address (Option Node)) :
    (m.entries.mergeSort keyLe).Sorted fun a b ↦ a.1.hexText < b.1.hexText := by
  have hle : (m.entries.mergeSort keyLe).Pairwise fun a b ↦ keyLe a b := List.sorted_mergeSort
    (fun a b c hab hbc ↦ by simp only [keyLe, decide_eq_true_eq] at *; exact le_trans hab hbc)
    (fun a b ↦ by simpa [keyLe] using le_total a.1.hexText b.1.hexText) m.entries
  have hkeys : ((m.entries.mergeSort keyLe).map Prod.fst).Nodup :=
    (((List.mergeSort_perm _ _).map Prod.fst).nodup_iff).mpr m.nodup_keys
  exact (hle.and (List.pairwise_map.mp hkeys)).imp fun ⟨hab, hne⟩ ↦
    lt_of_le_of_ne (by simpa [keyLe] using hab) (hexText_injective.ne hne)

/-- Two maps with the same entry under every key have the same entries in key
order, whatever order each lists them in. -/
theorem mergeSort_keyLe_eq {m m' : GoMap Address (Option Node)} (h : ∀ k, m.get? k = m'.get? k) :
    m.entries.mergeSort keyLe = m'.entries.mergeSort keyLe := by
  have hperm : m.entries.Perm m'.entries :=
    (List.perm_ext_iff_of_nodup (m.nodup_keys.of_map _) (m'.nodup_keys.of_map _)).mpr fun ⟨k, v⟩ ↦ by
      rw [← GoMap.get?_eq_some_iff, ← GoMap.get?_eq_some_iff, h]
  haveI : IsAntisymm (Address × Option Node) fun a b ↦ a.1.hexText < b.1.hexText :=
    ⟨fun _ _ h h' ↦ absurd h' (lt_asymm h)⟩
  exact List.eq_of_perm_of_sorted
    (((List.mergeSort_perm _ _).trans hperm).trans (List.mergeSort_perm _ _).symm)
    (sorted_mergeSort_keyLe m) (sorted_mergeSort_keyLe m')

/-- Descriptors equal as Go values have the same encoding. -/
theorem encodeConfig_of_equiv {g g' : Config} (h : g.Equiv g') : encodeConfig g = encodeConfig g' := by
  have hnodes : encodeNodes g.Nodes = encodeNodes g'.Nodes := by
    have hsome := h.nodes_isSome
    rcases hg : g.Nodes with _ | m <;> rcases hg' : g'.Nodes with _ | m' <;>
      simp only [hg, hg', Option.isSome_none, Option.isSome_some, Bool.false_eq_true,
        Bool.true_eq_false] at hsome
    · rfl
    · have hget : ∀ k, m.get? k = m'.get? k := fun k ↦ by simpa [hg, hg'] using h.nodes_get? k
      simp only [encodeNodes, mergeSort_keyLe_eq hget]
  obtain ⟨p, mi, ma, n, l, b⟩ := g
  obtain ⟨p', mi', ma', n', l', b'⟩ := g'
  obtain ⟨rfl, rfl, rfl, rfl, rfl, -, -⟩ := h
  simp only [encodeConfig, ConfigField.all, List.map, encodeConfigField]
  rw [hnodes]

/-- **`config.json` is a function of the descriptor as a Go value.**  Two
`Global`s equal as Go values (the same scalar fields, and `Nodes` nil in both
or maps with the same node under every key, listed in any order) make
`StoreConfig` return the same error and write the same bytes.  In particular a
descriptor loaded from a `config.json` that `StoreConfig` wrote is stored back
as the very same file. -/
theorem storeConfig_of_equiv (fs : FileSys) (dataDir : String) (g g' : Config) (h : g.Equiv g') :
    storeConfig fs dataDir g = storeConfig fs dataDir g' ∧
      (fs.writable dataDir = true →
        let fs' := (storeConfig fs dataDir g).2
        storeConfig fs' dataDir (loadConfig fs' dataDir default).2 = storeConfig fs' dataDir g) := by
  refine ⟨by simp only [storeConfig, encodeConfig_of_equiv h], fun hw ↦ ?_⟩
  -- the loaded descriptor is `g` as a Go value
  have hequiv : (storedInto default g).Equiv g := by
    obtain ⟨_, _, _, nodes, _, _⟩ := g
    refine ⟨rfl, rfl, rfl, rfl, rfl, by cases nodes <;> rfl, fun k ↦ ?_⟩
    cases nodes with
    | none => rfl
    | some m => simp [storedInto, get?_setSorted]
  show storeConfig _ dataDir (loadConfig (storeConfig fs dataDir g).2 dataDir default).2 = _
  rw [(loadConfig_after_store fs dataDir default g hw).2]
  simp only [storeConfig, encodeConfig_of_equiv hequiv]

/-- `storeConfig_of_equiv` on one map listed in both orders: the same error where
the directory cannot be written, and the same bytes, stored back unchanged after
a load, where it can. -/
theorem storeConfig_of_equiv_swapped :
    let a : Address := default
    let b : Address := ⟨List.replicate 20 1, List.length_replicate 20 1⟩
    let g : Config := { (default : Config) with Nodes := some ⟨[(a, none), (b, some default)], by decide⟩ }
    let g' : Config := { (default : Config) with Nodes := some ⟨[(b, some default), (a, none)], by decide⟩ }
    let fs : FileSys := ⟨fun _ ↦ none, fun _ ↦ true⟩
    let fs₀ : FileSys := ⟨fun _ ↦ none, fun _ ↦ false⟩
    g.Equiv g' ∧ storeConfig fs₀ "data" g = storeConfig fs₀ "data" g' ∧ fs.writable "data" = true ∧
      storeConfig fs "data" g = storeConfig fs "data" g' ∧
      let fs' := (storeConfig fs "data" g).2
      storeConfig fs' "data" (loadConfig fs' "data" default).2 = storeConfig fs' "data" g := by
  intro a b g g' fs fs₀
  have h : g.Equiv g' := ⟨rfl, rfl, rfl, rfl, rfl, rfl, fun k ↦ ?_⟩
  · have hw := storeConfig_of_equiv fs "data" g g' h
    exact ⟨h, (storeConfig_of_equiv fs₀ "data" g g' h).1, rfl, hw.1, hw.2 rfl⟩
  by_cases ha : k = a
  · subst ha; decide
  · by_cases hb : k = b
    · subst hb; decide
    · simp [g, g', GoMap.get?, Ne.symm ha, Ne.symm hb]

/-! ## A failed load -/

/-- The members `Marshal` writes for `d`, then `"Period": true`. -/
def mistypedTail (d : Config) : Value :=
  .obj ((ConfigField.all.map fun f ↦ (encodeString f.name, encodeConfigField d f)) ++
    [(encodeString "Period", .bool true)])

theorem parseJson_mistypedTail (d : Config) :
    parseJson (marshalIndent (mistypedTail d)) = some (mistypedTail d) := by
  obtain ⟨hk, hv⟩ := printable_configMembers d
  refine parseJson_marshalIndent (.obj (by decide) ?_ ?_)
  · simp only [List.mem_append, List.mem_singleton]
    rintro m (hm | rfl)
    exacts [hk m hm, strBody_of_plain (by decide)]
  · simp only [List.mem_append, List.mem_singleton]
    rintro m (hm | rfl)
    exacts [hv m hm, .bool true]

/-- **A failed load keeps what it decoded.** A stored descriptor `d` followed by a
mistyped `"Period"` member: `LoadConfig` returns the type error, yet `Global`
already holds all of `d`, and `ethemu` and `initGenesis` go on to create the nodes
of that `Global`. -/
theorem loadConfig_mistyped_tail (fs : FileSys) (dataDir : String) (g d : Config)
    (hfile : fs.configJson dataDir = some (marshalIndent (mistypedTail d))) :
    loadConfig fs dataDir g =
        (some (.unmarshalType ⟨"bool", "uint64", "Config", "Period"⟩), storedInto g d) ∧
      ethemu fs dataDir g = ((storedInto g d).Nodes.map GoMap.entries).getD [] ∧
      initGenesis fs dataDir g = ((storedInto g d).Nodes.map GoMap.entries).getD [] := by
  have hload : loadConfig fs dataDir g =
      (some (.unmarshalType ⟨"bool", "uint64", "Config", "Period"⟩), storedInto g d) := by
    have hkey : lookupField ConfigField.all ConfigField.name (unquote (encodeString "Period")) =
        some .Period := lookupField_config .Period
    simp only [loadConfig, hfile, unmarshal, parseJson_mistypedTail]
    simp only [mistypedTail, decodeConfig, decodeMembers_encodeConfig]
    simp [decodeMembers, decodeConfigMember, hkey, decodeConfigField, decodeUint64, Decoded.save,
      Decoded.map, Decoded.andThen, Decoded.ok, valueKind, ConfigField.name]
  exact ⟨hload, by simp [ethemu, rangeAfterLoad, hload], by simp [initGenesis, rangeAfterLoad, hload]⟩

theorem loadConfig_mistyped_tail_one_node :
    let d : Config := { (default : Config) with Nodes := some (GoMap.empty.set default (some default)) }
    let fs : FileSys := ⟨fun _ ↦ some (marshalIndent (mistypedTail d)), fun _ ↦ true⟩
    fs.configJson "data" = some (marshalIndent (mistypedTail d)) ∧
      loadConfig fs "data" default =
          (some (.unmarshalType ⟨"bool", "uint64", "Config", "Period"⟩), storedInto default d) ∧
        ethemu fs "data" default = ((storedInto default d).Nodes.map GoMap.entries).getD [] ∧
        initGenesis fs "data" default = ((storedInto default d).Nodes.map GoMap.entries).getD [] :=
  ⟨rfl, loadConfig_mistyped_tail _ "data" default _ rfl⟩

end EthEmu.Emu
