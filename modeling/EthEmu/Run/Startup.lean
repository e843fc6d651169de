import EthEmu.Emu.AddrById
import EthEmu.Emu.Store
import EthEmu.Gen.Density

/-!
# `ethemu` starting the roster `gen` wrote

After `emu.LoadConfig(dataDir)`, `ethemu` goes twice over `emu.Global.Nodes`:

```go
nodes := make(map[common.Address]*node.Node)
for _, node := range emu.Global.Nodes {
	stack, eth, backend := makeFullNode(ctx, node)
	nodes[node.Address] = stack
	...
}
for _, node := range emu.Global.Nodes {
	for _, peer := range node.Peers {
		nodes[node.Address].Server().AddPeer(nodes[peer].Server().Self())
	}
}
```

A nil `*Node` panics (its fields are read), and so does a peer whose address
has no stack: `nodes[peer]` is then a nil `*node.Node`.  The result here is the
whole pipeline of the emulator's set-up: `gen` builds a roster, `StoreConfig`
writes it, a fresh `ethemu` process loads it, and the wiring never panics and
adds exactly the edges `setPeers` chose, whatever order either `range` loop takes.

The later `gen` peers its roster by the density `setPeers`; on that roster too
the wiring never panics, calls `AddPeer` from both ends of each link whose draw
hit and from no other pair, and repeats no call.

`initGenesis` loads the same descriptor and ranges over it to fill
`genesis.Alloc[node.Address]`; on the stored roster that allocation funds
exactly the accounts `gen` created.  And `emu.GetAddrById`, ranging over the
same map, finds node `i` under its name `emu%06d`, the name `setId` gave it.

## Honest boundary

* The stacks themselves (`makeFullNode`, `startNode`) are outside the model;
  a stack is known by the address it was stored under.
* A panicking run is `none`: the `AddPeer` calls made before the panic are not
  kept.
* Of the genesis only `Alloc` is modelled; its second loop (one database and
  `SetupGenesisBlock` per node) is outside the model.
-/

namespace EthEmu.Run

open EthEmu.Emu EthEmu.Gen

/-- The two loops above over the orders `first` and `second` the `range` loops
take: the `AddPeer` calls, as the pairs (node, peer) of addresses, or `none`
for a panic. -/
def ethemuStart (first second : List (Address × Option Node)) : Option (List (Address × Address)) :=
  if first.all (·.2.isSome) then
    let started := first.filterMap fun e ↦ e.2.map Node.Address
    let calls := (second.filterMap (·.2)).flatMap fun n ↦ (sliceElems n.Peers).map fun p ↦ (n.Address, p)
    if second.all (·.2.isSome) && calls.all (fun c ↦ decide (c.1 ∈ started ∧ c.2 ∈ started)) then
      some calls
    else none
  else none

/-! ## Any stored roster

What `ethemu` does with a stored roster depends on its nodes only: these
lemmas serve both versions of `gen`. -/

section Roster

variable {n : Nat} {nodes : Nat → Node}

/-- What a fresh process ranges over after `StoreConfig` of a descriptor whose
`Nodes` holds the `n` nodes `nodes`, of distinct addresses: those nodes, in some
order. -/
theorem rangeAfterLoad_rosterMap {d : Config} {fs : FileSys} {dataDir : String}
    (hd : d.Nodes = some (rosterMap n nodes))
    (hdist : ∀ i < n, ∀ j < n, (nodes i).Address = (nodes j).Address → i = j)
    (hw : fs.writable dataDir = true) :
    (rangeAfterLoad (storeConfig fs dataDir d).2 dataDir default).Perm
      ((List.range n).map fun i ↦ ((nodes i).Address, some (nodes i))) := by
  have hsorted := List.mergeSort_perm (rosterMap n nodes).entries keyLe
  have hnodup := ((hsorted.map Prod.fst).nodup_iff).mpr (rosterMap n nodes).nodup_keys
  simp only [rangeAfterLoad, (loadConfig_after_store fs dataDir default _ hw).2, storedInto, hd,
    Option.map_some', Config.default_Nodes, Option.getD_none, Option.getD_some]
  rw [GoMap.entries_foldl_set _ _ (by simpa [GoMap.empty] using hnodup)]
  simpa [GoMap.empty, rosterMap_entries hdist] using hsorted

variable {l : List (Address × Option Node)}
  (hl : l.Perm ((List.range n).map fun i ↦ ((nodes i).Address, some (nodes i))))
include hl

/-- No entry of the roster is a nil `*Node`. -/
theorem all_isSome_roster : l.all (·.2.isSome) = true :=
  List.all_eq_true.mpr fun e he ↦ by
    obtain ⟨i, -, rfl⟩ := List.mem_map.mp (hl.mem_iff.mp he)
    rfl

/-- The first loop stores a stack under the address of every node. -/
theorem mem_started_roster (x : Address) :
    x ∈ l.filterMap (fun e ↦ e.2.map Node.Address) ↔ ∃ i < n, x = (nodes i).Address := by
  simp only [List.mem_filterMap, hl.mem_iff, List.mem_map, List.mem_range]
  constructor
  · rintro ⟨_, ⟨i, hi, rfl⟩, h⟩
    exact ⟨i, hi, (Option.some.inj h).symm⟩
  · rintro ⟨i, hi, rfl⟩
    exact ⟨_, ⟨i, hi, rfl⟩, rfl⟩

/-- The second loop calls `AddPeer(node, peer)` for every peer every node lists. -/
theorem mem_calls_roster (a b : Address) :
    (a, b) ∈ (l.filterMap (·.2)).flatMap (fun m ↦ (sliceElems m.Peers).map fun p ↦ (m.Address, p)) ↔
      ∃ i < n, a = (nodes i).Address ∧ b ∈ sliceElems (nodes i).Peers := by
  simp only [List.mem_flatMap, List.mem_filterMap, hl.mem_iff, List.mem_map, List.mem_range,
    Prod.mk.injEq]
  constructor
  · rintro ⟨_, ⟨_, ⟨i, hi, rfl⟩, h⟩, p, hp, rfl, rfl⟩
    cases h
    exact ⟨i, hi, rfl, hp⟩
  · rintro ⟨i, hi, rfl, hb⟩
    exact ⟨_, ⟨_, ⟨i, hi, rfl⟩, rfl⟩, b, hb, rfl, rfl⟩

/-- When every peer is a roster node, neither loop panics, whatever the orders
they take: the start-up makes the calls of the second loop. -/
theorem ethemuStart_roster {l' : List (Address × Option Node)}
    (hl' : l'.Perm ((List.range n).map fun i ↦ ((nodes i).Address, some (nodes i))))
    (hpeers : ∀ i < n, ∀ b ∈ sliceElems (nodes i).Peers, ∃ j < n, b = (nodes j).Address) :
    ethemuStart l l' =
      some ((l'.filterMap (·.2)).flatMap fun m ↦ (sliceElems m.Peers).map fun p ↦ (m.Address, p)) := by
  simp only [ethemuStart, all_isSome_roster hl, all_isSome_roster hl', ↓reduceIte, Bool.true_and]
  rw [if_pos]
  refine List.all_eq_true.mpr fun ⟨a, b⟩ hc ↦ ?_
  obtain ⟨i, hi, rfl, hb⟩ := (mem_calls_roster hl' a b).mp hc
  obtain ⟨j, hj, rfl⟩ := hpeers i hi b hb
  exact decide_eq_true ⟨(mem_started_roster hl _).mpr ⟨i, hi, rfl⟩,
    (mem_started_roster hl _).mpr ⟨j, hj, rfl⟩⟩

/-- With distinct addresses and duplicate-free peer lists, the second loop makes
no `AddPeer` call twice. -/
theorem calls_nodup_roster (hdist : ∀ i < n, ∀ j < n, (nodes i).Address = (nodes j).Address → i = j)
    (hnodup : ∀ i < n, (sliceElems (nodes i).Peers).Nodup) :
    ((l.filterMap (·.2)).flatMap fun m ↦ (sliceElems m.Peers).map fun p ↦ (m.Address, p)).Nodup := by
  have hperm : (l.filterMap (·.2)).Perm ((List.range n).map nodes) := by
    have h := hl.filterMap (·.2)
    rwa [List.filterMap_map, show ((·.2) ∘ fun i ↦ ((nodes i).Address, some (nodes i))) = some ∘ nodes
      from rfl, List.filterMap_eq_map] at h
  -- the nodes the loop visits have distinct addresses
  have haddr : ((l.filterMap (·.2)).map Node.Address).Nodup := by
    rw [(hperm.map _).nodup_iff, List.map_map]
    exact (List.nodup_range n).map_on fun i hi j hj h ↦
      hdist i (List.mem_range.mp hi) j (List.mem_range.mp hj) h
  refine List.nodup_flatMap.mpr ⟨fun m hm ↦ ?_, (List.pairwise_map.mp haddr).imp fun hne ↦ ?_⟩
  · obtain ⟨i, hi, rfl⟩ : ∃ i < n, nodes i = m := by
      simpa using hperm.mem_iff.mp hm
    exact (hnodup i hi).map fun _ _ h ↦ (Prod.mk.inj h).2
  · simp only [Function.onFun, List.disjoint_left, List.mem_map]
    rintro _ ⟨_, _, rfl⟩ ⟨_, _, h⟩
    exact hne (Prod.mk.inj h).1.symm

end Roster

section Generated

variable {n : Nat} {accounts : Nat → Address} {miners : Finset Nat} {it : SetIter}
  {peers : Nat → Finset Nat}

/-- The nodes of the roster before `setPeers` writes the peer lists. -/
theorem generated_fresh (i : Nat) :
    (setMinerFlags miners (setAddr accounts (setId fun _ ↦ default)) i).Peers = none := rfl

/-- What a fresh `ethemu` process ranges over after `gen` stored `d`: the roster,
in some order. -/
theorem rangeAfterLoad_generated {blockTime minTx maxTx : Int} {d : Config} {fs : FileSys}
    {dataDir : String} (hgen : generateConfig n accounts miners it peers blockTime minTx maxTx = some d)
    (hdist : ∀ i < n, ∀ j < n, accounts i = accounts j → i = j) (hw : fs.writable dataDir = true) :
    (rangeAfterLoad (storeConfig fs dataDir d).2 dataDir default).Perm
      ((List.range n).map fun i ↦ (accounts i, some (generateNodes n accounts miners it peers i))) := by
  obtain ⟨⟨period, minI, maxI⟩, -, rfl⟩ := Option.map_eq_some'.mp hgen
  simpa using @rangeAfterLoad_rosterMap n (generateNodes n accounts miners it peers) _ fs dataDir rfl
    (by simpa using hdist) hw

/-- The entries of any order a `range` loop over the stored roster takes. -/
theorem mem_of_perm_rangeAfterLoad {blockTime minTx maxTx : Int} {d : Config} {fs : FileSys}
    {dataDir : String} (hgen : generateConfig n accounts miners it peers blockTime minTx maxTx = some d)
    (hdist : ∀ i < n, ∀ j < n, accounts i = accounts j → i = j) (hw : fs.writable dataDir = true)
    {l : List (Address × Option Node)} (hl : l.Perm (rangeAfterLoad (storeConfig fs dataDir d).2 dataDir default))
    (e : Address × Option Node) :
    e ∈ l ↔ ∃ i < n, e = (accounts i, some (generateNodes n accounts miners it peers i)) := by
  rw [(hl.trans (rangeAfterLoad_generated hgen hdist hw)).mem_iff, List.mem_map]
  simp only [List.mem_range, eq_comm]

/-- The peer list `setPeers` wrote for node `i`: the accounts of its peers. -/
theorem mem_peers_generateNodes {i : Nat} (hi : i < n) (b : Address) :
    b ∈ sliceElems (generateNodes n accounts miners it peers i).Peers ↔ ∃ q ∈ peers i, b = accounts q := by
  rw [generateNodes, sliceElems_writePeers (fun i _ ↦ generated_fresh i) hi]
  simp [it.mem_enum, setMinerFlags, setAddr, eq_comm]

/-! ### One order of the roster -/

variable {l : List (Address × Option Node)}
  (hl : ∀ e, e ∈ l ↔ ∃ i < n, e = (accounts i, some (generateNodes n accounts miners it peers i)))
include hl

/-- No entry of the roster is a nil `*Node`. -/
theorem all_isSome_generated : l.all (·.2.isSome) = true :=
  List.all_eq_true.mpr fun e he ↦ by
    obtain ⟨i, -, rfl⟩ := (hl e).mp he
    rfl

/-- The first loop stores a stack under the account of every node. -/
theorem mem_started_generated (x : Address) :
    x ∈ l.filterMap (fun e ↦ e.2.map Node.Address) ↔ ∃ i < n, x = accounts i := by
  simp only [List.mem_filterMap, Option.map_eq_some', hl]
  constructor
  · rintro ⟨_, ⟨i, hi, rfl⟩, _, h, rfl⟩
    cases h
    exact ⟨i, hi, by simp⟩
  · rintro ⟨i, hi, rfl⟩
    exact ⟨_, ⟨i, hi, rfl⟩, _, rfl, by simp⟩

/-- The second loop calls `AddPeer` once for every edge `setPeers` chose. -/
theorem mem_calls_generated (a b : Address) :
    (a, b) ∈ (l.filterMap (·.2)).flatMap (fun m ↦ (sliceElems m.Peers).map fun p ↦ (m.Address, p)) ↔
      ∃ i < n, ∃ j ∈ peers i, a = accounts i ∧ b = accounts j := by
  simp only [List.mem_flatMap, List.mem_filterMap, hl, List.mem_map, Prod.mk.injEq]
  constructor
  · rintro ⟨_, ⟨_, ⟨i, hi, rfl⟩, h⟩, p, hp, rfl, rfl⟩
    cases h
    obtain ⟨q, hq, rfl⟩ := (mem_peers_generateNodes hi p).mp hp
    exact ⟨i, hi, q, hq, by simp, rfl⟩
  · rintro ⟨i, hi, q, hq, rfl, rfl⟩
    exact ⟨_, ⟨_, ⟨i, hi, rfl⟩, rfl⟩, _, (mem_peers_generateNodes hi _).mpr ⟨q, hq, rfl⟩, by simp, rfl⟩

/-- `GetAddrById` over the roster: the name of node `i` gives its account, and a
name no node has gives `ErrAddrNotFound`. -/
theorem getAddrById_generated (hn : n ≤ 2 ^ 64) :
    (∀ i < n, getAddrById l (emuName (UInt64.ofNat i)) = some (accounts i, none)) ∧
    ∀ id, (∀ i < n, emuName (UInt64.ofNat i) ≠ id) →
      getAddrById l id = some (default, some errAddrNotFound) := by
  simp only [getAddrById_of_all_isSome (all_isSome_generated hl)]
  refine ⟨fun i hi ↦ ?_, fun id hid ↦ ?_⟩
  · suffices hfind : l.find? (hasName (emuName (UInt64.ofNat i))) =
        some (accounts i, some (generateNodes n accounts miners it peers i)) by rw [hfind]; rfl
    refine (find?_eq_some_of_unique ?_).mpr ⟨(hl _).mpr ⟨i, hi, rfl⟩, by simp [hasName]⟩
    intro x hx y hy hnx hny
    obtain ⟨a, ha, rfl⟩ := (hl x).mp hx
    obtain ⟨b, hb, rfl⟩ := (hl y).mp hy
    simp only [hasName, generateNodes_identity, Option.any_some, decide_eq_true_eq] at hnx hny
    -- `setId` numbered at most `2^64` nodes: no two share an identity
    have hab := congrArg UInt64.toNat (emuName_injective (hnx.trans hny.symm))
    rw [UInt64.toNat_ofNat_of_lt (show a < 2 ^ 64 by omega),
      UInt64.toNat_ofNat_of_lt (show b < 2 ^ 64 by omega)] at hab
    rw [hab]
  · rw [List.find?_eq_none.mpr fun x hx ↦ ?_]
    · rfl
    obtain ⟨a, ha, rfl⟩ := (hl x).mp hx
    simpa [hasName] using hid a ha

end Generated

/-- **Start-up of the generated roster.** Whatever `gen` drew, once it stored a
roster with distinct accounts whose peer sets stay within the roster, a fresh
`ethemu` on that data directory wires the peers without a panic, for any orders
of its two `range` loops, and adds exactly the edges `setPeers` chose. -/
theorem ethemu_wires_generated_roster (n : Nat) (accounts : Nat → Address) (miners : Finset Nat)
    (it : SetIter) (peers : Nat → Finset Nat) (blockTime minTx maxTx : Int) (d : Config)
    (fs : FileSys) (dataDir : String)
    (hgen : generateConfig n accounts miners it peers blockTime minTx maxTx = some d)
    (hdist : ∀ i < n, ∀ j < n, accounts i = accounts j → i = j)
    (hpeers : ∀ i < n, ∀ j ∈ peers i, j < n) (hw : fs.writable dataDir = true)
    (first second : List (Address × Option Node))
    (h₁ : first.Perm (rangeAfterLoad (storeConfig fs dataDir d).2 dataDir default))
    (h₂ : second.Perm (rangeAfterLoad (storeConfig fs dataDir d).2 dataDir default)) :
    ∃ calls, ethemuStart first second = some calls ∧
      ∀ a b, (a, b) ∈ calls ↔ ∃ i < n, ∃ j ∈ peers i, a = accounts i ∧ b = accounts j := by
  have hm₁ := mem_of_perm_rangeAfterLoad hgen hdist hw h₁
  have hm₂ := mem_of_perm_rangeAfterLoad hgen hdist hw h₂
  refine ⟨_, ?_, mem_calls_generated hm₂⟩
  simp only [ethemuStart, all_isSome_generated hm₁, all_isSome_generated hm₂, ↓reduceIte,
    Bool.true_and]
  rw [if_pos]
  refine List.all_eq_true.mpr fun ⟨a, b⟩ hc ↦ ?_
  obtain ⟨i, hi, j, hj, rfl, rfl⟩ := (mem_calls_generated hm₂ a b).mp hc
  exact decide_eq_true ⟨(mem_started_generated hm₁ _).mpr ⟨i, hi, rfl⟩,
    (mem_started_generated hm₁ _).mpr ⟨j, hpeers i hi j hj, rfl⟩⟩

theorem ethemu_wires_generated_roster_two :
    let accounts : Nat → Address := fun i ↦
      if i = 0 then default else ⟨List.replicate 20 1, List.length_replicate 20 1⟩
    let peers : Nat → Finset Nat := fun i ↦ if i = 0 then {1} else {0}
    let d := (generateConfig 2 accounts ∅ .ascending peers 1 1 1).getD default
    let fs : FileSys := ⟨fun _ ↦ none, fun _ ↦ true⟩
    let r := rangeAfterLoad (storeConfig fs "data" d).2 "data" default
    generateConfig 2 accounts ∅ .ascending peers 1 1 1 = some d ∧
      (∀ i < 2, ∀ j < 2, accounts i = accounts j → i = j) ∧ (∀ i < 2, ∀ j ∈ peers i, j < 2) ∧
      fs.writable "data" = true ∧
      ∃ calls, ethemuStart r r = some calls ∧
        ∀ a b, (a, b) ∈ calls ↔ ∃ i < 2, ∃ j ∈ peers i, a = accounts i ∧ b = accounts j := by
  intro accounts peers d fs r
  have hgen : generateConfig 2 accounts ∅ .ascending peers 1 1 1 = some d := rfl
  have hdist : ∀ i < 2, ∀ j < 2, accounts i = accounts j → i = j := by decide
  have hpeers : ∀ i < 2, ∀ j ∈ peers i, j < 2 := by decide
  exact ⟨hgen, hdist, hpeers, rfl, ethemu_wires_generated_roster 2 accounts ∅ .ascending peers 1 1 1 d fs
    "data" hgen hdist hpeers rfl r r (.refl _) (.refl _)⟩

/-! ## `initGenesis` pre-funds the roster -/

/-- `new(big.Int).Lsh(big.NewInt(1), 256-7)`: the balance of every node's account
in the genesis block. -/
def genesisBalance : Nat := 1 <<< (256 - 7)

/-- The first loop of `initGenesis` over the order `order` its `range` takes:
`genesis.Alloc[node.Address]` gets `genesisBalance` for each node, and a nil
`*Node` panics (`none`). -/
def genesisAlloc (order : List (Address × Option Node)) : Option (GoMap Address Nat) :=
  order.foldlM (fun alloc e ↦ e.2.map fun node ↦ alloc.set node.Address genesisBalance) .empty

/-- With no nil `*Node` the loop sets the addresses of the nodes in turn. -/
theorem foldlM_alloc_of_all_isSome {l : List (Address × Option Node)} (h : l.all (·.2.isSome))
    (m : GoMap Address Nat) :
    l.foldlM (fun alloc e ↦ e.2.map fun node ↦ alloc.set node.Address genesisBalance) m =
      some ((l.filterMap fun e ↦ e.2.map Node.Address).foldl (fun m k ↦ m.set k genesisBalance) m) := by
  induction l generalizing m with
  | nil => rfl
  | cons e l ih =>
    simp only [List.all_cons, Bool.and_eq_true] at h
    obtain ⟨node, he⟩ := Option.isSome_iff_exists.mp h.1
    simp [he, ih h.2]

/-- **Genesis of the generated roster.** Once `gen` stored a roster with distinct
accounts, `initGenesis` on that data directory builds its allocation without a
panic, whatever order its `range` takes, and the allocation funds exactly the
accounts of the nodes, each with `2^249` wei. -/
theorem initGenesis_funds_generated_roster (n : Nat) (accounts : Nat → Address) (miners : Finset Nat)
    (it : SetIter) (peers : Nat → Finset Nat) (blockTime minTx maxTx : Int) (d : Config)
    (fs : FileSys) (dataDir : String)
    (hgen : generateConfig n accounts miners it peers blockTime minTx maxTx = some d)
    (hdist : ∀ i < n, ∀ j < n, accounts i = accounts j → i = j) (hw : fs.writable dataDir = true)
    (order : List (Address × Option Node))
    (h : order.Perm (rangeAfterLoad (storeConfig fs dataDir d).2 dataDir default)) :
    ∃ alloc, genesisAlloc order = some alloc ∧
      ∀ a b, alloc.get? a = some b ↔ b = 2 ^ 249 ∧ ∃ i < n, a = accounts i := by
  have hm := mem_of_perm_rangeAfterLoad hgen hdist hw h
  refine ⟨_, foldlM_alloc_of_all_isSome (all_isSome_generated hm) _, fun a b ↦ ?_⟩
  rw [GoMap.get?_foldl_set_const, GoMap.get?_empty, ← mem_started_generated hm]
  split_ifs with ha <;> simp [ha, genesisBalance, Nat.one_shiftLeft, eq_comm]

theorem initGenesis_funds_generated_roster_two :
    let accounts : Nat → Address := fun i ↦
      if i = 0 then default else ⟨List.replicate 20 1, List.length_replicate 20 1⟩
    let peers : Nat → Finset Nat := fun i ↦ if i = 0 then {1} else {0}
    let d := (generateConfig 2 accounts ∅ .ascending peers 1 1 1).getD default
    let fs : FileSys := ⟨fun _ ↦ none, fun _ ↦ true⟩
    let r := rangeAfterLoad (storeConfig fs "data" d).2 "data" default
    generateConfig 2 accounts ∅ .ascending peers 1 1 1 = some d ∧
      (∀ i < 2, ∀ j < 2, accounts i = accounts j → i = j) ∧ fs.writable "data" = true ∧
      ∃ alloc, genesisAlloc r = some alloc ∧
        ∀ a b, alloc.get? a = some b ↔ b = 2 ^ 249 ∧ ∃ i < 2, a = accounts i := by
  intro accounts peers d fs r
  have hgen : generateConfig 2 accounts ∅ .ascending peers 1 1 1 = some d := rfl
  have hdist : ∀ i < 2, ∀ j < 2, accounts i = accounts j → i = j := by decide
  exact ⟨hgen, hdist, rfl, initGenesis_funds_generated_roster 2 accounts ∅ .ascending peers 1 1 1 d fs
    "data" hgen hdist rfl r (.refl _)⟩

/-! ## `GetAddrById` on the generated roster -/

/-- **The generated roster by name.**  Once `gen` stored a roster of at most
`2^64` nodes with distinct accounts, `GetAddrById` over the loaded roster, in
whatever order its `range` takes, returns for the name `emu%06d` of `i` the
account of node `i`, and `ErrAddrNotFound` for a name no node has. -/
theorem getAddrById_finds_generated_roster (n : Nat) (accounts : Nat → Address)
    (miners : Finset Nat) (it : SetIter) (peers : Nat → Finset Nat) (blockTime minTx maxTx : Int)
    (d : Config) (fs : FileSys) (dataDir : String)
    (hgen : generateConfig n accounts miners it peers blockTime minTx maxTx = some d)
    (hdist : ∀ i < n, ∀ j < n, accounts i = accounts j → i = j) (hw : fs.writable dataDir = true)
    (hn : n ≤ 2 ^ 64) (order : List (Address × Option Node))
    (h : order.Perm (rangeAfterLoad (storeConfig fs dataDir d).2 dataDir default)) :
    (∀ i < n, getAddrById order (emuName (UInt64.ofNat i)) = some (accounts i, none)) ∧
    ∀ id, (∀ i < n, emuName (UInt64.ofNat i) ≠ id) →
      getAddrById order id = some (default, some errAddrNotFound) :=
  getAddrById_generated (mem_of_perm_rangeAfterLoad hgen hdist hw h) hn

theorem getAddrById_finds_generated_roster_two :
    let accounts : Nat → Address := fun i ↦
      if i = 0 then default else ⟨List.replicate 20 1, List.length_replicate 20 1⟩
    let peers : Nat → Finset Nat := fun i ↦ if i = 0 then {1} else {0}
    let d := (generateConfig 2 accounts ∅ .ascending peers 1 1 1).getD default
    let fs : FileSys := ⟨fun _ ↦ none, fun _ ↦ true⟩
    let r := rangeAfterLoad (storeConfig fs "data" d).2 "data" default
    generateConfig 2 accounts ∅ .ascending peers 1 1 1 = some d ∧
      (∀ i < 2, ∀ j < 2, accounts i = accounts j → i = j) ∧ fs.writable "data" = true ∧
      2 ≤ 2 ^ 64 ∧
      (∀ i < 2, getAddrById r (emuName (UInt64.ofNat i)) = some (accounts i, none)) ∧
      ∀ id, (∀ i < 2, emuName (UInt64.ofNat i) ≠ id) →
        getAddrById r id = some (default, some errAddrNotFound) := by
  intro accounts peers d fs r
  have hgen : generateConfig 2 accounts ∅ .ascending peers 1 1 1 = some d := rfl
  have hdist : ∀ i < 2, ∀ j < 2, accounts i = accounts j → i = j := by decide
  exact ⟨hgen, hdist, rfl, by decide, getAddrById_finds_generated_roster 2 accounts ∅ .ascending peers
    1 1 1 d fs "data" hgen hdist rfl (by decide) r (.refl _)⟩

/-! ## `ethemu` on the density roster -/

/-- **Start-up of the density roster.**  For every roster the later `gen` builds
with pairwise distinct keystore accounts, whatever `PeerNum` and the draws, a
fresh `ethemu` on that data directory wires the peers without a panic, for any
orders of its two `range` loops.  It calls `AddPeer(accounts i, accounts j)`
exactly when `i ≠ j` and the draw for the pair `{i, j}` fell below `getPij`, so
each link is added from both of its ends, and it makes no call twice. -/
theorem ethemu_wires_density_roster (n : Nat) (accounts : Nat → Address) (peerNum : Int)
    (rng : Nat → Nat) (latency bandwidth : Int) (fs : FileSys) (dataDir : String)
    (hdist : ∀ i < n, ∀ j < n, accounts i = accounts j → i = j) (hw : fs.writable dataDir = true)
    (first second : List (Address × Option Node))
    (h₁ : first.Perm (rangeAfterLoad (storeConfig fs dataDir
      (generateConfigDensity n accounts peerNum rng latency bandwidth)).2 dataDir default))
    (h₂ : second.Perm (rangeAfterLoad (storeConfig fs dataDir
      (generateConfigDensity n accounts peerNum rng latency bandwidth)).2 dataDir default)) :
    ∃ calls, ethemuStart first second = some calls ∧ calls.Nodup ∧
      ∀ a b, (a, b) ∈ calls ↔ ∃ i < n, ∃ j < n, a = accounts i ∧ b = accounts j ∧ i ≠ j ∧
        ∃ idx, (densityPairs n)[idx]? = some (min i j, max i j) ∧
          densityHit n (Float.ofInt peerNum / Float.ofInt ((n : Int) - 1)) rng idx (min i j, max i j) := by
  have hfresh : ∀ i < n, (setAddr accounts (setId fun _ ↦ default) i).Peers = none := fun _ _ ↦ rfl
  -- the nodes keep their accounts and form a simple graph
  have hinv : DensityInv n accounts ([] ++ densityPairs n) (generateNodesDensity n accounts peerNum rng) :=
    DensityInv.foldl hdist _ rng (_, 0) (DensityInv.init hfresh) (by simpa using densityPairs_nodup n)
      fun p hp ↦ mem_densityPairs.mp hp
  have haddr : ∀ i, (generateNodesDensity n accounts peerNum rng i).Address = accounts i := hinv.address
  have hsym := hinv.symmetric hdist
  have hlinks := setPeersDensity_links n peerNum rng _ hfresh hdist
  have hdist' : ∀ i < n, ∀ j < n, (generateNodesDensity n accounts peerNum rng i).Address =
      (generateNodesDensity n accounts peerNum rng j).Address → i = j := by simpa [haddr] using hdist
  have hroster := rangeAfterLoad_rosterMap
    (d := generateConfigDensity n accounts peerNum rng latency bandwidth) rfl hdist' hw
  have hp₁ := h₁.trans hroster
  have hp₂ := h₂.trans hroster
  refine ⟨_, ethemuStart_roster hp₁ hp₂ fun i hi b hb ↦ ?_, calls_nodup_roster hp₂ hdist' hsym.nodup,
    fun a b ↦ ?_⟩
  · obtain ⟨j, hj, -, rfl⟩ := hsym.mem_roster i hi b hb
    exact ⟨j, hj, rfl⟩
  · rw [mem_calls_roster hp₂]
    constructor
    · rintro ⟨i, hi, rfl, hb⟩
      obtain ⟨j, hj, hji, rfl⟩ := hsym.mem_roster i hi b hb
      rw [haddr] at hb
      exact ⟨i, hi, j, hj, haddr i, haddr j, Ne.symm hji, (hlinks i hi j hj).mp hb⟩
    · rintro ⟨i, hi, j, hj, rfl, rfl, -, hhit⟩
      exact ⟨i, hi, (haddr i).symm, (hlinks i hi j hj).mpr hhit⟩

theorem ethemu_wires_density_roster_two :
    let accounts : Nat → Address := fun i ↦
      if i = 0 then default else ⟨List.replicate 20 1, List.length_replicate 20 1⟩
    let fs : FileSys := ⟨fun _ ↦ none, fun _ ↦ true⟩
    let r := rangeAfterLoad (storeConfig fs "data"
      (generateConfigDensity 2 accounts 1 (fun _ ↦ 0) 1 1)).2 "data" default
    (∀ i < 2, ∀ j < 2, accounts i = accounts j → i = j) ∧ fs.writable "data" = true ∧
      ∃ calls, ethemuStart r r = some calls ∧ calls.Nodup ∧
        ∀ a b, (a, b) ∈ calls ↔ ∃ i < 2, ∃ j < 2, a = accounts i ∧ b = accounts j ∧ i ≠ j ∧
          ∃ idx, (densityPairs 2)[idx]? = some (min i j, max i j) ∧
            densityHit 2 (Float.ofInt 1 / Float.ofInt ((2 : Nat) - 1 : Int)) (fun _ ↦ 0) idx
              (min i j, max i j) := by
  intro accounts fs r
  have hdist : ∀ i < 2, ∀ j < 2, accounts i = accounts j → i = j := by decide
  exact ⟨hdist, rfl, ethemu_wires_density_roster 2 accounts 1 (fun _ ↦ 0) 1 1 fs "data" hdist rfl
    r r (.refl _) (.refl _)⟩

end EthEmu.Run
