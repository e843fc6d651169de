import EthEmu.Gen.Miners
import EthEmu.Gen.Peers

/-!
# `generateConfig`

The `gen` command builds the roster and the run-wide parameters and hands them
to `StoreConfig`:

```go
nodes := make([]*emu.Node, num)
setId(nodes)
setAddr(ctx, nodes)
setMiners(ctx, nodes)
setPeers(ctx, nodes)
emu.Global.Period = uint64(ctx.Int(utils.BlockTimeFlag.Name))
emu.Global.MinTxInterval = emu.Global.Period * 1000 / uint64(ctx.Int(utils.MaxTxFlag.Name))
emu.Global.MaxTxInterval = emu.Global.Period * 1000 / uint64(ctx.Int(utils.MinTxFlag.Name))
emu.Global.Nodes = make(map[common.Address]*emu.Node)
for _, node := range nodes {
	emu.Global.Nodes[node.Address] = node
}
```

The keystore is external: `accounts i` is the address `keystore.StoreKey`
returns for node `i` (a failing `StoreKey` makes `generateConfig` return before
anything is stored).  The random outcomes of `setMiners` and `setPeers` are
inputs too, constrained by `MinersReach` and `PeersReach` where a result needs
them.  The flags are Go `int`s, read here as `Int`; `uint64(x)` wraps modulo
`2^64`, and a `uint64` division by zero panics (`none`).
-/

namespace EthEmu.Gen

open EthEmu.Emu

/-- Go's conversion `uint64(x)` of an `int`. -/
def goUint64 (x : Int) : UInt64 := UInt64.ofNat (x % 2 ^ 64).toNat

/-- A non-negative `int` below `2^64` keeps its value. -/
theorem toNat_goUint64 {x : Int} (h0 : 0 ≤ x) (hx : x < 2 ^ 64) : (goUint64 x).toNat = x.toNat := by
  have h : (x % 2 ^ 64).toNat < UInt64.size := by unfold UInt64.size; omega
  rw [goUint64, UInt64.toNat_ofNat_of_lt h]
  omega

/-- `Period`, `MinTxInterval` and `MaxTxInterval` from `BlockTimeFlag`,
`MinTxFlag` and `MaxTxFlag`; `none` when a division by zero panics. -/
def txIntervals (blockTime minTx maxTx : Int) : Option (UInt64 × UInt64 × UInt64) :=
  let period := goUint64 blockTime
  if goUint64 maxTx = 0 ∨ goUint64 minTx = 0 then none
  else some (period, period * 1000 / goUint64 maxTx, period * 1000 / goUint64 minTx)

/-- For `1 ≤ minTx ≤ maxTx` no division panics, and the two floor divisions of the
same (wrapped) `Period * 1000` are ordered: `MinTxInterval ≤ MaxTxInterval`. -/
theorem txIntervals_le {blockTime minTx maxTx : Int} (h1 : 1 ≤ minTx) (hle : minTx ≤ maxTx)
    (hmax : maxTx < 2 ^ 63) :
    ∃ minI maxI, txIntervals blockTime minTx maxTx = some (goUint64 blockTime, minI, maxI) ∧
      minI ≤ maxI := by
  have hmin' : (goUint64 minTx).toNat = minTx.toNat := toNat_goUint64 (by omega) (by omega)
  have hmax' : (goUint64 maxTx).toNat = maxTx.toNat := toNat_goUint64 (by omega) (by omega)
  have hne : ¬ (goUint64 maxTx = 0 ∨ goUint64 minTx = 0) := by
    rintro (h | h)
    · have h' := congrArg UInt64.toNat h; simp only [hmax', UInt64.toNat_zero] at h'; omega
    · have h' := congrArg UInt64.toNat h; simp only [hmin', UInt64.toNat_zero] at h'; omega
  refine ⟨_, _, if_neg hne, ?_⟩
  show (goUint64 blockTime * 1000 / goUint64 maxTx).toNat ≤
    (goUint64 blockTime * 1000 / goUint64 minTx).toNat
  rw [UInt64.toNat_div, UInt64.toNat_div]
  exact Nat.div_le_div_left (by omega) (by omega)

/-! ## The roster -/

/-- `setId`: `node.Identity = uint64(i)`. -/
def setId (nodes : Nat → Node) : Nat → Node := fun i ↦ { nodes i with Identity := UInt64.ofNat i }

/-- `setAddr`, `accounts i` being the address of the key stored for node `i`. -/
def setAddr (accounts : Nat → Address) (nodes : Nat → Node) : Nat → Node :=
  fun i ↦ { nodes i with Address := accounts i }

/-- The roster `generateConfig` builds from fresh nodes, given the keystore
addresses, the miner set `setMiners` drew, and the `peers` sets `setPeers` ended
with. -/
def generateNodes (n : Nat) (accounts : Nat → Address) (miners : Finset Nat) (it : SetIter)
    (peers : Nat → Finset Nat) : Nat → Node :=
  writePeers it n peers (setMinerFlags miners (setAddr accounts (setId fun _ ↦ default)))

/-- `Global.Nodes[node.Address] = node` for the `n` nodes in order. -/
def rosterMap (n : Nat) (nodes : Nat → Node) : GoMap Address (Option Node) :=
  (List.range n).foldl (fun m i ↦ m.set (nodes i).Address (some (nodes i))) .empty

/-- `Global` as `generateConfig` stores it from a fresh `gen` process, whose
`Latency` and `Bandwidth` stay zero. -/
def generateConfig (n : Nat) (accounts : Nat → Address) (miners : Finset Nat) (it : SetIter)
    (peers : Nat → Finset Nat) (blockTime minTx maxTx : Int) : Option Config :=
  (txIntervals blockTime minTx maxTx).map fun (period, minI, maxI) ↦
    ⟨period, minI, maxI, some (rosterMap n (generateNodes n accounts miners it peers)), 0, 0⟩

/-- With pairwise distinct addresses the map holds one entry per node, in roster
order. -/
theorem rosterMap_entries {n : Nat} {nodes : Nat → Node}
    (hdist : ∀ i < n, ∀ j < n, (nodes i).Address = (nodes j).Address → i = j) :
    (rosterMap n nodes).entries = (List.range n).map fun i ↦ ((nodes i).Address, some (nodes i)) := by
  induction n with
  | zero => rfl
  | succ n ih =>
    have ih' := ih fun i hi j hj ↦ hdist i (by omega) j (by omega)
    have hnew : (nodes n).Address ∉ (rosterMap n nodes).keys := by
      simp only [GoMap.keys, ih', List.map_map, List.mem_map, List.mem_range, Function.comp_def,
        not_exists, not_and]
      exact fun i hi heq ↦ absurd (hdist i (by omega) n (by omega) heq) (by omega)
    have hstep : rosterMap (n + 1) nodes =
        (rosterMap n nodes).set (nodes n).Address (some (nodes n)) := by
      simp only [rosterMap, List.range_succ, List.foldl_append, List.foldl_cons, List.foldl_nil]
    rw [hstep, GoMap.set_entries_of_not_mem hnew, ih', List.range_succ, List.map_append]
    rfl

@[simp] theorem generateNodes_address (n : Nat) (accounts : Nat → Address) (miners : Finset Nat)
    (it : SetIter) (peers : Nat → Finset Nat) (i : Nat) :
    (generateNodes n accounts miners it peers i).Address = accounts i := by
  simp [generateNodes, setMinerFlags, setAddr]

@[simp] theorem generateNodes_isMiner (n : Nat) (accounts : Nat → Address) (miners : Finset Nat)
    (it : SetIter) (peers : Nat → Finset Nat) (i : Nat) :
    (generateNodes n accounts miners it peers i).IsMiner = decide (i ∈ miners) := by
  simp only [generateNodes, writePeers]; split <;> rfl

@[simp] theorem generateNodes_identity (n : Nat) (accounts : Nat → Address) (miners : Finset Nat)
    (it : SetIter) (peers : Nat → Finset Nat) (i : Nat) :
    (generateNodes n accounts miners it peers i).Identity = UInt64.ofNat i := by
  simp only [generateNodes, writePeers]; split <;> rfl

/-- The roster `gen` builds, as `(address, node)` entries, for pairwise distinct
keystore addresses. -/
theorem rosterMap_generateNodes {n : Nat} {accounts : Nat → Address} {miners : Finset Nat}
    {it : SetIter} {peers : Nat → Finset Nat} (hdist : ∀ i < n, ∀ j < n, accounts i = accounts j → i = j) :
    (rosterMap n (generateNodes n accounts miners it peers)).entries =
      (List.range n).map fun i ↦ (accounts i, some (generateNodes n accounts miners it peers i)) := by
  rw [rosterMap_entries (by simpa using hdist)]
  simp

end EthEmu.Gen
