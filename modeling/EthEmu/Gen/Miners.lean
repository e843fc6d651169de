import EthEmu.Emu.Types

/-!
# Role assignment: `setMiners`

`setMiners` (`cmd/ethemu/gencmd.go`) draws indices with `mrand.Intn(len(nodes))`
into a `mapset` set until the set holds `num` of them, then flags exactly the
drawn nodes as miners:

```go
for miners.Cardinality() < num {
	miners.Add(mrand.Intn(len(nodes)))
}
for i, node := range nodes {
	node.IsMiner = miners.Contains(i)
}
```

The set is a `Finset Nat`.  The random source is left free: `MinersReach n num s`
says that the loop can be at `s` after *some* sequence of draws below `n`, so
every statement about reachable sets holds for every sequence of draws,
repeated ones included.  The node slice is a function from indices to nodes;
its values at indices `≥ len(nodes)` are never read.
-/

namespace EthEmu.Gen

open EthEmu.Emu

/-- The sets the loop of `setMiners` visits for `len(nodes) = n`: it starts
empty, and while it has fewer than `num` elements it adds a draw `j < n`. -/
inductive MinersReach (n : Nat) (num : Int) : Finset Nat → Prop
  /-- `miners := mapset.NewSet[int]()`. -/
  | init : MinersReach n num ∅
  /-- One iteration: the guard holds and `mrand.Intn(n)` returned `j`. -/
  | add {s : Finset Nat} (h : MinersReach n num s) (hlt : (s.card : Int) < num)
      (j : Nat) (hj : j < n) : MinersReach n num (insert j s)

/-- The second loop of `setMiners`: `node.IsMiner = miners.Contains(i)`. -/
def setMinerFlags (miners : Finset Nat) (nodes : Nat → Node) : Nat → Node :=
  fun i ↦ { nodes i with IsMiner := decide (i ∈ miners) }

@[simp] theorem setMinerFlags_isMiner (miners : Finset Nat) (nodes : Nat → Node) (i : Nat) :
    (setMinerFlags miners nodes i).IsMiner = decide (i ∈ miners) := rfl

/-! ## The loop invariant -/

/-- What the rejection loop keeps: only indices of nodes, and never more than `num`. -/
structure MinersInv (n : Nat) (num : Int) (s : Finset Nat) : Prop where
  subset_range : s ⊆ Finset.range n
  card_le : (s.card : Int) ≤ num

/-- The loop starts in the invariant when `num` is not negative. -/
theorem MinersInv.init {n : Nat} {num : Int} (h0 : 0 ≤ num) : MinersInv n num ∅ :=
  ⟨Finset.empty_subset _, by simpa using h0⟩

/-- One iteration keeps the invariant: a draw below `n` is an index, and an
insertion under the guard `card < num` adds at most one element. -/
theorem MinersInv.add {n : Nat} {num : Int} {s : Finset Nat} (hi : MinersInv n num s)
    (hlt : (s.card : Int) < num) {j : Nat} (hj : j < n) : MinersInv n num (insert j s) where
  subset_range := Finset.insert_subset (Finset.mem_range.mpr hj) hi.subset_range
  card_le := by have := Finset.card_insert_le j s; omega

/-- Every set the loop visits satisfies the invariant. -/
theorem MinersReach.inv {n : Nat} {num : Int} (h0 : 0 ≤ num) {s : Finset Nat}
    (h : MinersReach n num s) : MinersInv n num s := by
  induction h with
  | init => exact .init h0
  | add _ hlt _ hj ih => exact ih.add hlt hj

/-- While the set is short of `num ≤ n` elements some index is missing from it,
so some draw enlarges it. -/
theorem exists_fresh_of_card_lt {n : Nat} {num : Int} {s : Finset Nat}
    (hle : num ≤ n) (hlt : (s.card : Int) < num) : ∃ j < n, j ∉ s := by
  by_contra hne
  push_neg at hne
  have hsub : Finset.range n ⊆ s := fun j hj ↦ hne j (Finset.mem_range.mp hj)
  have := Finset.card_le_card hsub
  rw [Finset.card_range] at this
  omega

/-! ## The flags on return -/

/-- The indices below `n` that lie in a set of indices below `n` are as many as
its elements. -/
theorem length_filter_range_mem {n : Nat} {s : Finset Nat} (hs : s ⊆ Finset.range n) :
    ((List.range n).filter fun i ↦ decide (i ∈ s)).length = s.card := by
  have hto : ((List.range n).filter fun i ↦ decide (i ∈ s)).toFinset = s := by
    ext i
    simp only [List.mem_toFinset, List.mem_filter, List.mem_range, decide_eq_true_eq]
    exact ⟨And.right, fun hi ↦ ⟨Finset.mem_range.mp (hs hi), hi⟩⟩
  conv_rhs => rw [← hto]
  exact (List.toFinset_card_of_nodup ((List.nodup_range n).filter _)).symm

/-- On return the flags mark exactly the drawn indices: `num` nodes are miners
and the other `n - num` are not. -/
theorem MinersInv.flags {n : Nat} {num : Int} {s : Finset Nat} (hi : MinersInv n num s)
    (hdone : ¬ (s.card : Int) < num) (nodes : Nat → Node) :
    (((List.range n).filter fun i ↦ (setMinerFlags s nodes i).IsMiner).length : Int) = num ∧
    (((List.range n).filter fun i ↦ !(setMinerFlags s nodes i).IsMiner).length : Int) =
      n - num := by
  have hcount := length_filter_range_mem hi.subset_range
  have hsplit : (List.range n).length = _ :=
    List.length_eq_length_filter_add fun i ↦ decide (i ∈ s)
  simp only [setMinerFlags_isMiner, List.length_range] at hsplit ⊢
  have := hi.card_le
  omega

/-- **`setMiners` draws exactly the requested miners.**  For `0 ≤ num ≤ n` and
every sequence of draws, every set the rejection loop visits holds only indices
of nodes and at most `num` of them, and while it is short some draw takes the
loop to a larger set; when the loop exits, exactly `num` nodes are flagged, precisely those
whose index was drawn, and the other `n - num` are not. -/
theorem setMiners_flags_exact (n : Nat) (num : Int) (h0 : 0 ≤ num) (hle : num ≤ n) :
    (∀ s, MinersReach n num s →
      s ⊆ Finset.range n ∧ (s.card : Int) ≤ num ∧
        ((s.card : Int) < num →
          ∃ j < n, MinersReach n num (insert j s) ∧ (insert j s).card = s.card + 1)) ∧
    (∀ s, MinersReach n num s → ¬ (s.card : Int) < num → ∀ nodes : Nat → Node,
      (∀ i < n, (setMinerFlags s nodes i).IsMiner = decide (i ∈ s)) ∧
      (((List.range n).filter fun i ↦ (setMinerFlags s nodes i).IsMiner).length : Int) = num ∧
      (((List.range n).filter fun i ↦ !(setMinerFlags s nodes i).IsMiner).length : Int) =
        n - num) := by
  refine ⟨fun s h ↦ ?_, fun s h hdone nodes ↦ ?_⟩
  · have hi := h.inv h0
    refine ⟨hi.subset_range, hi.card_le, fun hlt ↦ ?_⟩
    obtain ⟨j, hj, hjs⟩ := exists_fresh_of_card_lt hle hlt
    exact ⟨j, hj, h.add hlt j hj, Finset.card_insert_of_not_mem hjs⟩
  · exact ⟨fun i _ ↦ rfl, (h.inv h0).flags hdone nodes⟩

/-- The bounds of `setMiners_flags_exact` are met by four nodes and one miner:
the empty set is enlarged by some draw, and on exit one node is flagged. -/
theorem setMiners_flags_exact_four_one :
    (0 : Int) ≤ 1 ∧ (1 : Int) ≤ (4 : Nat) ∧
    (∃ j < 4, MinersReach 4 1 (insert j ∅) ∧ (insert j (∅ : Finset Nat)).card = 0 + 1) ∧
    ∀ s, MinersReach 4 1 s → ¬ (s.card : Int) < 1 → ∀ nodes : Nat → Node,
      (((List.range 4).filter fun i ↦ (setMinerFlags s nodes i).IsMiner).length : Int) = 1 :=
  have h := setMiners_flags_exact 4 1 (by decide) (by decide)
  ⟨by decide, by decide, (h.1 ∅ .init).2.2 (by decide), fun s hs hdone nodes ↦
    (h.2 s hs hdone nodes).2.1⟩

end EthEmu.Gen
