import EthEmu.Emu.Types
import Mathlib.Data.Finset.Sort

/-!
# The degree-bounded topology: `setPeers`

`setPeers` (`cmd/ethemu/gencmd.go`) grows an undirected graph on the indices of
`nodes` until every degree lies in `[minPeer, maxPeer]`:

```go
for !check() {
	for i := range nodes {
		for peers[i].Cardinality() < minPeer {
			j := mrand.Intn(len(nodes))
			if j == i || peers[j].Cardinality() >= maxPeer {
				continue
			}
			peers[i].Add(j)
			peers[j].Add(i)
		}
	}
}
```

and then appends, for every node, the addresses of its peers in the order
`peers[i].Iter()` yields them.

The loops are a state machine (`PeersState`, `peersStep`) whose every step is
handed the value the next `mrand.Intn(len(nodes))` call would return; only a
draw reads it.  `PeersReach` collects the states reachable under *some*
sequence of draws, and `PeersMove` says once what a step can do.  The main
results are `PeersReach.inv` (symmetry, irreflexivity, the degree bound, and
the position of the loops) and `writePeers_wellPeered` (what the roster looks
like when the loops end).
-/

namespace EthEmu.Gen

open EthEmu.Emu

/-! ## The loops -/

/-- Where the loops of `setPeers` stand. -/
inductive PeersLoc where
  /-- At the guard `for !check()`. -/
  | check
  /-- At the guard of the inner loop for index `i`; `fill (len nodes)` is the end
  of the `for i := range nodes` pass. -/
  | fill (i : Nat)
  /-- The loops have ended. -/
  | done
deriving DecidableEq, Repr

/-- The state of the loops: the `peers` sets and the loop position. -/
structure PeersState where
  peers : Nat → Finset Nat
  loc : PeersLoc

/-- The state before the loops: every `peers[i]` is `mapset.NewSet[int]()`. -/
def PeersState.init : PeersState := ⟨fun _ ↦ ∅, .check⟩

/-- `check()`: every one of the `n` sets has a size in `[minPeer, maxPeer]`. -/
def peersCheck (n : Nat) (minPeer maxPeer : Int) (peers : Nat → Finset Nat) : Bool :=
  (List.range n).all fun i ↦
    !(decide (((peers i).card : Int) < minPeer) || decide (maxPeer < (peers i).card))

/-- `peers[i].Add(j); peers[j].Add(i)`. -/
def link (peers : Nat → Finset Nat) (i j : Nat) : Nat → Finset Nat :=
  let added := Function.update peers i (insert j (peers i))
  Function.update added j (insert i (added j))

/-- One step of the loops, `j` being what `mrand.Intn(len(nodes))` returns if the
step draws. -/
def peersStep (n : Nat) (minPeer maxPeer : Int) (s : PeersState) (j : Nat) : PeersState :=
  match s.loc with
  | .check =>
    if peersCheck n minPeer maxPeer s.peers then { s with loc := .done }
    else { s with loc := .fill 0 }
  | .fill i =>
    if i < n then
      if ((s.peers i).card : Int) < minPeer then
        if j = i ∨ maxPeer ≤ (s.peers j).card then s
        else { s with peers := link s.peers i j }
      else { s with loc := .fill (i + 1) }
    else { s with loc := .check }
  | .done => s

/-- Filling a node below `minPeer` under an accepted draw adds the edge. -/
theorem peersStep_fill_link {n : Nat} {minPeer maxPeer : Int} {p : Nat → Finset Nat} {i j : Nat}
    (hi : i < n) (hlt : ((p i).card : Int) < minPeer) (hji : j ≠ i)
    (hj : ((p j).card : Int) < maxPeer) :
    peersStep n minPeer maxPeer ⟨p, .fill i⟩ j = ⟨link p i j, .fill i⟩ := by
  simp [peersStep, hi, hlt, hji, not_le.mpr hj]

/-- A node with `minPeer` peers passes the turn to the next one. -/
theorem peersStep_fill_next {n : Nat} {minPeer maxPeer : Int} {p : Nat → Finset Nat} {i : Nat}
    (hi : i < n) (hge : minPeer ≤ (p i).card) (j : Nat) :
    peersStep n minPeer maxPeer ⟨p, .fill i⟩ j = ⟨p, .fill (i + 1)⟩ := by
  simp [peersStep, hi, not_lt.mpr hge]

/-- The end of a pass returns to `check()`. -/
theorem peersStep_fill_end {n : Nat} {minPeer maxPeer : Int} {p : Nat → Finset Nat} {i : Nat}
    (hi : n ≤ i) (j : Nat) : peersStep n minPeer maxPeer ⟨p, .fill i⟩ j = ⟨p, .check⟩ := by
  simp [peersStep, not_lt.mpr hi]

/-- `check()` decides between ending the loops and a new pass. -/
theorem peersStep_check {n : Nat} {minPeer maxPeer : Int} {p : Nat → Finset Nat} (j : Nat) :
    peersStep n minPeer maxPeer ⟨p, .check⟩ j =
      if peersCheck n minPeer maxPeer p then ⟨p, .done⟩ else ⟨p, .fill 0⟩ := by
  simp only [peersStep]

/-- The states the loops of `setPeers` on `n` nodes can reach, each step
drawing some `j < n`. -/
inductive PeersReach (n : Nat) (minPeer maxPeer : Int) : PeersState → Prop
  /-- The loops start from empty sets at the outer guard. -/
  | init : PeersReach n minPeer maxPeer .init
  /-- One more step, under the draw `j`. -/
  | step {s : PeersState} (h : PeersReach n minPeer maxPeer s) (j : Nat) (hj : j < n) :
      PeersReach n minPeer maxPeer (peersStep n minPeer maxPeer s j)

/-- Everything one step of the loops can do. -/
inductive PeersMove (n : Nat) (minPeer maxPeer : Int) : PeersState → PeersState → Prop
  /-- `check()` holds: the loops end. -/
  | pass {p : Nat → Finset Nat} (h : peersCheck n minPeer maxPeer p = true) :
      PeersMove n minPeer maxPeer ⟨p, .check⟩ ⟨p, .done⟩
  /-- `check()` fails: a pass over the nodes starts. -/
  | retry {p : Nat → Finset Nat} (h : peersCheck n minPeer maxPeer p = false) :
      PeersMove n minPeer maxPeer ⟨p, .check⟩ ⟨p, .fill 0⟩
  /-- The draw is `i` itself or a full node: `continue`. -/
  | reject {p : Nat → Finset Nat} {i j : Nat} (hi : i < n) (hlt : ((p i).card : Int) < minPeer)
      (hj : j = i ∨ maxPeer ≤ (p j).card) :
      PeersMove n minPeer maxPeer ⟨p, .fill i⟩ ⟨p, .fill i⟩
  /-- The draw `j` is accepted: the edge `{i, j}` is added. -/
  | link {p : Nat → Finset Nat} {i j : Nat} (hi : i < n) (hlt : ((p i).card : Int) < minPeer)
      (hjn : j < n) (hji : j ≠ i) (hj : ((p j).card : Int) < maxPeer) :
      PeersMove n minPeer maxPeer ⟨p, .fill i⟩ ⟨link p i j, .fill i⟩
  /-- Node `i` has `minPeer` peers: the pass moves on. -/
  | next {p : Nat → Finset Nat} {i : Nat} (hi : i < n) (hge : minPeer ≤ (p i).card) :
      PeersMove n minPeer maxPeer ⟨p, .fill i⟩ ⟨p, .fill (i + 1)⟩
  /-- The pass is over: back to `check()`. -/
  | again {p : Nat → Finset Nat} {i : Nat} (hi : n ≤ i) :
      PeersMove n minPeer maxPeer ⟨p, .fill i⟩ ⟨p, .check⟩
  /-- After the loops nothing changes. -/
  | stay {p : Nat → Finset Nat} : PeersMove n minPeer maxPeer ⟨p, .done⟩ ⟨p, .done⟩

variable {n : Nat} {minPeer maxPeer : Int}

/-- Every step under a draw below `n` is one of the moves. -/
theorem peersStep_move (s : PeersState) {j : Nat} (hj : j < n) :
    PeersMove n minPeer maxPeer s (peersStep n minPeer maxPeer s j) := by
  obtain ⟨p, loc⟩ := s
  cases loc with
  | check =>
    unfold peersStep
    cases h : peersCheck n minPeer maxPeer p
    · exact .retry h
    · exact .pass h
  | fill i =>
    unfold peersStep
    by_cases hi : i < n
    · by_cases hlt : ((p i).card : Int) < minPeer
      · by_cases hrej : j = i ∨ maxPeer ≤ (p j).card
        · simpa [hi, hlt, hrej] using PeersMove.reject hi hlt hrej
        · push_neg at hrej
          simpa [hi, hlt, hrej.1, not_le.mpr hrej.2] using PeersMove.link hi hlt hj hrej.1 hrej.2
      · simpa [hi, hlt] using PeersMove.next hi (not_lt.mp hlt)
    · simpa [hi] using PeersMove.again (not_lt.mp hi)
  | done => exact .stay

/-! ## Adding an edge -/

section Link

variable {p : Nat → Finset Nat} {i j k x : Nat}

/-- The sets after `link p i j`, for `j ≠ i`: `i` and `j` gain each other. -/
theorem mem_link (hji : j ≠ i) :
    x ∈ link p i j k ↔ x ∈ p k ∨ (k = i ∧ x = j) ∨ (k = j ∧ x = i) := by
  by_cases hkj : k = j
  · subst hkj; simp [link, hji, or_comm]
  · by_cases hki : k = i
    · subst hki; simp [link, hkj, or_comm]
    · simp [link, hkj, hki]

/-- Node `i` gains `j`. -/
theorem link_left (hji : j ≠ i) : link p i j i = insert j (p i) := by
  simp [link, Ne.symm hji]

/-- `link` only adds. -/
theorem subset_link (hji : j ≠ i) : p k ⊆ link p i j k :=
  fun _ hx ↦ (mem_link hji).mpr (.inl hx)

/-- A node other than the two endpoints keeps its set. -/
theorem link_of_ne (hji : j ≠ i) (hki : k ≠ i) (hkj : k ≠ j) : link p i j k = p k := by
  ext x; simp [mem_link hji, hki, hkj]

/-- An endpoint gains at most one element. -/
theorem card_link_le (hji : j ≠ i) : (link p i j k).card ≤ (p k).card + 1 := by
  by_cases hkj : k = j
  · subst hkj; simpa [link, hji] using Finset.card_insert_le i (p k)
  · by_cases hki : k = i
    · subst hki; simpa [link, hkj] using Finset.card_insert_le j (p k)
    · rw [link_of_ne hji hki hkj]; omega

end Link

/-- No step removes a peer: degrees never decrease. -/
theorem PeersMove.subset {s t : PeersState} (h : PeersMove n minPeer maxPeer s t) (k : Nat) :
    s.peers k ⊆ t.peers k := by
  cases h with
  | link _ _ _ hji => exact subset_link hji
  | _ => exact subset_rfl

/-! ## The invariant -/

/-- The `peers` sets form a simple graph on the `n` indices with every degree at
most `maxPeer`. -/
structure PeersInv (n : Nat) (maxPeer : Int) (peers : Nat → Finset Nat) : Prop where
  symm : ∀ i j, j ∈ peers i → i ∈ peers j
  irrefl : ∀ i, i ∉ peers i
  lt : ∀ i j, j ∈ peers i → j < n
  card_le : ∀ i, ((peers i).card : Int) ≤ maxPeer

/-- What the loop position says about the sets: before a pass no node has
gained a peer or all have `minPeer`; in a pass every node before the current one
has `minPeer`; after the loops `check()` holds. -/
def PeersLocInv (n : Nat) (minPeer maxPeer : Int) : PeersState → Prop
  | ⟨p, .check⟩ => (∀ k, p k = ∅) ∨ ∀ k < n, minPeer ≤ (p k).card
  | ⟨p, .fill i⟩ => i ≤ n ∧ ∀ k < i, minPeer ≤ (p k).card
  | ⟨p, .done⟩ => peersCheck n minPeer maxPeer p = true

/-- `check()` holds exactly when every degree lies in `[minPeer, maxPeer]`. -/
theorem peersCheck_eq_true {p : Nat → Finset Nat} :
    peersCheck n minPeer maxPeer p = true ↔
      ∀ i < n, minPeer ≤ (p i).card ∧ ((p i).card : Int) ≤ maxPeer := by
  simp [peersCheck, not_lt]

/-- After a pass the sets satisfy `check()`: they already reached `minPeer` and
never exceed `maxPeer`. -/
theorem peersCheck_of_filled {p : Nat → Finset Nat} (hi : PeersInv n maxPeer p)
    (hf : ∀ k < n, minPeer ≤ (p k).card) : peersCheck n minPeer maxPeer p = true :=
  peersCheck_eq_true.mpr fun k hk ↦ ⟨hf k hk, hi.card_le k⟩

/-- The empty sets are a graph of degree `0 ≤ maxPeer`. -/
theorem PeersInv.init (h0 : 0 ≤ maxPeer) : PeersInv n maxPeer PeersState.init.peers where
  symm := by simp [PeersState.init]
  irrefl := by simp [PeersState.init]
  lt := by simp [PeersState.init]
  card_le _ := by simpa [PeersState.init] using h0

/-- Adding an accepted edge keeps the graph simple and within `maxPeer`: node `i`
is below `minPeer ≤ maxPeer` and node `j` below `maxPeer` before the edge. -/
theorem PeersInv.link {p : Nat → Finset Nat} {i j : Nat} (hinv : PeersInv n maxPeer p)
    (hle : minPeer ≤ maxPeer) (hi : i < n) (hlt : ((p i).card : Int) < minPeer)
    (hjn : j < n) (hji : j ≠ i) (hj : ((p j).card : Int) < maxPeer) :
    PeersInv n maxPeer (EthEmu.Gen.link p i j) where
  symm a b hab := by
    rw [mem_link hji] at hab ⊢
    rcases hab with hab | ⟨rfl, rfl⟩ | ⟨rfl, rfl⟩
    · exact .inl (hinv.symm a b hab)
    · exact .inr (.inr ⟨rfl, rfl⟩)
    · exact .inr (.inl ⟨rfl, rfl⟩)
  irrefl a ha := by
    rw [mem_link hji] at ha
    rcases ha with ha | ⟨rfl, rfl⟩ | ⟨rfl, rfl⟩
    · exact hinv.irrefl a ha
    · exact hji rfl
    · exact hji rfl
  lt a b hab := by
    rw [mem_link hji] at hab
    rcases hab with hab | ⟨rfl, rfl⟩ | ⟨rfl, rfl⟩
    · exact hinv.lt a b hab
    · exact hjn
    · exact hi
  card_le k := by
    have hk : (EthEmu.Gen.link p i j k).card ≤ (p k).card + 1 := card_link_le hji
    by_cases hkj : k = j
    · subst hkj; omega
    · by_cases hki : k = i
      · subst hki; omega
      · rw [link_of_ne hji hki hkj]; exact hinv.card_le k

/-- Every move keeps the graph invariant, for `minPeer ≤ maxPeer`. -/
theorem PeersMove.inv {s t : PeersState} (h : PeersMove n minPeer maxPeer s t)
    (hle : minPeer ≤ maxPeer) (hinv : PeersInv n maxPeer s.peers) : PeersInv n maxPeer t.peers := by
  cases h with
  | link hi hlt hjn hji hj => exact hinv.link hle hi hlt hjn hji hj
  | _ => exact hinv

/-- Every move keeps the position invariant, given the graph invariant before it. -/
theorem PeersMove.locInv {s t : PeersState} (h : PeersMove n minPeer maxPeer s t)
    (hinv : PeersInv n maxPeer s.peers) (hloc : PeersLocInv n minPeer maxPeer s) :
    PeersLocInv n minPeer maxPeer t := by
  cases h with
  | pass h => exact h
  | retry _ => exact ⟨Nat.zero_le n, fun _ hk ↦ absurd hk (Nat.not_lt_zero _)⟩
  | reject => exact hloc
  | link _ _ _ hji =>
    exact ⟨hloc.1, fun k hk ↦ le_trans (hloc.2 k hk)
      (Int.ofNat_le.mpr (Finset.card_le_card (subset_link hji)))⟩
  | @next p i hi hge =>
    refine ⟨hi, fun k hk ↦ ?_⟩
    rcases Nat.lt_succ_iff_lt_or_eq.mp hk with hk | rfl
    · exact hloc.2 k hk
    · exact hge
  | again hi => exact .inr fun k hk ↦ hloc.2 k (by omega)
  | stay => exact hloc

/-- **The loop invariant of `setPeers`.**  For `0 ≤ minPeer ≤ maxPeer`, every
reachable state is a simple graph on the `n` indices with degrees at most
`maxPeer`, and satisfies the position invariant. -/
theorem PeersReach.inv (h0 : 0 ≤ minPeer) (hle : minPeer ≤ maxPeer) {s : PeersState}
    (h : PeersReach n minPeer maxPeer s) :
    PeersInv n maxPeer s.peers ∧ PeersLocInv n minPeer maxPeer s := by
  induction h with
  | init => exact ⟨.init (h0.trans hle), .inl fun _ ↦ rfl⟩
  | @step s _ j hj ih =>
    have hm : PeersMove n minPeer maxPeer s (peersStep n minPeer maxPeer s j) :=
      peersStep_move s hj
    exact ⟨hm.inv hle ih.1, hm.locInv ih.1 ih.2⟩

/-- At the end of a pass `check()` already holds, so the outer loop runs its
body at most once. -/
theorem PeersReach.check_of_pass (h0 : 0 ≤ minPeer) (hle : minPeer ≤ maxPeer)
    {s : PeersState} (h : PeersReach n minPeer maxPeer s) (hloc : s.loc = .fill n) :
    peersCheck n minPeer maxPeer s.peers = true := by
  obtain ⟨hinv, hpos⟩ := h.inv h0 hle
  obtain ⟨p, loc⟩ := s
  subst hloc
  exact peersCheck_of_filled hinv hpos.2

/-- When the loops have ended every degree lies in `[minPeer, maxPeer]`. -/
theorem PeersReach.bounds_of_done (h0 : 0 ≤ minPeer) (hle : minPeer ≤ maxPeer)
    {s : PeersState} (h : PeersReach n minPeer maxPeer s) (hloc : s.loc = .done) :
    ∀ i < n, minPeer ≤ (s.peers i).card ∧ ((s.peers i).card : Int) ≤ maxPeer := by
  obtain ⟨-, hpos⟩ := h.inv h0 hle
  obtain ⟨p, loc⟩ := s
  subst hloc
  exact peersCheck_eq_true.mp hpos

/-! ## The roster on return -/

/-- An iteration order of `mapset` sets: `Iter()` yields every element exactly
once, in an order the library leaves open. -/
structure SetIter where
  /-- The elements of a set in the order `Iter()` yields them. -/
  enum : Finset Nat → List Nat
  nodup_enum : ∀ s, (enum s).Nodup
  mem_enum : ∀ s x, x ∈ enum s ↔ x ∈ s

/-- Ascending order, one of the orders `Iter()` may produce. -/
def SetIter.ascending : SetIter :=
  ⟨fun s ↦ s.sort (· ≤ ·), fun s ↦ s.sort_nodup _, fun s _ ↦ s.mem_sort _⟩

/-- `Iter()` yields as many elements as the set has. -/
theorem SetIter.length_enum (it : SetIter) (s : Finset Nat) : (it.enum s).length = s.card := by
  have hto : (it.enum s).toFinset = s := by ext x; simp [it.mem_enum]
  conv_rhs => rw [← hto]
  exact (List.toFinset_card_of_nodup (it.nodup_enum s)).symm

/-- The last loop of `setPeers`: for every index `i < n` and every `peer` that
`peers[i].Iter()` yields, `nodes[i].Peers = append(nodes[i].Peers, nodes[peer].Address)`. -/
def writePeers (it : SetIter) (n : Nat) (peers : Nat → Finset Nat) (nodes : Nat → Node) :
    Nat → Node :=
  fun i ↦ if i < n then
    { nodes i with
      Peers := goAppendAll (nodes i).Peers ((it.enum (peers i)).map fun q ↦ (nodes q).Address) }
  else nodes i

@[simp] theorem writePeers_address (it : SetIter) (peers : Nat → Finset Nat)
    (nodes : Nat → Node) (i : Nat) : (writePeers it n peers nodes i).Address = (nodes i).Address := by
  unfold writePeers; split <;> rfl

/-- The peer lists of the first `n` roster entries describe a simple undirected
graph on them: no list repeats an address or names its own node or anything
outside the roster, and each node lists another exactly when that one lists it. -/
structure PeerListsSymmetric (n : Nat) (nodes : Nat → Node) : Prop where
  nodup : ∀ i < n, (sliceElems (nodes i).Peers).Nodup
  not_self : ∀ i < n, (nodes i).Address ∉ sliceElems (nodes i).Peers
  mem_roster : ∀ i < n, ∀ x ∈ sliceElems (nodes i).Peers, ∃ j < n, j ≠ i ∧ x = (nodes j).Address
  symm : ∀ i < n, ∀ j < n,
    (nodes j).Address ∈ sliceElems (nodes i).Peers ↔ (nodes i).Address ∈ sliceElems (nodes j).Peers

section Roster

variable {it : SetIter} {p : Nat → Finset Nat} {nodes : Nat → Node}

/-- The peer list `setPeers` writes for a fresh node: its peers' addresses. -/
theorem sliceElems_writePeers (hfresh : ∀ i < n, (nodes i).Peers = none) {i : Nat} (hi : i < n) :
    sliceElems (writePeers it n p nodes i).Peers = (it.enum (p i)).map fun q ↦ (nodes q).Address := by
  simp [writePeers, hi, hfresh i hi]

/-- With pairwise distinct addresses, a node lists the address of `j` exactly
when `j` is one of its peers. -/
theorem address_mem_writePeers (hinv : PeersInv n maxPeer p)
    (hfresh : ∀ i < n, (nodes i).Peers = none)
    (hdist : ∀ i < n, ∀ j < n, (nodes i).Address = (nodes j).Address → i = j)
    {i j : Nat} (hi : i < n) (hj : j < n) :
    (nodes j).Address ∈ sliceElems (writePeers it n p nodes i).Peers ↔ j ∈ p i := by
  rw [sliceElems_writePeers hfresh hi, List.mem_map]
  constructor
  · rintro ⟨q, hq, hqj⟩
    rw [it.mem_enum] at hq
    rwa [← hdist q (hinv.lt i q hq) j hj hqj]
  · exact fun hji ↦ ⟨j, (it.mem_enum _ _).mpr hji, rfl⟩

/-- **The roster `setPeers` returns.**  When the sets form a simple graph on the
`n` indices, the fresh nodes have pairwise distinct addresses, and whatever order
`Iter()` takes, the peer lists are a simple graph on the roster, each as long as
the node's set. -/
theorem writePeers_wellPeered (hinv : PeersInv n maxPeer p)
    (hfresh : ∀ i < n, (nodes i).Peers = none)
    (hdist : ∀ i < n, ∀ j < n, (nodes i).Address = (nodes j).Address → i = j) :
    PeerListsSymmetric n (writePeers it n p nodes) ∧
      ∀ i < n, (sliceElems (writePeers it n p nodes i).Peers).length = (p i).card := by
  refine ⟨⟨fun i hi ↦ ?_, fun i hi ↦ ?_, fun i hi x hx ↦ ?_, fun i hi j hj ↦ ?_⟩, fun i hi ↦ ?_⟩
  · rw [sliceElems_writePeers hfresh hi]
    refine (it.nodup_enum _).map_on fun a ha b hb hab ↦ hdist a ?_ b ?_ hab
    · exact hinv.lt i a ((it.mem_enum _ _).mp ha)
    · exact hinv.lt i b ((it.mem_enum _ _).mp hb)
  · rw [writePeers_address, address_mem_writePeers hinv hfresh hdist hi hi]
    exact hinv.irrefl i
  · rw [sliceElems_writePeers hfresh hi, List.mem_map] at hx
    obtain ⟨q, hq, rfl⟩ := hx
    have hqp := (it.mem_enum _ _).mp hq
    refine ⟨q, hinv.lt i q hqp, fun hqi ↦ hinv.irrefl i (hqi ▸ hqp), ?_⟩
    simp
  · simp only [writePeers_address]
    rw [address_mem_writePeers hinv hfresh hdist hi hj, address_mem_writePeers hinv hfresh hdist hj hi]
    exact ⟨hinv.symm i j, hinv.symm j i⟩
  · rw [sliceElems_writePeers hfresh hi, List.length_map, it.length_enum]

end Roster

/-- **`setPeers` keeps a simple graph and ends with every degree in
`[minPeer, maxPeer]`.**  For `0 ≤ minPeer ≤ maxPeer` and every sequence of
draws, every reachable state of the loops is a symmetric, irreflexive graph on
the `n` indices with degrees at most `maxPeer`; no step removes a peer; a
completed pass already satisfies `check()`.  When the loops end, for fresh nodes
with pairwise distinct addresses and any `Iter()` order, every peer list is
duplicate-free, omits the node's own address, names only other roster nodes,
has a length in `[minPeer, maxPeer]`, and lists node `j` exactly when node `j`
lists it. -/
theorem setPeers_simple_bounded (n : Nat) (minPeer maxPeer : Int) (h0 : 0 ≤ minPeer)
    (hle : minPeer ≤ maxPeer) :
    (∀ s, PeersReach n minPeer maxPeer s →
      PeersInv n maxPeer s.peers ∧
      (∀ j < n, ∀ k, s.peers k ⊆ (peersStep n minPeer maxPeer s j).peers k) ∧
      (s.loc = .fill n → peersCheck n minPeer maxPeer s.peers = true)) ∧
    (∀ s, PeersReach n minPeer maxPeer s → s.loc = .done →
      ∀ (it : SetIter) (nodes : Nat → Node), (∀ i < n, (nodes i).Peers = none) →
      (∀ i < n, ∀ j < n, (nodes i).Address = (nodes j).Address → i = j) →
      PeerListsSymmetric n (writePeers it n s.peers nodes) ∧
      ∀ i < n, minPeer ≤ (sliceElems (writePeers it n s.peers nodes i).Peers).length ∧
        ((sliceElems (writePeers it n s.peers nodes i).Peers).length : Int) ≤ maxPeer) := by
  refine ⟨fun s h ↦ ⟨(h.inv h0 hle).1, fun j hj k ↦ (peersStep_move s hj).subset k,
    h.check_of_pass h0 hle⟩, fun s h hdone it nodes hfresh hdist ↦ ?_⟩
  obtain ⟨hsym, hlen⟩ : PeerListsSymmetric n (writePeers it n s.peers nodes) ∧ _ :=
    writePeers_wellPeered (h.inv h0 hle).1 hfresh hdist
  exact ⟨hsym, fun i hi ↦ by rw [hlen i hi]; exact h.bounds_of_done h0 hle hdone i hi⟩

/-- `setPeers_simple_bounded` applies to four nodes with one to two peers. -/
theorem setPeers_simple_bounded_four :
    (0 : Int) ≤ 1 ∧ (1 : Int) ≤ 2 ∧ ∀ s, PeersReach 4 1 2 s → PeersInv 4 2 s.peers :=
  ⟨by decide, by decide, fun s h ↦ ((setPeers_simple_bounded 4 1 2 (by decide) (by decide)).1 s h).1⟩

end EthEmu.Gen
