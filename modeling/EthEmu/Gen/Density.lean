import EthEmu.Gen.Config

/-!
# The density topology: `setPeers` of the later `gen` command

The later version of `generateConfig` (`cmd/ethemu/main.go`) peers the nodes by
a locality-biased coin per unordered pair:

```go
for i := 0; i < len(nodes); i++ {
	for j := i + 1; j < len(nodes); j++ {
		randNum := float64(rand.Intn(100)) / float64(100)
		if randNum < getPij(density, 0.25, maxDist, i, j) {
			nodes[i].Peers = append(nodes[i].Peers, nodes[j].Address)
			nodes[j].Peers = append(nodes[j].Peers, nodes[i].Address)
		}
	}
}
```

The probability is computed in `Float` as the source does, and the random source
is a free sequence `rng`: the `k`-th call of `rand.Intn(100)` returns `rng k`.
None of the results depends on the outcome of a coin: the nested loops visit
the pairs `(i, j)` with `i < j < n` in the order of `densityPairs`, each once
(`densityPairs_nodup`, `mem_densityPairs`), and every visit appends to both
endpoints or to neither, which `DensityInv` tracks along the visited prefix.
Which pairs end up linked is `DensityLinks`: those whose own draw fell below
`getPij` (`setPeersDensity_links`).  The last section puts `setPeers` into the
later `generateConfig`, whose stored roster `ethemu` then starts.

## Honest boundary

* `Float` is Lean's binary64, the type of Go's `float64`; the results hold for
  every outcome of the comparison and so do not depend on rounding.
* `emu.Global.BlockSize` is set by the later `generateConfig`, but `Config` of
  `emu/types.go` has no such field, so it is left out here.
-/

namespace EthEmu.Gen

open EthEmu.Emu

/-- `getPij(dens, prop, maxDis, i, j)` for a roster of `len` nodes.  The distance
`int(math.Abs(float64(i - j)))` is `|i - j|`, exact for indices below `2^53`. -/
def getPij (len : Nat) (dens prop : Float) (maxDis i j : Nat) : Float :=
  let dis := ((i : Int) - j).natAbs
  let theta : Nat :=
    if 0 ≤ dens - min (Float.ofNat dis) (Float.ofNat (len - dis)) / Float.ofNat maxDis then 1
    else 0
  prop * dens + (1 - prop) * Float.ofNat theta

/-- The pairs the nested loops visit, in order: `(i, j)` for `i < j < n`. -/
def densityPairs (n : Nat) : List (Nat × Nat) :=
  (List.range n).flatMap fun i ↦ (List.range' (i + 1) (n - (i + 1))).map fun j ↦ (i, j)

/-- `nodes[i].Peers = append(nodes[i].Peers, nodes[j].Address)`, then the same for
`j` with the address of `i`. -/
def appendPeerPair (nodes : Nat → Node) (i j : Nat) : Nat → Node :=
  let first := Function.update nodes i
    { nodes i with Peers := goAppend (nodes i).Peers (nodes j).Address }
  Function.update first j { first j with Peers := goAppend (first j).Peers (first i).Address }

/-- The loop body for the pair `(i, j)`, the next call of `rand.Intn(100)` being
the `k`-th. -/
def densityVisit (n : Nat) (density : Float) (rng : Nat → Nat) (st : (Nat → Node) × Nat)
    (ij : Nat × Nat) : (Nat → Node) × Nat :=
  let randNum := Float.ofNat (rng st.2) / Float.ofNat 100
  if randNum < getPij n density 0.25 (n / 2) ij.1 ij.2 then
    (appendPeerPair st.1 ij.1 ij.2, st.2 + 1)
  else (st.1, st.2 + 1)

/-- `setPeers` of the density version for `len(nodes) = n` and `PeerNumFlag = peerNum`. -/
def setPeersDensity (n : Nat) (peerNum : Int) (rng : Nat → Nat) (nodes : Nat → Node) :
    Nat → Node :=
  let density := Float.ofInt peerNum / Float.ofInt ((n : Int) - 1)
  ((densityPairs n).foldl (densityVisit n density rng) (nodes, 0)).1

/-! ## The visited pairs -/

/-- The loops visit exactly the pairs `i < j < n`. -/
theorem mem_densityPairs {n i j : Nat} : (i, j) ∈ densityPairs n ↔ i < j ∧ j < n := by
  simp only [densityPairs, List.mem_flatMap, List.mem_range, List.mem_map, List.mem_range',
    Prod.mk.injEq]
  constructor
  · rintro ⟨a, ha, b, ⟨k, hk, rfl⟩, rfl, rfl⟩; omega
  · rintro ⟨hij, hjn⟩; exact ⟨i, by omega, j, ⟨j - (i + 1), by omega, by omega⟩, rfl, rfl⟩

/-- The loops visit no pair twice. -/
theorem densityPairs_nodup (n : Nat) : (densityPairs n).Nodup := by
  refine List.nodup_flatMap.mpr ⟨fun i _ ↦ (List.nodup_range' _ _).map fun a b h ↦ by
    simpa using h, ?_⟩
  refine (List.nodup_range n).pairwise_of_forall_ne fun a _ b _ hab ↦ ?_
  simp only [Function.onFun, List.disjoint_left, List.mem_map]
  rintro _ ⟨_, _, rfl⟩ ⟨_, _, h⟩
  exact hab (congrArg Prod.fst h).symm

/-! ## Appending both endpoints -/

/-- A visit links both endpoints or leaves every list alone. -/
theorem densityVisit_fst (n : Nat) (density : Float) (rng : Nat → Nat)
    (st : (Nat → Node) × Nat) (i j : Nat) :
    (densityVisit n density rng st (i, j)).1 = appendPeerPair st.1 i j ∨
      (densityVisit n density rng st (i, j)).1 = st.1 := by
  dsimp only [densityVisit]
  split
  · exact .inl rfl
  · exact .inr rfl

section Append

variable {nodes : Nat → Node} {i j k : Nat}

@[simp] theorem appendPeerPair_address (hij : i ≠ j) (k : Nat) :
    (appendPeerPair nodes i j k).Address = (nodes k).Address := by
  by_cases hkj : k = j
  · subst hkj; simp [appendPeerPair, Ne.symm hij]
  · by_cases hki : k = i
    · subst hki; simp [appendPeerPair, hkj]
    · simp [appendPeerPair, hkj, hki]

/-- The peer lists after the pair `(i, j)` is linked: `i` and `j` gain each
other's address at the end. -/
theorem sliceElems_appendPeerPair (hij : i ≠ j) :
    sliceElems (appendPeerPair nodes i j k).Peers =
      sliceElems (nodes k).Peers ++
        (if k = i then [(nodes j).Address] else if k = j then [(nodes i).Address] else []) := by
  by_cases hkj : k = j
  · subst hkj; simp [appendPeerPair, Ne.symm hij]
  · by_cases hki : k = i
    · subst hki; simp [appendPeerPair, hkj]
    · simp [appendPeerPair, hkj, hki]

end Append

/-! ## The invariant along the visited pairs -/

/-- After the pairs in `done` were visited, on nodes with addresses `addr`: the
list of every node of the roster is duplicate-free, holds only addresses of other
roster nodes whose pair with it was visited, and is matched by the other node's
list. -/
structure DensityInv (n : Nat) (addr : Nat → Address) (done : List (Nat × Nat))
    (nodes : Nat → Node) : Prop where
  address : ∀ k, (nodes k).Address = addr k
  nodup : ∀ k < n, (sliceElems (nodes k).Peers).Nodup
  mem : ∀ k < n, ∀ x ∈ sliceElems (nodes k).Peers,
    ∃ q < n, q ≠ k ∧ x = addr q ∧ (min k q, max k q) ∈ done
  symm : ∀ k < n, ∀ q < n, addr q ∈ sliceElems (nodes k).Peers → addr k ∈ sliceElems (nodes q).Peers

section Visit

variable {n : Nat} {addr : Nat → Address} {done : List (Nat × Nat)} {nodes : Nat → Node}

/-- Fresh nodes satisfy the invariant before any pair is visited. -/
theorem DensityInv.init (hfresh : ∀ k < n, (nodes k).Peers = none) :
    DensityInv n (fun k ↦ (nodes k).Address) [] nodes :=
  ⟨fun _ ↦ rfl, fun k hk ↦ by simp [hfresh k hk], fun k hk x hx ↦ by simp [hfresh k hk] at hx,
    fun k hk q _ hx ↦ by simp [hfresh k hk] at hx⟩

/-- More visited pairs only weaken the invariant. -/
theorem DensityInv.mono (hinv : DensityInv n addr done nodes) {done' : List (Nat × Nat)}
    (h : done ⊆ done') : DensityInv n addr done' nodes :=
  ⟨hinv.address, hinv.nodup, fun k hk x hx ↦ by
    obtain ⟨q, hq, hqk, rfl, hd⟩ := hinv.mem k hk x hx
    exact ⟨q, hq, hqk, rfl, h hd⟩, hinv.symm⟩

/-- After linking `(i, j)`, every listed address is that of another node whose
pair with the lister was visited. -/
theorem DensityInv.mem_link (hinv : DensityInv n addr done nodes) {i j : Nat} (hij : i < j)
    (hjn : j < n) {k : Nat} (hk : k < n) {x : Address}
    (hx : x ∈ sliceElems (appendPeerPair nodes i j k).Peers) :
    ∃ q < n, q ≠ k ∧ x = addr q ∧ (min k q, max k q) ∈ done ++ [(i, j)] := by
  have hne : i ≠ j := Nat.ne_of_lt hij
  have hold : ∀ {x : Address}, x ∈ sliceElems (nodes k).Peers →
      ∃ q < n, q ≠ k ∧ x = addr q ∧ (min k q, max k q) ∈ done ++ [(i, j)] := fun hx ↦ by
    obtain ⟨q, hq, hqk, rfl, hd⟩ := hinv.mem _ hk _ hx
    exact ⟨q, hq, hqk, rfl, List.mem_append_left _ hd⟩
  rw [sliceElems_appendPeerPair hne] at hx
  split_ifs at hx with hki hkj
  · subst hki
    rcases List.mem_append.mp hx with hx | hx
    · exact hold hx
    · rw [List.mem_singleton.mp hx, hinv.address]
      exact ⟨j, hjn, Ne.symm hne, rfl, by simp [min_eq_left hij.le, max_eq_right hij.le]⟩
  · subst hkj
    rcases List.mem_append.mp hx with hx | hx
    · exact hold hx
    · rw [List.mem_singleton.mp hx, hinv.address]
      exact ⟨i, by omega, hne, rfl, by simp [min_eq_right hij.le, max_eq_left hij.le]⟩
  · exact hold (by simpa using hx)

variable (hdist : ∀ i < n, ∀ j < n, addr i = addr j → i = j)
include hdist

/-- A node lists no address of a node whose pair with it is not visited yet. -/
theorem DensityInv.not_mem (hinv : DensityInv n addr done nodes) {k q : Nat} (hk : k < n)
    (hq : q < n) (hkq : (min k q, max k q) ∉ done) : addr q ∉ sliceElems (nodes k).Peers :=
  fun hx ↦ by
    obtain ⟨q', hq', _, hqq, hd⟩ := hinv.mem k hk _ hx
    rw [← hdist q hq q' hq' hqq] at hd
    exact hkq hd

/-- Before `(i, j)` is visited, neither endpoint lists the other. -/
theorem DensityInv.not_mem_pair (hinv : DensityInv n addr done nodes) {i j : Nat} (hij : i < j)
    (hjn : j < n) (hnew : (i, j) ∉ done) :
    addr j ∉ sliceElems (nodes i).Peers ∧ addr i ∉ sliceElems (nodes j).Peers := by
  have hmin : min i j = i := min_eq_left hij.le
  have hmax : max i j = j := max_eq_right hij.le
  exact ⟨hinv.not_mem hdist (by omega) hjn (by rw [hmin, hmax]; exact hnew),
    hinv.not_mem hdist hjn (by omega) (by rw [min_comm, max_comm, hmin, hmax]; exact hnew)⟩

/-- Linking a pair not visited yet keeps every peer list free of repeats. -/
theorem DensityInv.nodup_link (hinv : DensityInv n addr done nodes) {i j : Nat} (hij : i < j)
    (hjn : j < n) (hnew : (i, j) ∉ done) {k : Nat} (hk : k < n) :
    (sliceElems (appendPeerPair nodes i j k).Peers).Nodup := by
  obtain ⟨hi, hj⟩ := hinv.not_mem_pair hdist hij hjn hnew
  rw [sliceElems_appendPeerPair (Nat.ne_of_lt hij)]
  split_ifs with hki hkj
  · subst hki
    rw [hinv.address]
    exact List.nodup_append.mpr ⟨hinv.nodup _ hk, List.nodup_singleton _, List.disjoint_singleton.mpr hi⟩
  · subst hkj
    rw [hinv.address]
    exact List.nodup_append.mpr ⟨hinv.nodup _ hk, List.nodup_singleton _, List.disjoint_singleton.mpr hj⟩
  · simpa using hinv.nodup k hk

/-- Linking `(i, j)` keeps the lists symmetric. -/
theorem DensityInv.symm_link (hinv : DensityInv n addr done nodes) {i j : Nat} (hij : i < j)
    (hjn : j < n) {k q : Nat} (hk : k < n) (hq : q < n)
    (hx : addr q ∈ sliceElems (appendPeerPair nodes i j k).Peers) :
    addr k ∈ sliceElems (appendPeerPair nodes i j q).Peers := by
  have hne : i ≠ j := Nat.ne_of_lt hij
  rw [sliceElems_appendPeerPair hne] at hx ⊢
  rw [hinv.address, hinv.address] at hx ⊢
  rcases List.mem_append.mp hx with hx | hx
  · exact List.mem_append_left _ (hinv.symm k hk q hq hx)
  · split_ifs at hx with hki hkj
    · obtain rfl : q = j := hdist q hq j hjn (List.mem_singleton.mp hx)
      simp [hki, Ne.symm hne]
    · obtain rfl : q = i := hdist q hq i (by omega) (List.mem_singleton.mp hx)
      simp [hkj]
    · simp at hx

/-- Linking a pair `(i, j)`, `i < j < n`, that was not visited yet: both endpoints
gain an address they did not have. -/
theorem DensityInv.link (hinv : DensityInv n addr done nodes) {i j : Nat} (hij : i < j)
    (hjn : j < n) (hnew : (i, j) ∉ done) :
    DensityInv n addr (done ++ [(i, j)]) (appendPeerPair nodes i j) :=
  ⟨fun k ↦ by rw [appendPeerPair_address (Nat.ne_of_lt hij), hinv.address],
    fun _ hk ↦ hinv.nodup_link hdist hij hjn hnew hk, fun _ hk _ hx ↦ hinv.mem_link hij hjn hk hx,
    fun _ hk _ hq hx ↦ hinv.symm_link hdist hij hjn hk hq hx⟩

/-- Whatever pairs were visited, the invariant makes the lists a simple graph on
the roster. -/
theorem DensityInv.symmetric (hinv : DensityInv n addr done nodes) :
    PeerListsSymmetric n nodes where
  nodup := hinv.nodup
  not_self i hi hx := by
    rw [hinv.address] at hx
    obtain ⟨q, hq, hqi, hx', -⟩ := hinv.mem i hi _ hx
    exact hqi (hdist q hq i hi hx'.symm)
  mem_roster i hi x hx := by
    obtain ⟨q, hq, hqi, rfl, -⟩ := hinv.mem i hi x hx
    exact ⟨q, hq, hqi, (hinv.address q).symm⟩
  symm i hi j hj := by
    rw [hinv.address, hinv.address]
    exact ⟨hinv.symm i hi j hj, hinv.symm j hj i hi⟩

/-- Visiting a new pair keeps the invariant whatever the coin says: a hit links
both endpoints, a miss changes no list. -/
theorem DensityInv.visit {st : (Nat → Node) × Nat} (hinv : DensityInv n addr done st.1)
    {i j : Nat} (hij : i < j) (hjn : j < n) (hnew : (i, j) ∉ done) (density : Float)
    (rng : Nat → Nat) :
    DensityInv n addr (done ++ [(i, j)]) (densityVisit n density rng st (i, j)).1 := by
  rcases densityVisit_fst n density rng st i j with h | h <;> rw [h]
  · exact hinv.link hdist hij hjn hnew
  · exact hinv.mono (List.subset_append_left _ _)

/-- Visiting the pairs `rest` after `done`, all distinct and of the form
`i < j < n`, keeps the invariant. -/
theorem DensityInv.foldl (density : Float) (rng : Nat → Nat) :
    ∀ (st : (Nat → Node) × Nat) {done rest : List (Nat × Nat)},
      DensityInv n addr done st.1 → (done ++ rest).Nodup → (∀ p ∈ rest, p.1 < p.2 ∧ p.2 < n) →
      DensityInv n addr (done ++ rest) (rest.foldl (densityVisit n density rng) st).1
  | st, done, [], hinv, _, _ => by simpa using hinv
  | st, done, (i, j) :: rest, hinv, hnd, hlt => by
    have hnew : (i, j) ∉ done := fun hd ↦
      List.disjoint_left.mp (List.nodup_append.mp hnd).2.2 hd (List.mem_cons_self _ _)
    have hstep := hinv.visit hdist (hlt (i, j) (List.mem_cons_self _ _)).1
      (hlt (i, j) (List.mem_cons_self _ _)).2 hnew density rng
    simpa using DensityInv.foldl density rng _ hstep (by simpa using hnd)
      fun p hp ↦ hlt p (List.mem_cons_of_mem _ hp)

end Visit

/-! ## Which pairs are linked

The loop body draws `rand.Intn(100)` once per pair, so the `k`-th pair of
`densityPairs` is decided by the `k`-th draw.  `DensityLinks` says which pairs
the visited prefix linked: exactly those whose draw fell below `getPij`. -/

/-- The test of the loop body on the pair `p` with the `k`-th draw:
`float64(rand.Intn(100))/float64(100) < getPij(density, 0.25, maxDist, i, j)`. -/
def densityHit (n : Nat) (density : Float) (rng : Nat → Nat) (k : Nat) (p : Nat × Nat) : Bool :=
  decide (Float.ofNat (rng k) / Float.ofNat 100 < getPij n density 0.25 (n / 2) p.1 p.2)

/-- The loop body: link the pair if the draw hits, and count the draw. -/
theorem densityVisit_eq (n : Nat) (density : Float) (rng : Nat → Nat) (st : (Nat → Node) × Nat)
    (i j : Nat) :
    densityVisit n density rng st (i, j) =
      (if densityHit n density rng st.2 (i, j) then appendPeerPair st.1 i j else st.1, st.2 + 1) := by
  by_cases h : Float.ofNat (rng st.2) / Float.ofNat 100 < getPij n density 0.25 (n / 2) i j <;>
    simp [densityVisit, densityHit, h]

/-- An index into `l ++ [x]` reads `l`, or is the new last slot. -/
theorem getElem?_append_singleton_eq_some {α : Type} {l : List α} {x p : α} {idx : Nat} :
    (l ++ [x])[idx]? = some p ↔ l[idx]? = some p ∨ (idx = l.length ∧ x = p) := by
  rw [List.getElem?_append]
  split_ifs with h
  · simp [Nat.ne_of_lt h]
  · rw [List.getElem?_eq_none (by omega : l.length ≤ idx)]
    by_cases he : idx = l.length
    · subst he; simp
    · rw [List.getElem?_eq_none (by simp; omega)]; simp [he]

/-- The pair `{k, q}` in loop order is `(i, j)`, `i < j`, for exactly the two
orientations of it. -/
theorem minmax_eq_iff {i j k q : Nat} (hij : i < j) :
    (min k q, max k q) = (i, j) ↔ (k = i ∧ q = j) ∨ (k = j ∧ q = i) := by
  simp only [Prod.mk.injEq]
  omega

/-- After the pairs `done` were visited in loop order, on nodes with addresses
`addr`: node `k` lists node `q` exactly when their pair was visited and its draw
hit. -/
def DensityLinks (n : Nat) (addr : Nat → Address) (density : Float) (rng : Nat → Nat)
    (done : List (Nat × Nat)) (nodes : Nat → Node) : Prop :=
  ∀ k < n, ∀ q < n, addr q ∈ sliceElems (nodes k).Peers ↔
    ∃ idx, done[idx]? = some (min k q, max k q) ∧ densityHit n density rng idx (min k q, max k q)

section Links

variable {n : Nat} {addr : Nat → Address} {density : Float} {rng : Nat → Nat}
  (hdist : ∀ i < n, ∀ j < n, addr i = addr j → i = j)
include hdist

/-- Linking `(i, j)` adds `j` to the list of `i`, `i` to the list of `j`, and
nothing else. -/
theorem mem_appendPeerPair_iff {nodes : Nat → Node} (haddr : ∀ k, (nodes k).Address = addr k)
    {i j k q : Nat} (hij : i < j) (hjn : j < n) (hq : q < n) :
    addr q ∈ sliceElems (appendPeerPair nodes i j k).Peers ↔
      addr q ∈ sliceElems (nodes k).Peers ∨ (k = i ∧ q = j) ∨ (k = j ∧ q = i) := by
  rw [sliceElems_appendPeerPair (Nat.ne_of_lt hij), haddr, haddr, List.mem_append]
  have hinj : ∀ r < n, addr q = addr r ↔ q = r := fun r hr ↦ ⟨hdist q hq r hr, congrArg addr⟩
  split_ifs with hki hkj
  · simp [hki, hinj j hjn, Nat.ne_of_lt hij]
  · simp [hkj, hinj i (by omega), Ne.symm (Nat.ne_of_lt hij)]
  · simp [hki, hkj]

/-- One visit, the `done.length`-th draw deciding the pair `(i, j)`, keeps
`DensityLinks`. -/
theorem DensityLinks.visit {done : List (Nat × Nat)} {st : (Nat → Node) × Nat}
    (haddr : ∀ k, (st.1 k).Address = addr k) (hl : DensityLinks n addr density rng done st.1)
    (hlen : st.2 = done.length) {i j : Nat} (hij : i < j) (hjn : j < n) :
    DensityLinks n addr density rng (done ++ [(i, j)]) (densityVisit n density rng st (i, j)).1 := by
  intro k hk q hq
  -- the new pair is `{k, q}` exactly when its draw decides it
  have hnew : ((i, j) = (min k q, max k q) ∧ densityHit n density rng done.length (min k q, max k q)) ↔
      densityHit n density rng st.2 (i, j) ∧ ((k = i ∧ q = j) ∨ (k = j ∧ q = i)) := by
    rw [eq_comm, minmax_eq_iff hij, hlen]
    constructor
    · rintro ⟨h, hhit⟩; rw [(minmax_eq_iff hij).mpr h] at hhit; exact ⟨hhit, h⟩
    · rintro ⟨hhit, h⟩; rw [(minmax_eq_iff hij).mpr h]; exact ⟨h, hhit⟩
  simp only [getElem?_append_singleton_eq_some, or_and_right, exists_or, and_assoc, exists_eq_left]
  rw [hnew, ← hl k hk q hq, densityVisit_eq]
  split_ifs with hhit
  · simp [mem_appendPeerPair_iff hdist haddr hij hjn hq, hhit]
  · simp [hhit]

/-- Visiting the pairs `rest` after `done`, with the draws counted from
`done.length`, keeps `DensityLinks` and the addresses. -/
theorem DensityLinks.foldl :
    ∀ (st : (Nat → Node) × Nat) {done rest : List (Nat × Nat)},
      (∀ k, (st.1 k).Address = addr k) → DensityLinks n addr density rng done st.1 →
      st.2 = done.length → (∀ p ∈ rest, p.1 < p.2 ∧ p.2 < n) →
      DensityLinks n addr density rng (done ++ rest) (rest.foldl (densityVisit n density rng) st).1
  | st, done, [], _, hl, _, _ => by simpa using hl
  | st, done, (i, j) :: rest, haddr, hl, hlen, hlt => by
    obtain ⟨hij, hjn⟩ := hlt (i, j) (List.mem_cons_self _ _)
    have haddr' : ∀ k, ((densityVisit n density rng st (i, j)).1 k).Address = addr k := fun k ↦ by
      rcases densityVisit_fst n density rng st i j with h | h <;> rw [h]
      · rw [appendPeerPair_address (Nat.ne_of_lt hij), haddr]
      · exact haddr k
    have hlen' : (densityVisit n density rng st (i, j)).2 = (done ++ [(i, j)]).length := by
      simp [densityVisit_eq, hlen]
    simpa using DensityLinks.foldl _ haddr' (hl.visit hdist haddr hlen hij hjn) hlen'
      fun p hp ↦ hlt p (List.mem_cons_of_mem _ hp)

end Links

/-- **The density topology, pair by pair.**  On fresh nodes with pairwise
distinct addresses, for every `PeerNum` and every sequence of draws, node `k`
lists node `q` exactly when their pair `(min k q, max k q)` is the `idx`-th pair
of the loops and the `idx`-th draw fell below `getPij` for it. -/
theorem setPeersDensity_links (n : Nat) (peerNum : Int) (rng : Nat → Nat) (nodes : Nat → Node)
    (hfresh : ∀ i < n, (nodes i).Peers = none)
    (hdist : ∀ i < n, ∀ j < n, (nodes i).Address = (nodes j).Address → i = j) :
    DensityLinks n (fun k ↦ (nodes k).Address) (Float.ofInt peerNum / Float.ofInt ((n : Int) - 1)) rng
      (densityPairs n) (setPeersDensity n peerNum rng nodes) := by
  have h : DensityLinks n (fun k ↦ (nodes k).Address) (Float.ofInt peerNum / Float.ofInt ((n : Int) - 1))
      rng ([] ++ densityPairs n) ((densityPairs n).foldl (densityVisit n
        (Float.ofInt peerNum / Float.ofInt ((n : Int) - 1)) rng) (nodes, 0)).1 :=
    DensityLinks.foldl hdist (nodes, 0) (fun _ ↦ rfl) (fun k hk q _ ↦ by simp [hfresh k hk]) rfl
      fun p hp ↦ mem_densityPairs.mp hp
  simpa [setPeersDensity] using h

/-- **The density topology is a simple undirected graph on the roster, drawn
pair by pair.**  For every roster size, every `PeerNum` and every sequence of
`rand.Intn(100)` draws, the loops visit each pair `i < j < n` exactly once; and
on fresh nodes with pairwise distinct addresses node `k` lists node `q` exactly
when the draw the loops spent on the pair `(min k q, max k q)` fell below
`getPij` for it, so each visit appends to both endpoints or to neither; every
returned peer list is duplicate-free, omits the node's own address and every
address outside the roster, and lists node `j` exactly when node `j` lists it. -/
theorem setPeersDensity_symmetric (n : Nat) (peerNum : Int) (rng : Nat → Nat)
    (nodes : Nat → Node) (hfresh : ∀ i < n, (nodes i).Peers = none)
    (hdist : ∀ i < n, ∀ j < n, (nodes i).Address = (nodes j).Address → i = j) :
    (densityPairs n).Nodup ∧ (∀ i j, (i, j) ∈ densityPairs n ↔ i < j ∧ j < n) ∧
      DensityLinks n (fun k ↦ (nodes k).Address) (Float.ofInt peerNum / Float.ofInt ((n : Int) - 1))
        rng (densityPairs n) (setPeersDensity n peerNum rng nodes) ∧
      PeerListsSymmetric n (setPeersDensity n peerNum rng nodes) := by
  refine ⟨densityPairs_nodup n, fun _ _ ↦ mem_densityPairs,
    setPeersDensity_links n peerNum rng nodes hfresh hdist, ?_⟩
  have hinv : DensityInv n (fun k ↦ (nodes k).Address) ([] ++ densityPairs n)
      (setPeersDensity n peerNum rng nodes) :=
    DensityInv.foldl hdist _ rng (nodes, 0) (DensityInv.init hfresh)
      (by simpa using densityPairs_nodup n) fun p hp ↦ mem_densityPairs.mp hp
  exact hinv.symmetric hdist

/-- `setPeersDensity_symmetric` applies to two fresh nodes with distinct addresses. -/
theorem setPeersDensity_symmetric_two :
    let nodes : Nat → Node :=
      fun i ↦ ⟨0, ⟨List.replicate 20 i.toUInt8, List.length_replicate _ _⟩, false, none⟩
    (∀ i < 2, (nodes i).Peers = none) ∧
      (∀ i < 2, ∀ j < 2, (nodes i).Address = (nodes j).Address → i = j) ∧
      DensityLinks 2 (fun k ↦ (nodes k).Address) (Float.ofInt 1 / Float.ofInt ((2 : Nat) - 1 : Int))
        (fun _ ↦ 0) (densityPairs 2) (setPeersDensity 2 1 (fun _ ↦ 0) nodes) ∧
      PeerListsSymmetric 2 (setPeersDensity 2 1 (fun _ ↦ 0) nodes) :=
  have h := setPeersDensity_symmetric 2 1 (fun _ ↦ 0) _ (by decide) (by decide)
  ⟨by decide, by decide, h.2.2⟩

/-! ## The later `generateConfig`

```go
nodes := make([]*emu.Node, num)
for i := range nodes {
	nodes[i] = &emu.Node{}
}
setId(nodes)
if err := setAddr(ctx, nodes); err != nil {
	return err
}
setPeers(ctx, nodes)

emu.Global.Latency = uint64(ctx.Int(utils.LatencyFlag.Name))
emu.Global.Bandwidth = uint64(ctx.Int(utils.BandwidthFlag.Name))
emu.Global.BlockSize = uint64(ctx.Int(utils.BlockSizeFlag.Name))
emu.Global.Nodes = make(map[common.Address]*emu.Node)
for _, node := range nodes {
	emu.Global.Nodes[node.Address] = node
}
return emu.StoreConfig(dataDir)
```

This version draws no miner and sets no transaction interval. -/

/-- The roster of the later `generateConfig`: fresh nodes numbered by `setId`,
given the keystore accounts by `setAddr`, then peered by the density `setPeers`. -/
def generateNodesDensity (n : Nat) (accounts : Nat → Address) (peerNum : Int) (rng : Nat → Nat) :
    Nat → Node :=
  setPeersDensity n peerNum rng (setAddr accounts (setId fun _ ↦ default))

/-- `Global` as the later `generateConfig` stores it from a fresh `gen` process:
the fields it does not set stay zero. -/
def generateConfigDensity (n : Nat) (accounts : Nat → Address) (peerNum : Int) (rng : Nat → Nat)
    (latency bandwidth : Int) : Config :=
  ⟨0, 0, 0, some (rosterMap n (generateNodesDensity n accounts peerNum rng)), goUint64 latency,
    goUint64 bandwidth⟩

end EthEmu.Gen
