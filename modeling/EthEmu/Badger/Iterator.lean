import Mathlib.Data.List.Basic

/-!
# The iterator of the badger key-value store

```go
func (db *Database) NewIterator(prefix []byte, start []byte) ethdb.Iterator {
	txn := db.db.NewTransaction(false)
	iter := txn.NewIterator(badger.IteratorOptions{Prefix: prefix})
	lowerKey := make([]byte, len(prefix)+len(start))
	copy(lowerKey[:len(prefix)], prefix)
	copy(lowerKey[len(prefix):], start)
	iter.Seek(lowerKey)
	return &badgerIterator{iter: iter, moved: true}
}

func (iter *badgerIterator) Next() bool {
	if iter.moved {
		iter.moved = false
		return iter.iter.Valid()
	}
	if !iter.iter.Valid() {
		return false
	}
	iter.iter.Next()
	return iter.iter.Valid()
}
```

The badger iterator is a cursor over the transaction's keys in ascending byte
order: `Seek(k)` moves to the first key `≥ k`, `Valid()` holds while the cursor
is on a key that starts with the `Prefix` option, and `Next()` moves one key on.
Keys are compared as `bytes.Compare` does: byte by byte, unsigned, a proper
prefix first; that is `List.lt` over `UInt8`.

The result, `newIterator_reads`: the `i`-th call of `Next()` returns `true`
exactly for `i` below the number of stored keys that start with `prefix` and
are `≥ prefix ++ start`, and `Key()` after it reads the `i`-th of them in
ascending order; once `Next()` returned `false` it returns `false` for ever.
The argument is that the keys with a prefix `p` form one block of the order:
a key `≥ p` that does not start with `p` is above every key that does
(`lt_of_isPrefixOf`).

## Honest boundary

* The transaction's snapshot is its list of keys; versions, deletions and the
  values are badger's and outside the model.
* `Key()` with no item is `none` (in Go, a nil item); `Error()` is always `nil`
  and `Value()` and `Release()` are not modelled.
-/

namespace EthEmu.Badger

/-- A key: its bytes. -/
abbrev Key := List UInt8

/-- `bytes.Compare(a, b) < 0`: byte by byte, unsigned, a proper prefix first.
It is core's `List.lt` over `UInt8`, named so that no other order on lists is
picked for it. -/
def keyLt (a b : Key) : Prop := List.lt a b

instance : DecidableRel keyLt := fun a b ↦ List.hasDecidableLt a b

/-! ## The byte order -/

theorem byte_lt_irrefl (a : UInt8) : ¬a < a := Nat.lt_irrefl a.toNat

theorem byte_lt_trans {a b c : UInt8} (hab : a < b) (hbc : b < c) : a < c := Nat.lt_trans hab hbc

theorem byte_not_lt_trans {a b c : UInt8} (hab : ¬a < b) (hbc : ¬b < c) : ¬a < c :=
  fun h ↦ hab (Nat.lt_of_lt_of_le h (Nat.le_of_not_lt hbc))

theorem byte_eq_of_not_lt {a b : UInt8} (hab : ¬a < b) (hba : ¬b < a) : a = b :=
  UInt8.toNat.inj (Nat.le_antisymm (Nat.le_of_not_lt hba) (Nat.le_of_not_lt hab))

theorem key_lt_irrefl (k : Key) : ¬keyLt k k := List.lt_irrefl byte_lt_irrefl k

theorem key_lt_trans {k₁ k₂ k₃ : Key} (h₁ : keyLt k₁ k₂) (h₂ : keyLt k₂ k₃) : keyLt k₁ k₃ :=
  List.lt_trans byte_lt_trans byte_not_lt_trans h₁ h₂

theorem key_not_lt_of_lt {k₁ k₂ : Key} (h : keyLt k₁ k₂) : ¬keyLt k₂ k₁ :=
  fun h' ↦ key_lt_irrefl k₁ (key_lt_trans h h')

/-- A key followed by more bytes is not below it. -/
theorem not_append_lt (p s : Key) : ¬keyLt (p ++ s) p := by
  induction p with
  | nil => nofun
  | cons a p ih =>
    intro h
    cases h with
    | head _ _ h => exact byte_lt_irrefl a h
    | tail _ _ h => exact ih h

/-- **The prefix block.**  A key `x ≥ p` that does not start with `p` is above
every key that does. -/
theorem lt_of_isPrefixOf {p x z : Key} (hz : p <+: z) (hx : ¬p <+: x) (hpx : ¬keyLt x p) :
    keyLt z x := by
  induction p generalizing x z with
  | nil => exact absurd List.nil_prefix hx
  | cons a p ih =>
    obtain ⟨t, rfl⟩ := hz
    cases x with
    | nil => exact absurd (List.lt.nil _ _) hpx
    | cons b x =>
      by_cases hab : a < b
      · exact List.lt.head _ _ hab
      · have hba : ¬b < a := fun h ↦ hpx (List.lt.head _ _ h)
        obtain rfl := byte_eq_of_not_lt hab hba
        refine List.lt.tail hab hab (ih ⟨t, rfl⟩ (fun h ↦ hx ?_) fun h ↦ hpx (List.lt.tail hab hab h))
        exact List.prefix_cons_inj a |>.mpr h

/-! ## Sorted keys -/

/-- The keys of a transaction, in ascending byte order, each once. -/
structure KeySet where
  keys : List Key
  sorted : keys.Pairwise keyLt

/-- In ascending keys, the keys below `q` come first. -/
theorem dropWhile_lt_eq_filter {l : List Key} (hl : l.Pairwise keyLt) (q : Key) :
    l.dropWhile (fun x ↦ decide (keyLt x q)) = l.filter fun x ↦ !decide (keyLt x q) := by
  induction l with
  | nil => rfl
  | cons x l ih =>
    rw [List.pairwise_cons] at hl
    by_cases hx : keyLt x q
    · simp [List.dropWhile_cons, hx, ih hl.2]
    · have hrest : l.filter (fun x ↦ !decide (keyLt x q)) = l := List.filter_eq_self.mpr
        fun y hy ↦ by simpa using fun h ↦ hx (key_lt_trans (hl.1 y hy) h)
      simp [List.dropWhile_cons, hx, hrest]

/-- In ascending keys `≥ p`, the keys that start with `p` come first. -/
theorem filter_isPrefixOf_eq_takeWhile {l : List Key} (hl : l.Pairwise keyLt) {p : Key}
    (hge : ∀ x ∈ l, ¬keyLt x p) : l.filter (p.isPrefixOf ·) = l.takeWhile (p.isPrefixOf ·) := by
  induction l with
  | nil => rfl
  | cons x l ih =>
    rw [List.pairwise_cons] at hl
    have ih' := ih hl.2 fun y hy ↦ hge y (List.mem_cons_of_mem x hy)
    by_cases hx : p.isPrefixOf x
    · simp [List.takeWhile_cons, hx, ih']
    · have hrest : ∀ y ∈ l, p.isPrefixOf y = false := fun y hy ↦ by
        by_contra hpy
        have hlt := lt_of_isPrefixOf (List.isPrefixOf_iff_prefix.mp (by simpa using hpy))
          (fun h ↦ hx (List.isPrefixOf_iff_prefix.mpr h)) (hge x (List.mem_cons_self x l))
        exact key_not_lt_of_lt hlt (hl.1 y hy)
      simp [List.takeWhile_cons, hx, List.filter_eq_nil_iff.mpr (by simpa using hrest)]

/-! ## The iterator -/

/-- badger's `Iterator` with the `Prefix` option `pfx`: the keys at and after the
cursor. -/
structure Cursor where
  rest : List Key
  pfx : Key

/-- `Valid()`: the cursor is on a key that starts with the prefix. -/
def Cursor.valid (c : Cursor) : Bool :=
  match c.rest with
  | [] => false
  | k :: _ => c.pfx.isPrefixOf k

/-- `Next()`: one key on. -/
def Cursor.next (c : Cursor) : Cursor := { c with rest := c.rest.tail }

/-- `Item().Key()`: the key under the cursor. -/
def Cursor.key (c : Cursor) : Option Key := c.rest.head?

/-- `Seek(k)`: the first key `≥ k` and those after it. -/
def seek (keys : List Key) (k : Key) : List Key := keys.dropWhile fun x ↦ decide (keyLt x k)

/-- `badgerIterator`. -/
structure BadgerIterator where
  iter : Cursor
  moved : Bool

/-- `NewIterator(prefix, start)` over the keys of the transaction: a cursor with
the `Prefix` option, moved to `prefix ++ start`. -/
def newIterator (ks : KeySet) (pfx start : Key) : BadgerIterator :=
  ⟨⟨seek ks.keys (pfx ++ start), pfx⟩, true⟩

/-- `Next()`. -/
def BadgerIterator.next (it : BadgerIterator) : BadgerIterator × Bool :=
  if it.moved then ({ it with moved := false }, it.iter.valid)
  else if !it.iter.valid then (it, false)
  else ({ it with iter := it.iter.next }, it.iter.next.valid)

/-- `Key()`. -/
def BadgerIterator.key (it : BadgerIterator) : Option Key := it.iter.key

/-- `n` calls of `Next()`: what each returned, and `Key()` read after those
that returned `true`. -/
def BadgerIterator.reads : Nat → BadgerIterator → List (Bool × Option Key)
  | 0, _ => []
  | n + 1, it => ((it.next).2, if (it.next).2 then (it.next).1.key else none) :: reads n (it.next).1

/-- What reading the keys `ks` one by one shows in `n` steps: `true` and the
`i`-th key while there is one, then `false`. -/
def readsOf (ks : List Key) (n : Nat) : List (Bool × Option Key) :=
  (List.range n).map fun i ↦ (ks[i]?.isSome, ks[i]?)

theorem readsOf_succ (ks : List Key) (n : Nat) :
    readsOf ks (n + 1) = (ks.head?.isSome, ks.head?) :: readsOf ks.tail n := by
  simp only [readsOf, List.range_succ_eq_map, List.map_cons, List.map_map]
  cases ks <;> simp [Function.comp_def]

/-- Once `Next()` returned `false` it returns `false` for ever, the iterator
staying where it is. -/
theorem next_next_of_false (it : BadgerIterator) (h : (it.next).2 = false) :
    (it.next).1.next = ((it.next).1, false) := by
  unfold BadgerIterator.next at h ⊢
  by_cases hm : it.moved
  · simp only [hm, ↓reduceIte] at h ⊢
    simp [h]
  · by_cases hv : it.iter.valid
    · simp only [hm, hv, Bool.false_eq_true, ↓reduceIte, Bool.not_true] at h ⊢
      simp [h]
    · simp [hm, hv]

/-- `Valid()` and `Key()` on the keys `l` read the first key of the block that
starts with the prefix. -/
theorem valid_head?_takeWhile (l : List Key) (pfx : Key) :
    ((l.takeWhile (pfx.isPrefixOf ·)).head?.isSome, (l.takeWhile (pfx.isPrefixOf ·)).head?) =
      ((⟨l, pfx⟩ : Cursor).valid, if (⟨l, pfx⟩ : Cursor).valid then l.head? else none) := by
  cases l with
  | nil => rfl
  | cons y l => by_cases hy : pfx.isPrefixOf y <;> simp [Cursor.valid, List.takeWhile_cons, hy]

/-- The reads of an iterator whose first `Next()` has been made: the keys after
the current one that start with the prefix. -/
theorem reads_of_not_moved (n : Nat) (l : List Key) (pfx : Key) :
    BadgerIterator.reads n ⟨⟨l, pfx⟩, false⟩ = readsOf (l.takeWhile (pfx.isPrefixOf ·)).tail n := by
  induction n generalizing l with
  | zero => rfl
  | succ n ih =>
    rw [readsOf_succ]
    cases l with
    | nil => simp [BadgerIterator.reads, BadgerIterator.next, Cursor.valid, ih]
    | cons x l =>
      by_cases hx : pfx.isPrefixOf x
      · have hhead := valid_head?_takeWhile l pfx
        simp only [BadgerIterator.reads, BadgerIterator.next, Bool.false_eq_true, ↓reduceIte, Cursor.valid,
          hx, Bool.not_true, Cursor.next, List.tail_cons, BadgerIterator.key, Cursor.key, ih,
          List.takeWhile_cons]
        rw [hhead]; rfl
      · simp [BadgerIterator.reads, BadgerIterator.next, Cursor.valid, hx, ih, List.takeWhile_cons]

/-- A key below `p` is below `p` followed by more bytes. -/
theorem lt_append_of_lt {x p : Key} (h : keyLt x p) (s : Key) : keyLt x (p ++ s) := by
  by_cases hp : keyLt p (p ++ s)
  · exact key_lt_trans h hp
  · rw [← List.lt_antisymm byte_eq_of_not_lt hp (not_append_lt p s)]
    exact h

/-- The keys `NewIterator(prefix, start)` should visit: those that start with
`prefix` and are `≥ prefix ++ start`. -/
def iteratorKeys (ks : KeySet) (pfx start : Key) : List Key :=
  ks.keys.filter fun k ↦ pfx.isPrefixOf k && !decide (keyLt k (pfx ++ start))

/-- The keys to visit are the block of the prefix from the `Seek` on. -/
theorem iteratorKeys_eq (ks : KeySet) (pfx start : Key) :
    iteratorKeys ks pfx start = (seek ks.keys (pfx ++ start)).takeWhile (pfx.isPrefixOf ·) := by
  have hseek : seek ks.keys (pfx ++ start) = ks.keys.filter fun k ↦ !decide (keyLt k (pfx ++ start)) :=
    dropWhile_lt_eq_filter ks.sorted _
  have hsorted : (seek ks.keys (pfx ++ start)).Pairwise keyLt :=
    ks.sorted.sublist (List.dropWhile_sublist _)
  have hge : ∀ x ∈ seek ks.keys (pfx ++ start), ¬keyLt x pfx := fun x hx h ↦ by
    rw [hseek, List.mem_filter] at hx
    exact absurd (lt_append_of_lt h start) (by simpa using hx.2)
  rw [← filter_isPrefixOf_eq_takeWhile hsorted hge, hseek, List.filter_filter, iteratorKeys]

/-- **`NewIterator` over badger.**  For every key set, prefix and start, the
`i`-th `Next()` returns `true` exactly while `i` is below the number of stored
keys that start with `prefix` and are `≥ prefix ++ start`, and `Key()` then
reads the `i`-th of them, those keys being in ascending order, each once; and
once `Next()` returns `false`, every further `Next()` returns `false`. -/
theorem newIterator_reads (ks : KeySet) (pfx start : Key) (n : Nat) :
    (newIterator ks pfx start).reads n = readsOf (iteratorKeys ks pfx start) n ∧
    (iteratorKeys ks pfx start).Pairwise keyLt ∧
    ∀ it : BadgerIterator, (it.next).2 = false → (it.next).1.next = ((it.next).1, false) := by
  refine ⟨?_, ks.sorted.sublist (List.filter_sublist _), next_next_of_false⟩
  rw [iteratorKeys_eq]
  cases n with
  | zero => rfl
  | succ n =>
    rw [readsOf_succ, valid_head?_takeWhile, ← reads_of_not_moved]
    rfl

theorem newIterator_reads_example :
    let ks : KeySet := ⟨[[1], [1, 2], [1, 3], [2]], by decide⟩
    let it := newIterator ks [3] []
    (newIterator ks [1] [2]).reads 4 = readsOf (iteratorKeys ks [1] [2]) 4 ∧
      (iteratorKeys ks [1] [2]).Pairwise keyLt ∧
      (it.next).2 = false ∧ (it.next).1.next = ((it.next).1, false) := by
  intro ks it
  obtain ⟨hreads, hsorted, hfalse⟩ := newIterator_reads ks [1] [2] 4
  have hit : (it.next).2 = false := by decide
  exact ⟨hreads, hsorted, hit, hfalse it hit⟩

end EthEmu.Badger
