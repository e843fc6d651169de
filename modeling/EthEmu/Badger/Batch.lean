import Mathlib.Algebra.BigOperators.Group.List

/-!
# The write batch of the badger key-value store

`ethdb/badger` wraps a badger `WriteBatch` and keeps, beside it, the list of the
operations it accepted and the number of bytes they queued:

```go
func (b *batch) Put(key, value []byte) error {
	if err := b.b.Set(key, value); err != nil {
		return err
	}
	b.ops = append(b.ops, &operation{op: putOperation, key: key, value: value})
	b.size += len(key) + len(value)
	return nil
}
```

`Delete` is the same with `b.b.Delete(key)` and `len(key)`, `Reset` starts a
fresh `WriteBatch` with no operations and size `0`, and `Replay(w)` issues the
operations to `w` in order and stops at the first error.

The badger `WriteBatch` is the environment: a call carries the answer it gave
to the `Set` or `Delete` the call makes, so a run is any sequence of calls with
any pattern of rejections.  The results:

* `batch_run_spec`: after every sequence of calls, `ops` lists the `Put` and
  `Delete` calls that returned `nil` since the last `Reset`, in call order, and
  `ValueSize()` is the number of bytes they queued as a Go `int`, which is the
  number itself: it would wrap only past `2^63` queued bytes, far beyond what a
  badger `WriteBatch` accepts;
* `replay_spec`: `Replay` issues the operations in order up to and including the
  first one `w` rejects, and returns that error.

## Honest boundary

* Keys and values are held by value.  Go keeps the caller's slices, so a caller
  that writes into a slice after `Put` returned changes what `Replay` issues;
  the model has no such aliasing.
* `Write` flushes the badger `WriteBatch` and is a call that changes neither
  `ops` nor `size`; what the flush does to the database is outside the model.
* `NewBatchWithSize` ignores its size and is `NewBatch`.
* A writer `w` is known by its answers: the answer to each call may depend on
  every call it received before.
-/

namespace EthEmu.Badger

/-! ## The batch -/

/-- `operationType`, with the source's names. -/
inductive OperationType
  | putOperation
  | deleteOepration
deriving DecidableEq, Repr

/-- `operation`: a delete has no value (`nil`, of length `0`). -/
structure Operation where
  op : OperationType
  key : List UInt8
  value : List UInt8
deriving DecidableEq, Repr

/-- The bytes an operation queues: `len(key) + len(value)`, `len(key)` for a delete. -/
def Operation.size (o : Operation) : Nat := o.key.length + o.value.length

/-- The fields of `batch` the methods read and write: the badger `WriteBatch` and
the database handle are the environment. `size` is a Go `int`. -/
structure Batch where
  ops : List Operation
  size : BitVec 64
deriving DecidableEq

/-- `NewBatch()` (and `NewBatchWithSize(size)`, which ignores `size`). -/
def newBatch : Batch := ⟨[], 0⟩

/-- `ValueSize()`: `b.size` as a signed 64-bit `int`. -/
def Batch.valueSize (b : Batch) : Int := b.size.toInt

section Calls

variable {ε : Type}

/-- A call on the batch, with the answer of the badger `WriteBatch` to the `Set`,
`Delete` or `Flush` the call makes (`none` for `nil`). -/
inductive BatchCall (ε : Type)
  | put (key value : List UInt8) (setErr : Option ε)
  | delete (key : List UInt8) (deleteErr : Option ε)
  | write (flushErr : Option ε)
  | reset

/-- `Put(key, value)`. -/
def Batch.put (b : Batch) (key value : List UInt8) (setErr : Option ε) : Batch × Option ε :=
  match setErr with
  | some err => (b, some err)
  | none =>
    (⟨b.ops ++ [⟨.putOperation, key, value⟩], b.size + BitVec.ofNat 64 (key.length + value.length)⟩,
      none)

/-- `Delete(key)`. -/
def Batch.delete (b : Batch) (key : List UInt8) (deleteErr : Option ε) : Batch × Option ε :=
  match deleteErr with
  | some err => (b, some err)
  | none => (⟨b.ops ++ [⟨.deleteOepration, key, []⟩], b.size + BitVec.ofNat 64 key.length⟩, none)

/-- `Reset()`: a fresh `WriteBatch`, no operations, size `0`. -/
def Batch.reset (_ : Batch) : Batch := ⟨[], 0⟩

/-- One call and what it returns. -/
def Batch.apply (b : Batch) : BatchCall ε → Batch × Option ε
  | .put key value setErr => b.put key value setErr
  | .delete key deleteErr => b.delete key deleteErr
  | .write flushErr => (b, flushErr)
  | .reset => (b.reset, none)

/-- The batch after a sequence of calls. -/
def Batch.run (b : Batch) (calls : List (BatchCall ε)) : Batch :=
  calls.foldl (fun b c ↦ (b.apply c).1) b

/-! ## What the batch should hold -/

/-- Whether a call is `Reset`. -/
def BatchCall.isReset : BatchCall ε → Bool
  | .reset => true
  | _ => false

/-- The operation a call queues when the `WriteBatch` accepted it. -/
def BatchCall.accepted : BatchCall ε → Option Operation
  | .put key value none => some ⟨.putOperation, key, value⟩
  | .delete key none => some ⟨.deleteOepration, key, []⟩
  | _ => none

/-- What a call returns: the answer of the `WriteBatch`; `Reset` returns nothing. -/
def BatchCall.answer : BatchCall ε → Option ε
  | .put _ _ err | .delete _ err | .write err => err
  | .reset => none

/-- The calls since the last `Reset`. -/
def sinceReset (calls : List (BatchCall ε)) : List (BatchCall ε) :=
  (calls.reverse.takeWhile fun c ↦ !c.isReset).reverse

/-- The calls since the last `Reset`, one call later. -/
theorem sinceReset_append (calls : List (BatchCall ε)) (c : BatchCall ε) :
    sinceReset (calls ++ [c]) = if c.isReset then [] else sinceReset calls ++ [c] := by
  cases hc : c.isReset <;>
    simp [sinceReset, List.reverse_append, List.takeWhile_cons, hc]

/-- The bytes a list of operations queues. -/
def opsSize : List Operation → Nat
  | [] => 0
  | o :: ops => o.size + opsSize ops

@[simp] theorem opsSize_append (ops ops' : List Operation) :
    opsSize (ops ++ ops') = opsSize ops + opsSize ops' := by
  induction ops with
  | nil => simp [opsSize]
  | cons o ops ih => simp [opsSize, ih, Nat.add_assoc]

/-! ## One call -/

/-- A call returns the answer of the `WriteBatch`. -/
@[simp] theorem apply_answer (b : Batch) (c : BatchCall ε) : (b.apply c).2 = c.answer := by
  cases c with
  | put key value err => cases err <;> rfl
  | delete key err => cases err <;> rfl
  | write err => rfl
  | reset => rfl

/-- A call the `WriteBatch` rejected leaves the batch as it was. -/
theorem apply_of_answer_ne_none {b : Batch} {c : BatchCall ε} (h : c.answer ≠ none) :
    (b.apply c).1 = b := by
  cases c with
  | put key value err => cases err <;> first | rfl | exact absurd rfl h
  | delete key err => cases err <;> first | rfl | exact absurd rfl h
  | write err => rfl
  | reset => exact absurd rfl h

/-- What one call does to the operations: `Reset` empties them, and an accepted
`Put` or `Delete` appends its operation. -/
theorem apply_ops (b : Batch) (c : BatchCall ε) :
    (b.apply c).1.ops = if c.isReset then [] else b.ops ++ c.accepted.toList := by
  cases c with
  | put key value err => cases err <;> simp [Batch.apply, Batch.put, BatchCall.isReset, BatchCall.accepted]
  | delete key err => cases err <;> simp [Batch.apply, Batch.delete, BatchCall.isReset, BatchCall.accepted]
  | write err => simp [Batch.apply, BatchCall.isReset, BatchCall.accepted]
  | reset => rfl

/-- Every call keeps `size` equal to the bytes of `ops`, as a Go `int`. -/
theorem apply_size {b : Batch} (h : b.size = BitVec.ofNat 64 (opsSize b.ops)) (c : BatchCall ε) :
    (b.apply c).1.size = BitVec.ofNat 64 (opsSize (b.apply c).1.ops) := by
  cases c with
  | put key value err =>
    cases err <;> simp [Batch.apply, Batch.put, opsSize, Operation.size, h, BitVec.ofNat_add_ofNat]
  | delete key err =>
    cases err <;> simp [Batch.apply, Batch.delete, opsSize, Operation.size, h, BitVec.ofNat_add_ofNat]
  | write err => exact h
  | reset => rfl

/-! ## A whole run -/

/-- **The batch after any sequence of calls**: its operations are the accepted
`Put` and `Delete` calls since the last `Reset`, and `size` is their bytes as a
Go `int`. -/
theorem run_spec (calls : List (BatchCall ε)) :
    (newBatch.run calls).ops = (sinceReset calls).filterMap BatchCall.accepted ∧
      (newBatch.run calls).size = BitVec.ofNat 64 (opsSize (newBatch.run calls).ops) := by
  induction calls using List.reverseRecOn with
  | nil => exact ⟨rfl, rfl⟩
  | append_singleton calls c ih =>
    have hrun : newBatch.run (calls ++ [c]) = ((newBatch.run calls).apply c).1 := List.foldl_append ..
    refine ⟨?_, hrun ▸ apply_size ih.2 c⟩
    rw [hrun, apply_ops, sinceReset_append, ih.1]
    cases c.isReset
    · cases h : c.accepted <;> simp [List.filterMap_append, h]
    · rfl

/-! ## `Replay` -/

/-- A call `Replay` makes on the writer. -/
inductive KvCall
  | put (key value : List UInt8)
  | delete (key : List UInt8)
deriving DecidableEq, Repr

/-- The writer call an operation stands for: `w.Put(op.key, op.value)` or
`w.Delete(op.key)`. -/
def Operation.call (o : Operation) : KvCall :=
  match o.op with
  | .putOperation => .put o.key o.value
  | .deleteOepration => .delete o.key

/-- The loop of `Replay(w)` after the calls `issued`: the writer `w` answers each
call given the calls it received before. The calls issued and the error returned. -/
def replayOps (w : List KvCall → KvCall → Option ε) : List KvCall → List Operation → List KvCall × Option ε
  | issued, [] => (issued, none)
  | issued, o :: ops =>
    match w issued o.call with
    | some err => (issued ++ [o.call], some err)
    | none => replayOps w (issued ++ [o.call]) ops

/-- `Replay(w)`. -/
def Batch.replay (b : Batch) (w : List KvCall → KvCall → Option ε) : List KvCall × Option ε :=
  replayOps w [] b.ops

/-- What issuing `calls` in order to `w` after `issued`, stopping at the first
rejection, gives: all of them and no error, or those up to the first call `w`
rejects and its error. -/
def ReplaysAs (w : List KvCall → KvCall → Option ε) (issued calls : List KvCall)
    (r : List KvCall × Option ε) : Prop :=
  ((∀ p c q, calls = p ++ c :: q → w (issued ++ p) c = none) ∧ r = (issued ++ calls, none)) ∨
    ∃ p c q err, calls = p ++ c :: q ∧ (∀ p' c' q', p = p' ++ c' :: q' → w (issued ++ p') c' = none) ∧
      w (issued ++ p) c = some err ∧ r = (issued ++ p ++ [c], some err)

/-- The loop of `Replay` issues the operations in order and stops at the first
error. -/
theorem replayOps_spec (w : List KvCall → KvCall → Option ε) (issued : List KvCall)
    (ops : List Operation) :
    ReplaysAs w issued (ops.map Operation.call) (replayOps w issued ops) := by
  induction ops generalizing issued with
  | nil => exact .inl ⟨fun p c q h ↦ absurd h.symm (by simp), by simp [replayOps]⟩
  | cons o ops ih =>
    cases hw : w issued o.call with
    | some err =>
      exact .inr ⟨[], o.call, _, err, rfl, fun p' c' q' h ↦ absurd h.symm (by simp), by simpa using hw,
        by simp [replayOps, hw]⟩
    | none =>
      have hrun : replayOps w issued (o :: ops) = replayOps w (issued ++ [o.call]) ops := by
        simp [replayOps, hw]
      -- a prefix of `o.call :: rest` is empty, or `o.call` followed by a prefix of `rest`
      have hacc : ∀ {rest : List KvCall}, (∀ p c q, rest = p ++ c :: q → w (issued ++ [o.call] ++ p) c = none) →
          ∀ p c q, o.call :: rest = p ++ c :: q → w (issued ++ p) c = none := by
        intro rest hrest p c q h
        rcases List.cons_eq_append_iff.mp h with ⟨rfl, hc⟩ | ⟨p', rfl, hp⟩
        · cases hc; simpa using hw
        · simpa using hrest p' c q hp
      rcases ih (issued ++ [o.call]) with ⟨hall, hr⟩ | ⟨p, c, q, err, hcalls, hpre, hc, hr⟩
      · exact .inl ⟨hacc hall, by simpa [hrun] using hr⟩
      · refine .inr ⟨o.call :: p, c, q, err, by simp [hcalls], hacc hpre,
          by simpa using hc, by simpa [hrun] using hr⟩

/-- `Replay(w)` issues the batch's operations in order and stops at the first error. -/
theorem Batch.replay_spec (b : Batch) (w : List KvCall → KvCall → Option ε) :
    ReplaysAs w [] (b.ops.map Operation.call) (b.replay w) :=
  replayOps_spec w [] b.ops

/-! ## The batch as a whole -/

/-- A Go `int` reads a byte count below `2^63` as itself. -/
theorem toInt_ofNat_of_lt {n : Nat} (h : n < 2 ^ 63) : (BitVec.ofNat 64 n).toInt = n := by
  rw [BitVec.toInt_eq_toNat_cond, BitVec.toNat_ofNat, Nat.mod_eq_of_lt (by omega), if_pos (by omega)]

/-- **The badger batch.**  After any sequence of `Put`, `Delete`, `Write` and
`Reset` calls, with the `WriteBatch` rejecting any of them: `ops` lists the
`Put` and `Delete` calls accepted since the last `Reset`, in call order, with
their keys and values; `ValueSize()` is the number of bytes they queue as a Go
`int`, which is that number while it stays below `2^63`; every call returns the
answer of the `WriteBatch` and a rejected one leaves the batch as it was; and
`Replay(w)` issues those operations to `w` in order, stopping at and returning
the first error `w` reports. -/
theorem batch_run_spec (calls : List (BatchCall ε)) :
    (newBatch.run calls).ops = (sinceReset calls).filterMap BatchCall.accepted ∧
    (newBatch.run calls).valueSize =
      (BitVec.ofNat 64 (opsSize ((sinceReset calls).filterMap BatchCall.accepted))).toInt ∧
    (opsSize ((sinceReset calls).filterMap BatchCall.accepted) < 2 ^ 63 →
      (newBatch.run calls).valueSize = opsSize ((sinceReset calls).filterMap BatchCall.accepted)) ∧
    (∀ (b : Batch) (c : BatchCall ε), (b.apply c).2 = c.answer ∧ (c.answer ≠ none → (b.apply c).1 = b)) ∧
    ∀ w : List KvCall → KvCall → Option ε, ReplaysAs w [] (((sinceReset calls).filterMap BatchCall.accepted).map Operation.call)
      ((newBatch.run calls).replay w) := by
  obtain ⟨hops, hsize⟩ := run_spec calls
  have hvalue : (newBatch.run calls).valueSize =
      (BitVec.ofNat 64 (opsSize ((sinceReset calls).filterMap BatchCall.accepted))).toInt := by
    rw [Batch.valueSize, hsize, hops]
  refine ⟨hops, hvalue, fun h ↦ hvalue.trans (toInt_ofNat_of_lt h),
    fun b c ↦ ⟨apply_answer b c, apply_of_answer_ne_none⟩, fun w ↦ ?_⟩
  rw [← hops]
  exact (newBatch.run calls).replay_spec w

theorem batch_run_spec_example :
    let calls : List (BatchCall Unit) :=
      [.put [1] [2, 3] none, .delete [4] (some ()), .reset, .put [5] [6] none, .delete [7] none]
    opsSize ((sinceReset calls).filterMap BatchCall.accepted) < 2 ^ 63 ∧
    (newBatch.run calls).ops = (sinceReset calls).filterMap BatchCall.accepted ∧
    (newBatch.run calls).valueSize =
      (BitVec.ofNat 64 (opsSize ((sinceReset calls).filterMap BatchCall.accepted))).toInt ∧
    (opsSize ((sinceReset calls).filterMap BatchCall.accepted) < 2 ^ 63 →
      (newBatch.run calls).valueSize = opsSize ((sinceReset calls).filterMap BatchCall.accepted)) ∧
    (∀ (b : Batch) (c : BatchCall Unit), (b.apply c).2 = c.answer ∧ (c.answer ≠ none → (b.apply c).1 = b)) ∧
    ∀ w : List KvCall → KvCall → Option Unit, ReplaysAs w [] (((sinceReset calls).filterMap
      BatchCall.accepted).map Operation.call) ((newBatch.run calls).replay w) := by
  intro calls
  exact ⟨by decide, batch_run_spec calls⟩

end Calls

end EthEmu.Badger
