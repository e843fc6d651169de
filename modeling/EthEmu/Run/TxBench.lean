import EthEmu.Run.Continuous

/-!
# The transaction-count benchmark

With `TxModeFlag` set, `ethemu` starts one driver goroutine that submits one
transfer at a time and polls every node's pool for it (`cmd/ethemu/main.go`):

```go
txNum := 0
for {
	from := addrs[rand.Intn(len(addrs))]
	to := from
	for from == to {
		to = addrs[rand.Intn(len(addrs))]
	}
	value := big.NewInt(int64(txNum))
	...
	select {
	case <-stopSig:
		return
	default:
		hash, _ = eths[from].SendTransaction(context.Background(), tx)
	}
	for {
		counter := 0
		for _, sealer := range sealers {
			tx := sealer.TxPool().Get(hash)
			if tx == nil {
				counter++
			}
		}
		if counter == 0 {
			break
		}
		fmt.Println("txNum", txNum)
		txNum++
		if txNum >= 5050 {
			txLog.Sync()
			os.Exit(0)
		}
	}
}
```

`txNum` is incremented inside the poll loop: once per poll that still finds a
pool without the transaction, never when the barrier completes.

The pools belong to the nodes, not to the driver: `TxBenchStep` interleaves the
driver's steps with arbitrary changes of every pool (`poolChange`), and every
`Get` is a step of its own, so a pool may change between two reads of one poll.
The hash `SendTransaction` returns is a free choice as well; its error is
discarded, which leaves the zero hash.

## Honest boundary

* A pool is modelled by the hashes it holds; `pools x hash` is
  `eths[x].TxPool().Get(hash) != nil`.
* `addrs` and `sealers` are inputs.  For a stored roster both list every node,
  miners included, in the orders of two `range` loops.
* `txLog.Sync()` is folded into the exit; the `TransactionArgs` are kept as the
  submitted `(from, to, value)`.
-/

namespace EthEmu.Run

open EthEmu.Emu Relation

/-- Where the benchmark's driver goroutine stands. -/
inductive TxBenchLoc where
  /-- At the head of the outer `for`. -/
  | top
  /-- At the guard `for from == to`. -/
  | redraw (src dst : Address)
  /-- The transaction is built; the `select` comes next. -/
  | armed (src dst : Address)
  /-- Inside a poll for `hash`: `found` lists what `Get(hash) != nil` gave for the
  sealers read so far, and `counter` is the code's counter. -/
  | scan (hash : Hash) (counter : Nat) (found : List Bool)
  /-- `os.Exit(0)`. -/
  | exited
  /-- `<-stopSig` fired. -/
  | returned
  /-- `rand.Intn(len(addrs))` was called with no address. -/
  | panicked
deriving DecidableEq

/-- `1` where a submitted transaction still waits for its barrier. -/
@[simp] def TxBenchLoc.pending : TxBenchLoc → Nat
  | .scan .. => 1
  | .exited => 1
  | _ => 0

/-- What the driver did, in order. -/
inductive TxBenchEvent where
  /-- `SendTransaction` of `value` from `src` to `dst`, which gave `hash`. -/
  | submit (src dst : Address) (value : Int) (hash : Hash)
  /-- A poll found `hash` in every sealer's pool: the barrier completed. -/
  | converged (hash : Hash)
  /-- `fmt.Println("txNum", txNum)` after a poll that found a pool without the
  transaction. -/
  | printed (txNum : Int)
deriving DecidableEq

/-- A submission. -/
@[simp] def TxBenchEvent.isSubmit : TxBenchEvent → Bool
  | .submit .. => true
  | _ => false

/-- A completed barrier. -/
@[simp] def TxBenchEvent.isConverged : TxBenchEvent → Bool
  | .converged _ => true
  | _ => false

/-- A failed poll. -/
@[simp] def TxBenchEvent.isPrinted : TxBenchEvent → Bool
  | .printed _ => true
  | _ => false

/-- The driver goroutine: its position, `txNum`, and what it did so far. -/
structure TxDriver where
  loc : TxBenchLoc
  txNum : Int
  log : List TxBenchEvent

/-- The driver before its first iteration. -/
def TxDriver.init : TxDriver := ⟨.top, 0, []⟩

/-- One step of the driver over `addrs` and `sealers`, the pools being `pools`. -/
inductive TxDriverStep (addrs sealers : List Address) (pools : Address → Hash → Bool) :
    TxDriver → TxDriver → Prop
  /-- `rand.Intn(len(addrs))` with no address panics. -/
  | pickEmpty {n : Int} {log : List TxBenchEvent} (h : addrs = []) :
      TxDriverStep addrs sealers pools ⟨.top, n, log⟩ ⟨.panicked, n, log⟩
  /-- `from := addrs[r]; to := from`. -/
  | pick {n : Int} {log : List TxBenchEvent} (r : Nat) (hr : r < addrs.length) :
      TxDriverStep addrs sealers pools ⟨.top, n, log⟩
        ⟨.redraw (addrs.get ⟨r, hr⟩) (addrs.get ⟨r, hr⟩), n, log⟩
  /-- `from == to`: `to = addrs[r]`. -/
  | redraw {n : Int} {log : List TxBenchEvent} {src dst : Address} (hsame : src = dst)
      (r : Nat) (hr : r < addrs.length) :
      TxDriverStep addrs sealers pools ⟨.redraw src dst, n, log⟩
        ⟨.redraw src (addrs.get ⟨r, hr⟩), n, log⟩
  /-- `from != to`: the transaction is built. -/
  | build {n : Int} {log : List TxBenchEvent} {src dst : Address} (hne : src ≠ dst) :
      TxDriverStep addrs sealers pools ⟨.redraw src dst, n, log⟩ ⟨.armed src dst, n, log⟩
  /-- `<-stopSig` fired. -/
  | stop {n : Int} {log : List TxBenchEvent} {src dst : Address} :
      TxDriverStep addrs sealers pools ⟨.armed src dst, n, log⟩ ⟨.returned, n, log⟩
  /-- `SendTransaction` of value `txNum`, which gave `hash`; a poll begins. -/
  | submit {n : Int} {log : List TxBenchEvent} {src dst : Address} (hash : Hash) :
      TxDriverStep addrs sealers pools ⟨.armed src dst, n, log⟩
        ⟨.scan hash 0 [], n, log ++ [.submit src dst n hash]⟩
  /-- The next sealer's `TxPool().Get(hash)`; a `nil` counts. -/
  | get {n : Int} {log : List TxBenchEvent} {hash : Hash} {c : Nat} {found : List Bool}
      (hk : found.length < sealers.length) :
      TxDriverStep addrs sealers pools ⟨.scan hash c found, n, log⟩
        ⟨.scan hash (if pools (sealers.get ⟨found.length, hk⟩) hash then c else c + 1)
          (found ++ [pools (sealers.get ⟨found.length, hk⟩) hash]), n, log⟩
  /-- `counter == 0`: the barrier completes. -/
  | converged {n : Int} {log : List TxBenchEvent} {hash : Hash} {found : List Bool}
      (hk : found.length = sealers.length) :
      TxDriverStep addrs sealers pools ⟨.scan hash 0 found, n, log⟩ ⟨.top, n, log ++ [.converged hash]⟩
  /-- `counter != 0`: `txNum` is printed and incremented, and the poll starts over. -/
  | retry {n : Int} {log : List TxBenchEvent} {hash : Hash} {c : Nat} {found : List Bool}
      (hk : found.length = sealers.length) (hc : c ≠ 0) (hn : n + 1 < 5050) :
      TxDriverStep addrs sealers pools ⟨.scan hash c found, n, log⟩
        ⟨.scan hash 0 [], n + 1, log ++ [.printed n]⟩
  /-- `counter != 0` and the incremented `txNum` reaches `5050`: `os.Exit(0)`. -/
  | exit {n : Int} {log : List TxBenchEvent} {hash : Hash} {c : Nat} {found : List Bool}
      (hk : found.length = sealers.length) (hc : c ≠ 0) (hn : 5050 ≤ n + 1) :
      TxDriverStep addrs sealers pools ⟨.scan hash c found, n, log⟩
        ⟨.exited, n + 1, log ++ [.printed n]⟩

/-- The benchmark as a whole: the driver, and the pools, which the environment
changes at will between any two of the driver's steps. -/
inductive TxBenchStep (addrs sealers : List Address) :
    TxDriver × (Address → Hash → Bool) → TxDriver × (Address → Hash → Bool) → Prop
  /-- A step of the driver, reading the current pools. -/
  | driver {d d' : TxDriver} {pools : Address → Hash → Bool}
      (h : TxDriverStep addrs sealers pools d d') : TxBenchStep addrs sealers (d, pools) (d', pools)
  /-- The nodes' pools change. -/
  | poolChange {d : TxDriver} {pools : Address → Hash → Bool} (pools' : Address → Hash → Bool) :
      TxBenchStep addrs sealers (d, pools) (d, pools')

variable {addrs sealers : List Address} {pools : Address → Hash → Bool}

/-! ## What the driver counts -/

/-- What every reachable state of the driver satisfies: `txNum` is the number of
failed polls, every submission but the pending one has its barrier, a poll's
counter is the number of `nil`s it read, and the driver exits exactly when
`txNum` reaches `5050`. -/
structure TxDriverInv (sealers : List Address) (d : TxDriver) : Prop where
  txNum_eq : d.txNum = d.log.countP TxBenchEvent.isPrinted
  submit_eq : d.log.countP TxBenchEvent.isSubmit = d.log.countP TxBenchEvent.isConverged + d.loc.pending
  scan : ∀ hash c found, d.loc = .scan hash c found → c = found.count false ∧ found.length ≤ sealers.length
  exited_iff : d.loc = .exited ↔ d.txNum = 5050
  txNum_le : d.txNum ≤ 5050

/-- The invariant holds before the first iteration. -/
theorem TxDriverInv.init : TxDriverInv sealers .init where
  txNum_eq := rfl
  submit_eq := rfl
  scan _ _ _ h := nomatch h
  exited_iff := ⟨fun h ↦ (nomatch h), fun h ↦ absurd h (by decide)⟩
  txNum_le := by decide

/-- A step that neither leaves from nor lands on `.exited` and keeps `txNum`
keeps `exited_iff`. -/
theorem TxDriverInv.exited_iff_of_keep {d d' : TxDriver} (hi : TxDriverInv sealers d)
    (hd : d.loc ≠ .exited) (hd' : d'.loc ≠ .exited) (hn : d'.txNum = d.txNum) :
    d'.loc = .exited ↔ d'.txNum = 5050 :=
  ⟨fun h ↦ absurd h hd', fun h ↦ absurd (hi.exited_iff.mpr (hn ▸ h)) hd⟩

/-- Every step of the driver keeps the invariant, whatever the pools hold. -/
theorem TxDriverInv.step {d d' : TxDriver} (hi : TxDriverInv sealers d)
    (h : TxDriverStep addrs sealers pools d d') : TxDriverInv sealers d' := by
  cases h with
  | submit hash =>
    refine ⟨?_, ?_, fun _ _ _ h ↦ ?_, hi.exited_iff_of_keep nofun nofun rfl, hi.txNum_le⟩
    · simpa using hi.txNum_eq
    · simpa using hi.submit_eq
    · cases h; simp
  | @get n log hash c found hk =>
    refine ⟨hi.txNum_eq, hi.submit_eq, fun _ _ _ h ↦ ?_, hi.exited_iff_of_keep nofun nofun rfl,
      hi.txNum_le⟩
    obtain ⟨hc, -⟩ := hi.scan _ _ _ rfl
    cases h
    cases pools (sealers.get ⟨found.length, hk⟩) hash <;> simp [hc] <;> omega
  | converged hk =>
    refine ⟨?_, ?_, fun _ _ _ h ↦ (nomatch h), hi.exited_iff_of_keep nofun nofun rfl, hi.txNum_le⟩
    · simpa using hi.txNum_eq
    · simpa using hi.submit_eq
  | @retry n log hash c found hk hc hn =>
    refine ⟨?_, ?_, fun _ _ _ h ↦ ?_, ⟨nofun, fun h ↦ absurd (show n + 1 = 5050 from h) (by omega)⟩,
      show n + 1 ≤ 5050 by omega⟩
    · simpa using hi.txNum_eq
    · simpa using hi.submit_eq
    · cases h; simp
  | @exit n log hash c found hk hc hn =>
    have h5 : n ≠ 5050 := fun h ↦ nomatch hi.exited_iff.mpr h
    have hle : n ≤ 5050 := hi.txNum_le
    refine ⟨?_, ?_, fun _ _ _ h ↦ (nomatch h), ⟨fun _ ↦ show n + 1 = 5050 by omega, fun _ ↦ rfl⟩,
      show n + 1 ≤ 5050 by omega⟩
    · simpa using hi.txNum_eq
    · simpa using hi.submit_eq
  | _ =>
    exact ⟨hi.txNum_eq, hi.submit_eq, fun _ _ _ h ↦ (nomatch h), hi.exited_iff_of_keep nofun nofun rfl,
      hi.txNum_le⟩

/-- The invariant holds along every interleaving of the driver with pool changes. -/
theorem TxDriverInv.reach {p₀ : Address → Hash → Bool} {s : TxDriver × (Address → Hash → Bool)}
    (h : ReflTransGen (TxBenchStep addrs sealers) (.init, p₀) s) : TxDriverInv sealers s.1 := by
  induction h with
  | refl => exact .init
  | tail _ hst ih =>
    cases hst with
    | driver h => exact ih.step h
    | poolChange _ => exact ih

/-- **What `txNum` counts.**  Along every interleaving of the driver with changes
of the pools, `txNum` is the number of polls that found a pool without the
transaction (each printed before the increment), the submissions are the
completed barriers plus the one still polled for, and the driver exits exactly
when `txNum` reaches `5050`. -/
theorem txBench_counts_failed_polls (addrs sealers : List Address) (p₀ : Address → Hash → Bool)
    (s : TxDriver × (Address → Hash → Bool)) (h : ReflTransGen (TxBenchStep addrs sealers) (.init, p₀) s) :
    s.1.txNum = s.1.log.countP TxBenchEvent.isPrinted ∧
      s.1.log.countP TxBenchEvent.isSubmit = s.1.log.countP TxBenchEvent.isConverged + s.1.loc.pending ∧
      (s.1.loc = .exited ↔ s.1.txNum = 5050) := by
  have hi := TxDriverInv.reach h
  exact ⟨hi.txNum_eq, hi.submit_eq, hi.exited_iff⟩


/-! ## A transaction that never reaches a pool -/

section Unreached

variable {hash : Hash} {n : Int} {log : List TxBenchEvent}

/-- Against empty pools a `Get` adds one to the counter. -/
theorem TxDriverStep.get_nil {c : Nat} {found : List Bool} (hk : found.length < sealers.length) :
    TxDriverStep addrs sealers (fun _ _ ↦ false) ⟨.scan hash c found, n, log⟩
      ⟨.scan hash (c + 1) (found ++ [false]), n, log⟩ :=
  .get hk

/-- Against empty pools a poll's reads count every sealer. -/
theorem TxDriverStep.scan_nil :
    ∀ j ≤ sealers.length, ReflTransGen (TxDriverStep addrs sealers fun _ _ ↦ false)
      ⟨.scan hash 0 [], n, log⟩ ⟨.scan hash j (List.replicate j false), n, log⟩
  | 0, _ => .refl
  | j + 1, hj => by
    have hk : (List.replicate j false).length < sealers.length := by simp; omega
    rw [List.replicate_succ']
    exact (scan_nil j (by omega)).tail (get_nil hk)

/-- Against empty pools a whole poll fails and `txNum` goes up by one. -/
theorem TxDriverStep.poll_nil (hs : sealers ≠ []) (hn : n + 1 < 5050) :
    ReflTransGen (TxDriverStep addrs sealers fun _ _ ↦ false)
      ⟨.scan hash 0 [], n, log⟩ ⟨.scan hash 0 [], n + 1, log ++ [.printed n]⟩ :=
  (scan_nil _ le_rfl).tail
    (.retry (List.length_replicate _ _) (fun h ↦ hs (List.length_eq_zero.mp h)) hn)

/-- Against empty pools the polls run `txNum` from `0` up to any `m < 5050` and
complete no barrier. -/
theorem TxDriverStep.polls_nil (hs : sealers ≠ []) :
    ∀ m : Nat, m < 5050 → ∃ log', log'.countP TxBenchEvent.isConverged = 0 ∧
      ReflTransGen (TxDriverStep addrs sealers fun _ _ ↦ false)
        ⟨.scan hash 0 [], 0, log⟩ ⟨.scan hash 0 [], m, log ++ log'⟩
  | 0, _ => ⟨[], rfl, by rw [List.append_nil]; exact .refl⟩
  | m + 1, hm => by
    obtain ⟨log', h0, hr⟩ := polls_nil hs m (by omega)
    refine ⟨log' ++ [.printed m], by simpa using h0, hr.trans ?_⟩
    rw [← List.append_assoc]
    push_cast
    exact poll_nil hs (by omega)

/-- Against empty pools the poll that takes `txNum` to `5050` ends the process. -/
theorem TxDriverStep.exit_nil (hs : sealers ≠ []) (hn : 5050 ≤ n + 1) :
    ReflTransGen (TxDriverStep addrs sealers fun _ _ ↦ false)
      ⟨.scan hash 0 [], n, log⟩ ⟨.exited, n + 1, log ++ [.printed n]⟩ :=
  (scan_nil _ le_rfl).tail
    (.exit (List.length_replicate _ _) (fun h ↦ hs (List.length_eq_zero.mp h)) hn)

end Unreached

/-- `txBench_counts_failed_polls` after one failed poll of two sealers whose pools
are empty: one submission still polled for, and `txNum` is the one print. -/
theorem txBench_counts_failed_polls_retry :
    let a : Address := default
    let b : Address := ⟨List.replicate 20 1, List.length_replicate _ _⟩
    let s : TxDriver × (Address → Hash → Bool) :=
      (⟨.scan default 0 [], 1, [.submit a b 0 default, .printed 0]⟩, fun _ _ ↦ false)
    ReflTransGen (TxBenchStep [a, b] [a, b]) (.init, fun _ _ ↦ false) s ∧
      (s.1.txNum = s.1.log.countP TxBenchEvent.isPrinted ∧
        s.1.log.countP TxBenchEvent.isSubmit = s.1.log.countP TxBenchEvent.isConverged + s.1.loc.pending ∧
        (s.1.loc = .exited ↔ s.1.txNum = 5050)) := by
  intro a b s
  have hsend : ReflTransGen (TxDriverStep [a, b] [a, b] fun _ _ ↦ false) .init
      ⟨.scan default 0 [], 0, [.submit a b 0 default]⟩ :=
    .tail (.tail (.tail (.single (.pick 0 (by simp))) (.redraw rfl 1 (by simp))) (.build (by decide)))
      (.submit default)
  have hrun : ReflTransGen (TxBenchStep [a, b] [a, b]) (.init, fun _ _ ↦ false) s :=
    ReflTransGen.lift (fun d ↦ (d, fun _ _ ↦ false)) (fun _ _ h ↦ .driver h)
      (hsend.trans (TxDriverStep.poll_nil (List.cons_ne_nil _ _) (by decide)))
  exact ⟨hrun, txBench_counts_failed_polls _ _ _ _ hrun⟩

/-- **The benchmark exits without a confirmed transaction.**  Over two distinct
addresses and any non-empty `sealers`, if the first transaction never reaches a
pool (`SendTransaction` failed and returned the zero hash, or the transaction was
dropped), the driver fails `5050` polls of that one transaction and calls
`os.Exit(0)` with `txNum = 5050` and no barrier ever completed. -/
theorem txBench_exits_without_barrier (a b : Address) (hab : a ≠ b) (sealers : List Address)
    (hs : sealers ≠ []) (hash : Hash) :
    ∃ d, ReflTransGen (TxBenchStep [a, b] sealers) (.init, fun _ _ ↦ false) (d, fun _ _ ↦ false) ∧
      d.loc = .exited ∧ d.txNum = 5050 ∧ d.log.countP TxBenchEvent.isConverged = 0 := by
  have hpick : TxDriverStep [a, b] sealers (fun _ _ ↦ false) .init ⟨.redraw a a, 0, []⟩ := .pick 0 (by simp)
  have hredraw : TxDriverStep [a, b] sealers (fun _ _ ↦ false) ⟨.redraw a a, 0, []⟩ ⟨.redraw a b, 0, []⟩ :=
    .redraw rfl 1 (by simp)
  have hsend : ReflTransGen (TxDriverStep [a, b] sealers (fun _ _ ↦ false)) .init
      ⟨.scan hash 0 [], 0, [.submit a b 0 hash]⟩ :=
    .tail (.tail (.tail (.single hpick) hredraw) (.build hab)) (.submit hash)
  obtain ⟨log', h0, hpolls⟩ :=
    @TxDriverStep.polls_nil [a, b] sealers hash [.submit a b 0 hash] hs 5049 (by omega)
  exact ⟨_, ReflTransGen.lift (fun d ↦ (d, fun _ _ ↦ false)) (fun _ _ h ↦ .driver h)
    (hsend.trans (hpolls.trans (TxDriverStep.exit_nil hs (by omega)))), rfl, rfl,
    by simpa using h0⟩

/-- `txBench_exits_without_barrier` applies to two distinct addresses, one of
which is the only sealer. -/
theorem txBench_exits_without_barrier_two :
    (default : Address) ≠ ⟨List.replicate 20 1, List.length_replicate _ _⟩ ∧
      [(default : Address)] ≠ [] ∧
      ∃ d, ReflTransGen (TxBenchStep [default, ⟨List.replicate 20 1, List.length_replicate _ _⟩]
        [default]) (.init, fun _ _ ↦ false) (d, fun _ _ ↦ false) ∧
        d.loc = .exited ∧ d.txNum = 5050 ∧ d.log.countP TxBenchEvent.isConverged = 0 :=
  ⟨by decide, by simp, txBench_exits_without_barrier _ _ (by decide) _ (by simp) default⟩

end EthEmu.Run
