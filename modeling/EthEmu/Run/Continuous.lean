import EthEmu.Gen.Config
import Mathlib.Logic.Relation

/-!
# The continuous workload of `ethemu`

Once the nodes are started and wired, `ethemu` launches two goroutines with no
check of the roster they read (`cmd/ethemu/main.go`):

* the transaction goroutine collects the non-miners' addresses into `addrs`,
  then forever picks `from := addrs[rand.Intn(len(addrs))]`, re-draws `to`
  until it differs from `from`, draws a delay
  `rand.Intn(int(sleepMax-sleepMin)) + int(sleepMin)` milliseconds and, unless
  `stopSig` fires first, sends `from → to`;
* the sealing goroutine collects the miners into `sealers`, then forever picks
  `sealers[rand.Intn(len(sealers))]`, returns if its `Etherbase()` fails or
  `stopSig` fires, and otherwise calls `Miner().Work()`.

`rand.Intn(n)` panics for `n ≤ 0`; both goroutines are step relations in which
each `rand.Intn` call is a transition with the drawn value as a parameter below
its bound, or a transition to `panicked` when the bound is not positive.  The
environment's choices (a closed `stopSig`, a failing `Etherbase()`) are free.

## Honest boundary

* A nil `*Node` in `Global.Nodes` would make the goroutines' field reads panic;
  `txSources` and `sealerAddrs` skip such entries instead.  Rosters that
  `generateConfig` stores have none.
* The timers' real-time waits are not modelled; only the order of events is.
-/

namespace EthEmu.Run

open EthEmu.Emu EthEmu.Gen Relation

/-- Go's conversion `int(x)` of a `uint64`: two's complement on 64 bits. -/
def goInt (x : UInt64) : Int := if x.toNat < 2 ^ 63 then x.toNat else (x.toNat : Int) - 2 ^ 64

/-- `int` addition wraps around on 64 bits. -/
def wrapInt (x : Int) : Int := (x + 2 ^ 63) % 2 ^ 64 - 2 ^ 63

/-! ## The roster as the goroutines read it -/

/-- `addrs`: the addresses of the non-miners, in the order `range emu.Global.Nodes`
visits them. -/
def txSources (order : List (Address × Option Node)) : List Address :=
  order.filterMap fun e ↦ e.2.bind fun node ↦ if node.IsMiner then none else some node.Address

/-- `sealers`: the keys of the miners' entries, in the order `range emu.Global.Nodes`
visits them (the goroutine keeps `eths[addr]`, the node started under that key). -/
def sealerAddrs (order : List (Address × Option Node)) : List Address :=
  order.filterMap fun e ↦ e.2.bind fun node ↦ if node.IsMiner then some e.1 else none

/-! ## The transaction goroutine -/

/-- Where the transaction goroutine stands. -/
inductive TxLoc where
  /-- At the head of the outer `for`. -/
  | top
  /-- At the guard `for from == to`. -/
  | redraw (src dst : Address)
  /-- The transaction is built; the delay is drawn next. -/
  | arm (src dst : Address)
  /-- `<-stopSig` fired. -/
  | returned
  /-- `rand.Intn` was called with a bound `≤ 0`. -/
  | panicked
deriving DecidableEq

/-- The transaction goroutine: its position, and the transactions it handed to
`SendTransaction` so far, each with the delay in milliseconds drawn before it. -/
structure TxTask where
  loc : TxLoc
  sent : List (Address × Address × Int)

/-- The goroutine before its first iteration. -/
def TxTask.init : TxTask := ⟨.top, []⟩

/-- One step of the transaction goroutine over `addrs` with the intervals
`sleepMin = MinTxInterval` and `sleepMax = MaxTxInterval`. -/
inductive TxStep (addrs : List Address) (sleepMin sleepMax : UInt64) : TxTask → TxTask → Prop
  /-- `rand.Intn(len(addrs))` with no address panics. -/
  | pickEmpty {sent : List (Address × Address × Int)} (h : addrs = []) :
      TxStep addrs sleepMin sleepMax ⟨.top, sent⟩ ⟨.panicked, sent⟩
  /-- `from := addrs[r]; to := from`. -/
  | pick {sent : List (Address × Address × Int)} (r : Nat) (hr : r < addrs.length) :
      TxStep addrs sleepMin sleepMax ⟨.top, sent⟩ ⟨.redraw (addrs.get ⟨r, hr⟩) (addrs.get ⟨r, hr⟩), sent⟩
  /-- `from == to`: `to = addrs[r]`. -/
  | redraw {sent : List (Address × Address × Int)} {src dst : Address} (hsame : src = dst)
      (r : Nat) (hr : r < addrs.length) :
      TxStep addrs sleepMin sleepMax ⟨.redraw src dst, sent⟩ ⟨.redraw src (addrs.get ⟨r, hr⟩), sent⟩
  /-- `from != to`: the loop exits and the transaction is built. -/
  | build {sent : List (Address × Address × Int)} {src dst : Address} (hne : src ≠ dst) :
      TxStep addrs sleepMin sleepMax ⟨.redraw src dst, sent⟩ ⟨.arm src dst, sent⟩
  /-- `rand.Intn(int(sleepMax-sleepMin))` with a bound `≤ 0` panics. -/
  | delayPanic {sent : List (Address × Address × Int)} {src dst : Address}
      (h : goInt (sleepMax - sleepMin) ≤ 0) :
      TxStep addrs sleepMin sleepMax ⟨.arm src dst, sent⟩ ⟨.panicked, sent⟩
  /-- The timer is armed and `<-stopSig` fires first. -/
  | stop {sent : List (Address × Address × Int)} {src dst : Address} (r : Nat)
      (hr : (r : Int) < goInt (sleepMax - sleepMin)) :
      TxStep addrs sleepMin sleepMax ⟨.arm src dst, sent⟩ ⟨.returned, sent⟩
  /-- The timer of `r + int(sleepMin)` milliseconds fires: `SendTransaction`. -/
  | send {sent : List (Address × Address × Int)} {src dst : Address} (r : Nat)
      (hr : (r : Int) < goInt (sleepMax - sleepMin)) :
      TxStep addrs sleepMin sleepMax ⟨.arm src dst, sent⟩
        ⟨.top, sent ++ [(src, dst, wrapInt (r + goInt sleepMin))]⟩

/-- What the transaction goroutine's choices guarantee: the addresses it holds
are in `addrs`, a built transaction goes from one address to a different one,
and it panics only on the delay's bound. -/
structure TxSelectOk (addrs : List Address) (sleepMin sleepMax : UInt64) (s : TxTask) : Prop where
  redraw_mem : ∀ src dst, s.loc = .redraw src dst → src ∈ addrs ∧ dst ∈ addrs
  arm_ne : ∀ src dst, s.loc = .arm src dst → src ≠ dst ∧ src ∈ addrs ∧ dst ∈ addrs
  sent_ne : ∀ e ∈ s.sent, e.1 ≠ e.2.1 ∧ e.1 ∈ addrs ∧ e.2.1 ∈ addrs
  panicked_delay : s.loc = .panicked → goInt (sleepMax - sleepMin) ≤ 0

variable {addrs : List Address} {sleepMin sleepMax : UInt64}

/-- The guarantees hold before the first iteration. -/
theorem TxSelectOk.init : TxSelectOk addrs sleepMin sleepMax .init where
  redraw_mem _ _ h := nomatch h
  arm_ne _ _ h := nomatch h
  sent_ne _ h := nomatch h
  panicked_delay h := nomatch h

/-- Every step keeps the guarantees when `addrs` is not empty. -/
theorem TxSelectOk.step (hne : addrs ≠ []) {s t : TxTask} (hs : TxSelectOk addrs sleepMin sleepMax s)
    (h : TxStep addrs sleepMin sleepMax s t) : TxSelectOk addrs sleepMin sleepMax t := by
  cases h with
  | pickEmpty h => exact absurd h hne
  | pick r hr =>
    refine ⟨fun _ _ h ↦ ?_, fun _ _ h ↦ (nomatch h), hs.sent_ne, fun h ↦ (nomatch h)⟩
    cases h; exact ⟨List.get_mem _ _ _, List.get_mem _ _ _⟩
  | redraw hsame r hr =>
    refine ⟨fun _ _ h ↦ ?_, fun _ _ h ↦ (nomatch h), hs.sent_ne, fun h ↦ (nomatch h)⟩
    cases h; exact ⟨(hs.redraw_mem _ _ rfl).1, List.get_mem _ _ _⟩
  | build hne' =>
    refine ⟨fun _ _ h ↦ (nomatch h), fun _ _ h ↦ ?_, hs.sent_ne, fun h ↦ (nomatch h)⟩
    cases h; exact ⟨hne', hs.redraw_mem _ _ rfl⟩
  | delayPanic h => exact ⟨fun _ _ h ↦ (nomatch h), fun _ _ h ↦ (nomatch h), hs.sent_ne, fun _ ↦ h⟩
  | stop r hr => exact ⟨fun _ _ h ↦ (nomatch h), fun _ _ h ↦ (nomatch h), hs.sent_ne, fun h ↦ (nomatch h)⟩
  | send r hr =>
    refine ⟨fun _ _ h ↦ (nomatch h), fun _ _ h ↦ (nomatch h), fun e he ↦ ?_, fun h ↦ (nomatch h)⟩
    rcases List.mem_append.mp he with he | he
    · exact hs.sent_ne e he
    · rw [List.mem_singleton.mp he]; exact hs.arm_ne _ _ rfl

/-- With at least one address every reachable state keeps the guarantees. -/
theorem TxSelectOk.reach (hne : addrs ≠ []) {s : TxTask}
    (h : ReflTransGen (TxStep addrs sleepMin sleepMax) .init s) : TxSelectOk addrs sleepMin sleepMax s := by
  induction h with
  | refl => exact .init
  | tail _ hst ih => exact ih.step hne hst

/-- Two distinct addresses leave every re-draw an exiting draw. -/
theorem TxStep.exists_exit (hnd : addrs.Nodup) (hlen : 2 ≤ addrs.length)
    (sent : List (Address × Address × Int)) {src : Address} :
    ∃ t, TxStep addrs sleepMin sleepMax ⟨.redraw src src, sent⟩ t ∧
      ∃ dst, t.loc = .redraw src dst ∧ dst ≠ src := by
  obtain ⟨a, b, rest, rfl⟩ : ∃ a b rest, addrs = a :: b :: rest := by
    match addrs, hlen with
    | a :: b :: rest, _ => exact ⟨a, b, rest, rfl⟩
  have hab : a ≠ b := fun h ↦ (List.nodup_cons.mp hnd).1 (h ▸ List.mem_cons_self _ _)
  by_cases ha : a = src
  · exact ⟨_, .redraw rfl 1 (by simp), b, rfl, fun h ↦ hab (ha.trans h.symm)⟩
  · exact ⟨_, .redraw rfl 0 (by simp), a, rfl, ha⟩

/-- With a single address the re-draw loop never exits: every draw gives back
`from` itself. -/
theorem TxStep.eq_of_single {a : Address} {sent : List (Address × Address × Int)} {t : TxTask}
    (h : TxStep [a] sleepMin sleepMax ⟨.redraw a a, sent⟩ t) : t = ⟨.redraw a a, sent⟩ := by
  cases h with
  | redraw _ r hr => obtain rfl : r = 0 := by simpa using hr
                     rfl
  | build hne => exact absurd rfl hne

/-! ## The sealing goroutine -/

/-- Where the sealing goroutine stands. -/
inductive SealLoc where
  /-- At the head of the `for`. -/
  | top
  /-- `sealer` is picked; its `Etherbase()` and the timer come next. -/
  | picked (sealer : Address)
  /-- `Etherbase()` failed or `<-stopSig` fired. -/
  | returned
  /-- `rand.Intn(len(sealers))` was called with no sealer. -/
  | panicked
deriving DecidableEq

/-- The sealing goroutine: its position and the sealers it made `Work()` so far. -/
structure SealTask where
  loc : SealLoc
  sealed : List Address

/-- The goroutine before its first iteration. -/
def SealTask.init : SealTask := ⟨.top, []⟩

/-- One step of the sealing goroutine over `sealers`. -/
inductive SealStep (sealers : List Address) : SealTask → SealTask → Prop
  /-- `rand.Intn(len(sealers))` with no sealer panics. -/
  | pickEmpty {sealed : List Address} (h : sealers = []) :
      SealStep sealers ⟨.top, sealed⟩ ⟨.panicked, sealed⟩
  /-- `sealer := sealers[r]`. -/
  | pick {sealed : List Address} (r : Nat) (hr : r < sealers.length) :
      SealStep sealers ⟨.top, sealed⟩ ⟨.picked (sealers.get ⟨r, hr⟩), sealed⟩
  /-- `Etherbase()` fails, or `<-stopSig` fires before the timer. -/
  | quit {sealed : List Address} {sealer : Address} :
      SealStep sealers ⟨.picked sealer, sealed⟩ ⟨.returned, sealed⟩
  /-- The timer fires: `sealer.Miner().Work()`. -/
  | seal {sealed : List Address} {sealer : Address} :
      SealStep sealers ⟨.picked sealer, sealed⟩ ⟨.top, sealed ++ [sealer]⟩

/-- With a sealer the sealing goroutine never panics. -/
theorem SealStep.not_panicked {sealers : List Address} (hne : sealers ≠ []) {s : SealTask}
    (h : ReflTransGen (SealStep sealers) .init s) : s.loc ≠ .panicked := by
  induction h with
  | refl => exact fun h ↦ nomatch h
  | tail _ hst _ =>
    cases hst with
    | pickEmpty h => exact absurd h hne
    | _ => exact fun h ↦ nomatch h

/-! ## The roster `generateConfig` stores -/

/-- Keeping the images of the elements that satisfy `p`. -/
theorem filterMap_ite_some {α β : Type} (p : α → Prop) [DecidablePred p] (f : α → β) (l : List α) :
    l.filterMap (fun a ↦ if p a then some (f a) else none) = (l.filter fun a ↦ decide (p a)).map f := by
  induction l with
  | nil => rfl
  | cons a l ih => by_cases h : p a <;> simp [List.filter_cons, h, ih]

/-- Keeping the images of the elements that fail `p`. -/
theorem filterMap_ite_none {α β : Type} (p : α → Prop) [DecidablePred p] (f : α → β) (l : List α) :
    l.filterMap (fun a ↦ if p a then none else some (f a)) = (l.filter fun a ↦ !decide (p a)).map f := by
  induction l with
  | nil => rfl
  | cons a l ih => by_cases h : p a <;> simp [List.filter_cons, h, ih]

section Roster

variable {n : Nat} {accounts : Nat → Address} {miners : Finset Nat} {it : SetIter}
  {peers : Nat → Finset Nat}

/-- Whatever order `range` takes, the transaction goroutine's `addrs` are the
keystore addresses of the non-miners, and its `sealers` those of the miners. -/
theorem generated_sources_perm (hacc : ∀ i < n, ∀ j < n, accounts i = accounts j → i = j)
    (order : (rosterMap n (generateNodes n accounts miners it peers)).Ranges) :
    (txSources order.1).Perm (((List.range n).filter fun i ↦ !decide (i ∈ miners)).map accounts) ∧
    (sealerAddrs order.1).Perm (((List.range n).filter fun i ↦ decide (i ∈ miners)).map accounts) := by
  have hperm := order.2.trans (.of_eq (rosterMap_generateNodes hacc))
  constructor
  · refine (hperm.filterMap _).trans (.of_eq ?_)
    rw [List.filterMap_map, ← filterMap_ite_none]
    congr 1; funext i; simp
  · refine (hperm.filterMap _).trans (.of_eq ?_)
    rw [List.filterMap_map, ← filterMap_ite_some]
    congr 1; funext i; simp

/-- The counts the goroutines see: `n - card miners` distinct sources and
`card miners` sealers. -/
theorem generated_counts (hacc : ∀ i < n, ∀ j < n, accounts i = accounts j → i = j)
    (hsub : miners ⊆ Finset.range n)
    (order : (rosterMap n (generateNodes n accounts miners it peers)).Ranges) :
    (txSources order.1).Nodup ∧ (txSources order.1).length + miners.card = n ∧
      (sealerAddrs order.1).length = miners.card := by
  obtain ⟨htx, hseal⟩ := generated_sources_perm hacc order
  have hin := length_filter_range_mem hsub
  have hsplit : (List.range n).length = _ :=
    List.length_eq_length_filter_add fun i ↦ decide (i ∈ miners)
  rw [List.length_range] at hsplit
  refine ⟨htx.nodup_iff.mpr (((List.nodup_range n).filter _).map_on fun a ha b hb h ↦ ?_), ?_, ?_⟩
  · exact hacc a (List.mem_range.mp (List.mem_of_mem_filter ha)) b
      (List.mem_range.mp (List.mem_of_mem_filter hb)) h
  · rw [htx.length_eq, List.length_map]; omega
  · rw [hseal.length_eq, List.length_map, hin]

end Roster

/-! ## What the goroutines do on a stored roster -/

/-- **The continuous workload on a stored roster.**  `ethemu` starts both
goroutines without checking the roster.  For `n` nodes with pairwise distinct
keystore addresses, the `num ≥ 0` miners `setMiners` drew and any
order `range` takes, `addrs` holds the `n - num` non-miners and `sealers` the
`num` miners, so that:
* with two non-miners or more, every reachable state of the transaction
  goroutine holds non-miner addresses, builds only transactions `from ≠ to`,
  never panics in a pick, and at every re-draw has a draw that exits the loop;
* with one non-miner it reaches a re-draw that no step ever leaves;
* with none its first `rand.Intn(len(addrs))` panics;
* with a miner the sealing goroutine never panics; with none its first
  `rand.Intn(len(sealers))` panics. -/
theorem continuous_selection (n : Nat) (num : Int) (h0 : 0 ≤ num)
    (accounts : Nat → Address) (hacc : ∀ i < n, ∀ j < n, accounts i = accounts j → i = j)
    (miners : Finset Nat) (hm : MinersReach n num miners) (hdone : ¬ (miners.card : Int) < num)
    (it : SetIter) (peers : Nat → Finset Nat)
    (order : (rosterMap n (generateNodes n accounts miners it peers)).Ranges)
    (sleepMin sleepMax : UInt64) :
    ((txSources order.1).length : Int) = n - num ∧ ((sealerAddrs order.1).length : Int) = num ∧
    (2 ≤ (n : Int) - num → ∀ s, ReflTransGen (TxStep (txSources order.1) sleepMin sleepMax) .init s →
      TxSelectOk (txSources order.1) sleepMin sleepMax s ∧
      ∀ src, s.loc = .redraw src src → ∃ t, TxStep (txSources order.1) sleepMin sleepMax s t ∧
        ∃ dst, t.loc = .redraw src dst ∧ dst ≠ src) ∧
    ((n : Int) - num = 1 → ∃ s, ReflTransGen (TxStep (txSources order.1) sleepMin sleepMax) .init s ∧
      ∀ t, TxStep (txSources order.1) sleepMin sleepMax s t → t = s) ∧
    ((n : Int) = num → TxStep (txSources order.1) sleepMin sleepMax .init ⟨.panicked, []⟩) ∧
    (1 ≤ num → ∀ s, ReflTransGen (SealStep (sealerAddrs order.1)) .init s → s.loc ≠ .panicked) ∧
    (num = 0 → SealStep (sealerAddrs order.1) .init ⟨.panicked, []⟩) := by
  have hinv := hm.inv h0
  obtain ⟨hnd, hlen, hseal⟩ := generated_counts hacc hinv.subset_range order
  have hcard : (miners.card : Int) = num := le_antisymm hinv.card_le (not_lt.mp hdone)
  refine ⟨by omega, by omega, fun h2 s hs ↦ ⟨TxSelectOk.reach ?_ hs, fun src hloc ↦ ?_⟩,
    fun h1 ↦ ?_, fun hn ↦ .pickEmpty ?_, fun h1 s hs ↦ SealStep.not_panicked ?_ hs,
    fun hz ↦ .pickEmpty ?_⟩
  · exact List.ne_nil_of_length_pos (by omega)
  · obtain ⟨p, sent⟩ := s
    cases hloc
    exact TxStep.exists_exit hnd (by omega) sent
  · obtain ⟨a, ha⟩ := List.length_eq_one.mp (show (txSources order.1).length = 1 by omega)
    rw [ha]
    exact ⟨⟨.redraw a a, []⟩,
      .single (show TxStep [a] sleepMin sleepMax .init ⟨.redraw a a, []⟩ from .pick 0 (by simp)),
      fun t ht ↦ TxStep.eq_of_single ht⟩
  · exact List.eq_nil_of_length_eq_zero (by omega)
  · exact List.ne_nil_of_length_pos (by omega)
  · exact List.eq_nil_of_length_eq_zero (by omega)

/-- `continuous_selection` applies to three nodes of which node `0` is the miner. -/
theorem continuous_selection_three_one :
    let accounts : Nat → Address :=
      fun i ↦ ⟨List.replicate 20 i.toUInt8, List.length_replicate _ _⟩
    let m := rosterMap 3 (generateNodes 3 accounts {0} .ascending fun _ ↦ ∅)
    (0 : Int) ≤ 1 ∧ (∀ i < 3, ∀ j < 3, accounts i = accounts j → i = j) ∧
      MinersReach 3 1 {0} ∧ ¬ (({0} : Finset Nat).card : Int) < 1 ∧
      ((txSources m.entries).length : Int) = 3 - 1 := by
  intro accounts m
  have hm : MinersReach 3 1 {0} := by
    simpa using (MinersReach.add .init (by decide) 0 (by decide) : MinersReach 3 1 (insert 0 ∅))
  have hacc : ∀ i < 3, ∀ j < 3, accounts i = accounts j → i = j := by decide
  exact ⟨by decide, hacc, hm, by decide, (continuous_selection 3 1 (by decide) accounts hacc {0} hm
    (by decide) .ascending (fun _ ↦ ∅) ⟨m.entries, .refl _⟩ 0 0).1⟩

/-- **A stored roster on which the run panics.**  `generateConfig` stores two
nodes without a miner (`MinersFlag = 0`; `setPeers` ends at once for degrees in
`[0, 1]`), `ethemu` starts the sealing goroutine on it without a check, and
whatever order `range` takes, its first `rand.Intn(len(sealers))` panics. -/
theorem continuous_sealer_panics_no_miner :
    let accounts : Nat → Address :=
      fun i ↦ ⟨List.replicate 20 i.toUInt8, List.length_replicate _ _⟩
    MinersReach 2 0 ∅ ∧ ¬ ((∅ : Finset Nat).card : Int) < 0 ∧
      PeersReach 2 0 1 ⟨fun _ ↦ ∅, .done⟩ ∧
      (generateConfig 2 accounts ∅ .ascending (fun _ ↦ ∅) 1 1 2).isSome ∧
      ∀ order : (rosterMap 2 (generateNodes 2 accounts ∅ .ascending fun _ ↦ ∅)).Ranges,
        SealStep (sealerAddrs order.1) .init ⟨.panicked, []⟩ := by
  intro accounts
  have hdone : peersStep 2 0 1 .init 0 = ⟨fun _ ↦ ∅, .done⟩ := rfl
  refine ⟨.init, by decide, hdone ▸ PeersReach.init.step 0 (by decide), rfl, fun order ↦ .pickEmpty ?_⟩
  exact List.eq_nil_of_length_eq_zero
    ((generated_counts (by decide) (Finset.empty_subset _) order).2.2.trans Finset.card_empty)

/-! ## The delay -/

/-- **Equal rates make the first delay panic.**  With `BlockTimeFlag = 1` and
`MinTxFlag = MaxTxFlag = 1`, `generateConfig` stores
`MinTxInterval = MaxTxInterval = 1000`; over any two distinct non-miners the
transaction goroutine then calls `rand.Intn(int(1000 - 1000))` in its first
iteration and panics. -/
theorem txDelay_panics_equal_rates :
    txIntervals 1 1 1 = some (1, 1000, 1000) ∧
      ∀ a b : Address, a ≠ b → ReflTransGen (TxStep [a, b] 1000 1000) .init ⟨.panicked, []⟩ := by
  refine ⟨rfl, fun a b hab ↦ ?_⟩
  have hpick : TxStep [a, b] 1000 1000 .init ⟨.redraw a a, []⟩ := .pick 0 (by simp)
  have hredraw : TxStep [a, b] 1000 1000 ⟨.redraw a a, []⟩ ⟨.redraw a b, []⟩ := .redraw rfl 1 (by simp)
  exact .tail (.tail (.tail (.single hpick) hredraw) (.build hab)) (.delayPanic (by decide))

end EthEmu.Run
