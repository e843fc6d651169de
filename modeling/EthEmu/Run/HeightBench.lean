import EthEmu.Emu.Types
import Mathlib.Logic.Relation

/-!
# The block-height benchmark

With `TxModeFlag` unset, `ethemu` starts one driver goroutine that waits until
every node reports the expected height, then makes a random sealer seal
(`cmd/ethemu/main.go`):

```go
curHeight := uint64(0)
for {
	for {
		counter := 0
		for _, sealer := range sealers {
			if sealer.BlockChain().CurrentBlock().Number.Uint64() != curHeight {
				counter++
			}
		}
		if counter == 0 {
			break
		}
	}
	time.Sleep(time.Second)
	sealer := sealers[rand.Intn(len(sealers))]
	etherbase, err := sealer.Etherbase()
	if err != nil {
		return
	}
	select {
	case <-stopSig:
		return
	default:
		log.Warn("Sealing time", "sealer", etherbase)
		sealer.Miner().Work()
		fmt.Println("blockNum", curHeight)
	}
	curHeight++
	if curHeight >= 110 {
		blockLog.Sync()
		os.Exit(0)
	}
}
```

The exit test follows `curHeight++`, right after a `Work()`: the process ends
without a barrier at the height that seal produces.

The chain heights belong to the nodes: `HeightBenchStep` interleaves the
driver's steps with arbitrary changes of every node's height (`heightChange`),
and every height read is a step of its own.

## Honest boundary

* A height is a `Nat`; `curHeight` is a `uint64` that never passes `110`.
* `time.Sleep` is folded into the step after the barrier; a failing
  `Etherbase()` and a fired `stopSig` are one step to `returned`.
* `sealers` is an input.  For a stored roster it lists every node, in the order
  of a `range` loop.
-/

namespace EthEmu.Run

open EthEmu.Emu Relation

/-- Where the height benchmark's driver stands. -/
inductive HeightLoc where
  /-- Inside a poll: `seen` lists the heights read so far, and `counter` is the
  code's counter. -/
  | poll (counter : Nat) (seen : List Nat)
  /-- The barrier completed; `rand.Intn(len(sealers))` comes next. -/
  | pick
  /-- `sealer` is picked; `Etherbase()` and the `select` come next. -/
  | picked (sealer : Address)
  /-- `os.Exit(0)`. -/
  | exited
  /-- `Etherbase()` failed or `<-stopSig` fired. -/
  | returned
  /-- `rand.Intn(len(sealers))` was called with no sealer. -/
  | panicked
deriving DecidableEq

/-- Whether the driver stands between a barrier and the seal it allows. -/
@[simp] def HeightLoc.sealing : HeightLoc → Bool
  | .poll .. => false
  | .exited => false
  | _ => true

/-- What the driver did, in order. -/
inductive HeightEvent where
  /-- A poll with `counter == 0`, which read the heights `seen`. -/
  | barrier (seen : List Nat)
  /-- `sealer.Miner().Work()`, then `fmt.Println("blockNum", height)`. -/
  | work (sealer : Address) (height : Nat)
deriving DecidableEq

/-- The driver goroutine: its position, `curHeight`, and what it did so far. -/
structure HeightDriver where
  loc : HeightLoc
  curHeight : Nat
  log : List HeightEvent

/-- The driver before its first poll. -/
def HeightDriver.init : HeightDriver := ⟨.poll 0 [], 0, []⟩

/-- One step of the driver over `sealers`, the nodes' heights being `heights`. -/
inductive HeightDriverStep (sealers : List Address) (heights : Address → Nat) :
    HeightDriver → HeightDriver → Prop
  /-- The next sealer's `CurrentBlock().Number`; a height other than `curHeight`
  counts. -/
  | read {cur : Nat} {log : List HeightEvent} {c : Nat} {seen : List Nat}
      (hk : seen.length < sealers.length) :
      HeightDriverStep sealers heights ⟨.poll c seen, cur, log⟩
        ⟨.poll (if heights (sealers.get ⟨seen.length, hk⟩) ≠ cur then c + 1 else c)
          (seen ++ [heights (sealers.get ⟨seen.length, hk⟩)]), cur, log⟩
  /-- `counter != 0`: the poll starts over. -/
  | again {cur : Nat} {log : List HeightEvent} {c : Nat} {seen : List Nat}
      (hk : seen.length = sealers.length) (hc : c ≠ 0) :
      HeightDriverStep sealers heights ⟨.poll c seen, cur, log⟩ ⟨.poll 0 [], cur, log⟩
  /-- `counter == 0`: the barrier completes. -/
  | converged {cur : Nat} {log : List HeightEvent} {seen : List Nat}
      (hk : seen.length = sealers.length) :
      HeightDriverStep sealers heights ⟨.poll 0 seen, cur, log⟩ ⟨.pick, cur, log ++ [.barrier seen]⟩
  /-- `rand.Intn(len(sealers))` with no sealer panics. -/
  | pickEmpty {cur : Nat} {log : List HeightEvent} (h : sealers = []) :
      HeightDriverStep sealers heights ⟨.pick, cur, log⟩ ⟨.panicked, cur, log⟩
  /-- `sealer := sealers[r]`. -/
  | pick {cur : Nat} {log : List HeightEvent} (r : Nat) (hr : r < sealers.length) :
      HeightDriverStep sealers heights ⟨.pick, cur, log⟩ ⟨.picked (sealers.get ⟨r, hr⟩), cur, log⟩
  /-- `Etherbase()` fails, or `<-stopSig` fires. -/
  | quit {cur : Nat} {log : List HeightEvent} {sealer : Address} :
      HeightDriverStep sealers heights ⟨.picked sealer, cur, log⟩ ⟨.returned, cur, log⟩
  /-- `Work()`, and the incremented `curHeight` stays below `110`. -/
  | work {cur : Nat} {log : List HeightEvent} {sealer : Address} (hn : cur + 1 < 110) :
      HeightDriverStep sealers heights ⟨.picked sealer, cur, log⟩
        ⟨.poll 0 [], cur + 1, log ++ [.work sealer cur]⟩
  /-- `Work()`, and the incremented `curHeight` reaches `110`: `os.Exit(0)`. -/
  | exit {cur : Nat} {log : List HeightEvent} {sealer : Address} (hn : 110 ≤ cur + 1) :
      HeightDriverStep sealers heights ⟨.picked sealer, cur, log⟩
        ⟨.exited, cur + 1, log ++ [.work sealer cur]⟩

/-- The benchmark as a whole: the driver, and the nodes' heights, which the
environment changes at will between any two of the driver's steps. -/
inductive HeightBenchStep (sealers : List Address) :
    HeightDriver × (Address → Nat) → HeightDriver × (Address → Nat) → Prop
  /-- A step of the driver, reading the current heights. -/
  | driver {d d' : HeightDriver} {heights : Address → Nat}
      (h : HeightDriverStep sealers heights d d') : HeightBenchStep sealers (d, heights) (d', heights)
  /-- The nodes' heights change. -/
  | heightChange {d : HeightDriver} {heights : Address → Nat} (heights' : Address → Nat) :
      HeightBenchStep sealers (d, heights) (d, heights')

/-! ## The history of the driver -/

/-- The log of the rounds `ws` from height `k` on, over `m` sealers: at each
height a barrier that read that height from every sealer, then the seal by the
round's sealer. -/
def sealHistory (m : Nat) : Nat → List Address → List HeightEvent
  | _, [] => []
  | k, w :: ws => .barrier (List.replicate m k) :: .work w k :: sealHistory m (k + 1) ws

/-- One more round at the end of a history. -/
theorem sealHistory_append (m k : Nat) (ws : List Address) (w : Address) :
    sealHistory m k (ws ++ [w]) =
      sealHistory m k ws ++ [.barrier (List.replicate m (k + ws.length)), .work w (k + ws.length)] := by
  induction ws generalizing k with
  | nil => rfl
  | cons v ws ih => simp [sealHistory, ih, Nat.add_assoc, Nat.add_comm 1]

/-- Every barrier of a history read one height, below the height it ends at. -/
theorem barrier_mem_sealHistory {m k : Nat} {ws : List Address} {seen : List Nat}
    (h : .barrier seen ∈ sealHistory m k ws) : ∃ j < ws.length, seen = List.replicate m (k + j) := by
  induction ws generalizing k with
  | nil => nomatch h
  | cons w ws ih =>
    simp only [sealHistory, List.mem_cons, HeightEvent.barrier.injEq, reduceCtorEq, false_or] at h
    rcases h with rfl | h
    · exact ⟨0, by simp, rfl⟩
    · obtain ⟨j, hj, rfl⟩ := ih h
      exact ⟨j + 1, by simp; omega, by rw [Nat.add_assoc, Nat.add_comm 1]⟩

/-- What every reachable state of the driver satisfies: its log is a history of
`curHeight` rounds, followed by the barrier at `curHeight` while a seal is
pending; a poll's counter is the number of heights it read other than
`curHeight`; and the driver exits exactly when `curHeight` reaches `110`. -/
structure HeightDriverInv (sealers : List Address) (d : HeightDriver) : Prop where
  history : ∃ ws : List Address, ws.length = d.curHeight ∧
    d.log = sealHistory sealers.length 0 ws ++
      if d.loc.sealing then [.barrier (List.replicate sealers.length d.curHeight)] else []
  poll : ∀ c seen, d.loc = .poll c seen →
    c = seen.countP (fun h ↦ decide (h ≠ d.curHeight)) ∧ seen.length ≤ sealers.length
  exited_iff : d.loc = .exited ↔ d.curHeight = 110
  curHeight_le : d.curHeight ≤ 110

variable {sealers : List Address} {heights : Address → Nat}

/-- The invariant holds before the first poll. -/
theorem HeightDriverInv.init : HeightDriverInv sealers .init where
  history := ⟨[], rfl, rfl⟩
  poll _ _ h := by cases h; simp
  exited_iff := ⟨fun h ↦ (nomatch h), fun h ↦ absurd h (by decide)⟩
  curHeight_le := by decide

/-- A poll that read `curHeight` from every sealer read exactly that. -/
theorem eq_replicate_of_countP_ne {cur : Nat} {seen : List Nat}
    (h : 0 = seen.countP (fun h ↦ decide (h ≠ cur))) :
    seen = List.replicate seen.length cur :=
  List.eq_replicate_iff.mpr ⟨rfl, fun b hb ↦ by simpa using List.countP_eq_zero.mp h.symm b hb⟩

/-- The seal that ends a round: the pending barrier and the `Work()` complete it. -/
theorem sealHistory_seal {m cur : Nat} {ws : List Address} {log : List HeightEvent}
    (hlen : ws.length = cur) (hlog : log = sealHistory m 0 ws ++ [.barrier (List.replicate m cur)])
    (sealer : Address) : log ++ [.work sealer cur] = sealHistory m 0 (ws ++ [sealer]) := by
  rw [hlog, sealHistory_append, hlen, Nat.zero_add, List.append_assoc]
  rfl

/-- A step that neither leaves from nor lands on `.exited` and keeps
`curHeight` keeps `exited_iff`. -/
theorem HeightDriverInv.exited_iff_of_keep {d d' : HeightDriver} (hi : HeightDriverInv sealers d)
    (hd : d.loc ≠ .exited) (hd' : d'.loc ≠ .exited) (hn : d'.curHeight = d.curHeight) :
    d'.loc = .exited ↔ d'.curHeight = 110 :=
  ⟨fun h ↦ absurd h hd', fun h ↦ absurd (hi.exited_iff.mpr (hn ▸ h)) hd⟩

/-- Every step of the driver keeps the invariant, whatever the heights are. -/
theorem HeightDriverInv.step {d d' : HeightDriver} (hi : HeightDriverInv sealers d)
    (h : HeightDriverStep sealers heights d d') : HeightDriverInv sealers d' := by
  obtain ⟨ws, hlen, hlog⟩ := hi.history
  cases h with
  | @read cur log c seen hk =>
    obtain ⟨hc, -⟩ := hi.poll _ _ rfl
    refine ⟨hi.history, fun _ _ h ↦ ?_, hi.exited_iff_of_keep nofun nofun rfl, hi.curHeight_le⟩
    cases h
    dsimp only at hc ⊢
    refine ⟨?_, by simp; omega⟩
    rw [List.countP_append, ← hc]
    generalize heights (sealers.get ⟨seen.length, hk⟩) = x
    by_cases hx : x = cur <;> simp [hx]
  | again hk hc =>
    exact ⟨hi.history, fun _ _ h ↦ by cases h; simp, hi.exited_iff_of_keep nofun nofun rfl,
      hi.curHeight_le⟩
  | @converged cur log seen hk =>
    obtain ⟨hc, -⟩ := hi.poll _ _ rfl
    refine ⟨⟨ws, hlen, ?_⟩, fun _ _ h ↦ (nomatch h), hi.exited_iff_of_keep nofun nofun rfl,
      hi.curHeight_le⟩
    dsimp only at hc hlog ⊢
    simp only [HeightLoc.sealing, Bool.false_eq_true, ↓reduceIte, List.append_nil] at hlog ⊢
    rw [hlog, eq_replicate_of_countP_ne hc, hk]
  | @work cur log sealer hn =>
    refine ⟨⟨ws ++ [sealer], by simpa using hlen, ?_⟩, fun _ _ h ↦ by cases h; simp,
      ⟨nofun, fun h ↦ absurd (show cur + 1 = 110 from h) (by omega)⟩, show cur + 1 ≤ 110 by omega⟩
    simpa using sealHistory_seal hlen (by simpa using hlog) sealer
  | @exit cur log sealer hn =>
    have h5 : cur ≠ 110 := fun h ↦ nomatch hi.exited_iff.mpr h
    have hle : cur ≤ 110 := hi.curHeight_le
    refine ⟨⟨ws ++ [sealer], by simpa using hlen, ?_⟩, fun _ _ h ↦ (nomatch h),
      ⟨fun _ ↦ show cur + 1 = 110 by omega, fun _ ↦ rfl⟩, show cur + 1 ≤ 110 by omega⟩
    simpa using sealHistory_seal hlen (by simpa using hlog) sealer
  | _ =>
    exact ⟨hi.history, fun _ _ h ↦ (nomatch h), hi.exited_iff_of_keep nofun nofun rfl,
      hi.curHeight_le⟩

/-- The invariant holds along every interleaving of the driver with height changes. -/
theorem HeightDriverInv.reach {h₀ : Address → Nat} {s : HeightDriver × (Address → Nat)}
    (h : ReflTransGen (HeightBenchStep sealers) (.init, h₀) s) : HeightDriverInv sealers s.1 := by
  induction h with
  | refl => exact .init
  | tail _ hst ih =>
    cases hst with
    | driver h => exact ih.step h
    | heightChange _ => exact ih

/-! ## Nodes that follow the barrier -/

section Following

variable {k : Nat} {log : List HeightEvent}

/-- With every node at `k`, a poll's reads all agree. -/
theorem HeightDriverStep.reads_const :
    ∀ j ≤ sealers.length, ReflTransGen (HeightDriverStep sealers fun _ ↦ k)
      ⟨.poll 0 [], k, log⟩ ⟨.poll 0 (List.replicate j k), k, log⟩
  | 0, _ => .refl
  | j + 1, hj => by
    have hk : (List.replicate j k).length < sealers.length := by simp; omega
    have h : HeightDriverStep sealers (fun _ ↦ k) ⟨.poll 0 (List.replicate j k), k, log⟩ _ := .read hk
    rw [List.replicate_succ']
    exact (reads_const j (by omega)).tail (by simpa using h)

/-- With every node at `k`, the barrier completes and the first sealer is picked. -/
theorem HeightDriverStep.barrier_const (h0 : 0 < sealers.length) :
    ReflTransGen (HeightDriverStep sealers fun _ ↦ k) ⟨.poll 0 [], k, log⟩
      ⟨.picked (sealers.get ⟨0, h0⟩), k, log ++ [.barrier (List.replicate sealers.length k)]⟩ :=
  ((reads_const _ le_rfl).tail (.converged (List.length_replicate _ _))).tail (.pick 0 h0)

/-- With the nodes moved to each new height before its barrier, the driver
reaches every height below `110`. -/
theorem HeightBenchStep.rounds_following (h0 : 0 < sealers.length) :
    ∀ m : Nat, m < 110 → ∃ log', ReflTransGen (HeightBenchStep sealers)
      (.init, fun _ ↦ 0) (⟨.poll 0 [], m, log'⟩, fun _ ↦ m)
  | 0, _ => ⟨[], .refl⟩
  | m + 1, hm => by
    obtain ⟨log', hr⟩ := rounds_following h0 m (by omega)
    exact ⟨_, (hr.trans (ReflTransGen.lift (fun d ↦ (d, fun _ ↦ m)) (fun _ _ h ↦ .driver h)
      ((HeightDriverStep.barrier_const h0).tail (.work (by omega))))).tail (.heightChange _)⟩

/-- With the nodes moved to each new height before its barrier, the driver exits
while every node is at `109`. -/
theorem HeightBenchStep.exit_following (h0 : 0 < sealers.length) :
    ∃ s, ReflTransGen (HeightBenchStep sealers) (.init, fun _ ↦ 0) s ∧
      s.1.loc = .exited ∧ s.1.curHeight = 110 ∧ ∀ x, s.2 x = 109 := by
  obtain ⟨log', hr⟩ := rounds_following h0 109 (by omega)
  exact ⟨_, hr.trans (ReflTransGen.lift (fun d ↦ (d, fun _ ↦ 109)) (fun _ _ h ↦ .driver h)
    ((HeightDriverStep.barrier_const h0).tail (.exit (by omega)))), rfl, rfl, fun _ ↦ rfl⟩

end Following

/-- **What the height benchmark guarantees.**  Along every interleaving of the
driver with changes of the nodes' heights, the driver's log is a history of
`curHeight` rounds, each a barrier in which every sealer reported the round's
height followed by one `Work()`, and then possibly the barrier at `curHeight`;
so `curHeight` is the number of seals.  The driver exits exactly when
`curHeight` reaches `110`, right after the 110th `Work()`: its last barrier read
`109` from every sealer, and no barrier read `110`. -/
theorem heightBench_seals_after_barriers (sealers : List Address) (h₀ : Address → Nat)
    (s : HeightDriver × (Address → Nat)) (h : ReflTransGen (HeightBenchStep sealers) (.init, h₀) s) :
    ∃ ws : List Address, ws.length = s.1.curHeight ∧
      (s.1.log = sealHistory sealers.length 0 ws ∨
        s.1.log = sealHistory sealers.length 0 ws ++
          [.barrier (List.replicate sealers.length s.1.curHeight)]) ∧
      (s.1.loc = .exited ↔ s.1.curHeight = 110) ∧
      (s.1.loc = .exited → s.1.log = sealHistory sealers.length 0 ws ∧
        ∀ seen, .barrier seen ∈ s.1.log → ∃ j < 110, seen = List.replicate sealers.length j) := by
  have hi := HeightDriverInv.reach h
  obtain ⟨ws, hlen, hlog⟩ := hi.history
  refine ⟨ws, hlen, ?_, hi.exited_iff, fun hx ↦ ?_⟩
  · cases s.1.loc.sealing <;> simp_all
  · have hlog' : s.1.log = sealHistory sealers.length 0 ws := by simpa [hx] using hlog
    refine ⟨hlog', fun seen hs ↦ ?_⟩
    obtain ⟨j, hj, rfl⟩ := barrier_mem_sealHistory (hlog' ▸ hs)
    exact ⟨j, by rw [hlen, hi.exited_iff.mp hx] at hj; exact hj, by rw [Nat.zero_add]⟩

/-- `heightBench_seals_after_barriers` on two nodes that follow each barrier, at
the exit: the log is 110 full rounds, and every barrier read one height below
`110` from both sealers. -/
theorem heightBench_seals_after_barriers_exit :
    let sealers : List Address := [default, ⟨List.replicate 20 1, List.length_replicate _ _⟩]
    ∃ s, ReflTransGen (HeightBenchStep sealers) (.init, fun _ ↦ 0) s ∧ s.1.loc = .exited ∧
      ∃ ws : List Address, ws.length = 110 ∧ s.1.log = sealHistory 2 0 ws ∧
        ∀ seen, .barrier seen ∈ s.1.log → ∃ j < 110, seen = List.replicate 2 j := by
  intro sealers
  obtain ⟨s, hr, hx, hc, -⟩ := @HeightBenchStep.exit_following sealers (Nat.succ_pos _)
  obtain ⟨ws, hlen, -, -, hlog⟩ := heightBench_seals_after_barriers sealers _ s hr
  exact ⟨s, hr, hx, ws, hlen.trans hc, (hlog hx).1, (hlog hx).2⟩


/-- **The benchmark exits with every node below the target height.**  On two
nodes whose heights follow each barrier (both at `k` before the `k`-th poll),
the driver seals 110 times and calls `os.Exit(0)` while both nodes are still at
height `109`. -/
theorem heightBench_exits_below_target :
    ∃ s, ReflTransGen (HeightBenchStep [default, ⟨List.replicate 20 1, List.length_replicate _ _⟩])
      (.init, fun _ ↦ 0) s ∧ s.1.loc = .exited ∧ s.1.curHeight = 110 ∧ ∀ x, s.2 x = 109 :=
  HeightBenchStep.exit_following (by simp)

end EthEmu.Run
