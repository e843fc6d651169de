import EthEmu.Emu.Types

/-!
# The request tracker of the `p2p/tracker` package

A `Tracker` keeps the requests sent to peers that have not been answered yet:
`pending` maps a request id to the request, and the list `expire` holds the ids
in the order they expire, the oldest first.  When the timer `wake` fires,
`clean` drops the requests that have waited too long and `schedule` arms the
timer again for the oldest request left:

```go
for t.expire.Len() > 0 {
	var (
		head = t.expire.Front()
		id   = head.Value.(uint64)
		req  = t.pending[id]
	)
	if time.Since(req.time) < t.timeout+5*time.Millisecond {
		break
	}
	t.expire.Remove(head)
	delete(t.pending, id)
}
t.schedule()
```

Times are `time.Duration` and monotonic clock readings, in nanoseconds.  Two
pieces of Go arithmetic are kept: `time.Since` (`Time.Sub`) saturates at the
bounds of `int64`, and `t.timeout+5*time.Millisecond` is an `int64` sum that
wraps.

The results:

* `clean_spec`: from a state where `expire` lists every pending id once, oldest
  first, `clean` never panics and removes exactly the requests that waited
  `timeout + 5ms` or more, keeps the others in order, keeps that state's shape,
  and arms the timer for the earliest request left, or clears it;
* `clean_wraps`, a defect of the code: the hypothesis of `clean_spec` that
  `timeout + 5ms` fits in an `int64` is needed, since with a timeout within
  `5ms` of the largest duration the sum wraps negative and `clean` drops a
  request sent at this very instant, where the field's comment promises a drop
  only after `timeout`;
* `timer_runs_safe`: along every sequence of firings of the timer, at any
  instants, from a tracker in that shape, `clean` never panics, the shape is
  kept and requests are only ever dropped;
* `clean_rearms_within_grace`: `schedule` arms the timer for `time + timeout`
  of the earliest request, `5ms` before `clean` drops it, so every firing in
  those `5ms` drops nothing and arms the timer again for the same deadline, by
  then past.

## Honest boundary

* `clean` reads the clock once per iteration; the model reads one instant `now`
  for all of them.
* A request is known by its `time`; its peer, version and codes are not read by
  `clean` or `schedule` and are left out, as is the `expire` element a request
  points back to.
* The timer is known by the deadline it is armed for,
  `req.time.Add(t.timeout)`, added exactly; `time.Until` and `AfterFunc` are
  the runtime's.
* A panic (a lookup of a missing id reads `nil.time`) is `none`.
-/

namespace EthEmu.P2p

open EthEmu.Emu

/-! ## Go's time arithmetic -/

/-- The largest `time.Duration`, `1<<63 - 1` nanoseconds. -/
def maxDuration : Int := 2 ^ 63 - 1

/-- The smallest `time.Duration`, `-1<<63` nanoseconds. -/
def minDuration : Int := -2 ^ 63

/-- `time.Millisecond`. -/
def millisecond : Int := 1000000

/-- `int64` arithmetic: the result modulo `2^64`, read as signed. -/
def wrapInt64 (x : Int) : Int := (x + 2 ^ 63) % 2 ^ 64 - 2 ^ 63

/-- `t.Sub(u)` on monotonic readings: the difference, saturated to the range of
`time.Duration`.  `time.Since(u)` is `now.Sub(u)`. -/
def timeSub (t u : Int) : Int := max minDuration (min maxDuration (t - u))

/-- An `int64` sum that does not overflow is the sum. -/
theorem wrapInt64_of_range {x : Int} (h₁ : minDuration ≤ x) (h₂ : x ≤ maxDuration) :
    wrapInt64 x = x := by
  unfold wrapInt64
  unfold minDuration maxDuration at *
  omega

/-- Against a bound inside the range of `time.Duration`, the saturated
difference compares as the difference itself. -/
theorem timeSub_lt_iff {t u d : Int} (h₁ : minDuration < d) (h₂ : d ≤ maxDuration) :
    timeSub t u < d ↔ t - u < d := by
  unfold timeSub
  omega

/-! ## The tracker -/

/-- `request`: what `clean` and `schedule` read of it, the time it was sent. -/
structure Request where
  time : Int
deriving DecidableEq, Repr

/-- `Tracker`: the fields `clean` and `schedule` read and write.  `wake` is the
deadline the timer is armed for, `none` for `nil`. -/
structure Tracker where
  timeout : Int
  /-- `timeout` is a `time.Duration`. -/
  timeout_range : minDuration ≤ timeout ∧ timeout ≤ maxDuration
  pending : GoMap UInt64 Request
  expire : List UInt64
  wake : Option Int

/-- The bound of `clean`: `t.timeout+5*time.Millisecond`, an `int64` sum. -/
def Tracker.threshold (t : Tracker) : Int := wrapInt64 (t.timeout + 5 * millisecond)

/-- The loop of `clean` at time `now`, over the ids left in `expire`: the map
and the list it leaves, or `none` for a panic. -/
def expireLoop (thr now : Int) (pending : GoMap UInt64 Request) :
    List UInt64 → Option (GoMap UInt64 Request × List UInt64)
  | [] => some (pending, [])
  | id :: rest =>
    match pending.get? id with
    | none => none
    | some req =>
      if timeSub now req.time < thr then some (pending, id :: rest)
      else expireLoop thr now (pending.erase id) rest

/-- `schedule()`: the deadline of the request at the front of `expire`, or `nil`
when `expire` is empty; `none` for a panic. -/
def schedule (timeout : Int) (pending : GoMap UInt64 Request) : List UInt64 → Option (Option Int)
  | [] => some none
  | id :: _ => (pending.get? id).map fun req ↦ some (req.time + timeout)

/-- `clean()` at time `now`. -/
def Tracker.clean (t : Tracker) (now : Int) : Option Tracker :=
  match expireLoop t.threshold now t.pending t.expire with
  | none => none
  | some (pending, expire) =>
    (schedule t.timeout pending expire).map fun wake ↦
      { t with pending := pending, expire := expire, wake := wake }

/-! ## The loop of `clean` -/

/-- In a list where `p` of an element implies `p` of every element before it,
the elements with `p` come first. -/
theorem dropWhile_eq_filter_of_pairwise {α : Type} {p : α → Bool} {l : List α}
    (h : l.Pairwise fun a b ↦ p b → p a) : l.dropWhile p = l.filter (!p ·) := by
  induction l with
  | nil => rfl
  | cons x l ih =>
    rw [List.pairwise_cons] at h
    by_cases hx : p x
    · simp [List.dropWhile_cons, hx, ih h.2]
    · have hrest : l.filter (!p ·) = l :=
        List.filter_eq_self.mpr fun y hy ↦ by simpa using fun hy' ↦ hx (h.1 y hy hy')
      simp [List.dropWhile_cons, hx, hrest]

/-- The same list's first elements with `p`. -/
theorem takeWhile_eq_filter_of_pairwise {α : Type} {p : α → Bool} {l : List α}
    (h : l.Pairwise fun a b ↦ p b → p a) : l.takeWhile p = l.filter p := by
  induction l with
  | nil => rfl
  | cons x l ih =>
    rw [List.pairwise_cons] at h
    by_cases hx : p x
    · simp [List.takeWhile_cons, hx, ih h.2]
    · have hrest : l.filter p = [] :=
        List.filter_eq_nil_iff.mpr fun y hy hy' ↦ hx (h.1 y hy hy')
      simp [List.takeWhile_cons, hx, hrest]

/-- **The loop of `clean`.**  Over ids that are distinct and all pending, it
drops the ids at the front whose requests have waited their time, deleting them
from `pending`, and stops at the first one still alive. -/
theorem expireLoop_eq {thr now : Int} {orig : UInt64 → Option Request} {l : List UInt64}
    (hl : l.Nodup) (hsome : ∀ id ∈ l, (orig id).isSome) {pending : GoMap UInt64 Request}
    (hget : ∀ id ∈ l, pending.get? id = orig id) :
    expireLoop thr now pending l =
      some ((l.takeWhile fun id ↦ (orig id).any fun r ↦ !decide (timeSub now r.time < thr)).foldl
          GoMap.erase pending,
        l.dropWhile fun id ↦ (orig id).any fun r ↦ !decide (timeSub now r.time < thr)) := by
  induction l generalizing pending with
  | nil => rfl
  | cons id l ih =>
    rw [List.nodup_cons] at hl
    obtain ⟨r, hr⟩ := Option.isSome_iff_exists.mp (hsome id (List.mem_cons_self id l))
    have hid : pending.get? id = some r := (hget id (List.mem_cons_self id l)).trans hr
    by_cases halive : timeSub now r.time < thr
    · simp [expireLoop, hid, halive, hr]
    · have hrest : ∀ id' ∈ l, (pending.erase id).get? id' = orig id' := fun id' hid' ↦ by
        have hne : id' ≠ id := fun h ↦ hl.1 (h ▸ hid')
        rw [GoMap.get?_erase, if_neg hne, hget id' (List.mem_cons_of_mem id hid')]
      simp only [expireLoop, hid, halive, ↓reduceIte,
        ih hl.2 (fun id' h ↦ hsome id' (List.mem_cons_of_mem id h)) hrest, List.takeWhile_cons, hr,
        Option.any_some, decide_False, Bool.not_false, List.foldl_cons, List.dropWhile_cons]

/-! ## The shape `clean` keeps -/

/-- What a tracker keeps between calls: `expire` lists every pending id exactly
once and nothing else, oldest request first. -/
structure TrackerInv (t : Tracker) : Prop where
  nodup : t.expire.Nodup
  mem_iff : ∀ id, id ∈ t.expire ↔ (t.pending.get? id).isSome
  sorted : t.expire.Pairwise fun a b ↦
    ∀ ra rb, t.pending.get? a = some ra → t.pending.get? b = some rb → ra.time ≤ rb.time

/-- Whether the request of `id` has waited its time at `now`: `clean`'s test
fails on it. -/
def Tracker.expired (t : Tracker) (now : Int) (id : UInt64) : Bool :=
  (t.pending.get? id).any fun r ↦ !decide (timeSub now r.time < t.threshold)

/-- The tracker `clean` leaves before `schedule`: the expired ids deleted from
`pending` and dropped from `expire`. -/
def Tracker.cleaned (t : Tracker) (now : Int) : Tracker :=
  { t with
    pending := (t.expire.filter (t.expired now)).foldl GoMap.erase t.pending
    expire := t.expire.filter fun id ↦ !t.expired now id }

/-- `schedule` of a tracker in shape arms the timer for its earliest request,
or clears it when nothing is pending. -/
theorem schedule_spec {t : Tracker} (hinv : TrackerInv t) :
    ∃ w, schedule t.timeout t.pending t.expire = some w ∧
      (w = none ↔ ∀ id, t.pending.get? id = none) ∧
      ∀ d, w = some d → ∃ id r, t.pending.get? id = some r ∧ d = r.time + t.timeout ∧
        ∀ id' r', t.pending.get? id' = some r' → r.time ≤ r'.time := by
  have hmem := hinv.mem_iff
  have hsorted := hinv.sorted
  cases hexp : t.expire with
  | nil =>
    refine ⟨none, rfl, ⟨fun _ id ↦ ?_, fun _ ↦ rfl⟩, fun d h ↦ nomatch h⟩
    simpa [hexp] using (hmem id).not.mp (by simp [hexp])
  | cons id rest =>
    obtain ⟨r, hr⟩ := Option.isSome_iff_exists.mp ((hmem id).mp (by simp [hexp]))
    rw [hexp, List.pairwise_cons] at hsorted
    refine ⟨some (r.time + t.timeout), by simp [schedule, hr], ⟨nofun, fun h ↦ by simp [h] at hr⟩, ?_⟩
    rintro d ⟨⟩
    refine ⟨id, r, hr, rfl, fun id' r' hr' ↦ ?_⟩
    have hid' : id' ∈ id :: rest := hexp ▸ (hmem id').mpr (by simp [hr'])
    rcases List.mem_cons.mp hid' with rfl | hid'
    · rw [hr] at hr'; cases hr'; exact le_refl _
    · exact hsorted.1 id' hid' r r' hr hr'

section Clean

variable {t : Tracker} (hinv : TrackerInv t) (now : Int)
include hinv

/-- Along `expire`, a request that expired makes every older one expired. -/
theorem expired_pairwise : t.expire.Pairwise fun a b ↦ t.expired now b → t.expired now a := by
  refine hinv.sorted.imp_of_mem fun {a b} ha _ h hb ↦ ?_
  obtain ⟨ra, hra⟩ := Option.isSome_iff_exists.mp ((hinv.mem_iff a).mp ha)
  cases hrb : t.pending.get? b with
  | none => simp [Tracker.expired, hrb] at hb
  | some rb =>
    have hle := h ra rb hra hrb
    simp only [Tracker.expired, hra, hrb, Option.any_some, Bool.not_eq_true',
      decide_eq_false_iff_not] at hb ⊢
    unfold timeSub at hb ⊢
    omega

/-- The loop of `clean` on a tracker in shape leaves the cleaned tracker. -/
theorem expireLoop_clean :
    expireLoop t.threshold now t.pending t.expire = some ((t.cleaned now).pending, (t.cleaned now).expire) := by
  rw [expireLoop_eq hinv.nodup (fun id h ↦ (hinv.mem_iff id).mp h) (fun _ _ ↦ rfl)]
  change some ((t.expire.takeWhile (t.expired now)).foldl GoMap.erase t.pending,
    t.expire.dropWhile (t.expired now)) = _
  rw [takeWhile_eq_filter_of_pairwise (expired_pairwise hinv now),
    dropWhile_eq_filter_of_pairwise (expired_pairwise hinv now)]
  rfl

/-- A lookup in the cleaned tracker: the request if it has not expired. -/
theorem get?_cleaned (id : UInt64) :
    (t.cleaned now).pending.get? id =
      (t.pending.get? id).filter fun r ↦ decide (timeSub now r.time < t.threshold) := by
  simp only [Tracker.cleaned, GoMap.get?_foldl_erase, List.mem_filter]
  cases hr : t.pending.get? id with
  | none => simp
  | some r =>
    have hid : id ∈ t.expire := (hinv.mem_iff id).mpr (by simp [hr])
    by_cases halive : timeSub now r.time < t.threshold <;>
      simp [Tracker.expired, hr, hid, halive, Option.filter]

/-- The cleaned tracker is in shape. -/
theorem cleaned_inv : TrackerInv (t.cleaned now) := by
  have hget : ∀ id ∈ (t.cleaned now).expire, (t.cleaned now).pending.get? id = t.pending.get? id := by
    intro id hid
    simp only [Tracker.cleaned, List.mem_filter, Bool.not_eq_true'] at hid
    rw [get?_cleaned hinv now]
    cases hr : t.pending.get? id with
    | none => rfl
    | some r => simpa [Tracker.expired, hr, Option.filter] using hid.2
  refine ⟨hinv.nodup.filter _, fun id ↦ ?_, ?_⟩
  · rw [get?_cleaned hinv now]
    simp only [Tracker.cleaned, List.mem_filter, hinv.mem_iff, Bool.not_eq_true']
    cases hr : t.pending.get? id with
    | none => simp
    | some r => simp [Tracker.expired, hr, Option.filter]
  · refine (hinv.sorted.sublist (List.filter_sublist _)).imp_of_mem fun {a b} ha hb h ra rb hra hrb ↦ ?_
    rw [hget a ha] at hra
    rw [hget b hb] at hrb
    exact h ra rb hra hrb

/-- On a tracker in shape `clean` never panics: it leaves the cleaned tracker,
with the timer `schedule` arms. -/
theorem clean_of_inv : ∃ w, t.clean now = some { t.cleaned now with wake := w } := by
  obtain ⟨w, hw, -⟩ := schedule_spec (cleaned_inv hinv now)
  refine ⟨w, ?_⟩
  simp only [Tracker.clean, expireLoop_clean hinv now]
  exact congrArg (Option.map _) hw |>.trans rfl

end Clean

/-! ## `clean` -/

/-- Without overflow, `clean`'s test is the arithmetic one: a request is alive
while it has waited less than `timeout + 5ms`. -/
theorem alive_iff {t : Tracker} (hthr : t.timeout + 5 * millisecond ≤ maxDuration) (now : Int)
    (r : Request) :
    decide (timeSub now r.time < t.threshold) = decide (now - r.time < t.timeout + 5 * millisecond) := by
  have h₁ := t.timeout_range.1
  have hsum : minDuration ≤ t.timeout + 5 * millisecond := by
    unfold minDuration millisecond at *; omega
  rw [Tracker.threshold, wrapInt64_of_range hsum hthr]
  exact decide_eq_decide.mpr (timeSub_lt_iff (by unfold minDuration millisecond at *; omega) hthr)

/-- **`clean` on a tracker in shape.**  Whatever the clock reads, `clean` never
looks up a missing id; it removes from `pending` and from `expire` exactly the
requests that have waited `timeout + 5ms` or more, keeps the others in their
order, leaves the tracker in shape, and its `schedule` clears the timer when no
request is left and otherwise arms it for the deadline of the earliest request
left.  This holds when `timeout + 5ms` fits in a `time.Duration`. -/
theorem clean_spec (t : Tracker) (hinv : TrackerInv t) (now : Int)
    (hthr : t.timeout + 5 * millisecond ≤ maxDuration) :
    ∃ t', t.clean now = some t' ∧
      (∀ id, t'.pending.get? id =
        (t.pending.get? id).filter fun r ↦ decide (now - r.time < t.timeout + 5 * millisecond)) ∧
      t'.expire = t.expire.filter (fun id ↦
        (t.pending.get? id).any fun r ↦ decide (now - r.time < t.timeout + 5 * millisecond)) ∧
      TrackerInv t' ∧
      (t'.wake = none ↔ ∀ id, t'.pending.get? id = none) ∧
      ∀ d, t'.wake = some d → ∃ id r, t'.pending.get? id = some r ∧ d = r.time + t.timeout ∧
        ∀ id' r', t'.pending.get? id' = some r' → r.time ≤ r'.time := by
  have hinv' := cleaned_inv hinv now
  obtain ⟨w, hw, hnone, hsome⟩ := schedule_spec hinv'
  have halive := alive_iff hthr now
  refine ⟨{ t.cleaned now with wake := w }, ?_, fun id ↦ ?_, ?_, ⟨hinv'.1, hinv'.2, hinv'.3⟩, hnone, hsome⟩
  · simp only [Tracker.clean, expireLoop_clean hinv now]
    exact congrArg (Option.map _) hw |>.trans rfl
  · show (t.cleaned now).pending.get? id = _
    rw [get?_cleaned hinv now]
    simp only [halive]
  · refine List.filter_congr fun id hid ↦ ?_
    obtain ⟨r, hr⟩ := Option.isSome_iff_exists.mp ((hinv.mem_iff id).mp hid)
    simp [Tracker.expired, hr, halive]

theorem clean_spec_two :
    let t : Tracker := ⟨10, ⟨by decide, by decide⟩, ⟨[(1, ⟨0⟩), (2, ⟨100⟩)], by decide⟩, [1, 2], none⟩
    TrackerInv t ∧ t.timeout + 5 * millisecond ≤ maxDuration ∧
      ∃ t', t.clean 50 = some t' ∧
        (∀ id, t'.pending.get? id =
          (t.pending.get? id).filter fun r ↦ decide (50 - r.time < t.timeout + 5 * millisecond)) ∧
        t'.expire = t.expire.filter (fun id ↦
          (t.pending.get? id).any fun r ↦ decide (50 - r.time < t.timeout + 5 * millisecond)) ∧
        TrackerInv t' ∧
        (t'.wake = none ↔ ∀ id, t'.pending.get? id = none) ∧
        ∀ d, t'.wake = some d → ∃ id r, t'.pending.get? id = some r ∧ d = r.time + t.timeout ∧
          ∀ id' r', t'.pending.get? id' = some r' → r.time ≤ r'.time := by
  intro t
  have hinv : TrackerInv t := by
    refine ⟨by decide, fun id ↦ ?_,
      List.pairwise_pair.mpr fun ra rb ha hb ↦ by cases ha; cases hb; decide⟩
    by_cases h1 : id = 1
    · subst h1; decide
    · by_cases h2 : id = 2
      · subst h2; decide
      · simp [t, GoMap.get?, Ne.symm h1, Ne.symm h2, h1, h2]
  have hthr : t.timeout + 5 * millisecond ≤ maxDuration := by decide
  exact ⟨hinv, hthr, clean_spec t hinv 50 hthr⟩

/-- The bound wraps: with the largest timeout, `timeout + 5ms` is negative as an
`int64`, and `clean` drops a request sent at this very instant, though it has
waited `0 < timeout + 5ms`. -/
theorem clean_wraps :
    let t : Tracker := ⟨maxDuration, ⟨by decide, Int.le_refl _⟩, ⟨[(0, ⟨0⟩)], by decide⟩, [0], none⟩
    TrackerInv t ∧ (0 : Int) - 0 < t.timeout + 5 * millisecond ∧
      (t.clean 0).map (fun t' ↦ (t'.pending.get? 0, t'.expire)) = some (none, []) := by
  intro t
  refine ⟨⟨by decide, fun id ↦ ?_, by simp [t]⟩, by decide, by decide⟩
  by_cases h : id = 0
  · subst h; decide
  · simpa [t, GoMap.get?, Ne.symm h] using h

/-! ## Runs of the timer -/

/-- The timer fires, at some instant, and runs `clean`. -/
def TimerStep (t t' : Tracker) : Prop := ∃ now, t.clean now = some t'

/-- A firing keeps the shape and the timeout, and only drops requests. -/
theorem TimerStep.inv {t t' : Tracker} (hinv : TrackerInv t) (h : TimerStep t t') :
    TrackerInv t' ∧ t'.timeout = t.timeout ∧
      ∀ id r, t'.pending.get? id = some r → t.pending.get? id = some r := by
  obtain ⟨now, h⟩ := h
  obtain ⟨w, hw⟩ := clean_of_inv hinv now
  obtain rfl := Option.some.inj (hw.symm.trans h)
  have hinv' := cleaned_inv hinv now
  refine ⟨⟨hinv'.1, hinv'.2, hinv'.3⟩, rfl, fun id r hr ↦ ?_⟩
  have hc : (t.cleaned now).pending.get? id = some r := hr
  rw [get?_cleaned hinv now] at hc
  exact (Option.filter_eq_some.mp hc).1

/-- **The timer never panics.**  From a tracker in shape, whatever the timeout
(`timeout + 5ms` may wrap), along every sequence of firings of the timer at any
instants: every state reached is in shape with the same timeout, `clean` from it
never looks up a missing id, and its requests are requests of the first state. -/
theorem timer_runs_safe (t₀ : Tracker) (hinv : TrackerInv t₀) {t : Tracker}
    (h : Relation.ReflTransGen TimerStep t₀ t) :
    TrackerInv t ∧ t.timeout = t₀.timeout ∧ (∀ now, ∃ t', t.clean now = some t') ∧
      ∀ id r, t.pending.get? id = some r → t₀.pending.get? id = some r := by
  have hrun : TrackerInv t ∧ t.timeout = t₀.timeout ∧
      ∀ id r, t.pending.get? id = some r → t₀.pending.get? id = some r := by
    induction h with
    | refl => exact ⟨hinv, rfl, fun _ _ h ↦ h⟩
    | tail _ hst ih =>
      obtain ⟨hi', ht', hp'⟩ := hst.inv ih.1
      exact ⟨hi', ht'.trans ih.2.1, fun id r h ↦ ih.2.2 id r (hp' id r h)⟩
  refine ⟨hrun.1, hrun.2.1, fun now ↦ ?_, hrun.2.2⟩
  obtain ⟨w, hw⟩ := clean_of_inv hrun.1 now
  exact ⟨_, hw⟩

theorem timer_runs_safe_one :
    let t₀ : Tracker := ⟨10, ⟨by decide, by decide⟩, ⟨[(1, ⟨0⟩)], by decide⟩, [1], none⟩
    let t := (t₀.clean 10000000).getD t₀
    TrackerInv t₀ ∧ Relation.ReflTransGen TimerStep t₀ t ∧
      TrackerInv t ∧ t.timeout = t₀.timeout ∧ (∀ now, ∃ t', t.clean now = some t') ∧
      ∀ id r, t.pending.get? id = some r → t₀.pending.get? id = some r := by
  intro t₀ t
  have hinv : TrackerInv t₀ := by
    refine ⟨by decide, fun id ↦ ?_, List.pairwise_singleton _ _⟩
    by_cases h : id = 1
    · subst h; decide
    · simp [t₀, GoMap.get?, Ne.symm h, h]
  have hrun : Relation.ReflTransGen TimerStep t₀ t := .single ⟨10000000, rfl⟩
  exact ⟨hinv, hrun, timer_runs_safe t₀ hinv hrun⟩

/-! ## The deadline of the timer -/

/-- A tracker none of whose requests has waited its time at `now` is left by
the loop of `clean` as it was. -/
theorem cleaned_of_none_expired {t : Tracker} {now : Int} (h : ∀ id, t.expired now id = false) :
    (t.cleaned now).pending = t.pending ∧ (t.cleaned now).expire = t.expire := by
  refine ⟨?_, List.filter_eq_self.mpr fun id _ ↦ by simp [h id]⟩
  rw [Tracker.cleaned, List.filter_eq_nil_iff.mpr fun id _ ↦ by simp [h id]]
  rfl

/-- **The timer fires `5ms` early.**  On a tracker in shape whose earliest
request `r` was sent at `r.time`, `schedule` arms the timer for
`r.time + timeout`, while `clean` drops no request before `r.time + timeout + 5ms`:
every `clean` before then leaves `pending` and `expire` as they were and arms
the timer for the same deadline.  A firing in the `5ms` after the deadline
therefore arms the timer again for an instant already past. -/
theorem clean_rearms_within_grace (t : Tracker) (hinv : TrackerInv t)
    (hthr : t.timeout + 5 * millisecond ≤ maxDuration) (id : UInt64) (r : Request)
    (hr : t.pending.get? id = some r)
    (hfirst : ∀ id' r', t.pending.get? id' = some r' → r.time ≤ r'.time)
    (now : Int) (hnow : now < r.time + t.timeout + 5 * millisecond) :
    t.clean now = some { t with wake := some (r.time + t.timeout) } := by
  have hnone : ∀ id', t.expired now id' = false := fun id' ↦ by
    cases hr' : t.pending.get? id' with
    | none => simp [Tracker.expired, hr']
    | some r' =>
      have hle := hfirst id' r' hr'
      simp only [Tracker.expired, hr', Option.any_some, Bool.not_eq_false', alive_iff hthr,
        decide_eq_true_eq]
      omega
  obtain ⟨hpending, hexpire⟩ := cleaned_of_none_expired hnone
  -- `schedule` arms the timer for the earliest request, which was sent at `r.time`
  obtain ⟨w, hw, hwnone, hwsome⟩ := schedule_spec hinv
  have hwake : w = some (r.time + t.timeout) := by
    cases w with
    | none => simp [hwnone.mp rfl id] at hr
    | some d =>
      obtain ⟨id', r', hr', rfl, hfirst'⟩ := hwsome d rfl
      rw [Int.le_antisymm (hfirst' id r hr) (hfirst id' r' hr')]
  simp only [Tracker.clean, expireLoop_clean hinv now, hpending, hexpire, hw, hwake]
  rfl

theorem clean_rearms_within_grace_one :
    let t : Tracker := ⟨10, ⟨by decide, by decide⟩, ⟨[(1, ⟨0⟩)], by decide⟩, [1], some 10⟩
    TrackerInv t ∧ t.timeout + 5 * millisecond ≤ maxDuration ∧ t.pending.get? 1 = some ⟨0⟩ ∧
      (∀ id' r', t.pending.get? id' = some r' → (⟨0⟩ : Request).time ≤ r'.time) ∧
      (12 : Int) < (⟨0⟩ : Request).time + t.timeout + 5 * millisecond ∧
      t.clean 12 = some { t with wake := some ((⟨0⟩ : Request).time + t.timeout) } := by
  intro t
  have hget : ∀ id', id' ≠ 1 → t.pending.get? id' = none := fun id' h ↦ by
    simp [t, GoMap.get?, Ne.symm h]
  have hinv : TrackerInv t := by
    refine ⟨by decide, fun id' ↦ ?_, List.pairwise_singleton _ _⟩
    by_cases h : id' = 1
    · subst h; decide
    · simp [t, hget id' h, h]
  have hfirst : ∀ id' r', t.pending.get? id' = some r' → (⟨0⟩ : Request).time ≤ r'.time := by
    intro id' r' h
    by_cases h1 : id' = 1
    · subst h1; cases h; decide
    · simp [hget id' h1] at h
  exact ⟨hinv, by decide, rfl, hfirst, by decide,
    clean_rearms_within_grace t hinv (by decide) 1 ⟨0⟩ rfl hfirst 12 (by decide)⟩

end EthEmu.P2p
