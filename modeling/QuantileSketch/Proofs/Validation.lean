/-
Which snapshots are accepted, and what is said about the others.

A snapshot reports its occupancy pattern, its levels, its buffer and two figures
independently of each other.  A query accepts it exactly if all of them are what its block
size and its count call for, and otherwise tells a block size that no sketch has from parts
that contradict each other:

* `Snapshot.Consistent` — the parts of a snapshot, slot by slot;
* `Snapshot.check_eq_ok_iff_consistent` — the check accepts these and no others;
* `Snapshot.kind_of_check_eq_error` — the kinds of its faults;
* `Snapshot.validation_exact` — what this means for views and for histograms.

Design notes: nothing is asked of the comparison, and blocks need not be in order.  What is
accepted is then answered (`Totals`), so that a query fails only where something was checked.
-/
import QuantileSketch.Proofs.Totals
import Mathlib.Data.List.Chain
import Mathlib.Data.Nat.Digits.Defs

namespace QuantileSketch

variable {α β : Type} {cmp : α → α → Ordering}

/-! ### Checks that fail -/

theorem guard_eq_error_iff {ε : Type} {c : Prop} [Decidable c] {e fault : ε}
    {next : Unit → Except ε β} :
    (if c then (throw e : Except ε Unit) >>= next else next ()) = .error fault ↔
      (c ∧ e = fault) ∨ (¬ c ∧ next () = .error fault) := by
  by_cases h : c
  · rw [if_pos h]
    simp [h, bind, Except.bind, throw, throwThe, MonadExceptOf.throw]
  · simp [h]

theorem exists_of_forM_eq_error {ε : Type} {f : β → Except ε Unit} {xs : List β} {fault : ε}
    (h : xs.forM f = .error fault) : ∃ x ∈ xs, f x = .error fault := by
  induction xs with
  | nil => cases h
  | cons x xs ih =>
    rw [List.forM] at h
    cases hx : f x with
    | error e =>
      rw [hx] at h
      exact ⟨x, List.mem_cons_self, hx.trans h⟩
    | ok u =>
      rw [hx] at h
      obtain ⟨y, hy, hfault⟩ := ih h
      exact ⟨y, List.mem_cons_of_mem _ hy, hfault⟩

/-- The computation stops with a fault of the kind given. -/
def FailsAs (x : Except Fault β) (kind : FaultKind) : Prop :=
  ∃ fault, x = .error fault ∧ fault.kind = kind

theorem not_failsAs_ok {v : β} {kind : FaultKind} : ¬ FailsAs (.ok v) kind := by
  rintro ⟨fault, h, -⟩
  cases h

theorem failsAs_error_iff {fault : Fault} {kind : FaultKind} :
    FailsAs (.error fault : Except Fault β) kind ↔ fault.kind = kind := by
  constructor
  · rintro ⟨_, h, hkind⟩
    rwa [Except.error.inj h]
  · exact fun hkind => ⟨fault, rfl, hkind⟩

/-- Two kinds of faults that are told apart by a condition. -/
theorem failsAs_iff {x : Except Fault β} {P Q : Prop} [Decidable Q]
    (hok : (∃ v, x = .ok v) ↔ P) (hPQ : P → Q)
    (hkind : ∀ fault, x = .error fault →
      fault.kind = if Q then .inconsistentState else .invalidArgument) :
    (FailsAs x .invalidArgument ↔ ¬ Q) ∧ (FailsAs x .inconsistentState ↔ Q ∧ ¬ P) := by
  cases x with
  | ok v =>
    have hP : P := hok.mp ⟨v, rfl⟩
    exact ⟨iff_of_false not_failsAs_ok (not_not.mpr (hPQ hP)),
      iff_of_false not_failsAs_ok fun h => h.2 hP⟩
  | error fault =>
    have hP : ¬ P := fun hP => by
      obtain ⟨v, hv⟩ := hok.mpr hP
      cases hv
    rw [failsAs_error_iff, failsAs_error_iff, hkind fault rfl]
    by_cases hQ : Q
    · simp [hQ, hP]
    · simp [hQ]

/-! ### Split points -/

/-- Each item of the list is below the next one. -/
def Increasing (cmp : α → α → Ordering) (xs : List α) : Prop :=
  xs.IsChain fun x y => (cmp x y).isLT

theorem increasing_cons_cons {x y : α} {xs : List α} :
    Increasing cmp (x :: y :: xs) ↔ (cmp x y).isLT ∧ Increasing cmp (y :: xs) :=
  List.isChain_cons_cons

theorem firstNotBelow_eq_none_iff_increasing {i : ℕ} {xs : List α} :
    firstNotBelow cmp i xs = none ↔ Increasing cmp xs := by
  fun_induction firstNotBelow cmp i xs with
  | case1 i x y rest hlt ih => rw [ih, increasing_cons_cons, and_iff_right hlt]
  | case2 i x y rest hlt =>
    rw [increasing_cons_cons]
    exact iff_of_false (Option.some_ne_none _) fun h => hlt h.1
  | case3 xs i hshort =>
    refine iff_of_true rfl ?_
    match xs, hshort with
    | [], _ => exact List.isChain_nil
    | [x], _ => exact List.isChain_singleton x
    | x :: y :: rest, hshort => exact (hshort x y rest rfl).elim

/-- The item that is reported is not above the one before it, and the items up to there
increase. -/
theorem firstNotBelow_eq_some {i m : ℕ} {xs : List α} (h : firstNotBelow cmp i xs = some m) :
    ∃ j x y, m = i + j + 1 ∧ xs[j]? = some x ∧ xs[j + 1]? = some y ∧ ¬ (cmp x y).isLT
      ∧ Increasing cmp (xs.take (j + 1)) := by
  fun_induction firstNotBelow cmp i xs with
  | case1 i x y rest hlt ih =>
    obtain ⟨j, z, w, rfl, hz, hw, hnot, hbefore⟩ := ih h
    refine ⟨j + 1, z, w, by omega, hz, hw, hnot, ?_⟩
    rw [List.take_succ_cons] at hbefore ⊢
    exact increasing_cons_cons.mpr ⟨hlt, hbefore⟩
  | case2 i x y rest hnot =>
    exact ⟨0, x, y, (Option.some.inj h).symm, rfl, rfl, hnot, List.isChain_singleton x⟩
  | case3 xs i hshort => cases h

theorem checkSplitPoints_eq_ok_iff_increasing {splits : List α} :
    checkSplitPoints cmp splits = .ok () ↔ Increasing cmp splits := by
  rw [← firstNotBelow_eq_none_iff_increasing (i := 0), checkSplitPoints]
  cases firstNotBelow cmp 0 splits with
  | none => simp
  | some i => simp

/-! ### Counting bits -/

/-- There are as many occupied levels as the pattern has ones. -/
theorem length_occupiedLevels (p : ℕ) : (occupiedLevels p).length = (Nat.digits 2 p).sum := by
  induction p using bit_induction with
  | zero => rfl
  | bit b p hb ih =>
    rw [occupiedLevels_bit hb, List.length_append, List.length_map, ih]
    by_cases hzero : b = 0 ∧ p = 0
    · obtain ⟨rfl, rfl⟩ := hzero
      rfl
    · have hbit : (if b = 1 then [0] else []).length = b := by
        obtain rfl | rfl : b = 0 ∨ b = 1 := by omega
        · rfl
        · rfl
      rw [Nat.digits_add 2 Nat.one_lt_two b p hb (by omega), List.sum_cons, hbit]

namespace Snapshot

/-! ### Consistent snapshots -/

/-- The parts of the snapshot are those that its block size and its count call for. -/
structure Consistent (s : Snapshot α) : Prop where
  size : Admissible s.k
  pattern : s.pattern = s.n / (2 * s.k)
  buffer : s.buffer.length = s.n % (2 * s.k)
  buffered : s.buffered = s.n % (2 * s.k)
  occupied : ∀ i, (s.n / (2 * s.k)).testBit i = true →
    ∃ block, s.levels[i]? = some block ∧ block.length = s.k
  free : ∀ i, (s.n / (2 * s.k)).testBit i = false →
    s.levels[i]? = none ∨ s.levels[i]? = some []

/-- Levels hold blocks where the pattern has a bit, and elsewhere nothing. -/
theorem holds_iff {k p : ℕ} (hk : 0 < k) {levels : List (List α)} :
    Levels.Holds k p levels ↔
      (∀ i, p.testBit i = true → ∃ block, levels[i]? = some block ∧ block.length = k)
        ∧ ∀ i, p.testBit i = false → levels[i]? = none ∨ levels[i]? = some [] := by
  constructor
  · intro h
    refine ⟨fun i hbit => ?_, fun i hbit => ?_⟩
    · have hi := h i
      rw [hbit, if_pos rfl] at hi
      cases hlevel : levels[i]? with
      | none =>
        rw [hlevel] at hi
        exact absurd hi hk.ne
      | some block =>
        rw [hlevel] at hi
        exact ⟨block, rfl, hi⟩
    · have hi := h i
      rw [hbit, if_neg Bool.false_ne_true] at hi
      cases hlevel : levels[i]? with
      | none => exact .inl rfl
      | some block =>
        rw [hlevel] at hi
        exact .inr (congrArg some (List.eq_nil_of_length_eq_zero hi))
  · rintro ⟨hoccupied, hfree⟩ i
    cases hbit : p.testBit i with
    | true =>
      obtain ⟨block, hblock, hlength⟩ := hoccupied i hbit
      rw [hblock, if_pos rfl]
      exact hlength
    | false =>
      rw [if_neg Bool.false_ne_true]
      rcases hfree i hbit with hnone | hnil
      · rw [hnone]
        rfl
      · rw [hnil]
        rfl

/-- The check accepts the snapshots that are consistent, and no others. -/
theorem check_eq_ok_iff_consistent {s : Snapshot α} : s.check = .ok () ↔ s.Consistent := by
  rw [check_eq_ok_iff]
  constructor
  · rintro ⟨hsize, hpattern, hbuffer, hbuffered, hlevels⟩
    rw [hpattern] at hlevels
    obtain ⟨hoccupied, hfree⟩ := (holds_iff hsize.pos).mp hlevels
    exact ⟨hsize, hpattern, hbuffer, hbuffered ▸ hbuffer, hoccupied, hfree⟩
  · rintro ⟨hsize, hpattern, hbuffer, hbuffered, hoccupied, hfree⟩
    refine ⟨hsize, hpattern, hbuffer, hbuffer.trans hbuffered.symm, ?_⟩
    rw [hpattern]
    exact (holds_iff hsize.pos).mpr ⟨hoccupied, hfree⟩

theorem length_weighted_of_consistent {s : Snapshot α} (h : s.Consistent) :
    s.weighted.length = s.n % (2 * s.k) + s.k * (Nat.digits 2 (s.n / (2 * s.k))).sum := by
  rw [length_weighted (check_eq_ok_iff_consistent.mpr h), retainedCount, length_occupiedLevels,
    Nat.mul_comm _ s.k]
  rfl

/-! ### The kinds of faults -/

/-- A check fails because of the block size, or finds parts that contradict each other. -/
theorem kind_of_check_eq_error {s : Snapshot α} {fault : Fault} (h : s.check = .error fault) :
    fault.kind = if Admissible s.k then .inconsistentState else .invalidArgument := by
  rw [check, guard_eq_error_iff, guard_eq_error_iff, guard_eq_error_iff] at h
  rcases h with ⟨hsize, rfl⟩ | ⟨hsize, ⟨-, rfl⟩ | ⟨-, ⟨-, rfl⟩ | ⟨-, hlevels⟩⟩⟩
  · exact (if_neg hsize).symm
  · exact (if_pos (not_not.mp hsize)).symm
  · exact (if_pos (not_not.mp hsize)).symm
  · obtain ⟨level, -, hlevel⟩ := exists_of_forM_eq_error hlevels
    rw [checkLevel] at hlevel
    split at hlevel
    · cases hlevel
    · obtain rfl := Except.error.inj hlevel
      exact (if_pos (not_not.mp hsize)).symm

theorem ofSnapshot?_of_check_eq_error {s : Snapshot α} {fault : Fault}
    (h : s.check = .error fault) : SortedView.ofSnapshot? cmp s = .error fault := by
  rw [SortedView.ofSnapshot?, h]
  rfl

theorem kind_of_ofSnapshot?_eq_error {s : Snapshot α} {fault : Fault}
    (h : SortedView.ofSnapshot? cmp s = .error fault) :
    fault.kind = if Admissible s.k then .inconsistentState else .invalidArgument := by
  cases hcheck : s.check with
  | error e =>
    rw [ofSnapshot?_of_check_eq_error hcheck, Except.error.injEq] at h
    exact h ▸ kind_of_check_eq_error hcheck
  | ok u =>
    rw [ofSnapshot?_of_check cmp hcheck] at h
    split at h
    · cases h
    · rw [if_pos (check_eq_ok_iff_consistent.mp hcheck).size, ← Except.error.inj h]
      rfl

/-- A snapshot has a view exactly if it is consistent and holds as many items as it says. -/
theorem exists_view_iff (cmp : α → α → Ordering) (s : Snapshot α) :
    (∃ view, SortedView.ofSnapshot? cmp s = .ok view) ↔
      s.Consistent ∧ s.retained = s.n % (2 * s.k) + s.k * (Nat.digits 2 (s.n / (2 * s.k))).sum := by
  cases hcheck : s.check with
  | error e =>
    refine iff_of_false ?_ fun h => ?_
    · rw [ofSnapshot?_of_check_eq_error hcheck]
      rintro ⟨view, h⟩
      cases h
    · rw [check_eq_ok_iff_consistent.mpr h.1] at hcheck
      cases hcheck
  | ok u =>
    have hconsistent := check_eq_ok_iff_consistent.mp hcheck
    rw [and_iff_right hconsistent, ← length_weighted_of_consistent hconsistent,
      ofSnapshot?_of_check cmp hcheck]
    split
    · rename_i hretained
      exact iff_of_true ⟨_, rfl⟩ hretained.symm
    · rename_i hretained
      refine iff_of_false ?_ fun h => hretained h.symm
      rintro ⟨view, h⟩
      cases h

/-- A list of split points that is not increasing is reported before anything else is looked
at. -/
theorem histogram_of_not_increasing (s : Snapshot α) {splits : List α}
    (h : ¬ Increasing cmp splits) :
    ∃ j x y, splits[j]? = some x ∧ splits[j + 1]? = some y ∧ ¬ (cmp x y).isLT
      ∧ Increasing cmp (splits.take (j + 1))
      ∧ s.histogram cmp splits = .error (.splitPointsNotIncreasing (j + 1)) := by
  rw [← firstNotBelow_eq_none_iff_increasing (i := 0)] at h
  obtain ⟨m, hm⟩ := Option.ne_none_iff_exists'.mp h
  obtain ⟨j, x, y, rfl, hx, hy, hnot, hbefore⟩ := firstNotBelow_eq_some hm
  refine ⟨j, x, y, hx, hy, hnot, hbefore, ?_⟩
  rw [histogram, histogramBy, checkHistogram, checkSplitPoints, hm, Nat.zero_add]
  rfl

/-- For split points that are accepted, a histogram fails where the check does. -/
theorem histogram_of_increasing (s : Snapshot α) {splits : List α} (h : Increasing cmp splits) :
    s.histogram cmp splits
      = s.check.map fun _ => s.counts cmp (.forSplitPoints splits.length) splits := by
  have hsplits := checkSplitPoints_eq_ok_iff_increasing.mpr h
  cases hcheck : s.check with
  | ok u => exact histogramBy_of_check _ hcheck hsplits
  | error fault =>
    rw [histogram, histogramBy, checkHistogram, hsplits, hcheck]
    rfl

theorem exists_histogram_iff {s : Snapshot α} {splits : List α} (h : Increasing cmp splits) :
    (∃ counts, s.histogram cmp splits = .ok counts) ↔ s.Consistent := by
  rw [histogram_of_increasing s h, ← check_eq_ok_iff_consistent]
  cases s.check with
  | ok u => exact iff_of_true ⟨_, rfl⟩ rfl
  | error fault =>
    refine iff_of_false ?_ (by simp)
    rintro ⟨counts, hcounts⟩
    cases hcounts

theorem kind_of_histogram_eq_error {s : Snapshot α} {splits : List α} {fault : Fault}
    (hsplits : Increasing cmp splits) (h : s.histogram cmp splits = .error fault) :
    fault.kind = if Admissible s.k then .inconsistentState else .invalidArgument := by
  rw [histogram_of_increasing s hsplits] at h
  cases hcheck : s.check with
  | ok u =>
    rw [hcheck] at h
    cases h
  | error e =>
    rw [hcheck] at h
    exact Except.error.inj h ▸ kind_of_check_eq_error hcheck

/-- **Validation is exact.**  A snapshot has a view exactly if it is consistent and the number
of items it says it holds is that of its buffer and `k` for each one of its pattern; it fails as an
invalid argument exactly for a block size that no sketch has, and as an inconsistent state
whenever else it fails.  It has a histogram exactly if it is consistent and each split point is
below the next one.  If one is not, the first such is reported, whatever the snapshot is like. -/
theorem validation_exact (cmp : α → α → Ordering) (s : Snapshot α) :
    ((∃ view, SortedView.ofSnapshot? cmp s = .ok view) ↔ s.Consistent
        ∧ s.retained = s.n % (2 * s.k) + s.k * (Nat.digits 2 (s.n / (2 * s.k))).sum)
      ∧ (FailsAs (SortedView.ofSnapshot? cmp s) .invalidArgument ↔ ¬ Admissible s.k)
      ∧ (FailsAs (SortedView.ofSnapshot? cmp s) .inconsistentState ↔ Admissible s.k
        ∧ ¬ (s.Consistent
          ∧ s.retained = s.n % (2 * s.k) + s.k * (Nat.digits 2 (s.n / (2 * s.k))).sum))
      ∧ ∀ splits,
        ((∃ counts, s.histogram cmp splits = .ok counts) ↔
            s.Consistent ∧ Increasing cmp splits)
          ∧ (¬ Increasing cmp splits → FailsAs (s.histogram cmp splits) .invalidArgument
            ∧ ∃ j x y, splits[j]? = some x ∧ splits[j + 1]? = some y ∧ ¬ (cmp x y).isLT
              ∧ Increasing cmp (splits.take (j + 1))
              ∧ s.histogram cmp splits = .error (.splitPointsNotIncreasing (j + 1)))
          ∧ (Increasing cmp splits →
            (FailsAs (s.histogram cmp splits) .invalidArgument ↔ ¬ Admissible s.k)
              ∧ (FailsAs (s.histogram cmp splits) .inconsistentState ↔
                Admissible s.k ∧ ¬ s.Consistent)) := by
  obtain ⟨hinvalid, hinconsistent⟩ := failsAs_iff (exists_view_iff cmp s)
    (fun h => h.1.size) fun fault => kind_of_ofSnapshot?_eq_error
  refine ⟨exists_view_iff cmp s, hinvalid, hinconsistent, fun splits => ⟨?_, fun hbad => ?_,
    fun hsplits => failsAs_iff (exists_histogram_iff hsplits) Consistent.size
      fun fault => kind_of_histogram_eq_error hsplits⟩⟩
  · by_cases hsplits : Increasing cmp splits
    · rw [exists_histogram_iff hsplits, and_iff_left hsplits]
    · obtain ⟨j, -, -, -, -, -, -, hfault⟩ := histogram_of_not_increasing s hsplits
      refine iff_of_false ?_ fun h => hsplits h.2
      rw [hfault]
      rintro ⟨counts, h⟩
      cases h
  · obtain ⟨j, x, y, hx, hy, hnot, hbefore, hfault⟩ := histogram_of_not_increasing s hbad
    exact ⟨⟨_, hfault, rfl⟩, j, x, y, hx, hy, hnot, hbefore, hfault⟩

/-- One snapshot that is consistent, one with an item at a level that is to be free, one with
a block size that no sketch has, and split points that are tied. -/
theorem validation_exact_ofSix :
    (∃ view, SortedView.ofSnapshot? compare ofSix = .ok view)
      ∧ FailsAs (SortedView.ofSnapshot? compare { ofSix with levels := [[1, 3], [2]] })
        .inconsistentState
      ∧ FailsAs (SortedView.ofSnapshot? compare { ofSix with k := 3 }) .invalidArgument
      ∧ (∃ counts, ofSix.histogram compare [2, 3] = .ok counts)
      ∧ FailsAs (ofSix.histogram compare [2, 2]) .invalidArgument := by
  have hconsistent : ofSix.Consistent := check_eq_ok_iff_consistent.mp rfl
  have hincreasing : Increasing compare [2, 3] := List.isChain_pair.mpr rfl
  have hcheck : ({ ofSix with levels := [[1, 3], [2]] } : Snapshot ℕ).check
      = .error (.levelMismatch 2 6 1 1 0) := rfl
  obtain ⟨hview, -, -, hhistograms⟩ := validation_exact compare ofSix
  obtain ⟨-, -, hinconsistent, -⟩ := validation_exact compare { ofSix with levels := [[1, 3], [2]] }
  obtain ⟨-, hinvalid, -⟩ := validation_exact compare { ofSix with k := 3 }
  refine ⟨hview.mpr ⟨hconsistent, ?_⟩, hinconsistent.mpr ⟨hconsistent.size, fun h => ?_⟩,
    hinvalid.mpr ?_, (hhistograms [2, 3]).1.mpr ⟨hconsistent, hincreasing⟩,
    ((hhistograms [2, 2]).2.1 fun h => ?_).1⟩
  · rw [← length_weighted_of_consistent hconsistent]
    rfl
  · rw [check_eq_ok_iff_consistent.mpr h.1] at hcheck
    cases hcheck
  · show ¬ Admissible 3
    decide
  · exact absurd (List.isChain_pair.mp h) (by decide)

end Snapshot

end QuantileSketch
