/-
Sketches that differ only in how their buffers are ordered.

A buffer is sorted before it is compacted, and ties keep their places when it is; so two
sketches whose buffers have the same stable sort (`Sketch.Alike`) go on in lockstep.  They
ask for the same draws and note the same events, and whatever the answers are they come to
sketches that are alike again:

* `Randomized.Related` — the same draws and events, and values in a relation, which makes
  runs from the same source end in it (`Related.run`);
* `Sketch.Alike.update`, `Sketch.Alike.merge` — one step of two sketches that are alike;
* `Sketch.Alike.answers` — alike sketches that are sound give the same answers to every
  question, and have the same image once their buffers are sorted.

Design notes: a merge that brings the target to a smaller block size feeds its buffer again,
item by item, and then the order matters, because only some of the items are compacted
together.  So a merge keeps sketches alike only if the source has no smaller block size.
-/
import QuantileSketch.Proofs.Quantile

open QuantileSketch.Randomized

namespace QuantileSketch

variable {α : Type} {cmp : α → α → Ordering}

/-! ### The same draws -/

namespace Randomized

variable {β γ β' γ' : Type}

/-- Two values ask for the same draws and note the same events, and for the same answers
what they come to is related. -/
inductive Related (R : β → γ → Prop) : Randomized β → Randomized γ → Prop
  /-- Nothing is left to draw. -/
  | done {v : β} {w : γ} (h : R v w) : Related R (done v) (done w)
  /-- Both ask for the same draw. -/
  | draw {d : Draw} {next : Fin d.range → Randomized β} {next' : Fin d.range → Randomized γ}
    (h : ∀ answer, Related R (next answer) (next' answer)) : Related R (draw d next) (draw d next')
  /-- Both note the same event. -/
  | note {event : Event} {x : Randomized β} {y : Randomized γ} (h : Related R x y) :
    Related R (note event x) (note event y)

theorem Related.refl {R : β → β → Prop} (hR : ∀ v, R v v) (x : Randomized β) : Related R x x := by
  induction x with
  | done v => exact .done (hR v)
  | draw d next ih => exact .draw ih
  | note event next ih => exact .note ih

theorem Related.notes {R : β → γ → Prop} {x : Randomized β} {y : Randomized γ}
    (h : Related R x y) (events : List Event) : Related R (notes events x) (notes events y) := by
  induction events with
  | nil => exact h
  | cons event events ih => exact .note ih

theorem Related.bind {R : β → γ → Prop} {S : β' → γ' → Prop} {x : Randomized β}
    {y : Randomized γ} {f : β → Randomized β'} {g : γ → Randomized γ'} (h : Related R x y)
    (hfg : ∀ v w, R v w → Related S (f v) (g w)) : Related S (x.bind f) (y.bind g) := by
  induction h with
  | done h => exact hfg _ _ h
  | draw _ ih => exact .draw ih
  | note _ ih => exact .note ih

/-- From the same source, runs leave the same source and the same events behind. -/
theorem Related.run {ρ : Type} [RandomSource ρ] {R : β → γ → Prop} {x : Randomized β}
    {y : Randomized γ} (h : Related R x y) (source : ρ) :
    R (x.run source).value (y.run source).value
      ∧ (x.run source).source = (y.run source).source
      ∧ (x.run source).events = (y.run source).events := by
  induction h generalizing source with
  | done h => exact ⟨h, rfl, rfl⟩
  | draw _ ih => exact ih _ _
  | note _ ih =>
    obtain ⟨hvalue, hsource, hevents⟩ := ih source
    exact ⟨hvalue, hsource, congrArg _ hevents⟩

end Randomized

namespace Sketch

/-! ### Sketches that are alike -/

/-- The sketches differ in their buffers only, which are the same once they are stably
sorted. -/
structure Alike (s s' : Sketch α cmp) : Prop where
  rest : s' = { s with buffer := s'.buffer }
  buffer : sortBy cmp s.buffer.toList = sortBy cmp s'.buffer.toList

theorem Alike.refl (s : Sketch α cmp) : s.Alike s := ⟨rfl, rfl⟩

theorem alike_rewritten [Std.TransCmp cmp] (s : Sketch α cmp) : s.Alike (s.rewritten true) := by
  refine ⟨rfl, ?_⟩
  show _ = sortBy cmp (sortBy cmp s.buffer.toList).toArray.toList
  rw [List.toList_toArray, sortBy_sortBy]

theorem Alike.size_eq {s s' : Sketch α cmp} (h : s.Alike s') : s.k = s'.k := by
  rw [h.rest]

theorem Alike.n_eq {s s' : Sketch α cmp} (h : s.Alike s') : s.n = s'.n := by
  rw [h.rest]

theorem Alike.size_buffer {s s' : Sketch α cmp} (h : s.Alike s') :
    s.buffer.size = s'.buffer.size := by
  rw [← Array.length_toList, ← Array.length_toList, ← length_sortBy cmp, h.buffer, length_sortBy]

theorem Alike.push [Std.TransCmp cmp] {s s' : Sketch α cmp} (h : s.Alike s') (x : α) :
    (s.push x).Alike (s'.push x) := by
  refine ⟨?_, ?_⟩
  · rw [h.rest]
    rfl
  · show sortBy cmp (s.buffer.push x).toList = sortBy cmp (s'.buffer.push x).toList
    rw [Array.toList_push, Array.toList_push]
    exact sortBy_append_congr h.buffer rfl

/-- The order of a buffer is gone once it is compacted. -/
theorem Alike.compact_eq {s s' : Sketch α cmp} (h : s.Alike s') : s.compact = s'.compact := by
  rw [compact, compact, h.buffer, h.rest]

theorem Alike.update [Std.TransCmp cmp] {s s' : Sketch α cmp} (h : s.Alike s') (x : α) :
    Related Alike (s.update x) (s'.update x) := by
  have hpush := h.push x
  rw [Sketch.update, Sketch.update, hpush.size_buffer, hpush.size_eq]
  split
  · rw [hpush.compact_eq]
    exact .refl Alike.refl _
  · exact .done hpush

theorem Alike.updateAll [Std.TransCmp cmp] {s s' : Sketch α cmp} (h : s.Alike s') (xs : List α) :
    Related Alike (s.updateAll xs) (s'.updateAll xs) := by
  induction xs generalizing s s' with
  | nil => exact .done h
  | cons x xs ih => exact (h.update x).bind fun _ _ ht => ih ht

/-- The buffer has no part in where a block goes. -/
theorem Alike.settle {s s' : Sketch α cmp} (h : s.Alike s') (start : ℕ) (block : List α) :
    Related Alike (s.settle start block) (s'.settle start block) := by
  rw [h.rest, Sketch.settle, Sketch.settle]
  refine (Related.refl (R := Eq) (fun _ => rfl) _).bind ?_
  rintro levels _ rfl
  exact (Related.done ⟨rfl, h.buffer⟩).notes _

theorem Alike.absorbBlocks {s s' : Sketch α cmp} (h : s.Alike s') (stride shift : ℕ)
    (blocks : List (ℕ × List α)) :
    Related Alike (s.absorbBlocks stride shift blocks) (s'.absorbBlocks stride shift blocks) := by
  induction blocks generalizing s s' with
  | nil => exact .done h
  | cons b blocks ih =>
    refine (Related.refl (R := Eq) (fun _ => rfl) _).bind ?_
    rintro block _ rfl
    exact (h.settle _ block).bind fun _ _ ht => ih ht

theorem Alike.absorb [Std.TransCmp cmp] {s s' : Sketch α cmp} (h : s.Alike s')
    (other : Sketch α cmp) : Related Alike (s.absorb other) (s'.absorb other) := by
  rw [Sketch.absorb, Sketch.absorb, h.size_eq, h.n_eq]
  refine ((h.updateAll _).bind fun t t' ht => ?_).notes _
  refine (ht.absorbBlocks _ _ _).bind fun u u' hu => .done ⟨?_, hu.buffer⟩
  rw [hu.rest]

theorem Alike.meetExtremes {s s' : Sketch α cmp} (h : s.Alike s') (other : Sketch α cmp) :
    (s.meetExtremes other).Alike (s'.meetExtremes other) := by
  refine ⟨?_, h.buffer⟩
  rw [h.rest]
  rfl

/-- A merge that does not have to feed the buffers again ends alike. -/
theorem Alike.merge [Std.TransCmp cmp] {s s' other : Sketch α cmp} (h : s.Alike s')
    (hk : s.k ≤ other.k) {merged : Randomized (Sketch α cmp)}
    (hmerge : s.merge other = .ok merged) :
    ∃ merged', s'.merge other = .ok merged' ∧ Related Alike merged merged' := by
  have hk' : s'.k ≤ other.k := h.size_eq ▸ hk
  rw [Sketch.merge, if_neg (Nat.not_lt.mpr hk)] at hmerge
  rw [Sketch.merge, if_neg (Nat.not_lt.mpr hk'), ← h.size_eq]
  split at hmerge
  · rename_i hempty
    rw [if_pos hempty, ← Except.ok.inj hmerge]
    exact ⟨_, rfl, .done h⟩
  · rename_i hfull
    rw [if_neg hfull]
    split at hmerge
    · rename_i hrelated
      rw [if_pos hrelated, ← Except.ok.inj hmerge]
      refine ⟨_, rfl, ?_⟩
      exact (h.absorb other).bind fun _ _ ht => .done (ht.meetExtremes other)
    · cases hmerge

/-! ### Answers of sketches that are alike -/

/-- Every question to the sketches has the same answer, be it a fault. -/
structure SameAnswers (s s' : Sketch α cmp) : Prop where
  sortedView : s.sortedView = s'.sortedView
  quantile : ∀ rank, s.quantile rank = s'.quantile rank
  quantiles : ∀ ranks, s.quantiles ranks = s'.quantiles ranks
  evenQuantiles : ∀ count, s.evenQuantiles count = s'.evenQuantiles count
  histogram : ∀ splits, s.histogram splits = s'.histogram splits
  pmf : ∀ splits, s.pmf splits = s'.pmf splits
  cdf : ∀ splits, s.cdf splits = s'.cdf splits
  rank : ∀ x, s.rank x = s'.rank x

theorem sortBy_map_weighted (xs : List α) (weight : ℕ) :
    sortBy (byItem cmp) (xs.map fun item => ⟨item, weight⟩)
      = (sortBy cmp xs).map fun item => ⟨item, weight⟩ := by
  rw [sortBy, sortBy, List.map_mergeSort fun _ _ _ _ => ?_]
  rfl

/-- Items that are tied stay in the order of the snapshot, which is that of the sorted buffer. -/
theorem Alike.sorted_weighted [Std.TransCmp cmp] {s s' : Sketch α cmp} (h : s.Alike s') :
    sortBy (byItem cmp) s.snapshot.weighted = sortBy (byItem cmp) s'.snapshot.weighted := by
  refine sortBy_append_congr ?_ ?_
  · rw [h.rest]
    rfl
  · rw [Snapshot.weightedBuffer, Snapshot.weightedBuffer, sortBy_map_weighted,
      sortBy_map_weighted]
    exact congrArg _ h.buffer

theorem Alike.weightOf_eq {s s' : Sketch α cmp} (h : s.Alike s') (P : α → Bool) :
    s.weightOf P = s'.weightOf P := by
  have hcount : s.buffer.toList.countP P = s'.buffer.toList.countP P := by
    rw [← (sortBy_perm cmp s.buffer.toList).countP_eq, h.buffer, (sortBy_perm cmp _).countP_eq]
  rw [Sketch.weightOf_eq, Sketch.weightOf_eq, hcount, h.rest]

theorem Alike.histogram_eq [Std.TransCmp cmp] {s s' : Sketch α cmp} (h : s.Alike s')
    (hs : s.Sound) (hs' : s'.Sound) (splits : List α) :
    s.histogram splits = s'.histogram splits := by
  cases hsplits : checkSplitPoints cmp splits with
  | ok u =>
    rw [hs.histogram_eq hsplits, hs'.histogram_eq hsplits]
    simp only [h.weightOf_eq]
  | error fault =>
    -- Split points are looked at first, so the fault does not depend on the sketch.
    have hfault : ∀ t : Sketch α cmp, t.histogram splits = .error fault := by
      intro t
      rw [histogram, Snapshot.histogram, Snapshot.histogramBy, Snapshot.checkHistogram, hsplits]
      rfl
    rw [hfault, hfault]

theorem Alike.answers [Std.TransCmp cmp] {s s' : Sketch α cmp} (h : s.Alike s') (hs : s.Sound)
    (hs' : s'.Sound) : s.SameAnswers s' := by
  have hempty : s.isEmpty = s'.isEmpty := by rw [isEmpty, isEmpty, h.n_eq]
  have hleast : s.least = s'.least := by rw [h.rest]
  have hgreatest : s.greatest = s'.greatest := by rw [h.rest]
  have hview : s.sortedView = s'.sortedView := by
    rw [hs.sortedView_eq, hs'.sortedView_eq, h.sorted_weighted, h.n_eq]
  have hhistogram := h.histogram_eq hs hs'
  have hquantiles : ∀ ranks, s.quantiles ranks = s'.quantiles ranks := by
    intro ranks
    have hin : s.quantileIn = s'.quantileIn := by
      funext view rank
      rw [quantileIn, quantileIn, hleast, hgreatest]
    rw [quantiles, quantiles, hempty, hview, hin]
  have hnormalized : ∀ form splits, s.normalized form splits = s'.normalized form splits := by
    intro form splits
    rw [normalized, normalized, hempty, h.n_eq, hhistogram]
  refine ⟨hview, ?_, hquantiles, ?_, hhistogram, hnormalized _, hnormalized _, ?_⟩
  · intro rank
    rw [quantile, quantile, hempty, hleast, hgreatest, hview]
  · intro count
    rw [evenQuantiles, evenQuantiles, hquantiles]
  · intro x
    rw [rank, rank, cdf, cdf, hnormalized]

theorem Alike.encode_eq [Image.ItemCodec α] {s s' : Sketch α cmp} (h : s.Alike s') :
    s.encode true = s'.encode true := by
  have hbuffer : s.writtenBuffer true = s'.writtenBuffer true := h.buffer
  rw [encode, encode, hbuffer, h.rest]
  rfl

end Sketch

end QuantileSketch
