/-
Extremes that are read.

Reading an image compares the items of a level with their neighbours, but the extremes with
nothing, so they need not span what the sketch holds:

* `encodable_of_decode?` — what was read can be written again;
* `decoded_quantiles` — quantiles of a sketch that was read never go down if its extremes
  span, or if no end is asked for, but every sketch that was read could have been read with
  any other extremes as well;
* `quantiles_ofBelow_not_sorted` — an image whose least item is above the one item that is
  held.
-/
import QuantileSketch.Proofs.Canonical
import QuantileSketch.Proofs.Spanning

namespace QuantileSketch.Sketch

open Image

variable {α : Type} {cmp : α → α → Ordering}

/-- The sketch with other extremes. -/
def withExtremes (least greatest : α) (s : Sketch α cmp) : Sketch α cmp :=
  { s with least := some least, greatest := some greatest }

/-- No part of a sketch that has seen something depends on what its extremes are. -/
theorem Sound.withExtremes {s : Sketch α cmp} (h : s.Sound) (hn : 0 < s.n) (least greatest : α) :
    (s.withExtremes least greatest).Sound where
  size := h.size
  buffer := h.buffer
  levels := h.levels
  least := iff_of_true rfl hn
  greatest := iff_of_true rfl hn

section Decoded

variable [ItemCodec α] [LawfulItemCodec α]

theorem Encodable.withExtremes {s : Sketch α cmp} (h : s.Encodable) {least greatest : α}
    (hleast : LawfulItemCodec.Encodable least) (hgreatest : LawfulItemCodec.Encodable greatest) :
    (s.withExtremes least greatest).Encodable := by
  intro x hx
  rw [List.append_assoc] at hx
  rcases List.mem_append.mp hx with hx | hx
  · rcases List.mem_pair.mp hx with rfl | rfl
    · exact hleast
    · exact hgreatest
  · refine h x ?_
    rw [List.append_assoc]
    exact List.mem_append_right _ hx

/-- What was read can be written again: its count fits into the field, and so does every
item. -/
theorem encodable_of_decode? {s : Sketch α cmp} {bytes : List UInt8} (h : decode? bytes = .ok s) :
    s.n < 2 ^ 64 ∧ s.Encodable := by
  obtain ⟨rest, hread⟩ := decode?_eq_ok_iff.mp h
  obtain ⟨p, mid, -, -, hcontents⟩ := reads_readSketch.mp hread
  split at hcontents
  · rw [hcontents.1]
    exact ⟨Nat.two_pow_pos 64, List.forall_mem_nil _⟩
  · obtain ⟨n, mid, hcount, -, -, hparts⟩ := reads_readContents.mp hcontents
    obtain ⟨hn, -⟩ := reads_readNumber.mp hcount
    obtain ⟨-, rfl, least, greatest, hleast, hgreatest, hitems⟩ := readsItems_of_readParts hparts
    refine ⟨hn, fun x hx => (readsItems_iff.mp hitems).1 x ?_⟩
    rw [hleast, hgreatest, List.append_assoc] at hx
    exact hx

end Decoded

/-- **Quantiles of a sketch that was read.**  Reading does not relate the extremes to the
other items, nor to each other: with any two items for its extremes, a sketch that was read is
one that is read from some image.  If the extremes that were read span, the answers for ranks
that are accepted in a row never go down; without that, they do not as long as all of these
ranks lie between the ends. -/
theorem decoded_quantiles {t : ItemType} {cmp : t.Item → t.Item → Ordering} [Std.TransCmp cmp]
    {bytes : List UInt8} {s : Sketch t.Item cmp} (h : decode? bytes = .ok s) (hn : 0 < s.n) :
    (∀ least greatest : t.Item, LawfulItemCodec.Encodable least →
        LawfulItemCodec.Encodable greatest →
        ∃ image, decode? image = .ok (s.withExtremes least greatest))
      ∧ ∀ ranks, checkRanks ranks = .ok () →
          (s.Spans ∨ ∀ rank ∈ ranks, 0 < rank ∧ rank < 1) →
          ∃ items, s.quantiles ranks = .ok (some items)
            ∧ ranks.map s.quantile = items.map (fun x => .ok (some x)) ∧ Sorted cmp items := by
  have hsound := sound_of_decode? h
  obtain ⟨hcount, hitems⟩ := encodable_of_decode? h
  refine ⟨fun least greatest hleast hgreatest => ?_, fun ranks hranks hends => ?_⟩
  · have hother := hsound.withExtremes hn least greatest
    exact ⟨_, hother.decode?_encode (hitems.withExtremes hleast hgreatest) hcount false⟩
  · refine hsound.exists_quantiles hn hranks fun ⟨rank, hrank, hend⟩ => ?_
    refine hends.resolve_right fun hbetween => ?_
    -- A rank between the ends is none of them.
    obtain ⟨h0, h1⟩ := hbetween rank hrank
    obtain ⟨-, hzero, hone⟩ := checkRank_of_lt h0 h1
    rw [hzero, hone] at hend
    exact hend.elim Bool.false_ne_true Bool.false_ne_true

/-- The image of one integer, flagged as read only and ordered, with bytes that are not
used and bytes after it. -/
def imageOfOne : List UInt8 :=
  [2, 3, 8, 26, 2, 0, 7, 7] ++ littleEndian 8 1 ++ littleEndian 8 5 ++ littleEndian 8 5
    ++ littleEndian 8 5 ++ [9, 9]

/-- The sketch that is read from it. -/
def ofOne : Sketch Int64 compare where
  k := 2
  n := 1
  buffer := #[5]
  least := some 5
  greatest := some 5

/-- The extremes of a sketch of one item span; with another item for both of them, it is
still read from an image. -/
theorem decoded_quantiles_ofOne :
    decode? imageOfOne = .ok ofOne ∧ 0 < ofOne.n
      ∧ (∃ image, decode? image = .ok (ofOne.withExtremes 10 10)) ∧ ofOne.Spans
      ∧ ∃ items, ofOne.quantiles [0, 0.5, 1] = .ok (some items) ∧ Sorted compare items := by
  have hdecode : decode? imageOfOne = .ok ofOne := rfl
  have hn : 0 < ofOne.n := Nat.one_pos
  have hspans : ofOne.Spans := by
    constructor <;> simp [ofOne, held]
  obtain ⟨hextremes, hquantiles⟩ := decoded_quantiles (t := .integer) hdecode hn
  obtain ⟨items, hitems, -, hsorted⟩ := hquantiles [0, 0.5, 1] rfl (.inl hspans)
  exact ⟨hdecode, hn, hextremes 10 10 trivial trivial, hspans, items, hitems, hsorted⟩

/-- The image of one item that is below what the image has for the least one. -/
def imageBelow : List UInt8 :=
  [2, 3, 8, 8, 2, 0, 0, 0] ++ littleEndian 8 1 ++ littleEndian 8 10 ++ littleEndian 8 10
    ++ littleEndian 8 3

/-- The sketch that is read from it. -/
def ofBelow : Sketch Int64 compare where
  k := 2
  n := 1
  buffer := #[3]
  least := some 10
  greatest := some 10

/-- Its extremes do not span, and its quantiles go down. -/
theorem quantiles_ofBelow_not_sorted :
    decode? imageBelow = .ok ofBelow ∧ 0 < ofBelow.n ∧ ¬ ofBelow.Spans
      ∧ checkRanks [0, 0.5, 1] = .ok ()
      ∧ ofBelow.quantiles [0, 0.5, 1] = .ok (some [10, 3, 10])
      ∧ ¬ Sorted compare ([10, 3, 10] : List Int64) := by
  have hdecode : decode? imageBelow = .ok ofBelow := rfl
  have hn : 0 < ofBelow.n := Nat.one_pos
  have hranks : checkRanks [0, 0.5, 1] = .ok () := rfl
  have hexpanded : ofBelow.expanded = [3] := by
    have hweighted : ofBelow.snapshot.weighted = [⟨3, 1⟩] := rfl
    rw [expanded, hweighted, sortBy_of_sorted (List.pairwise_singleton _ _)]
    rfl
  have hleast : ofBelow.quantileAt 0 = some 10 := rfl
  have hgreatest : ofBelow.quantileAt 1 = some 10 := rfl
  have hmiddle : ofBelow.quantileAt 0.5 = some 3 := by
    rw [quantileAt, hexpanded]
    rfl
  refine ⟨hdecode, hn, fun h => ?_, hranks, ?_, ?_⟩
  · exact absurd (h.least 10 rfl 3 (List.mem_singleton_self 3)) (by decide)
  · rw [(sound_of_decode? hdecode).quantiles_eq hn hranks, List.filterMap_cons_some hleast,
      List.filterMap_cons_some hmiddle, List.filterMap_cons_some hgreatest, List.filterMap_nil]
  · rw [Sorted]
    decide

end QuantileSketch.Sketch
