/-
Writing back what was read.

Images are read without loss: whatever bytes are accepted, the sketch that was read is
written as these bytes again.  Only the flags besides the one for an empty sketch, the two
bytes that are not used and what comes after the image are not kept, so an image is its
sketch with three bytes that are free (`Sketch.imageWith`):

* `Image.readsItems_of_readLevels`, `Image.readsItems_of_readParts` — the items of the sketch
  are those in the bytes, in their order, whatever the comparison is;
* `Sketch.eq_imageWith_of_reads` — what is read is such an image;
* `Sketch.encode_decoded` — so writing undoes reading, and two images of one sketch differ at
  most in the three bytes.
-/
import QuantileSketch.Proofs.Codec

namespace QuantileSketch

namespace Image

variable {α : Type} {cmp : α → α → Ordering} [ItemCodec α]

/-! ### Items that are read

A comparison that is no order accepts other blocks, but reads them alike. -/

theorem readsItems_of_readLevel {k p i : ℕ} {level : List α} {bytes rest : List UInt8}
    (h : Reads (readLevel cmp k p i) bytes level rest) : ReadsItems level bytes rest := by
  rw [readLevel] at h
  split at h
  · simp only [reads_bind, reads_readItems] at h
    obtain ⟨block, mid, ⟨-, hitems⟩, h⟩ := h
    split at h
    · obtain ⟨rfl, rfl⟩ := reads_pure.mp h
      exact hitems
    · exact absurd h reads_throw
  · obtain ⟨rfl, rfl⟩ := reads_pure.mp h
    rfl

theorem readsItems_of_readLevels {k p i count : ℕ} {levels : List (List α)}
    {bytes rest : List UInt8} (h : Reads (readLevels cmp k p i count) bytes levels rest) :
    ReadsItems levels.flatten bytes rest := by
  induction count generalizing i levels bytes with
  | zero =>
    obtain ⟨rfl, rfl⟩ := reads_pure.mp h
    rfl
  | succ count ih =>
    simp only [readLevels, reads_bind, reads_pure] at h
    obtain ⟨level, mid, hlevel, levels, mid', hlevels, rfl, rfl⟩ := h
    exact readsItems_append.mpr ⟨mid, readsItems_of_readLevel hlevel, ih hlevels⟩

/-- The parts of a sketch are read as one row of items. -/
theorem readsItems_of_readParts {k n : ℕ} {s : Sketch α cmp} {bytes rest : List UInt8}
    (h : Reads (readParts cmp k n) bytes s rest) :
    s.k = k ∧ s.n = n ∧ ∃ least greatest, s.least = some least ∧ s.greatest = some greatest
      ∧ ReadsItems (least :: greatest :: (s.buffer.toList ++ s.levels.flatten)) bytes rest := by
  simp only [readParts, reads_bind, reads_pure, reads_readItems] at h
  obtain ⟨least, mid, hleast, greatest, mid', hgreatest, buffer, mid'', ⟨-, hbuffer⟩, levels, _,
    hlevels, rfl, rfl⟩ := h
  exact ⟨rfl, rfl, least, greatest, rfl, rfl, mid, hleast, mid', hgreatest,
    readsItems_append.mpr ⟨mid'', hbuffer, readsItems_of_readLevels hlevels⟩⟩

end Image

namespace Sketch

open Image

variable {α : Type} {cmp : α → α → Ordering} [ItemCodec α]

/-! ### Images with free bytes -/

/-- What comes after the preamble in the image of a sketch. -/
def encodeContents (s : Sketch α cmp) : List UInt8 :=
  if s.isEmpty then []
  else
    littleEndian 8 s.n ++ encodeExtremes s.least s.greatest ++ encodeItems s.buffer.toList
      ++ encodeItems s.levels.flatten

/-- The image of a sketch with any flags, and anything in the bytes that are not used. -/
def imageWith (flags unused₀ unused₁ : UInt8) (s : Sketch α cmp) : List UInt8 :=
  [Preamble.longsFor s.isEmpty, formatVersion, familyId, flags] ++ littleEndian 2 s.k
    ++ [unused₀, unused₁] ++ s.encodeContents

/-- The flags of an image whose buffer is in order of arrival. -/
def plainFlags (s : Sketch α cmp) : UInt8 :=
  if s.isEmpty then Flag.compact ||| Flag.empty else Flag.compact

theorem encode_false (s : Sketch α cmp) : s.encode false = s.imageWith s.plainFlags 0 0 := by
  have hflags : Flag.compact ||| (if s.isEmpty then Flag.empty else 0) ||| 0
      = s.plainFlags := by
    rw [plainFlags]
    cases s.isEmpty <;> rfl
  have hpreamble : (Preamble.ofSketch s.k s.isEmpty false).encode
      = [Preamble.longsFor s.isEmpty, formatVersion, familyId, s.plainFlags]
        ++ littleEndian 2 s.k ++ [0, 0] := by
    rw [← hflags]
    rfl
  rw [encode, imageWith, encodeContents, ← hpreamble]
  cases s.isEmpty with
  | true => exact (List.append_nil _).symm
  | false => simp [writtenBuffer]

/-- The bytes with other flags, and nothing in the bytes that are not used. -/
def replaced (flags : UInt8) (image : List UInt8) : List UInt8 :=
  ((image.set 3 flags).set 6 0).set 7 0

theorem replaced_imageWith (s : Sketch α cmp) (flags flags' unused₀ unused₁ : UInt8) :
    replaced flags' (s.imageWith flags unused₀ unused₁) = s.imageWith flags' 0 0 := rfl

theorem length_imageWith (s : Sketch α cmp) (flags unused₀ unused₁ : UInt8) :
    (s.imageWith flags unused₀ unused₁).length = 8 + s.encodeContents.length := by
  rw [imageWith, List.length_append]
  rfl

theorem getElem?_imageWith (s : Sketch α cmp) (flags unused₀ unused₁ : UInt8) {i : ℕ}
    (hflags : i ≠ 3) (hunused₀ : i ≠ 6) (hunused₁ : i ≠ 7) :
    (s.imageWith flags unused₀ unused₁)[i]? = (s.encode false)[i]? := by
  rw [encode_false, ← replaced_imageWith s flags s.plainFlags unused₀ unused₁, replaced,
    List.getElem?_set_ne hunused₁.symm, List.getElem?_set_ne hunused₀.symm,
    List.getElem?_set_ne hflags.symm]

/-- What is read is the image of the sketch, but for its free bytes. -/
theorem eq_imageWith_of_reads [LawfulItemCodec α] {s : Sketch α cmp} {bytes rest : List UInt8}
    (h : Reads (readSketch cmp) bytes s rest) :
    ∃ flags unused₀ unused₁, bytes = s.imageWith flags unused₀ unused₁ ++ rest := by
  obtain ⟨p, mid, hpreamble, hcheck, hcontents⟩ := reads_readSketch.mp h
  obtain ⟨-, unused, hunused, rfl⟩ := reads_readPreamble.mp hpreamble
  obtain ⟨hfamily, hversion, -, -, hlongs, -⟩ := Preamble.check_eq_ok_iff.mp hcheck
  obtain ⟨unused₀, unused₁, rfl⟩ := List.length_eq_two.mp hunused
  refine ⟨p.flags, unused₀, unused₁, ?_⟩
  rw [hfamily, hversion, hlongs]
  cases hempty : p.has Flag.empty with
  | true =>
    rw [hempty, if_pos rfl] at hcontents
    obtain ⟨rfl, rfl⟩ := hcontents
    simp [imageWith, encodeContents, isEmpty, Sketch.empty]
  | false =>
    rw [hempty, if_neg Bool.false_ne_true] at hcontents
    obtain ⟨n, mid, hcount, hn, -, hparts⟩ := reads_readContents.mp hcontents
    obtain ⟨-, rfl⟩ := reads_readNumber.mp hcount
    obtain ⟨hk, rfl, least, greatest, hleast, hgreatest, hitems⟩ := readsItems_of_readParts hparts
    obtain ⟨-, rfl⟩ := readsItems_iff.mp hitems
    have hfull : s.isEmpty = false := decide_eq_false hn
    simp [imageWith, encodeContents, hfull, hk, hleast, hgreatest, encodeExtremes, encodeItems]

/-- **Writing undoes reading.**  The sketch that was read from bytes is written as the image
at their front, with the plain flags and nothing in the bytes that are not used.  So two
images that are read as one sketch have the same length, and are the same but for these
three bytes. -/
theorem encode_decoded {t : ItemType} {cmp : t.Item → t.Item → Ordering} {bytes : List UInt8}
    {s : Sketch t.Item cmp} (h : decode? bytes = .ok s) :
    ∃ image rest, bytes = image ++ rest ∧ Reads (readSketch cmp) bytes s rest ∧ 8 ≤ image.length
      ∧ s.encode false = replaced s.plainFlags image
      ∧ ∀ image' rest', Reads (readSketch cmp) (image' ++ rest') s rest' →
          image'.length = image.length
            ∧ ∀ i, i ≠ 3 → i ≠ 6 → i ≠ 7 → image'[i]? = image[i]? := by
  obtain ⟨rest, hread⟩ := decode?_eq_ok_iff.mp h
  obtain ⟨flags, unused₀, unused₁, rfl⟩ := eq_imageWith_of_reads hread
  refine ⟨_, rest, rfl, hread, ?_, ?_, ?_⟩
  · rw [length_imageWith]
    exact Nat.le_add_right _ _
  · rw [replaced_imageWith, encode_false]
  · intro image' rest' hread'
    obtain ⟨flags', unused₀', unused₁', heq⟩ := eq_imageWith_of_reads hread'
    obtain rfl := List.append_cancel_right heq
    refine ⟨by rw [length_imageWith, length_imageWith], fun i h3 h6 h7 => ?_⟩
    rw [getElem?_imageWith s _ _ _ h3 h6 h7, getElem?_imageWith s _ _ _ h3 h6 h7]

/-- An image of five integers, two of them in a level, with any flags and with a byte that is
not used twice. -/
def imageOfFive (flags unused : UInt8) : List UInt8 :=
  [2, 3, 8, flags, 2, 0, unused, unused] ++ littleEndian 8 5 ++ littleEndian 8 1
    ++ littleEndian 8 9 ++ littleEndian 8 5 ++ littleEndian 8 1 ++ littleEndian 8 9

/-- The sketch that is read from it. -/
def ofFive : Sketch Int64 compare where
  k := 2
  n := 5
  buffer := #[5]
  levels := [[1, 9]]
  least := some 1
  greatest := some 9

/-- Two images of one sketch, the first flagged as read only and ordered, and followed by
other bytes. -/
theorem encode_decoded_imageOfFive :
    decode? (imageOfFive 26 7 ++ [9, 9]) = .ok ofFive
      ∧ Reads (readSketch compare) (imageOfFive 8 0 ++ [4]) ofFive [4]
      ∧ ∃ image, imageOfFive 26 7 ++ [9, 9] = image ++ [9, 9]
        ∧ ofFive.encode false = replaced Flag.compact image
        ∧ (imageOfFive 8 0).length = image.length
        ∧ ∀ i, i ≠ 3 → i ≠ 6 → i ≠ 7 → (imageOfFive 8 0)[i]? = image[i]? := by
  have hdecode : decode? (imageOfFive 26 7 ++ [9, 9]) = .ok ofFive := rfl
  have hreads : Reads (readSketch compare) (imageOfFive 26 7 ++ [9, 9]) ofFive [9, 9] := rfl
  have hother : Reads (readSketch compare) (imageOfFive 8 0 ++ [4]) ofFive [4] := rfl
  obtain ⟨image, rest, hsplit, hread, -, hencode, hsame⟩ :=
    encode_decoded (t := .integer) hdecode
  obtain rfl : rest = [9, 9] := (Prod.mk.inj (Except.ok.inj (hread.symm.trans hreads))).2
  obtain ⟨hlength, hbytes⟩ := hsame (imageOfFive 8 0) [4] hother
  exact ⟨hdecode, hother, image, hsplit, hencode, hlength, hbytes⟩

end Sketch

end QuantileSketch
