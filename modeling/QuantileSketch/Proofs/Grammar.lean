/-
Which bytes are images.

The bytes of an image are described here without a reader, by the places where its
numbers stand (`numberAt`, `flagAt`) and by the items that come after them:

* `ItemType.Represents` — the bytes of an item;
* `StartsWith`, `InBlocks` — items at the front of bytes, and items in sorted blocks;
* `IsImage` — the bytes of an image.

Images are exactly what `Sketch.decode?` accepts (`Sketch.accepts_iff_isImage`).

Design notes: the readers are first said again by place (`reads_readNumber_at`,
`reads_readPreamble_at`).  The blocks of the occupied levels determine all levels
(`Levels.exists_laidOut`), so a description need not mention the levels that are free.
-/
import QuantileSketch.Proofs.Codec
import Mathlib.Data.Nat.Bitwise

namespace QuantileSketch

namespace Image

variable {t : ItemType} {cmp : t.Item → t.Item → Ordering}

/-! ### Numbers by their places -/

/-- The number in the `width` bytes from `start` on. -/
def numberAt (bytes : List UInt8) (start width : ℕ) : ℕ :=
  ofLittleEndian ((bytes.drop start).take width)

/-- A flag of the preamble, by the number of its bit. -/
def flagAt (bytes : List UInt8) (i : ℕ) : Bool :=
  (numberAt bytes 3 1).testBit i

theorem numberAt_drop (bytes : List UInt8) (m start width : ℕ) :
    numberAt (bytes.drop m) start width = numberAt bytes (m + start) width := by
  rw [numberAt, numberAt, List.drop_drop]

theorem ofLittleEndian_lt (bytes : List UInt8) : ofLittleEndian bytes < 256 ^ bytes.length := by
  rw [← littleEndian_ofLittleEndian bytes, ofLittleEndian_littleEndian, length_littleEndian]
  exact Nat.mod_lt _ (Nat.pow_pos (Nat.succ_pos 255))

theorem numberAt_lt (bytes : List UInt8) (start width : ℕ) :
    numberAt bytes start width < 256 ^ width :=
  Nat.lt_of_lt_of_le (ofLittleEndian_lt _)
    (Nat.pow_le_pow_right (Nat.succ_pos 255) (List.length_take_le _ _))

theorem reads_readNumber_at {part : ImagePart} {width n : ℕ} {bytes rest : List UInt8} :
    Reads (readNumber part width) bytes n rest ↔
      width ≤ bytes.length ∧ n = numberAt bytes 0 width ∧ rest = bytes.drop width := by
  simp only [readNumber, reads_bind, reads_pure, reads_readBytes]
  constructor
  · rintro ⟨taken, mid, ⟨rfl, rfl⟩, rfl, rfl⟩
    rw [numberAt, List.drop_zero, List.take_left, List.drop_left, List.length_append]
    exact ⟨Nat.le_add_right _ _, rfl, rfl⟩
  · rintro ⟨hwidth, rfl, rfl⟩
    exact ⟨bytes.take width, bytes.drop width,
      ⟨List.length_take_of_le hwidth, (List.take_append_drop width bytes).symm⟩, rfl, rfl⟩

theorem reads_readByte_at {part : ImagePart} {b : UInt8} {bytes rest : List UInt8} :
    Reads (readByte part) bytes b rest ↔
      1 ≤ bytes.length ∧ b = UInt8.ofNat (numberAt bytes 0 1) ∧ rest = bytes.drop 1 := by
  simp only [readByte, reads_bind, reads_pure, reads_readNumber_at]
  constructor
  · rintro ⟨n, mid, ⟨hlen, rfl, rfl⟩, rfl, rfl⟩
    exact ⟨hlen, rfl, rfl⟩
  · rintro ⟨hlen, rfl, rfl⟩
    exact ⟨_, _, ⟨hlen, rfl, rfl⟩, rfl, rfl⟩

/-! ### The preamble -/

/-- The preamble in the first eight bytes. -/
def preambleOf (bytes : List UInt8) : Preamble where
  longs := UInt8.ofNat (numberAt bytes 0 1)
  version := UInt8.ofNat (numberAt bytes 1 1)
  family := UInt8.ofNat (numberAt bytes 2 1)
  flags := UInt8.ofNat (numberAt bytes 3 1)
  k := numberAt bytes 4 2

theorem reads_readPreamble_at {p : Preamble} {bytes rest : List UInt8} :
    Reads readPreamble bytes p rest ↔
      8 ≤ bytes.length ∧ p = preambleOf bytes ∧ rest = bytes.drop 8 := by
  simp only [readPreamble, reads_bind, reads_pure, reads_readByte_at, reads_readNumber_at,
    and_assoc, exists_and_left, exists_eq_left, List.drop_drop, List.length_drop, numberAt_drop]
  constructor
  · rintro ⟨-, -, -, -, -, hlen, hp, hrest⟩
    exact ⟨by omega, hp, hrest⟩
  · rintro ⟨hlen, hp, hrest⟩
    exact ⟨by omega, by omega, by omega, by omega, by omega, by omega, hp, hrest⟩

theorem toNat_ofNat_numberAt (bytes : List UInt8) (start : ℕ) :
    (UInt8.ofNat (numberAt bytes start 1)).toNat = numberAt bytes start 1 :=
  UInt8.toNat_ofNat_of_lt (numberAt_lt bytes start 1)

theorem ofNat_numberAt_eq {bytes : List UInt8} {start : ℕ} {b : UInt8} :
    UInt8.ofNat (numberAt bytes start 1) = b ↔ numberAt bytes start 1 = b.toNat := by
  rw [← UInt8.toNat_inj, toNat_ofNat_numberAt]

/-- A flag is set if its bit is. -/
theorem has_preambleOf {bytes : List UInt8} {flag : UInt8} {i : ℕ} (hflag : flag.toNat = 2 ^ i) :
    (preambleOf bytes).has flag = flagAt bytes i := by
  have hand : ((preambleOf bytes).flags &&& flag).toNat = (flagAt bytes i).toNat * 2 ^ i := by
    rw [UInt8.toNat_and, preambleOf, toNat_ofNat_numberAt, hflag, Nat.and_two_pow, flagAt]
  rw [Preamble.has, Bool.eq_iff_iff, decide_eq_true_iff, ne_eq, ← UInt8.toNat_inj, hand]
  cases flagAt bytes i with
  | false => simp
  | true => simp

theorem has_compact_preambleOf (bytes : List UInt8) :
    (preambleOf bytes).has Flag.compact = flagAt bytes 3 := has_preambleOf rfl

theorem has_empty_preambleOf (bytes : List UInt8) :
    (preambleOf bytes).has Flag.empty = flagAt bytes 2 := has_preambleOf rfl

/-- There are eight flags. -/
theorem lt_of_flagAt {bytes : List UInt8} {i : ℕ} (h : flagAt bytes i = true) : i < 8 := by
  by_contra hge
  have hlt : numberAt bytes 3 1 < 2 ^ i :=
    Nat.lt_of_lt_of_le (numberAt_lt bytes 3 1)
      (Nat.pow_le_pow_right Nat.two_pos (Nat.le_of_not_lt hge))
  rw [flagAt, Nat.testBit_lt_two_pow hlt] at h
  cases h

/-- The flags that have a meaning are bits `1` to `4`. -/
theorem testBit_not_all {i : ℕ} (hi : i < 8) :
    (~~~Flag.all).toNat.testBit i = !decide (1 ≤ i ∧ i ≤ 4) := by
  revert i
  decide

theorem unknown_flags_eq_zero {bytes : List UInt8} :
    (preambleOf bytes).flags &&& ~~~Flag.all = 0 ↔
      ∀ i, flagAt bytes i = true → 1 ≤ i ∧ i ≤ 4 := by
  have hbits : ((preambleOf bytes).flags &&& ~~~Flag.all).toNat
      = numberAt bytes 3 1 &&& (~~~Flag.all).toNat := by
    rw [UInt8.toNat_and, preambleOf, toNat_ofNat_numberAt]
  rw [← UInt8.toNat_inj, hbits]
  constructor
  · intro hzero i hflag
    have hbit : (numberAt bytes 3 1 &&& (~~~Flag.all).toNat).testBit i = false := by
      rw [hzero, UInt8.toNat_zero, Nat.zero_testBit]
    rw [Nat.testBit_and, ← flagAt, hflag, testBit_not_all (lt_of_flagAt hflag)] at hbit
    simpa using hbit
  · intro h
    refine Nat.eq_of_testBit_eq fun i => ?_
    rw [Nat.testBit_and, UInt8.toNat_zero, Nat.zero_testBit]
    cases hflag : (numberAt bytes 3 1).testBit i with
    | false => rfl
    | true =>
      rw [testBit_not_all (lt_of_flagAt hflag), decide_eq_true (h i hflag)]
      rfl

theorem check_preambleOf_eq_ok_iff {bytes : List UInt8} :
    (preambleOf bytes).check = .ok () ↔
      numberAt bytes 2 1 = 8 ∧ numberAt bytes 1 1 = 3
        ∧ (∀ i, flagAt bytes i = true → 1 ≤ i ∧ i ≤ 4) ∧ flagAt bytes 3 = true
        ∧ numberAt bytes 0 1 = (if flagAt bytes 2 = true then 1 else 2)
        ∧ Admissible (numberAt bytes 4 2) := by
  have hlongs : (Preamble.longsFor (flagAt bytes 2)).toNat
      = if flagAt bytes 2 = true then 1 else 2 := by
    cases flagAt bytes 2 <;> rfl
  rw [Preamble.check_eq_ok_iff, unknown_flags_eq_zero, has_compact_preambleOf,
    has_empty_preambleOf, ← hlongs]
  simp only [preambleOf, ofNat_numberAt_eq]
  rfl

/-! ### Items -/

/-- The bytes stand for the item: numbers in their width, and a text as the number of
bytes of its UTF-8 encoding, in four bytes, and then these. -/
def ItemType.Represents : (t : ItemType) → List UInt8 → t.Item → Prop
  | .integer, bytes, x => bytes.length = 8 ∧ x.toUInt64.toNat = ofLittleEndian bytes
  | .binary64, bytes, x => bytes.length = 8 ∧ x.bits.toNat = ofLittleEndian bytes
  | .binary32, bytes, x => bytes.length = 4 ∧ x.bits.toNat = ofLittleEndian bytes
  | .text, bytes, x =>
    bytes.length = 4 + numberAt bytes 0 4 ∧ bytes.drop 4 = bytesOfText x

theorem represents_word {width n : ℕ} (hn : n < 256 ^ width) {bytes : List UInt8} :
    bytes.length = width ∧ n = ofLittleEndian bytes ↔ True ∧ bytes = littleEndian width n := by
  rw [true_and]
  constructor
  · rintro ⟨rfl, rfl⟩
    exact (littleEndian_ofLittleEndian bytes).symm
  · rintro rfl
    rw [length_littleEndian, ofLittleEndian_littleEndian, Nat.mod_eq_of_lt hn]
    exact ⟨rfl, rfl⟩

/-- The bytes of an item are those that are written for it. -/
theorem ItemType.represents_iff {t : ItemType} {bytes : List UInt8} {x : t.Item} :
    t.Represents bytes x ↔ LawfulItemCodec.Encodable x ∧ bytes = ItemCodec.encode x := by
  cases t with
  | integer => exact represents_word x.toUInt64.toNat_lt
  | binary64 => exact represents_word x.bits.toNat_lt
  | binary32 => exact represents_word x.bits.toNat_lt
  | text =>
    show bytes.length = 4 + numberAt bytes 0 4 ∧ bytes.drop 4 = bytesOfText x ↔
      x.utf8ByteSize < 2 ^ 32 ∧ bytes = littleEndian 4 x.utf8ByteSize ++ bytesOfText x
    constructor
    · rintro ⟨hlength, hdrop⟩
      -- The number in front is that of the bytes that follow it.
      have hsize : numberAt bytes 0 4 = x.utf8ByteSize := by
        rw [← length_bytesOfText, ← hdrop, List.length_drop]
        omega
      have hfront : littleEndian 4 x.utf8ByteSize = bytes.take 4 := by
        have hbytes := littleEndian_ofLittleEndian (bytes.take 4)
        rwa [List.length_take_of_le (by omega), ← List.drop_zero (l := bytes), ← numberAt, hsize]
          at hbytes
      refine ⟨hsize ▸ numberAt_lt bytes 0 4, ?_⟩
      rw [hfront, ← hdrop, List.take_append_drop]
    · rintro ⟨hsize, rfl⟩
      have hfour : (littleEndian 4 x.utf8ByteSize).length = 4 := length_littleEndian _ _
      have hmod : x.utf8ByteSize % 256 ^ 4 = x.utf8ByteSize := Nat.mod_eq_of_lt hsize
      rw [numberAt, List.drop_zero, List.take_left' hfour, List.drop_left' hfour,
        ofLittleEndian_littleEndian, hmod, List.length_append, hfour, length_bytesOfText]
      exact ⟨rfl, rfl⟩

/-- The bytes start with the items. -/
def StartsWith (t : ItemType) (items : List t.Item) (bytes : List UInt8) : Prop :=
  ∃ (parts : List (List UInt8)) (rest : List UInt8),
    List.Forall₂ t.Represents parts items ∧ bytes = parts.flatten ++ rest

/-- What items at the front of bytes are is what is read there. -/
theorem startsWith_iff {items : List t.Item} {bytes : List UInt8} :
    StartsWith t items bytes ↔ ∃ rest, ReadsItems items bytes rest := by
  induction items generalizing bytes with
  | nil =>
    refine iff_of_true ⟨[], bytes, .nil, rfl⟩ ⟨bytes, rfl⟩
  | cons x items ih =>
    simp only [ReadsItems, LawfulItemCodec.reads_decode]
    constructor
    · rintro ⟨_, rest, hall, rfl⟩
      obtain ⟨part, parts, hpart, hparts, rfl⟩ := List.forall₂_cons_right_iff.mp hall
      obtain ⟨hx, rfl⟩ := ItemType.represents_iff.mp hpart
      obtain ⟨rest', hrest'⟩ := ih.mp ⟨parts, rest, hparts, rfl⟩
      exact ⟨rest', _, ⟨hx, by rw [List.flatten_cons, List.append_assoc]⟩, hrest'⟩
    · rintro ⟨rest, mid, hx, hrest⟩
      obtain ⟨parts, rest', hparts, rfl⟩ := ih.mpr ⟨rest, hrest⟩
      refine ⟨ItemCodec.encode x :: parts, rest', .cons ?_ hparts, ?_⟩
      · exact ItemType.represents_iff.mpr ⟨hx.1, rfl⟩
      · rw [hx.2, List.flatten_cons, List.append_assoc]

/-- The items are blocks of `k` items, each of them in order. -/
def InBlocks (cmp : t.Item → t.Item → Ordering) (k : ℕ) (items : List t.Item) : Prop :=
  ∃ blocks : List (List t.Item), items = blocks.flatten
    ∧ ∀ block ∈ blocks, block.length = k ∧ Sorted cmp block

/-- The bytes start with what a sketch holds of `n` items, its extremes first: the items of
the buffer, and then the blocks of the levels. -/
def HoldsItems (cmp : t.Item → t.Item → Ordering) (k n : ℕ) (bytes : List UInt8) : Prop :=
  ∃ items, StartsWith t items bytes ∧ items.length = 2 + retainedCount k n
    ∧ InBlocks cmp k (items.drop (2 + bufferCount k n))

theorem length_flatten_of_blocks {k : ℕ} {blocks : List (List t.Item)}
    (h : ∀ block ∈ blocks, block.length = k ∧ Sorted cmp block) :
    blocks.flatten.length = blocks.length * k := by
  have hlengths : blocks.map List.length = List.replicate blocks.length k :=
    List.eq_replicate_iff.mpr ⟨List.length_map _, by simpa using fun b hb => (h b hb).1⟩
  rw [List.length_flatten, hlengths, List.sum_replicate, smul_eq_mul]

/-! ### Images -/

/-- The bytes of an image, whatever comes after them. -/
structure IsImage (cmp : t.Item → t.Item → Ordering) (bytes : List UInt8) : Prop where
  /-- There is a preamble. -/
  length : 8 ≤ bytes.length
  family : numberAt bytes 2 1 = 8
  version : numberAt bytes 1 1 = 3
  /-- No flag is set that has no meaning. -/
  flags : ∀ i, flagAt bytes i = true → 1 ≤ i ∧ i ≤ 4
  compact : flagAt bytes 3 = true
  /-- The preamble is longer if the sketch is not flagged as empty. -/
  longs : numberAt bytes 0 1 = if flagAt bytes 2 = true then 1 else 2
  size : Admissible (numberAt bytes 4 2)
  /-- Unless the sketch is empty there are a count and the items that it calls for. -/
  contents : flagAt bytes 2 = false →
    16 ≤ bytes.length ∧ 0 < numberAt bytes 8 8
      ∧ HoldsItems cmp (numberAt bytes 4 2) (numberAt bytes 8 8) (bytes.drop 16)

variable [Std.TransCmp cmp]

/-- The parts of a sketch are read from bytes that start with what it holds. -/
theorem holdsItems_iff {k n : ℕ} (hk : 0 < k) {bytes : List UInt8} :
    HoldsItems cmp k n bytes ↔
      ∃ (s : Sketch t.Item cmp) (rest : List UInt8), Reads (readParts cmp k n) bytes s rest := by
  constructor
  · rintro ⟨items, hstart, hlength, blocks, hdrop, hblocks⟩
    obtain ⟨rest, hitems⟩ := startsWith_iff.mp hstart
    -- The extremes, the buffer and the blocks of the levels are one after the other.
    rw [retainedCount] at hlength
    obtain ⟨least, items, rfl⟩ := List.exists_cons_of_length_pos (l := items) (by omega)
    rw [List.length_cons] at hlength
    obtain ⟨greatest, items, rfl⟩ := List.exists_cons_of_length_pos (l := items) (by omega)
    rw [List.length_cons] at hlength
    have hheld : items.drop (bufferCount k n) = blocks.flatten := by
      rw [← hdrop, Nat.add_comm]
      rfl
    have hcount : blocks.length = (occupiedLevels (occupancy k n)).length := by
      refine Nat.eq_of_mul_eq_mul_right hk ?_
      rw [← length_flatten_of_blocks hblocks, ← hheld, List.length_drop]
      omega
    obtain ⟨levels, hlevels, hflatten⟩ := Levels.exists_laidOut hcount hblocks
    have hsplit : items = items.take (bufferCount k n) ++ levels.flatten := by
      rw [hflatten, ← hheld, List.take_append_drop]
    have hsize : (items.take (bufferCount k n)).length = bufferCount k n :=
      List.length_take_of_le (by omega)
    let s : Sketch t.Item cmp := {
      k, n, levels
      buffer := (items.take (bufferCount k n)).toArray
      least := some least
      greatest := some greatest }
    refine ⟨s, rest, reads_readParts.mpr
      ⟨rfl, rfl, hsize, hlevels, least, greatest, rfl, rfl, ?_⟩⟩
    show ReadsItems
      (least :: greatest :: ((items.take (bufferCount k n)).toArray.toList ++ levels.flatten)) _ _
    rw [List.toList_toArray, ← hsplit]
    exact hitems
  · rintro ⟨s, rest, hread⟩
    obtain ⟨-, -, hbuffer, hlevels, least, greatest, -, -, hitems⟩ := reads_readParts.mp hread
    refine ⟨_, startsWith_iff.mpr ⟨rest, hitems⟩, ?_, ?_⟩
    · simp only [List.length_cons, List.length_append, Array.length_toList, hbuffer,
        hlevels.holds.length_flatten hk, retainedCount]
      omega
    · refine ⟨(Levels.occupied s.levels).map Prod.snd, ?_, ?_⟩
      · rw [Levels.occupied, Levels.flatten_occupiedFrom, Nat.add_comm, ← hbuffer]
        exact List.drop_left' Array.length_toList
      · intro block hblock
        obtain ⟨b, hb, rfl⟩ := List.mem_map.mp hblock
        exact (hlevels.regular hk).occupied hb

/-- By place, the contents are a count that is not zero and the parts for it.  The early
check for enough bytes asks for nothing that the parts do not need. -/
theorem reads_readContents_at {k : ℕ} (hk : 0 < k) {s : Sketch t.Item cmp}
    {bytes rest : List UInt8} :
    Reads (readContents cmp k) bytes s rest ↔
      8 ≤ bytes.length ∧ 0 < numberAt bytes 0 8
        ∧ Reads (readParts cmp k (numberAt bytes 0 8)) (bytes.drop 8) s rest := by
  rw [reads_readContents]
  constructor
  · rintro ⟨n, mid, hcount, hn, -, hparts⟩
    obtain ⟨hlen, rfl, rfl⟩ := reads_readNumber_at.mp hcount
    exact ⟨hlen, Nat.pos_of_ne_zero hn, hparts⟩
  · rintro ⟨hlen, hn, hparts⟩
    exact ⟨_, _, reads_readNumber_at.mpr ⟨hlen, rfl, rfl⟩, Nat.ne_of_gt hn,
      hparts.retainedCount_le hk, hparts⟩

/-- A sketch is read from the bytes of an image, and from no others. -/
theorem reads_readSketch_iff_isImage {bytes : List UInt8} :
    (∃ (s : Sketch t.Item cmp) (rest : List UInt8), Reads (readSketch cmp) bytes s rest) ↔
      IsImage cmp bytes := by
  constructor
  · rintro ⟨s, rest, hread⟩
    obtain ⟨p, mid, hp, hcheck, hcontents⟩ := reads_readSketch.mp hread
    obtain ⟨hlen, rfl, rfl⟩ := reads_readPreamble_at.mp hp
    obtain ⟨hfamily, hversion, hflags, hcompact, hlongs, hsize⟩ :=
      check_preambleOf_eq_ok_iff.mp hcheck
    refine ⟨hlen, hfamily, hversion, hflags, hcompact, hlongs, hsize, fun hfull => ?_⟩
    rw [has_empty_preambleOf, hfull, if_neg Bool.false_ne_true] at hcontents
    obtain ⟨hcount, hn, hparts⟩ := (reads_readContents_at hsize.pos).mp hcontents
    rw [List.length_drop] at hcount
    rw [numberAt_drop] at hn hparts
    rw [List.drop_drop] at hparts
    exact ⟨by omega, hn, (holdsItems_iff hsize.pos).mpr ⟨s, rest, hparts⟩⟩
  · intro h
    have hp : Reads readPreamble bytes (preambleOf bytes) (bytes.drop 8) :=
      reads_readPreamble_at.mpr ⟨h.length, rfl, rfl⟩
    have hcheck : (preambleOf bytes).check = .ok () :=
      check_preambleOf_eq_ok_iff.mpr
        ⟨h.family, h.version, h.flags, h.compact, h.longs, h.size⟩
    cases hempty : flagAt bytes 2 with
    | true =>
      refine ⟨.empty (numberAt bytes 4 2), bytes.drop 8, reads_readSketch.mpr
        ⟨_, _, hp, hcheck, ?_⟩⟩
      rw [has_empty_preambleOf, hempty, if_pos rfl]
      exact ⟨rfl, rfl⟩
    | false =>
      obtain ⟨hlen, hn, hitems⟩ := h.contents hempty
      obtain ⟨s, rest, hparts⟩ := (holdsItems_iff h.size.pos).mp hitems
      refine ⟨s, rest, reads_readSketch.mpr ⟨_, _, hp, hcheck, ?_⟩⟩
      rw [has_empty_preambleOf, hempty, if_neg Bool.false_ne_true]
      refine (reads_readContents_at h.size.pos).mpr ?_
      rw [numberAt_drop, List.length_drop, List.drop_drop]
      exact ⟨by omega, hn, hparts⟩

end Image

namespace Sketch

open Image

theorem kind_of_decode?_eq_error {α : Type} {cmp : α → α → Ordering} [ItemCodec α]
    {bytes : List UInt8} {fault : Fault}
    (h : (decode? bytes : Except Fault (Sketch α cmp)) = .error fault) :
    fault.kind = .malformedImage := by
  rw [decode?] at h
  cases hread : (readSketch cmp).run bytes with
  | ok read =>
    rw [hread] at h
    cases h
  | error cause =>
    rw [hread] at h
    cases h
    rfl

/-- **Images are accepted, and nothing else.**  Every other string of bytes is refused as
a malformed image.  The early check for enough bytes refuses nothing that could be read
without it, and what is computed from the block size and the count stays in range. -/
theorem accepts_iff_isImage {t : ItemType} {cmp : t.Item → t.Item → Ordering}
    [Std.TransCmp cmp] (bytes : List UInt8) :
    ((∃ s : Sketch t.Item cmp, decode? bytes = .ok s) ↔ IsImage cmp bytes)
      ∧ (∀ fault, (decode? bytes : Except Fault (Sketch t.Item cmp)) = .error fault →
          fault.kind = .malformedImage)
      ∧ ∀ k n, k = numberAt bytes 4 2 → n = numberAt bytes 8 8 → Admissible k →
          (∀ (s : Sketch t.Item cmp) rest, Reads (readParts cmp k n) (bytes.drop 16) s rest →
            retainedCount k n ≤ (bytes.drop 16).length)
          ∧ 0 < 2 * k ∧ retainedCount k n < 2 ^ 64 ∧ levelCount (occupancy k n) ≤ 64 := by
  refine ⟨?_, fun _ => kind_of_decode?_eq_error, ?_⟩
  · simp only [decode?_eq_ok_iff]
    exact reads_readSketch_iff_isImage
  · rintro k n - rfl hk
    have hn : numberAt bytes 8 8 < 2 ^ 64 := numberAt_lt bytes 8 8
    have hoccupancy : occupancy k (numberAt bytes 8 8) < 2 ^ 64 :=
      Nat.lt_of_le_of_lt (Nat.div_le_self _ _) hn
    exact ⟨fun s rest hparts => hparts.retainedCount_le hk.pos, Nat.mul_pos Nat.two_pos hk.pos,
      Nat.lt_of_le_of_lt (retainedCount_le k _) hn, levelCount_le hoccupancy⟩

/-- The image of four texts that are compared by their lengths. -/
def imageOfFour : List UInt8 :=
  [2, 3, 8, 8, 2, 0, 0, 0, 4, 0, 0, 0, 0, 0, 0, 0]
    ++ [1, 0, 0, 0, 97] ++ [2, 0, 0, 0, 195, 169] ++ [1, 0, 0, 0, 97] ++ [2, 0, 0, 0, 195, 169]

theorem isImage_imageOfFour : IsImage (t := .text) byEncodedLength imageOfFour := by
  have hsize : Admissible (numberAt imageOfFour 4 2) := by decide
  have hlength : 16 ≤ imageOfFour.length := Nat.le_add_right 16 22
  refine ⟨Nat.le_add_right 8 30, rfl, rfl, ?_, rfl, rfl, hsize, fun _ =>
    ⟨hlength, Nat.succ_pos 3, ["a", "é", "a", "é"], ?_, rfl, [["a", "é"]], rfl, ?_⟩⟩
  · intro i hi
    have hbit : flagAt imageOfFour i = (2 ^ 3).testBit i := rfl
    rw [hbit, Nat.testBit_two_pow] at hi
    have := of_decide_eq_true hi
    omega
  · have ha : ItemType.Represents .text [1, 0, 0, 0, 97] "a" := ⟨rfl, rfl⟩
    have he : ItemType.Represents .text [2, 0, 0, 0, 195, 169] "é" := ⟨rfl, rfl⟩
    exact ⟨_, [], .cons ha (.cons he (.cons ha (.cons he .nil))), rfl⟩
  · intro block hblock
    obtain rfl := List.mem_singleton.mp hblock
    refine ⟨rfl, ?_⟩
    rw [Sorted]
    decide

theorem accepts_iff_isImage_imageOfFour :
    Std.TransCmp byEncodedLength
      ∧ (∃ s : Sketch String byEncodedLength, decode? imageOfFour = .ok s)
      ∧ retainedCount 2 4 ≤ (imageOfFour.drop 16).length
      ∧ ∃ fault, (decode? (imageOfFour.set 1 2) : Except Fault (Sketch String byEncodedLength))
          = .error fault ∧ fault.kind = .malformedImage := by
  have hsize : Admissible 2 := by decide
  refine ⟨inferInstance, ?_, ?_, ?_⟩
  · exact (accepts_iff_isImage (t := .text) imageOfFour).1.mpr isImage_imageOfFour
  · obtain ⟨-, -, hitems⟩ := isImage_imageOfFour.contents rfl
    obtain ⟨s, rest, hparts⟩ := (holdsItems_iff hsize.pos).mp hitems
    exact ((accepts_iff_isImage imageOfFour).2.2 2 4 rfl rfl hsize).1 s rest hparts
  · cases hread :
      (decode? (imageOfFour.set 1 2) : Except Fault (Sketch String byEncodedLength)) with
    | ok s =>
      -- The version is not the one of the format.
      have himage : IsImage (t := .text) byEncodedLength (imageOfFour.set 1 2) :=
        (accepts_iff_isImage _).1.mp ⟨s, hread⟩
      exact absurd himage.version (by decide)
    | error fault => exact ⟨fault, rfl, (accepts_iff_isImage (t := .text) _).2.1 fault hread⟩

end Sketch

end QuantileSketch
