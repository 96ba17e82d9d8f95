/-
Codecs whose items can be read back.

A codec is lawful if what it reads is exactly what it writes: an item is read from the
bytes that encode it and from no others.  Integers and floating-point items are always
`Encodable`, a text only if its length fits into four bytes.

* `LawfulItemCodec` — the law, with an instance for each type of items;
* `ItemType` — these types, by name;
* `readsItems_iff` — then items in a row are read from their encodings in a row;
* `Reads.retainedCount_le` — they take enough bytes for the early check.
-/
import QuantileSketch.Item.Binary
import QuantileSketch.Item.Integer
import QuantileSketch.Item.Text
import QuantileSketch.Proofs.Reading

namespace QuantileSketch.Image

/-- Items are read from the bytes that encode them, and from no others. -/
class LawfulItemCodec (α : Type) [ItemCodec α] where
  /-- The item can be read back. -/
  Encodable : α → Prop
  /-- What is read is what is written. -/
  reads_decode {bytes rest : List UInt8} {x : α} :
    Reads ItemCodec.decode bytes x rest ↔ Encodable x ∧ bytes = ItemCodec.encode x ++ rest
  /-- The size of an item is the number of its bytes. -/
  length_encode (x : α) : (ItemCodec.encode x).length = ItemCodec.size x
  /-- Every item takes at least one byte. -/
  size_pos (x : α) : 0 < ItemCodec.size x

/-- An item that stands for a number of fixed width is read as this number. -/
theorem reads_word {α : Type} {part : ImagePart} {width : ℕ} (ofNat : ℕ → α) (toNat : α → ℕ)
    (hto : ∀ n < 256 ^ width, toNat (ofNat n) = n) (hof : ∀ x, ofNat (toNat x) = x)
    (hlt : ∀ x, toNat x < 256 ^ width) {bytes rest : List UInt8} {x : α} :
    Reads (return ofNat (← readNumber part width)) bytes x rest ↔
      True ∧ bytes = littleEndian width (toNat x) ++ rest := by
  simp only [reads_bind, reads_pure, reads_readNumber, true_and]
  constructor
  · rintro ⟨n, _, ⟨hn, rfl⟩, rfl, rfl⟩
    rw [hto n hn]
  · rintro rfl
    exact ⟨toNat x, rest, ⟨hlt x, rfl⟩, (hof x).symm, rfl⟩

instance : LawfulItemCodec Int64 where
  Encodable _ := True
  reads_decode :=
    reads_word (fun n => (UInt64.ofNat n).toInt64) (fun x => x.toUInt64.toNat)
      (fun _ hn => UInt64.toNat_ofNat_of_lt hn) (fun x => by simp) (fun x => x.toUInt64.toNat_lt)
  length_encode _ := length_littleEndian _ _
  size_pos _ := Nat.succ_pos 7

instance : LawfulItemCodec Binary64 where
  Encodable _ := True
  reads_decode :=
    reads_word (fun n => Binary64.mk (UInt64.ofNat n)) (fun x => x.bits.toNat)
      (fun _ hn => UInt64.toNat_ofNat_of_lt hn) (fun x => by simp) (fun x => x.bits.toNat_lt)
  length_encode _ := length_littleEndian _ _
  size_pos _ := Nat.succ_pos 7

instance : LawfulItemCodec Binary32 where
  Encodable _ := True
  reads_decode :=
    reads_word (fun n => Binary32.mk (UInt32.ofNat n)) (fun x => x.bits.toNat)
      (fun _ hn => UInt32.toNat_ofNat_of_lt hn) (fun x => by simp) (fun x => x.bits.toNat_lt)
  length_encode _ := length_littleEndian _ _
  size_pos _ := Nat.succ_pos 3

/-- Bytes are those of a text if it is the text that they decode to. -/
theorem textOfBytes_eq_ok_iff {bytes : List UInt8} {text : String} :
    textOfBytes bytes = .ok text ↔ bytes = bytesOfText text := by
  constructor
  · intro h
    rw [textOfBytes, String.fromUTF8?] at h
    split at h
    · rename_i heq
      split at heq
      · obtain rfl := Option.some.inj heq
        obtain rfl := Except.ok.inj h
        rfl
      · cases heq
    · cases h
  · rintro rfl
    have hbytes : (⟨(bytesOfText text).toArray⟩ : ByteArray) = text.toUTF8 := by
      rw [bytesOfText, Array.toArray_toList]
    rw [textOfBytes, hbytes, String.fromUTF8?, String.toUTF8_eq_toByteArray,
      dif_pos text.isValidUTF8]
    rfl

theorem length_bytesOfText (text : String) : (bytesOfText text).length = text.utf8ByteSize := by
  rw [bytesOfText, Array.length_toList]
  rfl

instance : LawfulItemCodec String where
  Encodable text := text.utf8ByteSize < 2 ^ 32
  reads_decode {bytes rest x} := by
    simp only [ItemCodec.decode, ItemCodec.encode, reads_bind, reads_readNumber, reads_readBytes,
      reads_liftM, textOfBytes_eq_ok_iff]
    constructor
    · rintro ⟨size, _, ⟨hsize, rfl⟩, taken, _, ⟨hlen, rfl⟩, rfl, rfl⟩
      rw [length_bytesOfText] at hlen
      subst hlen
      exact ⟨hsize, by rw [List.append_assoc]⟩
    · rintro ⟨hsize, rfl⟩
      exact ⟨x.utf8ByteSize, bytesOfText x ++ rest, ⟨hsize, by rw [List.append_assoc]⟩,
        bytesOfText x, rest, ⟨length_bytesOfText x, rfl⟩, rfl, rfl⟩
  length_encode text := by
    rw [ItemCodec.encode, ItemCodec.size]
    simp [instItemCodecString, length_bytesOfText]
  size_pos text := by
    simp [ItemCodec.size]

/-- The types of items that images are made of. -/
inductive ItemType
  | integer
  | binary64
  | binary32
  | text

/-- The items of a type. -/
abbrev ItemType.Item : ItemType → Type
  | integer => Int64
  | binary64 => Binary64
  | binary32 => Binary32
  | text => String

instance : (t : ItemType) → ItemCodec t.Item
  | .integer => inferInstanceAs (ItemCodec Int64)
  | .binary64 => inferInstanceAs (ItemCodec Binary64)
  | .binary32 => inferInstanceAs (ItemCodec Binary32)
  | .text => inferInstanceAs (ItemCodec String)

instance : (t : ItemType) → LawfulItemCodec t.Item
  | .integer => inferInstanceAs (LawfulItemCodec Int64)
  | .binary64 => inferInstanceAs (LawfulItemCodec Binary64)
  | .binary32 => inferInstanceAs (LawfulItemCodec Binary32)
  | .text => inferInstanceAs (LawfulItemCodec String)

variable {α : Type} [ItemCodec α] [LawfulItemCodec α]

open LawfulItemCodec

/-- Items in a row are read from their encodings in a row. -/
theorem readsItems_iff {xs : List α} {bytes rest : List UInt8} :
    ReadsItems xs bytes rest ↔ (∀ x ∈ xs, Encodable x) ∧ bytes = encodeItems xs ++ rest := by
  induction xs generalizing bytes with
  | nil => simp [ReadsItems, encodeItems, eq_comm]
  | cons x xs ih =>
    simp only [ReadsItems, reads_decode, ih, List.forall_mem_cons, encodeItems, List.flatMap_cons]
    constructor
    · rintro ⟨mid, ⟨hx, rfl⟩, hxs, rfl⟩
      exact ⟨⟨hx, hxs⟩, by rw [List.append_assoc]⟩
    · rintro ⟨⟨hx, hxs⟩, rfl⟩
      exact ⟨_, ⟨hx, by rw [List.append_assoc]⟩, hxs, rfl⟩

theorem length_encodeItems (xs : List α) : (encodeItems xs).length = sizeOfItems xs := by
  induction xs with
  | nil => rfl
  | cons x xs ih =>
    rw [encodeItems] at ih
    rw [encodeItems, List.flatMap_cons, List.length_append, ih, length_encode]
    rfl

/-- The order of items makes no difference to their size. -/
theorem sizeOfItems_eq_of_perm {xs ys : List α} (h : xs.Perm ys) :
    sizeOfItems xs = sizeOfItems ys := by
  rw [← length_encodeItems, ← length_encodeItems]
  exact (h.flatMap_right ItemCodec.encode).length_eq

theorem length_le_sizeOfItems (xs : List α) : xs.length ≤ sizeOfItems xs := by
  induction xs with
  | nil => exact Nat.le_refl 0
  | cons x xs ih =>
    have hx := size_pos x
    simp only [sizeOfItems, List.foldr_cons, List.length_cons] at ih ⊢
    omega

/-- Items in a row take at least as many bytes as there are items. -/
theorem ReadsItems.length_le {xs : List α} {bytes rest : List UInt8}
    (h : ReadsItems xs bytes rest) : xs.length ≤ bytes.length := by
  obtain ⟨-, rfl⟩ := readsItems_iff.mp h
  rw [List.length_append, length_encodeItems]
  exact Nat.le_add_right_of_le (length_le_sizeOfItems xs)

/-- Where the parts of a sketch can be read, there are enough bytes for its items. -/
theorem Reads.retainedCount_le {cmp : α → α → Ordering} [Std.TransCmp cmp] {k n : ℕ} (hk : 0 < k)
    {s : Sketch α cmp} {bytes rest : List UInt8} (h : Reads (readParts cmp k n) bytes s rest) :
    retainedCount k n ≤ bytes.length := by
  obtain ⟨-, -, hbuffer, hlevels, least, greatest, -, -, hitems⟩ := reads_readParts.mp h
  have hlength := hitems.length_le
  rw [List.length_cons, List.length_cons, List.length_append, Array.length_toList, hbuffer,
    hlevels.holds.length_flatten hk] at hlength
  rw [retainedCount]
  omega

end QuantileSketch.Image
