/-
Numbers, blocks of bytes and items, written and read.

* `littleEndian`, `ofLittleEndian` — a number as bytes, the lowest first;
* `Reader` — what is read from the front of the bytes, or why it cannot be;
* `readBytes`, `readNumber` — a block of bytes, and a number;
* `ItemCodec` — items that have a form in bytes;
* `encodeItems`, `readItems` — items, one after the other.

Design notes: a reader gives the bytes that it leaves, so reading one thing after
another is the state monad.
-/
import QuantileSketch.Image.Fault

namespace QuantileSketch.Image

/-- The lowest `width` bytes of a number, the lowest first. -/
def littleEndian : (width n : Nat) → List UInt8
  | 0, _ => []
  | width + 1, n => UInt8.ofNat (n % 256) :: littleEndian width (n / 256)

/-- The number whose bytes are given, the lowest first. -/
def ofLittleEndian : List UInt8 → Nat
  | [] => 0
  | b :: bytes => b.toNat + 256 * ofLittleEndian bytes

@[simp] theorem length_littleEndian (width n : Nat) : (littleEndian width n).length = width := by
  induction width generalizing n with
  | zero => rfl
  | succ width ih => simp [littleEndian, ih]

theorem littleEndian_ofLittleEndian (bytes : List UInt8) :
    littleEndian bytes.length (ofLittleEndian bytes) = bytes := by
  induction bytes with
  | nil => rfl
  | cons b bytes ih =>
    have hb : b.toNat < 256 := b.toNat_lt
    rw [List.length_cons, littleEndian, ofLittleEndian]
    have hlow : (b.toNat + 256 * ofLittleEndian bytes) % 256 = b.toNat := by omega
    have hrest : (b.toNat + 256 * ofLittleEndian bytes) / 256 = ofLittleEndian bytes := by omega
    rw [hlow, hrest, ih, UInt8.ofNat_toNat]

/-- Reads from the front of bytes, and leaves the rest. -/
abbrev Reader (β : Type) := StateT (List UInt8) (Except ImageFault) β

/-- Reads `count` bytes. -/
def readBytes (part : ImagePart) (count : Nat) : Reader (List UInt8) := fun bytes =>
  let taken := bytes.take count
  if taken.length = count then .ok (taken, bytes.drop count) else .error (.truncated part)

/-- Reads a number of `width` bytes. -/
def readNumber (part : ImagePart) (width : Nat) : Reader Nat :=
  return ofLittleEndian (← readBytes part width)

/-! ### Items -/

/-- Items that have a form in bytes. -/
class ItemCodec (α : Type) where
  /-- The number of bytes of an item. -/
  size : α → Nat
  /-- The bytes of an item. -/
  encode : α → List UInt8
  /-- Reads an item. -/
  decode : Reader α

variable {α : Type} [ItemCodec α]

/-- Reads `count` items after those in `read`. -/
def readItemsAfter (read : Array α) : Nat → Reader (Array α)
  | 0 => return read
  | count + 1 => do readItemsAfter (read.push (← ItemCodec.decode)) count

/-- Reads `count` items. -/
def readItems (count : Nat) : Reader (Array α) := readItemsAfter #[] count

/-- The bytes of items, one after the other. -/
def encodeItems (xs : List α) : List UInt8 := xs.flatMap ItemCodec.encode

/-- The number of bytes of items. -/
def sizeOfItems (xs : List α) : Nat := xs.foldr (fun x total => ItemCodec.size x + total) 0

end QuantileSketch.Image
