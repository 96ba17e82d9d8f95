/-
What readers accept.

`Reads r bytes v rest` says that the reader `r` reads `v` from the front of the bytes
and leaves `rest`.  Each reader has a statement of what this comes down to, with an
"if and only if", so that it serves to take an image apart and to put one together:

* `reads_readBytes`, `reads_readNumber`, `reads_readItems` — bytes, numbers, items;
* `ReadsItems` — items one after the other, however they are grouped;
* `reads_readLevels` — the blocks of levels, laid out by a pattern;
* `reads_readPreamble`, `Preamble.check_eq_ok_iff` — the first eight bytes;
* `reads_readParts`, `reads_readContents`, `reads_readSketch` — images.

What has been read is sound, whatever the bytes were (`Sketch.sound_of_decode?`).

Design notes: nothing is asked of the codec of the items here.
-/
import QuantileSketch.Image
import QuantileSketch.Proofs.Snapshot

namespace QuantileSketch

namespace Image

variable {α β γ : Type}

/-- The reader reads the value from the front of the bytes, and leaves the rest. -/
def Reads (r : Reader β) (bytes : List UInt8) (v : β) (rest : List UInt8) : Prop :=
  r.run bytes = .ok (v, rest)

/-! ### Readers in a row -/

@[simp] theorem reads_pure {v w : β} {bytes rest : List UInt8} :
    Reads (pure v) bytes w rest ↔ w = v ∧ rest = bytes := by
  show (Except.ok (v, bytes) : Except ImageFault _) = .ok (w, rest) ↔ _
  rw [Except.ok.injEq, Prod.mk.injEq, eq_comm, eq_comm (a := bytes)]

@[simp] theorem reads_throw {fault : ImageFault} {v : β} {bytes rest : List UInt8} :
    ¬ Reads (throw fault) bytes v rest := by
  intro h
  cases h

@[simp] theorem reads_bind {r : Reader β} {f : β → Reader γ} {w : γ} {bytes rest : List UInt8} :
    Reads (r >>= f) bytes w rest ↔ ∃ v mid, Reads r bytes v mid ∧ Reads (f v) mid w rest := by
  rw [Reads, StateT.run_bind]
  cases hr : r.run bytes with
  | error fault => simp [Reads, hr, bind, Except.bind]
  | ok read =>
    constructor
    · exact fun h => ⟨read.1, read.2, hr, h⟩
    · rintro ⟨v, mid, hv, h⟩
      obtain rfl : read = (v, mid) := Except.ok.inj (hr.symm.trans hv)
      exact h

@[simp] theorem reads_get {v bytes rest : List UInt8} :
    Reads get bytes v rest ↔ v = bytes ∧ rest = bytes := by
  show (Except.ok (bytes, bytes) : Except ImageFault _) = .ok (v, rest) ↔ _
  rw [Except.ok.injEq, Prod.mk.injEq, eq_comm, eq_comm (a := bytes)]

@[simp] theorem reads_liftM {x : Except ImageFault β} {v : β} {bytes rest : List UInt8} :
    Reads (liftM x) bytes v rest ↔ x = .ok v ∧ rest = bytes := by
  cases x with
  | error fault =>
    constructor
    · intro h
      cases h
    · rintro ⟨h, -⟩
      cases h
  | ok w =>
    show (Except.ok (w, bytes) : Except ImageFault _) = .ok (v, rest) ↔ _
    rw [Except.ok.injEq, Prod.mk.injEq, Except.ok.injEq, eq_comm (a := bytes)]

@[simp] theorem reads_guard {c : Prop} [Decidable c] {fault : ImageFault}
    {next : PUnit → Reader β} {v : β} {bytes rest : List UInt8} :
    Reads (if c then (throw fault : Reader PUnit) >>= next else next ()) bytes v rest ↔
      ¬ c ∧ Reads (next ()) bytes v rest := by
  by_cases h : c
  · simp [h]
  · simp [h]

/-! ### Bytes and numbers -/

theorem reads_readBytes {part : ImagePart} {count : ℕ} {bytes taken rest : List UInt8} :
    Reads (readBytes part count) bytes taken rest ↔
      taken.length = count ∧ bytes = taken ++ rest := by
  show (if (bytes.take count).length = count then
    (Except.ok (bytes.take count, bytes.drop count) : Except ImageFault _)
      else .error (.truncated part)) = .ok (taken, rest) ↔ _
  constructor
  · intro h
    split at h
    · rename_i hlen
      obtain ⟨rfl, rfl⟩ := Prod.mk.inj (Except.ok.inj h)
      exact ⟨hlen, (List.take_append_drop count bytes).symm⟩
    · cases h
  · rintro ⟨rfl, rfl⟩
    rw [List.take_left, List.drop_left, if_pos rfl]

theorem ofLittleEndian_littleEndian (width n : ℕ) :
    ofLittleEndian (littleEndian width n) = n % 256 ^ width := by
  induction width generalizing n with
  | zero => simp [littleEndian, ofLittleEndian, Nat.mod_one]
  | succ width ih =>
    have hlow : (UInt8.ofNat (n % 256)).toNat = n % 256 := by
      rw [UInt8.toNat_ofNat', Nat.mod_mod]
    rw [littleEndian, ofLittleEndian, ih, hlow, Nat.pow_succ', Nat.mod_mul]

theorem reads_readNumber {part : ImagePart} {width n : ℕ} {bytes rest : List UInt8} :
    Reads (readNumber part width) bytes n rest ↔
      n < 256 ^ width ∧ bytes = littleEndian width n ++ rest := by
  simp only [readNumber, reads_bind, reads_pure, reads_readBytes]
  constructor
  · rintro ⟨taken, mid, ⟨rfl, rfl⟩, rfl, rfl⟩
    rw [littleEndian_ofLittleEndian]
    refine ⟨?_, rfl⟩
    rw [← littleEndian_ofLittleEndian taken, ofLittleEndian_littleEndian,
      length_littleEndian]
    exact Nat.mod_lt _ (Nat.pow_pos (by decide))
  · rintro ⟨hlt, rfl⟩
    refine ⟨_, _, ⟨length_littleEndian width n, rfl⟩, ?_, rfl⟩
    rw [ofLittleEndian_littleEndian, Nat.mod_eq_of_lt hlt]

theorem reads_readByte {part : ImagePart} {b : UInt8} {bytes rest : List UInt8} :
    Reads (readByte part) bytes b rest ↔ bytes = b :: rest := by
  simp only [readByte, readNumber, reads_bind, reads_pure, reads_readBytes]
  constructor
  · rintro ⟨n, mid, ⟨taken, mid, ⟨hlen, rfl⟩, rfl, rfl⟩, rfl, rfl⟩
    obtain ⟨b, rfl⟩ := List.length_eq_one_iff.mp hlen
    simp [ofLittleEndian]
  · rintro rfl
    exact ⟨_, _, ⟨[b], rest, ⟨rfl, rfl⟩, rfl, rfl⟩, by simp [ofLittleEndian], rfl⟩

/-! ### Items -/

variable [ItemCodec α]

/-- The items are read one after the other. -/
def ReadsItems : List α → (bytes rest : List UInt8) → Prop
  | [], bytes, rest => rest = bytes
  | x :: xs, bytes, rest => ∃ mid, Reads ItemCodec.decode bytes x mid ∧ ReadsItems xs mid rest

theorem readsItems_append {xs ys : List α} {bytes rest : List UInt8} :
    ReadsItems (xs ++ ys) bytes rest ↔ ∃ mid, ReadsItems xs bytes mid ∧ ReadsItems ys mid rest := by
  induction xs generalizing bytes with
  | nil => simp [ReadsItems]
  | cons x xs ih =>
    simp only [List.cons_append, ReadsItems, ih]
    constructor
    · rintro ⟨mid, hx, mid', hxs, hys⟩
      exact ⟨mid', ⟨mid, hx, hxs⟩, hys⟩
    · rintro ⟨mid', ⟨mid, hx, hxs⟩, hys⟩
      exact ⟨mid, hx, mid', hxs, hys⟩

theorem reads_readItemsAfter {read out : Array α} {count : ℕ} {bytes rest : List UInt8} :
    Reads (readItemsAfter read count) bytes out rest ↔
      ∃ xs : List α, xs.length = count ∧ out.toList = read.toList ++ xs
        ∧ ReadsItems xs bytes rest := by
  induction count generalizing read bytes with
  | zero =>
    simp only [readItemsAfter, reads_pure, List.length_eq_zero_iff]
    constructor
    · rintro ⟨rfl, rfl⟩
      exact ⟨[], rfl, (List.append_nil _).symm, rfl⟩
    · rintro ⟨xs, rfl, hout, hrest⟩
      rw [List.append_nil] at hout
      exact ⟨Array.toList_inj.mp hout, hrest⟩
  | succ count ih =>
    simp only [readItemsAfter, reads_bind, ih, Array.toList_push]
    constructor
    · rintro ⟨x, mid, hx, xs, rfl, hout, hxs⟩
      exact ⟨x :: xs, rfl, by rw [hout, List.append_assoc]; rfl, mid, hx, hxs⟩
    · rintro ⟨xs, hlen, hout, hxs⟩
      obtain ⟨x, xs, rfl⟩ := List.exists_cons_of_length_eq_add_one hlen
      obtain ⟨mid, hx, hxs⟩ := hxs
      exact ⟨x, mid, hx, xs, by simpa using hlen, by rw [hout, List.append_assoc]; rfl, hxs⟩

theorem reads_readItems {xs : Array α} {count : ℕ} {bytes rest : List UInt8} :
    Reads (readItems count) bytes xs rest ↔ xs.size = count ∧ ReadsItems xs.toList bytes rest := by
  simp only [readItems, reads_readItemsAfter]
  constructor
  · rintro ⟨ys, rfl, hxs, hys⟩
    rw [hxs]
    exact ⟨by rw [← Array.length_toList, hxs]; rfl, hys⟩
  · rintro ⟨rfl, hxs⟩
    exact ⟨xs.toList, Array.length_toList, rfl, hxs⟩

/-! ### Levels -/

theorem reads_readLevel {cmp : α → α → Ordering} [Std.TransCmp cmp] {k p i : ℕ} {level : List α}
    {bytes rest : List UInt8} :
    Reads (readLevel cmp k p i) bytes level rest ↔
      Levels.Fits cmp k (p.testBit i) level ∧ ReadsItems level bytes rest := by
  rw [readLevel, Levels.Fits]
  cases p.testBit i with
  | false =>
    simp only [Bool.false_eq_true, if_false, reads_pure]
    constructor
    · rintro ⟨rfl, rfl⟩
      exact ⟨rfl, rfl⟩
    · rintro ⟨rfl, hrest⟩
      exact ⟨rfl, hrest⟩
  | true =>
    simp only [if_true, reads_bind, reads_readItems]
    constructor
    · rintro ⟨block, mid, ⟨hsize, hitems⟩, h⟩
      split at h
      · rename_i horder
        obtain ⟨rfl, rfl⟩ := reads_pure.mp h
        exact ⟨⟨hsize, inOrder_iff.mp horder⟩, hitems⟩
      · exact absurd h reads_throw
    · rintro ⟨⟨hlen, hsorted⟩, hitems⟩
      refine ⟨level.toArray, rest, ⟨hlen, hitems⟩, ?_⟩
      rw [if_pos (inOrder_iff.mpr hsorted)]
      exact reads_pure.mpr ⟨rfl, rfl⟩

theorem reads_readLevelsFrom {cmp : α → α → Ordering} [Std.TransCmp cmp] {k p i count : ℕ}
    {levels : List (List α)} {bytes rest : List UInt8} :
    Reads (readLevels cmp k p i count) bytes levels rest ↔
      levels.length = count
        ∧ (∀ j level, levels[j]? = some level → Levels.Fits cmp k (p.testBit (i + j)) level)
        ∧ ReadsItems levels.flatten bytes rest := by
  induction count generalizing i levels bytes rest with
  | zero =>
    simp only [readLevels, reads_pure, List.length_eq_zero_iff]
    constructor
    · rintro ⟨rfl, rfl⟩
      exact ⟨rfl, by simp, rfl⟩
    · rintro ⟨rfl, -, hrest⟩
      exact ⟨rfl, hrest⟩
  | succ count ih =>
    simp only [readLevels, reads_bind, reads_pure, reads_readLevel, ih]
    constructor
    · -- Level `i` is read first, and the others are counted from `i + 1`.
      rintro ⟨level, mid, ⟨hlevel, hitems⟩, levels, mid', ⟨rfl, hlevels, hrest⟩, rfl, rfl⟩
      refine ⟨rfl, ?_, readsItems_append.mpr ⟨mid, hitems, hrest⟩⟩
      intro j block hj
      cases j with
      | zero =>
        obtain rfl := Option.some.inj hj
        exact hlevel
      | succ j =>
        have hblock := hlevels j block hj
        rwa [Nat.add_assoc, Nat.add_comm 1] at hblock
    · rintro ⟨hlen, hlevels, hitems⟩
      obtain ⟨level, levels, rfl⟩ := List.exists_cons_of_length_eq_add_one hlen
      obtain ⟨mid, hlevel, hrest⟩ := readsItems_append.mp hitems
      refine ⟨level, mid, ⟨hlevels 0 level rfl, hlevel⟩, levels, rest,
        ⟨by simpa using hlen, ?_, hrest⟩, rfl, rfl⟩
      intro j block hj
      have hblock := hlevels (j + 1) block hj
      rwa [Nat.add_comm j, ← Nat.add_assoc] at hblock

/-- The levels of a pattern are read as one row of items. -/
theorem reads_readLevels {cmp : α → α → Ordering} [Std.TransCmp cmp] {k p : ℕ}
    {levels : List (List α)} {bytes rest : List UInt8} :
    Reads (readLevels cmp k p 0 (levelCount p)) bytes levels rest ↔
      Levels.LaidOut cmp k p levels ∧ ReadsItems levels.flatten bytes rest := by
  simp only [reads_readLevelsFrom, Nat.zero_add]
  constructor
  · rintro ⟨hlen, hlevels, hitems⟩
    exact ⟨⟨hlen, hlevels⟩, hitems⟩
  · rintro ⟨⟨hlen, hlevels⟩, hitems⟩
    exact ⟨hlen, hlevels, hitems⟩

/-! ### The preamble -/

omit [ItemCodec α] in
theorem reads_readPreamble {p : Preamble} {bytes rest : List UInt8} :
    Reads readPreamble bytes p rest ↔
      p.k < 2 ^ 16 ∧ ∃ unused : List UInt8, unused.length = 2
        ∧ bytes = [p.longs, p.version, p.family, p.flags] ++ littleEndian 2 p.k
            ++ unused ++ rest := by
  simp only [readPreamble, reads_bind, reads_pure, reads_readByte, reads_readNumber]
  constructor
  · rintro ⟨longs, _, rfl, version, _, rfl, family, _, rfl, flags, _, rfl, k, _, ⟨hk, rfl⟩,
      unused, _, ⟨-, rfl⟩, rfl, rfl⟩
    exact ⟨hk, littleEndian 2 unused, length_littleEndian 2 unused, by simp⟩
  · rintro ⟨hk, unused, hlen, rfl⟩
    -- Any two bytes are those of a number, so the unused ones are read as such.
    have hunused : littleEndian 2 (ofLittleEndian unused) = unused := by
      rw [← hlen, littleEndian_ofLittleEndian]
    have hlt : ofLittleEndian unused < 256 ^ 2 := by
      rw [← hunused, ofLittleEndian_littleEndian]
      exact Nat.mod_lt _ (by decide)
    refine ⟨_, _, rfl, _, _, rfl, _, _, rfl, _, _, rfl, _, unused ++ rest, ⟨hk, ?_⟩,
      ofLittleEndian unused, rest, ⟨hlt, ?_⟩, rfl, rfl⟩
    · exact List.append_assoc (littleEndian 2 p.k) unused rest
    · rw [hunused]

/-- What the preamble of an image of this library says about itself. -/
theorem Preamble.check_eq_ok_iff {p : Preamble} :
    p.check = .ok () ↔
      p.family = familyId ∧ p.version = formatVersion ∧ p.flags &&& ~~~Flag.all = 0
        ∧ p.has Flag.compact = true ∧ p.longs = Preamble.longsFor (p.has Flag.empty)
        ∧ Admissible p.k := by
  have hlast : (if ¬ Admissible p.k then throw (ImageFault.inadmissibleSize p.k) else pure ()
      : Except ImageFault Unit) = .ok () ↔ Admissible p.k := by
    split
    · rename_i h
      exact iff_of_false (by intro h; cases h) h
    · rename_i h
      exact iff_of_true rfl (not_not.mp h)
  rw [Preamble.check, guard_eq_ok_iff, guard_eq_ok_iff, guard_eq_ok_iff, guard_eq_ok_iff,
    guard_eq_ok_iff, hlast]
  simp only [not_not, ne_eq]

/-! ### Images -/

variable {cmp : α → α → Ordering} [Std.TransCmp cmp]

/-- Reads what comes after the count. -/
def readParts (cmp : α → α → Ordering) (k n : ℕ) : Reader (Sketch α cmp) := do
  let least ← ItemCodec.decode
  let greatest ← ItemCodec.decode
  let buffer ← readItems (bufferCount k n)
  let pattern := occupancy k n
  let levels ← readLevels cmp k pattern 0 (levelCount pattern)
  return { k, n, buffer, levels, least := some least, greatest := some greatest }

omit [Std.TransCmp cmp] in
/-- The parts are read only if there are enough bytes. -/
theorem readContents_eq (k : ℕ) :
    readContents cmp k = (do
      let n ← readNumber .count 8
      if n = 0 then
        throw .nothingCounted
      if (← get).length < retainedCount k n then
        throw (.truncated .items)
      readParts cmp k n) :=
  rfl

/-- After the count come the extremes and all that the count calls for, as one row of
items. -/
theorem reads_readParts {k n : ℕ} {s : Sketch α cmp} {bytes rest : List UInt8} :
    Reads (readParts cmp k n) bytes s rest ↔
      s.k = k ∧ s.n = n ∧ s.buffer.size = bufferCount k n
        ∧ Levels.LaidOut cmp k (occupancy k n) s.levels
        ∧ ∃ least greatest, s.least = some least ∧ s.greatest = some greatest
          ∧ ReadsItems (least :: greatest :: (s.buffer.toList ++ s.levels.flatten)) bytes rest := by
  simp only [readParts, reads_bind, reads_pure, reads_readItems, reads_readLevels, ReadsItems,
    readsItems_append]
  constructor
  · rintro ⟨least, _, hleast, greatest, _, hgreatest, buffer, _, ⟨hsize, hbuffer⟩, levels, _,
      ⟨hlaid, hlevels⟩, rfl, rfl⟩
    exact ⟨rfl, rfl, hsize, hlaid, least, greatest, rfl, rfl, _, hleast, _, hgreatest, _, hbuffer,
      hlevels⟩
  · rintro ⟨rfl, rfl, hsize, hlaid, least, greatest, hsl, hsg, _, hleast, _, hgreatest, _, hbuffer,
      hlevels⟩
    refine ⟨least, _, hleast, greatest, _, hgreatest, s.buffer, _, ⟨hsize, hbuffer⟩, s.levels, _,
      ⟨hlaid, hlevels⟩, ?_, rfl⟩
    rw [← hsl, ← hsg]

omit [Std.TransCmp cmp] in
/-- The image of a sketch that has seen something: a count, and then its parts, for which
there have to be enough bytes. -/
theorem reads_readContents {k : ℕ} {s : Sketch α cmp} {bytes rest : List UInt8} :
    Reads (readContents cmp k) bytes s rest ↔
      ∃ n mid, Reads (readNumber .count 8) bytes n mid ∧ n ≠ 0 ∧ retainedCount k n ≤ mid.length
        ∧ Reads (readParts cmp k n) mid s rest := by
  simp only [readContents_eq, reads_bind, reads_guard, reads_get]
  constructor
  · rintro ⟨n, mid, hcount, hn, _, _, ⟨rfl, rfl⟩, hlen, hparts⟩
    exact ⟨n, _, hcount, hn, Nat.le_of_not_lt hlen, hparts⟩
  · rintro ⟨n, mid, hcount, hn, hlen, hparts⟩
    exact ⟨n, mid, hcount, hn, mid, mid, ⟨rfl, rfl⟩, Nat.not_lt.mpr hlen, hparts⟩

omit [Std.TransCmp cmp] in
/-- An image is a preamble that passes its check, and unless this says that the sketch
is empty, its contents. -/
theorem reads_readSketch {s : Sketch α cmp} {bytes rest : List UInt8} :
    Reads (readSketch cmp) bytes s rest ↔
      ∃ p mid, Reads readPreamble bytes p mid ∧ p.check = .ok ()
        ∧ if p.has Flag.empty then s = .empty p.k ∧ rest = mid
          else Reads (readContents cmp p.k) mid s rest := by
  simp only [readSketch, reads_bind, reads_liftM]
  constructor
  · rintro ⟨p, mid, hp, _, _, ⟨hcheck, rfl⟩, h⟩
    refine ⟨p, _, hp, hcheck, ?_⟩
    split at h
    · rename_i hempty
      rw [if_pos hempty]
      exact reads_pure.mp h
    · rename_i hfull
      rw [if_neg hfull]
      exact h
  · rintro ⟨p, mid, hp, hcheck, h⟩
    refine ⟨p, mid, hp, (), mid, ⟨hcheck, rfl⟩, ?_⟩
    split at h
    · rename_i hempty
      rw [if_pos hempty]
      exact reads_pure.mpr h
    · rename_i hfull
      rw [if_neg hfull]
      exact h

end Image

namespace Sketch

variable {α : Type} {cmp : α → α → Ordering} [Image.ItemCodec α]

theorem decode?_eq_ok_iff {s : Sketch α cmp} {bytes : List UInt8} :
    decode? bytes = .ok s ↔ ∃ rest, Image.Reads (Image.readSketch cmp) bytes s rest := by
  rw [decode?]
  simp only [Image.Reads]
  cases (Image.readSketch cmp).run bytes with
  | error fault => simp
  | ok read => simp [Prod.ext_iff]

/-- A sketch that was read from bytes is sound, whatever the bytes were. -/
theorem sound_of_decode? [Std.TransCmp cmp] {s : Sketch α cmp} {bytes : List UInt8}
    (h : decode? bytes = .ok s) : s.Sound := by
  obtain ⟨rest, hread⟩ := decode?_eq_ok_iff.mp h
  obtain ⟨p, mid, -, hcheck, hcontents⟩ := Image.reads_readSketch.mp hread
  have hsize : Admissible p.k := (Image.Preamble.check_eq_ok_iff.mp hcheck).2.2.2.2.2
  split at hcontents
  · rw [hcontents.1]
    exact Sound.empty hsize
  · obtain ⟨n, mid, -, hpos, -, hparts⟩ := Image.reads_readContents.mp hcontents
    obtain ⟨hk, rfl, hbuffer, hlevels, least, greatest, hleast, hgreatest, -⟩ :=
      Image.reads_readParts.mp hparts
    rw [← hk] at hsize hbuffer hlevels
    have hn : 0 < s.n := Nat.pos_of_ne_zero hpos
    exact ⟨hsize, hbuffer, hlevels, by simp [hleast, hn], by simp [hgreatest, hn]⟩

end Sketch

end QuantileSketch
