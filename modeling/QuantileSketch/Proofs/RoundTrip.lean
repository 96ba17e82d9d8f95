/-
Reading back what was written.

The image of a sound sketch whose items can be read back is read as the same sketch,
but for the order of its buffer, and whatever follows the image is left
(`Sketch.Sound.reads_encode`, `Sketch.Sound.decode?_encode`).  The image is as long as it
is said to be (`Sketch.Sound.length_encode`), and writing what was read gives it again
(`Sketch.encode_rewritten`).

* `Sketch.Reachable.round_trip` — all of this for reachable sketches of any type of items.
-/
import QuantileSketch.Proofs.Codec
import QuantileSketch.Proofs.Reachable
import QuantileSketch.Proofs.StableSort

namespace QuantileSketch

namespace Image

/-! ### The preamble -/

theorem has_empty_ofSketch (k : ℕ) (isEmpty isOrdered : Bool) :
    (Preamble.ofSketch k isEmpty isOrdered).has Flag.empty = isEmpty := by
  have hall : ∀ e o, (Preamble.ofSketch 0 e o).has Flag.empty = e := by decide
  exact hall isEmpty isOrdered

theorem check_ofSketch {k : ℕ} (hk : Admissible k) (isEmpty isOrdered : Bool) :
    (Preamble.ofSketch k isEmpty isOrdered).check = .ok () := by
  have hflags : ∀ e o, (Preamble.ofSketch 0 e o).flags &&& ~~~Flag.all = 0
      ∧ (Preamble.ofSketch 0 e o).has Flag.compact = true := by decide
  refine Preamble.check_eq_ok_iff.mpr ⟨rfl, rfl, (hflags isEmpty isOrdered).1,
    (hflags isEmpty isOrdered).2, ?_, hk⟩
  rw [has_empty_ofSketch]
  rfl

theorem reads_encode_preamble {p : Preamble} (hk : p.k < 2 ^ 16) (rest : List UInt8) :
    Reads readPreamble (p.encode ++ rest) p rest :=
  reads_readPreamble.mpr ⟨hk, littleEndian 2 0, length_littleEndian 2 0, rfl⟩

end Image

namespace Sketch

variable {α : Type} {cmp : α → α → Ordering}

/-! ### The buffer as it is written -/

/-- The sketch with its buffer as it is written. -/
def rewritten (ordered : Bool) (s : Sketch α cmp) : Sketch α cmp :=
  { s with buffer := (s.writtenBuffer ordered).toArray }

theorem writtenBuffer_perm (ordered : Bool) (s : Sketch α cmp) :
    (s.writtenBuffer ordered).Perm s.buffer.toList := by
  cases ordered with
  | false => exact List.Perm.refl _
  | true => exact sortBy_perm cmp _

theorem rewritten_empty (ordered : Bool) (k : ℕ) :
    (empty k : Sketch α cmp).rewritten ordered = empty k := by
  cases ordered with
  | false => rfl
  | true =>
    have hnil : sortBy cmp ([] : List α) = [] := List.mergeSort_nil
    rw [rewritten, writtenBuffer, if_pos rfl]
    show ({ k, buffer := (sortBy cmp []).toArray } : Sketch α cmp) = _
    rw [hnil]
    rfl

/-! ### The size of an image -/

variable [Image.ItemCodec α]

/-- A sorted buffer is written as it is, sorted or not. -/
theorem encode_rewritten [Std.TransCmp cmp] (s : Sketch α cmp) :
    (s.rewritten true).encode true = s.encode true := by
  have hbuffer : (s.rewritten true).writtenBuffer true = s.writtenBuffer true := by
    show sortBy cmp (sortBy cmp s.buffer.toList).toArray.toList = sortBy cmp s.buffer.toList
    rw [List.toList_toArray, sortBy_sortBy]
  rw [encode, hbuffer]
  rfl

theorem length_encode_preamble (p : Image.Preamble) : p.encode.length = Image.emptySize := by
  simp [Image.Preamble.encode, Image.emptySize]

variable [Image.LawfulItemCodec α]

theorem length_encodeExtremes (least greatest : α) :
    (Image.encodeExtremes (some least) (some greatest)).length
      = Image.sizeOfItems (some least).toList + Image.sizeOfItems (some greatest).toList := by
  rw [Image.encodeExtremes, List.length_append, Image.LawfulItemCodec.length_encode,
    Image.LawfulItemCodec.length_encode]
  rfl

/-- The image of a sketch has the size that the sketch says. -/
theorem Sound.length_encode {s : Sketch α cmp} (h : s.Sound) (ordered : Bool) :
    (s.encode ordered).length = s.encodedSize := by
  rw [encode, encodedSize]
  cases hempty : s.isEmpty with
  | true => exact length_encode_preamble _
  | false =>
    have hpos : 0 < s.n := Nat.pos_of_ne_zero (of_decide_eq_false hempty)
    obtain ⟨least, greatest, hleast, hgreatest⟩ := h.exists_extremes hpos
    rw [if_neg Bool.false_ne_true, if_neg Bool.false_ne_true, hleast, hgreatest]
    simp only [List.length_append, length_encode_preamble, Image.length_littleEndian,
      length_encodeExtremes, Image.length_encodeItems,
      Image.sizeOfItems_eq_of_perm (writtenBuffer_perm ordered s), Image.emptySize,
      Image.itemsStart]
    omega

/-! ### Images that are read back -/

/-- Everything that the sketch holds can be read back. -/
def Encodable (s : Sketch α cmp) : Prop :=
  ∀ x ∈ s.least.toList ++ s.greatest.toList ++ s.buffer.toList ++ s.levels.flatten,
    Image.LawfulItemCodec.Encodable x

/-- The parts of a sketch that has seen something are read back. -/
theorem Sound.reads_parts [Std.TransCmp cmp] {s : Sketch α cmp} (h : s.Sound)
    (hitems : s.Encodable) (hpos : 0 < s.n) (ordered : Bool) (rest : List UInt8) :
    Image.Reads (Image.readParts cmp s.k s.n)
      (Image.encodeExtremes s.least s.greatest ++ Image.encodeItems (s.writtenBuffer ordered)
        ++ Image.encodeItems s.levels.flatten ++ rest)
      (s.rewritten ordered) rest := by
  obtain ⟨least, greatest, hleast, hgreatest⟩ := h.exists_extremes hpos
  have hperm := writtenBuffer_perm ordered s
  -- Extremes, buffer and levels are one row of items, in the image and when it is read.
  obtain ⟨items, hdef⟩ : ∃ items,
      items = least :: greatest :: (s.writtenBuffer ordered ++ s.levels.flatten) := ⟨_, rfl⟩
  have hbytes : Image.encodeExtremes s.least s.greatest
      ++ Image.encodeItems (s.writtenBuffer ordered) ++ Image.encodeItems s.levels.flatten
      = Image.encodeItems items := by
    simp [hdef, hleast, hgreatest, Image.encodeExtremes, Image.encodeItems]
  have hread : Image.ReadsItems items (Image.encodeItems items ++ rest) rest := by
    refine Image.readsItems_iff.mpr ⟨fun x hx => hitems x ?_, rfl⟩
    simp only [hdef, hleast, hgreatest, Option.toList_some, List.mem_cons, List.mem_append,
      hperm.mem_iff] at hx ⊢
    tauto
  have hsize : (s.rewritten ordered).buffer.size = bufferCount s.k s.n := by
    show (s.writtenBuffer ordered).toArray.size = _
    rw [List.size_toArray, hperm.length_eq, Array.length_toList, h.buffer]
  rw [hbytes]
  exact Image.reads_readParts.mpr
    ⟨rfl, rfl, hsize, h.levels, least, greatest, hleast, hgreatest, hdef ▸ hread⟩

/-- The contents of a sketch that has seen something are read back. -/
theorem Sound.reads_contents [Std.TransCmp cmp] {s : Sketch α cmp} (h : s.Sound)
    (hitems : s.Encodable) (hpos : 0 < s.n) (hn : s.n < 2 ^ 64) (ordered : Bool)
    (rest : List UInt8) :
    Image.Reads (Image.readContents cmp s.k)
      (Image.littleEndian 8 s.n ++ Image.encodeExtremes s.least s.greatest
        ++ Image.encodeItems (s.writtenBuffer ordered) ++ Image.encodeItems s.levels.flatten
        ++ rest)
      (s.rewritten ordered) rest := by
  have hparts := h.reads_parts hitems hpos ordered rest
  have hlength := hparts.retainedCount_le h.size.pos
  simp only [List.append_assoc] at hparts hlength ⊢
  exact Image.reads_readContents.mpr
    ⟨s.n, _, Image.reads_readNumber.mpr ⟨hn, rfl⟩, Nat.ne_of_gt hpos, hlength, hparts⟩

/-- The image of a sound sketch is read as the same sketch, but for the order of its
buffer, and what comes after the image is left. -/
theorem Sound.reads_encode [Std.TransCmp cmp] {s : Sketch α cmp} (h : s.Sound)
    (hitems : s.Encodable) (hn : s.n < 2 ^ 64) (ordered : Bool) (rest : List UInt8) :
    Image.Reads (Image.readSketch cmp) (s.encode ordered ++ rest) (s.rewritten ordered) rest := by
  have hk : s.k < 2 ^ 16 := Nat.lt_of_le_of_lt h.size.2.1 (by decide)
  rw [encode]
  by_cases hzero : s.n = 0
  · have hempty : s.isEmpty = true := decide_eq_true hzero
    have hsame : s.rewritten ordered = Sketch.empty s.k := by
      rw [h.eq_empty hzero]
      exact rewritten_empty ordered s.k
    rw [hempty, if_pos rfl, hsame]
    refine Image.reads_readSketch.mpr ⟨_, rest, Image.reads_encode_preamble hk rest,
      Image.check_ofSketch h.size _ _, ?_⟩
    rw [Image.has_empty_ofSketch, if_pos rfl]
    exact ⟨rfl, rfl⟩
  · have hfull : s.isEmpty = false := decide_eq_false hzero
    rw [hfull, if_neg Bool.false_ne_true]
    simp only [List.append_assoc]
    refine Image.reads_readSketch.mpr ⟨_, _, Image.reads_encode_preamble hk _,
      Image.check_ofSketch h.size _ _, ?_⟩
    rw [Image.has_empty_ofSketch, if_neg Bool.false_ne_true]
    have hcontents := h.reads_contents hitems (Nat.pos_of_ne_zero hzero) hn ordered rest
    show Image.Reads (Image.readContents cmp s.k) _ _ _
    simpa only [List.append_assoc] using hcontents

theorem Sound.decode?_encode [Std.TransCmp cmp] {s : Sketch α cmp} (h : s.Sound)
    (hitems : s.Encodable) (hn : s.n < 2 ^ 64) (ordered : Bool) :
    decode? (s.encode ordered) = .ok (s.rewritten ordered) := by
  have hreads := h.reads_encode hitems hn ordered []
  rw [List.append_nil] at hreads
  exact decode?_eq_ok_iff.mpr ⟨[], hreads⟩

/-- **Reading undoes writing.**  The image of a reachable sketch is read as the same
sketch.  The image with a sorted buffer is read as the sketch with its buffer stably
sorted, which has this very image.  Images have the size that the sketch says. -/
theorem Reachable.round_trip {t : Image.ItemType} {cmp : t.Item → t.Item → Ordering}
    [Std.TransCmp cmp] {s : Sketch t.Item cmp} (hs : s.Reachable) (hn : s.n < 2 ^ 64)
    (hitems : s.Encodable) :
    decode? (s.encode false) = .ok s
      ∧ (∃ sorted : Sketch t.Item cmp, decode? (s.encode true) = .ok sorted
          ∧ sorted = { s with buffer := sorted.buffer }
          ∧ StablySorts cmp s.buffer.toList sorted.buffer.toList
          ∧ sorted.encode true = s.encode true)
      ∧ ∀ ordered, (s.encode ordered).length = s.encodedSize := by
  have hsound := hs.sound
  refine ⟨hsound.decode?_encode hitems hn false, ⟨s.rewritten true,
    hsound.decode?_encode hitems hn true, rfl, ?_, encode_rewritten s⟩, hsound.length_encode⟩
  show StablySorts cmp s.buffer.toList (sortBy cmp s.buffer.toList).toArray.toList
  rw [List.toList_toArray]
  exact sortBy_stablySorts s.buffer.toList

/-- A sketch of texts, which are compared by their lengths. -/
def ofSeven : Sketch String byEncodedLength where
  k := 2
  n := 7
  buffer := #["bb", "a", "ab"]
  levels := [["x", "yy"]]
  least := some "x"
  greatest := some "yy"

theorem ofSeven_mem_updateAll :
    ofSeven ∈ (empty 2).updateAll ["x", "z", "yy", "ww", "bb", "a", "ab"] := by
  have hsorted : sortBy byEncodedLength ["x", "z", "yy", "ww"] = ["x", "z", "yy", "ww"] := by
    refine sortBy_of_sorted ?_
    rw [Sorted]
    decide
  have hlevels : [["x", "yy"]] ∈ Levels.carryAt byEncodedLength 0 []
      (everyNth 2 0 (sortBy byEncodedLength ["x", "z", "yy", "ww"])) := by
    rw [hsorted]
    rfl
  refine mem_updateAll_cons.mpr ⟨_, mem_update.mpr (.inl ⟨by decide, rfl⟩), ?_⟩
  refine mem_updateAll_cons.mpr ⟨_, mem_update.mpr (.inl ⟨by decide, rfl⟩), ?_⟩
  refine mem_updateAll_cons.mpr ⟨_, mem_update.mpr (.inl ⟨by decide, rfl⟩), ?_⟩
  refine mem_updateAll_cons.mpr ⟨_, mem_update.mpr (.inr ⟨by decide,
    mem_compact.mpr ⟨0, [["x", "yy"]], hlevels, rfl⟩⟩), ?_⟩
  refine mem_updateAll_cons.mpr ⟨_, mem_update.mpr (.inl ⟨by decide, rfl⟩), ?_⟩
  refine mem_updateAll_cons.mpr ⟨_, mem_update.mpr (.inl ⟨by decide, rfl⟩), ?_⟩
  exact mem_updateAll_cons.mpr ⟨_, mem_update.mpr (.inl ⟨by decide, rfl⟩), rfl⟩

theorem Reachable.round_trip_ofSeven :
    ofSeven.Reachable ∧ ofSeven.n < 2 ^ 64 ∧ ofSeven.Encodable
      ∧ decode? (ofSeven.encode false) = .ok ofSeven
      ∧ decode? (ofSeven.encode true)
          = .ok ({ ofSeven with buffer := #["a", "bb", "ab"] } : Sketch String byEncodedLength)
      ∧ (ofSeven.encode true).length = 55 := by
  have hreachable : ofSeven.Reachable :=
    (Reachable.ofSize (k := 2) rfl).updateAll ofSeven_mem_updateAll
  have hn : ofSeven.n < 2 ^ 64 := by decide
  have hitems : ofSeven.Encodable := by
    simp only [Encodable, Image.LawfulItemCodec.Encodable]
    decide
  have hsorted : sortBy byEncodedLength ["bb", "a", "ab"] = ["a", "bb", "ab"] := by
    have hx : Sorted byEncodedLength ["bb"] := List.pairwise_singleton _ _
    have hy : Sorted byEncodedLength ["a", "ab"] := by
      rw [Sorted]
      decide
    refine (mergeBy_eq_sortBy hx hy).symm.trans ?_
    simp only [mergeBy, List.merge]
    rfl
  obtain ⟨hread, ⟨sorted, hordered, hsame, hstable, -⟩, hlength⟩ :=
    Reachable.round_trip (t := .text) hreachable hn hitems
  have hbuffer : sorted.buffer = #["a", "bb", "ab"] := by
    rw [← Array.toList_inj, (sortBy_stablySorts _).eq hstable |>.symm]
    exact hsorted
  rw [hbuffer] at hsame
  exact ⟨hreachable, hn, hitems, hread, hsame ▸ hordered, hlength true⟩

end Sketch

end QuantileSketch
