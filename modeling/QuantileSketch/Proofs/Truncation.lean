/-
Images that are cut short or followed by other bytes.

A reader is `Steady` if bytes that come later do not change what it has made of the bytes
before them: what was read is read again, and a fault stays the same fault, unless it was
that the bytes end.  Every reader here is steady, on all bytes.

* `Steady.bind`, `Steady.ite`, `Steady.demanding` — readers made of steady readers;
* `steady_readPreamble`, `steady_readItems`, `steady_readLevels`, `steady_readContents`,
  `steady_readSketch` — the readers of images;
* `Steady.truncated` — what is read whole is not read from less, and the fault is that the
  bytes end;
* `Sketch.decode?_append`, `Sketch.decode?_append_error` — any bytes, read or refused, when
  more bytes follow;
* `Sketch.Reachable.selfDelimiting` — the images of reachable sketches.

Design notes: an early check that there are enough bytes asks how many there are in all, so
it is steady only because its fault is a truncation.  Nothing need be known of the form of
an image but that it is read back.
-/
import QuantileSketch.Proofs.RoundTrip

namespace QuantileSketch

namespace Image

variable {α β γ : Type}

/-- The reader finds a fault in the bytes. -/
def Fails (r : Reader β) (bytes : List UInt8) (fault : ImageFault) : Prop :=
  r.run bytes = .error fault

theorem reads_or_fails (r : Reader β) (bytes : List UInt8) :
    (∃ v rest, Reads r bytes v rest) ∨ ∃ fault, Fails r bytes fault := by
  simp only [Reads, Fails]
  cases r.run bytes with
  | ok read => exact .inl ⟨read.1, read.2, rfl⟩
  | error fault => exact .inr ⟨fault, rfl⟩

theorem Reads.not_fails {r : Reader β} {bytes rest : List UInt8} {v : β} {fault : ImageFault}
    (h : Reads r bytes v rest) : ¬ Fails r bytes fault := by
  intro hfails
  cases h.symm.trans hfails

theorem fails_bind {r : Reader β} {f : β → Reader γ} {bytes : List UInt8} {fault : ImageFault} :
    Fails (r >>= f) bytes fault ↔
      Fails r bytes fault ∨ ∃ v mid, Reads r bytes v mid ∧ Fails (f v) mid fault := by
  rw [Fails, StateT.run_bind]
  cases hr : r.run bytes with
  | error first => simp [Fails, Reads, hr, bind, Except.bind]
  | ok read =>
    constructor
    · exact fun h => .inr ⟨read.1, read.2, hr, h⟩
    · rintro (h | ⟨v, mid, hv, h⟩)
      · exact absurd h (Reads.not_fails hr)
      · obtain rfl : read = (v, mid) := Except.ok.inj (hr.symm.trans hv)
        exact h

/-- Bytes that come later do not change what the reader has made of those before them. -/
structure Steady (r : Reader β) : Prop where
  /-- What was read is read again, and what was left is left in front of what comes later. -/
  reads {bytes rest : List UInt8} {v : β} (h : Reads r bytes v rest) (more : List UInt8) :
    Reads r (bytes ++ more) v (rest ++ more)
  /-- A fault is found again, unless it is that the bytes end. -/
  fails {bytes : List UInt8} {fault : ImageFault} (h : Fails r bytes fault)
    (hfault : ∀ part, fault ≠ .truncated part) (more : List UInt8) : Fails r (bytes ++ more) fault

/-- What a steady reader reads from all the bytes it does not read from fewer, and what it
finds at fault is that these end. -/
theorem Steady.truncated {r : Reader β} (hr : Steady r) {image : List UInt8} {v : β}
    (hread : Reads r image v []) {cut : List UInt8} (hcut : cut <+: image) (hne : cut ≠ image) :
    ∃ part, Fails r cut (.truncated part) := by
  obtain ⟨more, rfl⟩ := hcut
  have hmore : more ≠ [] := by
    rintro rfl
    exact hne (List.append_nil cut).symm
  obtain ⟨w, rest, hw⟩ | ⟨fault, hfails⟩ := reads_or_fails r cut
  · -- Then `more` would be left over when all the bytes are read.
    have hall : Except.ok (v, []) = Except.ok (w, rest ++ more) :=
      hread.symm.trans (hr.reads hw more)
    have hnil : [] = rest ++ more := (Prod.mk.inj (Except.ok.inj hall)).2
    exact absurd (List.append_eq_nil_iff.mp hnil.symm).2 hmore
  · by_contra hno
    refine hread.not_fails (hr.fails hfails ?_ more)
    rintro part rfl
    exact hno ⟨part, hfails⟩

/-! ### Readers in a row -/

theorem steady_pure (v : β) : Steady (pure v : Reader β) where
  reads h more := by
    obtain ⟨rfl, rfl⟩ := reads_pure.mp h
    exact reads_pure.mpr ⟨rfl, rfl⟩
  fails h := by cases h

theorem steady_liftM (x : Except ImageFault β) : Steady (liftM x : Reader β) where
  reads h more := by
    obtain ⟨hx, rfl⟩ := reads_liftM.mp h
    exact reads_liftM.mpr ⟨hx, rfl⟩
  fails h _ more := by
    cases x with
    | error first =>
      cases h
      rfl
    | ok v => cases h

theorem steady_throw (fault : ImageFault) : Steady (throw fault : Reader β) :=
  steady_liftM (.error fault)

theorem Steady.bind {r : Reader β} {f : β → Reader γ} (hr : Steady r) (hf : ∀ v, Steady (f v)) :
    Steady (r >>= f) where
  reads h more := by
    obtain ⟨v, mid, hv, hw⟩ := reads_bind.mp h
    exact reads_bind.mpr ⟨v, mid ++ more, hr.reads hv more, (hf v).reads hw more⟩
  fails h hfault more := by
    obtain hfirst | ⟨v, mid, hv, hlast⟩ := fails_bind.mp h
    · exact fails_bind.mpr (.inl (hr.fails hfirst hfault more))
    · exact fails_bind.mpr
        (.inr ⟨v, mid ++ more, hr.reads hv more, (hf v).fails hlast hfault more⟩)

theorem Steady.ite {c : Prop} [Decidable c] {r r' : Reader β} (hr : Steady r) (hr' : Steady r') :
    Steady (if c then r else r') := by
  split
  · exact hr
  · exact hr'

/-- A reader stays steady if it is only begun with enough bytes ahead. -/
theorem Steady.demanding {next : Reader β} (hnext : Steady next) (part : ImagePart) (count : ℕ) :
    Steady (do
      if (← get).length < count then
        throw (.truncated part)
      next : Reader β) where
  reads {bytes rest v} h more := by
    simp only [reads_bind, reads_guard, reads_get] at h ⊢
    obtain ⟨_, _, ⟨rfl, rfl⟩, hlen, hread⟩ := h
    refine ⟨_, _, ⟨rfl, rfl⟩, ?_, hnext.reads hread more⟩
    rw [List.length_append]
    omega
  fails {bytes fault} h hfault more := by
    obtain hget | ⟨_, _, hget, hlast⟩ := fails_bind.mp h
    · cases hget
    obtain ⟨rfl, rfl⟩ := reads_get.mp hget
    refine fails_bind.mpr (.inr ⟨_, _, reads_get.mpr ⟨rfl, rfl⟩, ?_⟩)
    dsimp only at hlast ⊢
    split at hlast
    · cases hlast
      exact absurd rfl (hfault part)
    · rename_i hlen
      rw [if_neg (by rw [List.length_append]; omega)]
      exact hnext.fails hlast hfault more

/-! ### Bytes, numbers and items -/

theorem steady_readBytes (part : ImagePart) (count : ℕ) : Steady (readBytes part count) where
  reads h more := by
    obtain ⟨hlen, rfl⟩ := reads_readBytes.mp h
    exact reads_readBytes.mpr ⟨hlen, List.append_assoc _ _ _⟩
  fails {bytes fault} h hfault := by
    change (if (bytes.take count).length = count then
      (Except.ok (bytes.take count, bytes.drop count) : Except ImageFault _)
        else .error (.truncated part)) = .error fault at h
    split at h
    · cases h
    · cases h
      exact absurd rfl (hfault part)

theorem steady_readNumber (part : ImagePart) (width : ℕ) : Steady (readNumber part width) :=
  (steady_readBytes part width).bind fun _ => steady_pure _

theorem steady_readByte (part : ImagePart) : Steady (readByte part) :=
  (steady_readNumber part 1).bind fun _ => steady_pure _

/-- Items of every type are read steadily.  A text is only looked at when all of its bytes
are there, so one that is cut short is not taken for one that is no UTF-8. -/
theorem steady_decode (t : ItemType) : Steady (ItemCodec.decode : Reader t.Item) := by
  cases t with
  | integer => exact (steady_readNumber .integer 8).bind fun _ => steady_pure _
  | binary64 => exact (steady_readNumber .binary64 8).bind fun _ => steady_pure _
  | binary32 => exact (steady_readNumber .binary32 4).bind fun _ => steady_pure _
  | text =>
    exact (steady_readNumber .textLength 4).bind fun size =>
      (steady_readBytes .textBytes size).bind fun bytes => steady_liftM (textOfBytes bytes)

variable [ItemCodec α] (hitem : Steady (ItemCodec.decode : Reader α))
include hitem

theorem steady_readItemsAfter (read : Array α) (count : ℕ) :
    Steady (readItemsAfter read count) := by
  induction count generalizing read with
  | zero => exact steady_pure read
  | succ count ih => exact hitem.bind fun x => ih (read.push x)

theorem steady_readItems (count : ℕ) : Steady (readItems count : Reader (Array α)) :=
  steady_readItemsAfter hitem #[] count

/-! ### Levels and images -/

variable (cmp : α → α → Ordering)

/-- A block is only looked at when all of its items are there. -/
theorem steady_readLevel (k p i : ℕ) : Steady (readLevel cmp k p i) :=
  ((steady_readItems hitem k).bind fun _ => (steady_pure _).ite (steady_throw _)).ite
    (steady_pure [])

theorem steady_readLevels (k p i count : ℕ) : Steady (readLevels cmp k p i count) := by
  induction count generalizing i with
  | zero => exact steady_pure []
  | succ count ih =>
    exact (steady_readLevel hitem cmp k p i).bind fun _ => (ih (i + 1)).bind fun _ => steady_pure _

theorem steady_readParts (k n : ℕ) : Steady (readParts cmp k n) :=
  hitem.bind fun _ => hitem.bind fun _ => (steady_readItems hitem _).bind fun _ =>
    (steady_readLevels hitem cmp k _ 0 _).bind fun _ => steady_pure _

theorem steady_readContents (k : ℕ) : Steady (readContents cmp k) := by
  rw [readContents_eq]
  refine (steady_readNumber .count 8).bind fun n => ?_
  have hparts := (steady_readParts hitem cmp k n).demanding .items (retainedCount k n)
  exact ((steady_throw .nothingCounted).bind fun _ => hparts).ite hparts

omit [ItemCodec α] hitem in
theorem steady_readPreamble : Steady readPreamble :=
  (steady_readByte _).bind fun _ => (steady_readByte _).bind fun _ =>
    (steady_readByte _).bind fun _ => (steady_readByte _).bind fun _ =>
      (steady_readNumber _ 2).bind fun _ => (steady_readNumber _ 2).bind fun _ => steady_pure _

/-- Images are read steadily.  The preamble is only looked at when all of it is there. -/
theorem steady_readSketch : Steady (readSketch cmp) :=
  steady_readPreamble.bind fun p => (steady_liftM p.check).bind fun _ =>
    (steady_pure _).ite (steady_readContents hitem cmp p.k)

end Image

namespace Sketch

open Image

variable {t : ItemType} {cmp : t.Item → t.Item → Ordering}

/-- Bytes after those that were read as a sketch make no difference. -/
theorem decode?_append {s : Sketch t.Item cmp} {bytes : List UInt8} (h : decode? bytes = .ok s)
    (more : List UInt8) : decode? (bytes ++ more) = .ok s := by
  obtain ⟨rest, hread⟩ := decode?_eq_ok_iff.mp h
  exact decode?_eq_ok_iff.mpr ⟨_, (steady_readSketch (steady_decode t) cmp).reads hread more⟩

/-- Nor do they if the bytes were refused, unless it was because they end. -/
theorem decode?_append_error {bytes : List UInt8} {fault : ImageFault}
    (h : (decode? bytes : Except Fault (Sketch t.Item cmp)) = .error (.image fault))
    (hfault : ∀ part, fault ≠ .truncated part) (more : List UInt8) :
    (decode? (bytes ++ more) : Except Fault (Sketch t.Item cmp)) = .error (.image fault) := by
  obtain ⟨v, rest, hread⟩ | ⟨found, hfails⟩ := reads_or_fails (readSketch cmp) bytes
  · cases h.symm.trans (decode?_eq_ok_iff.mpr ⟨rest, hread⟩)
  · have hfound : decode? bytes = (.error (.image found) : Except Fault (Sketch t.Item cmp)) := by
      rw [decode?, hfails]
    obtain rfl : fault = found :=
      Fault.image.inj (Except.error.inj (h.symm.trans hfound))
    rw [decode?, (steady_readSketch (steady_decode t) cmp).fails hfails hfault more]

/-- **Images are self-delimiting.**  Of the image of a reachable sketch, with its buffer
sorted or not, no proper prefix is read, and the fault is always that the bytes end.  With
any bytes after it, it is read as the same sketch as without them. -/
theorem Reachable.selfDelimiting [Std.TransCmp cmp] {s : Sketch t.Item cmp} (hs : s.Reachable)
    (hn : s.n < 2 ^ 64) (hitems : s.Encodable) (ordered : Bool) :
    (∀ cut, cut <+: s.encode ordered → cut ≠ s.encode ordered →
        ∃ (fault : Fault) (part : ImagePart),
          (decode? cut : Except Fault (Sketch t.Item cmp)) = .error fault
            ∧ fault.kind = .malformedImage
            ∧ fault.message = "insufficient data while reading " ++ part.name)
      ∧ ∃ read : Sketch t.Item cmp, decode? (s.encode ordered) = .ok read
          ∧ ∀ more, decode? (s.encode ordered ++ more) = .ok read := by
  have hread := hs.sound.reads_encode hitems hn ordered []
  rw [List.append_nil] at hread
  refine ⟨fun cut hcut hne => ?_, s.rewritten ordered, decode?_eq_ok_iff.mpr ⟨[], hread⟩,
    decode?_append (decode?_eq_ok_iff.mpr ⟨[], hread⟩)⟩
  obtain ⟨part, hfails⟩ :=
    (steady_readSketch (steady_decode t) cmp).truncated hread hcut hne
  refine ⟨.image (.truncated part), part, ?_, rfl, ?_⟩
  · rw [decode?, hfails]
  · rfl

/-- The first 18 bytes end within the length of a text. -/
theorem Reachable.selfDelimiting_ofSeven :
    ofSeven.Reachable ∧ ofSeven.n < 2 ^ 64 ∧ ofSeven.Encodable
      ∧ (∃ (fault : Fault) (part : ImagePart),
          (decode? ((ofSeven.encode true).take 18) : Except Fault (Sketch String byEncodedLength))
              = .error fault
            ∧ fault.kind = .malformedImage
            ∧ fault.message = "insufficient data while reading " ++ part.name)
      ∧ ∃ read : Sketch String byEncodedLength, decode? (ofSeven.encode true) = .ok read
          ∧ decode? (ofSeven.encode true ++ [0, 255]) = .ok read := by
  have hreachable : ofSeven.Reachable :=
    (Reachable.ofSize (k := 2) rfl).updateAll ofSeven_mem_updateAll
  have hn : ofSeven.n < 2 ^ 64 := by decide
  have hitems : ofSeven.Encodable := by
    simp only [Encodable, LawfulItemCodec.Encodable]
    decide
  have hlength : (ofSeven.encode true).length = 55 := hreachable.sound.length_encode true
  obtain ⟨hcut, read, hread, hmore⟩ :=
    Reachable.selfDelimiting (t := .text) hreachable hn hitems true
  refine ⟨hreachable, hn, hitems, hcut _ (List.take_prefix 18 _) fun hsame => ?_, read, hread,
    hmore _⟩
  have hshort := congrArg List.length hsame
  rw [List.length_take, hlength] at hshort
  omega

end Sketch

end QuantileSketch
