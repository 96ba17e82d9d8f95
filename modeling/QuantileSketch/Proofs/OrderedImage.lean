/-
Going through an ordered image.

An ordered image holds the buffer sorted, so the sketch that is read from it is not the one
that was written.  It is alike, though, and from the same source it stays so whatever is
done to both of them:

* `Step`, `LiveSketch.steps` — operations in a row, with the events noted on the way;
* `LiveSketch.Alike.step`, `LiveSketch.Alike.steps` — live sketches that are alike, after one
  operation and after all of them;
* `Sketch.Reachable.ordered_image` — a sketch that went through an ordered image cannot be
  told from one that did not.

Design notes: merged sketches must not have a smaller block size, which `Step.Keeps` says;
the block size is then the same all the time, so this is a condition on each operation.
-/
import QuantileSketch.Proofs.Lockstep
import QuantileSketch.Random.XorShift

open QuantileSketch.Randomized

namespace QuantileSketch

variable {α : Type} {cmp : α → α → Ordering}

/-- An operation on a sketch. -/
inductive Step (α : Type) (cmp : α → α → Ordering)
  /-- Adds an item of the stream. -/
  | update (x : α)
  /-- Merges another sketch. -/
  | merge (other : Sketch α cmp)
  /-- Forgets the stream. -/
  | reset

/-- A sketch that is merged can come about, and has no smaller block size than `k`. -/
def Step.Keeps (k : ℕ) : Step α cmp → Prop
  | .merge other => other.Reachable ∧ k ≤ other.k
  | _ => True

namespace LiveSketch

variable {ρ : Type} [RandomSource ρ]

/-- The sketch after an operation, and the events noted on the way. -/
def step (s : LiveSketch α cmp ρ) :
    Step α cmp → Except Fault (LiveSketch α cmp ρ × List Event)
  | .update x => .ok (s.update x)
  | .merge other => s.merge other
  | .reset => .ok (s.reset, [])

/-- The sketch after operations in a row, and the events noted on the way. -/
def steps (s : LiveSketch α cmp ρ) :
    List (Step α cmp) → Except Fault (LiveSketch α cmp ρ × List Event)
  | [] => .ok (s, [])
  | op :: ops => do
    let (t, events) ← s.step op
    let (u, more) ← t.steps ops
    return (u, events ++ more)

/-- The sketches are alike and can come about, and their sources are the same. -/
structure Alike (s s' : LiveSketch α cmp ρ) : Prop where
  sketch : s.sketch.Alike s'.sketch
  source : s.source = s'.source
  reachable : s.sketch.Reachable
  reachable' : s'.sketch.Reachable

/-- Answering the same draws from the same source ends alike, with the same events. -/
theorem Alike.become {next next' : Randomized (Sketch α cmp)}
    (h : Related Sketch.Alike next next') (hnext : ∀ t ∈ next, t.Reachable)
    (hnext' : ∀ t ∈ next', t.Reachable) (source : ρ) :
    ∃ t t' events, LiveSketch.become source next = (t, events)
      ∧ LiveSketch.become source next' = (t', events) ∧ t.Alike t' ∧ t.sketch ∈ next := by
  obtain ⟨hsketch, hsource, hevents⟩ := h.run source
  have hmem := run_value_mem next source
  have hmem' := run_value_mem next' source
  exact ⟨_, _, _, rfl, Prod.ext rfl hevents.symm,
    ⟨hsketch, hsource, hnext _ hmem, hnext' _ hmem'⟩, hmem⟩

end LiveSketch

/-- Merging a sketch of no smaller block size does not fail, and keeps the block size. -/
theorem Sketch.Sound.exists_merge [Std.TransCmp cmp] {s other : Sketch α cmp} (hs : s.Sound)
    (hother : other.Sound) (hk : s.k ≤ other.k) :
    ∃ merged, s.merge other = .ok merged ∧ ∀ t ∈ merged, t.k = s.k := by
  by_cases hn : other.n = 0
  · refine ⟨_, merge_of_n_eq_zero s hn, fun t ht => ?_⟩
    rw [mem_done.mp ht]
  · have hmerge := merge_eq_ok hs.size hother.size hn
    refine ⟨_, hmerge, fun t ht => ?_⟩
    rw [(hs.standsFor.merge hother.standsFor hn hmerge ht).2.1, Nat.min_eq_left hk]

namespace LiveSketch

variable {ρ : Type} [RandomSource ρ]

/-- One operation. -/
theorem Alike.step [Std.TransCmp cmp] {s s' : LiveSketch α cmp ρ} (h : s.Alike s')
    {op : Step α cmp} (hop : op.Keeps s.sketch.k) :
    ∃ t t' events, s.step op = .ok (t, events) ∧ s'.step op = .ok (t', events)
      ∧ t.Alike t' ∧ t.sketch.k = s.sketch.k := by
  cases op with
  | update x =>
    obtain ⟨t, t', events, ht, ht', halike, hmem⟩ := Alike.become (h.sketch.update x)
      (fun t ht => h.reachable.update ht) (fun t ht => h.reachable'.update ht) s.source
    refine ⟨t, t', events, congrArg Except.ok ht, ?_, halike, Sketch.size_of_mem_update hmem⟩
    rw [LiveSketch.step, LiveSketch.update, ← h.source, ht']
  | merge other =>
    obtain ⟨hother, hk⟩ := hop
    obtain ⟨merged, hmerge, hsize⟩ := h.reachable.sound.exists_merge hother.sound hk
    obtain ⟨merged', hmerge', hrelated⟩ := h.sketch.merge hk hmerge
    obtain ⟨t, t', events, ht, ht', halike, hmem⟩ := Alike.become hrelated
      (fun t ht => h.reachable.merge hother hmerge ht)
      (fun t ht => h.reachable'.merge hother hmerge' ht) s.source
    refine ⟨t, t', events, ?_, ?_, halike, hsize t.sketch hmem⟩
    · rw [LiveSketch.step, LiveSketch.merge, hmerge, Except.map, ht]
    · rw [LiveSketch.step, LiveSketch.merge, hmerge', Except.map, ← h.source, ht']
  | reset =>
    have hreset : s.sketch.reset = s'.sketch.reset := by rw [h.sketch.rest]; rfl
    refine ⟨_, _, _, rfl, rfl, ⟨?_, h.source, h.reachable.reset, h.reachable'.reset⟩, rfl⟩
    show s.sketch.reset.Alike s'.sketch.reset
    rw [hreset]
    exact Sketch.Alike.refl _

/-- Operations in a row. -/
theorem Alike.steps [Std.TransCmp cmp] {s s' : LiveSketch α cmp ρ} (h : s.Alike s')
    {ops : List (Step α cmp)} (hops : ∀ op ∈ ops, op.Keeps s.sketch.k) :
    ∃ t t' events, s.steps ops = .ok (t, events) ∧ s'.steps ops = .ok (t', events)
      ∧ t.Alike t' := by
  induction ops generalizing s s' with
  | nil => exact ⟨s, s', [], rfl, rfl, h⟩
  | cons op ops ih =>
    obtain ⟨hop, hrest⟩ := List.forall_mem_cons.mp hops
    obtain ⟨t, t', events, hstep, hstep', halike, hk⟩ := h.step hop
    rw [← hk] at hrest
    obtain ⟨u, u', more, hsteps, hsteps', halike'⟩ := ih halike hrest
    refine ⟨u, u', events ++ more, ?_, ?_, halike'⟩
    · rw [LiveSketch.steps, hstep]
      show (t.steps ops >>= fun out => .ok (out.1, events ++ out.2)) = _
      rw [hsteps]
      rfl
    · rw [LiveSketch.steps, hstep']
      show (t'.steps ops >>= fun out => .ok (out.1, events ++ out.2)) = _
      rw [hsteps']
      rfl

end LiveSketch

namespace Sketch

/-- **An ordered image leaves no trace.**  The ordered image of a reachable sketch is read as
a sketch that, from the same source and after the same operations, differs from the first
one only in the order of its buffer, and in nothing that can be asked of it.  Both have the
same source left, and noted the same events; no operation fails. -/
theorem Reachable.ordered_image {t : Image.ItemType} {cmp : t.Item → t.Item → Ordering}
    [Std.TransCmp cmp] {ρ : Type} [RandomSource ρ] {s : Sketch t.Item cmp} (hs : s.Reachable)
    (hn : s.n < 2 ^ 64) (hitems : s.Encodable) (source : ρ) {ops : List (Step t.Item cmp)}
    (hops : ∀ op ∈ ops, op.Keeps s.k) :
    ∃ restored : Sketch t.Item cmp, decode? (s.encode true) = .ok restored
      ∧ ∃ u u' : LiveSketch t.Item cmp ρ, ∃ events,
        LiveSketch.steps ⟨s, source⟩ ops = .ok (u, events)
          ∧ LiveSketch.steps ⟨restored, source⟩ ops = .ok (u', events)
          ∧ u.source = u'.source
          ∧ u.sketch.Alike u'.sketch ∧ u.sketch.SameAnswers u'.sketch
          ∧ u.sketch.encode true = u'.sketch.encode true := by
  have hread := hs.sound.decode?_encode hitems hn true
  have halike : LiveSketch.Alike (ρ := ρ) ⟨s, source⟩ ⟨s.rewritten true, source⟩ :=
    ⟨alike_rewritten s, rfl, hs, .decode hread⟩
  obtain ⟨u, u', events, hsteps, hsteps', hend⟩ := halike.steps hops
  exact ⟨s.rewritten true, hread, u, u', events, hsteps, hsteps', hend.source, hend.sketch,
    hend.sketch.answers hend.reachable.sound hend.reachable'.sound, hend.sketch.encode_eq⟩

/-- An item that fills the buffer, which is not in order and holds tied items, and a merge
after it. -/
def fillAndMerge : List (Step String byEncodedLength) := [.update "cc", .merge ofSeven]

theorem Reachable.ordered_image_ofSeven :
    ofSeven.Reachable ∧ ofSeven.n < 2 ^ 64 ∧ ofSeven.Encodable
      ∧ (∀ op ∈ fillAndMerge, op.Keeps ofSeven.k)
      ∧ ∃ restored : Sketch String byEncodedLength, decode? (ofSeven.encode true) = .ok restored
        ∧ ∃ u u' : LiveSketch String byEncodedLength XorShift, ∃ events,
          LiveSketch.steps ⟨ofSeven, .ofSeed 1⟩ fillAndMerge = .ok (u, events)
            ∧ LiveSketch.steps ⟨restored, .ofSeed 1⟩ fillAndMerge = .ok (u', events)
            ∧ u.sketch.encode true = u'.sketch.encode true := by
  have hreachable : ofSeven.Reachable :=
    (Reachable.ofSize (k := 2) rfl).updateAll ofSeven_mem_updateAll
  have hn : ofSeven.n < 2 ^ 64 := by decide
  have hitems : ofSeven.Encodable := by
    simp only [Encodable, Image.LawfulItemCodec.Encodable]
    decide
  have hops : ∀ op ∈ fillAndMerge, op.Keeps ofSeven.k :=
    List.forall_mem_cons.mpr
      ⟨trivial, List.forall_mem_singleton.mpr ⟨hreachable, Nat.le_refl ofSeven.k⟩⟩
  obtain ⟨restored, hread, u, u', events, hsteps, hsteps', -, -, -, hencode⟩ :=
    Reachable.ordered_image (t := .text) hreachable hn hitems (XorShift.ofSeed 1) hops
  exact ⟨hreachable, hn, hitems, hops, restored, hread, u, u', events, hsteps, hsteps', hencode⟩

end Sketch

end QuantileSketch
