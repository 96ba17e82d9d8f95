/-
What the answers to draws can lead to.

A `Randomized` value asks for draws before it is known, so there are three things
to say about it that do not depend on any source of randomness:

* `v ∈ x` — some answers lead to the value `v` (`run_value_mem`: so do those of
  every source);
* `Asks ds x` — the draws are those of the list `ds`, whatever the answers;
* `total f x` — the sum of `f` over the values that all the answers lead to.

`Averages ds f c x` puts the last two together: over the `ways ds` ways to answer
the draws `ds`, the average of `f` is `c`.

Design notes: averages are kept as sums of natural numbers, so nothing has to be
divided; `Averages.bind` is the rule by which a step that is fair after a fair
step makes a fair run.
-/
import QuantileSketch.Randomized
import Mathlib.Algebra.BigOperators.Fin

open scoped BigOperators

namespace QuantileSketch.Randomized

variable {β γ : Type}

/-! ### The values that answers lead to -/

/-- Some answers to the draws of `x` lead to the value. -/
protected def Mem : Randomized β → β → Prop
  | done value, v => v = value
  | draw _ next, v => ∃ answer, (next answer).Mem v
  | note _ next, v => next.Mem v

instance : Membership β (Randomized β) := ⟨Randomized.Mem⟩

@[simp] theorem mem_done {v value : β} : v ∈ done value ↔ v = value := Iff.rfl

@[simp] theorem mem_draw {v : β} {d : Draw} {next : Fin d.range → Randomized β} :
    v ∈ draw d next ↔ ∃ answer, v ∈ next answer := Iff.rfl

@[simp] theorem mem_note {v : β} {event : Event} {next : Randomized β} :
    v ∈ note event next ↔ v ∈ next := Iff.rfl

@[simp] theorem mem_notes {v : β} {events : List Event} {x : Randomized β} :
    v ∈ notes events x ↔ v ∈ x := by
  induction events with
  | nil => rfl
  | cons event events ih => rw [notes, mem_note, ih]

@[simp] theorem mem_bind {x : Randomized β} {f : β → Randomized γ} {w : γ} :
    w ∈ x.bind f ↔ ∃ v ∈ x, w ∈ f v := by
  induction x with
  | done value => simp
  | draw d next ih =>
    simp only [draw_bind, mem_draw, ih]
    constructor
    · rintro ⟨answer, v, hv, hw⟩
      exact ⟨v, ⟨answer, hv⟩, hw⟩
    · rintro ⟨v, ⟨answer, hv⟩, hw⟩
      exact ⟨answer, v, hv, hw⟩
  | note event next ih => simp [ih]

/-- Whatever source answers the draws, its answers lead to the value of the run. -/
theorem run_value_mem {ρ : Type} [RandomSource ρ] (x : Randomized β) (source : ρ) :
    (x.run source).value ∈ x := by
  induction x generalizing source with
  | done value => rfl
  | draw d next ih => exact ⟨_, ih _ _⟩
  | note event next ih => exact ih source

/-- What follows matters only for the values that answers lead to. -/
theorem bind_congr_of_mem {x : Randomized β} {f g : β → Randomized γ} (h : ∀ v ∈ x, f v = g v) :
    x.bind f = x.bind g := by
  induction x with
  | done value => exact h value rfl
  | draw d next ih =>
    rw [draw_bind, draw_bind]
    congr 1
    funext answer
    exact ih answer fun v hv => h v ⟨answer, hv⟩
  | note event next ih => rw [note_bind, note_bind, ih h]

/-! ### The draws that are asked for -/

/-- Whatever the answers, exactly the draws of the list are asked for, in order. -/
def Asks (ds : List Draw) : Randomized β → Prop
  | done _ => ds = []
  | draw d next => ∃ rest, ds = d :: rest ∧ ∀ answer, (next answer).Asks rest
  | note _ next => next.Asks ds

@[simp] theorem asks_done {ds : List Draw} {value : β} : (done value).Asks ds ↔ ds = [] := Iff.rfl

@[simp] theorem asks_note {ds : List Draw} {event : Event} {next : Randomized β} :
    (note event next).Asks ds ↔ next.Asks ds := Iff.rfl

@[simp] theorem asks_notes {ds : List Draw} {events : List Event} {x : Randomized β} :
    (notes events x).Asks ds ↔ x.Asks ds := by
  induction events with
  | nil => rfl
  | cons event events ih => rw [notes, asks_note, ih]

theorem asks_draw {d : Draw} {rest : List Draw} {next : Fin d.range → Randomized β}
    (h : ∀ answer, (next answer).Asks rest) : (draw d next).Asks (d :: rest) :=
  ⟨rest, rfl, h⟩

theorem Asks.bind {x : Randomized β} {f : β → Randomized γ} {ds es : List Draw}
    (hx : x.Asks ds) (hf : ∀ v ∈ x, (f v).Asks es) : (x.bind f).Asks (ds ++ es) := by
  induction x generalizing ds with
  | done value =>
    rw [asks_done] at hx
    subst hx
    exact hf value rfl
  | draw d next ih =>
    obtain ⟨rest, rfl, hnext⟩ := hx
    exact asks_draw fun answer => ih answer (hnext answer) fun v hv => hf v ⟨answer, hv⟩
  | note event next ih => exact ih hx hf

/-- The number of ways to answer draws. -/
def ways (ds : List Draw) : ℕ := (ds.map Draw.range).prod

@[simp] theorem ways_nil : ways [] = 1 := rfl

@[simp] theorem ways_cons (d : Draw) (ds : List Draw) : ways (d :: ds) = d.range * ways ds := by
  simp [ways]

@[simp] theorem ways_append (ds es : List Draw) : ways (ds ++ es) = ways ds * ways es := by
  simp [ways]

theorem ways_replicate_bit (m : ℕ) : ways (List.replicate m .bit) = 2 ^ m := by
  simp [ways, Draw.range]

/-! ### Averages over all answers -/

/-- The sum of `f` over the values that all the ways to answer the draws lead to. -/
def total (f : β → ℕ) : Randomized β → ℕ
  | done value => f value
  | draw _ next => ∑ answer, (next answer).total f
  | note _ next => next.total f

theorem total_congr {x : Randomized β} {f g : β → ℕ} (h : ∀ v ∈ x, f v = g v) :
    x.total f = x.total g := by
  induction x with
  | done value => exact h value rfl
  | draw d next ih =>
    exact Finset.sum_congr rfl fun answer _ => ih answer fun v hv => h v ⟨answer, hv⟩
  | note event next ih => exact ih h

theorem total_bind (x : Randomized β) (g : β → Randomized γ) (f : γ → ℕ) :
    (x.bind g).total f = x.total fun v => (g v).total f := by
  induction x with
  | done value => rfl
  | draw d next ih => exact Finset.sum_congr rfl fun answer _ => ih answer
  | note event next ih => exact ih

theorem total_mul (c : ℕ) (x : Randomized β) (f : β → ℕ) :
    (x.total fun v => c * f v) = c * x.total f := by
  induction x with
  | done value => rfl
  | draw d next ih =>
    rw [total, total, Finset.mul_sum]
    exact Finset.sum_congr rfl fun answer _ => ih answer
  | note event next ih => exact ih

theorem total_add (x : Randomized β) (f g : β → ℕ) :
    (x.total fun v => f v + g v) = x.total f + x.total g := by
  induction x with
  | done value => rfl
  | draw d next ih =>
    rw [total, total, total, ← Finset.sum_add_distrib]
    exact Finset.sum_congr rfl fun answer _ => ih answer
  | note event next ih => exact ih

theorem Asks.total_const {ds : List Draw} {x : Randomized β} (h : x.Asks ds) (c : ℕ) :
    (x.total fun _ => c) = ways ds * c := by
  induction x generalizing ds with
  | done value =>
    rw [asks_done] at h
    subst h
    exact (Nat.one_mul c).symm
  | draw d next ih =>
    obtain ⟨rest, rfl, hnext⟩ := h
    -- There are `d.range` answers, and each leads to the same sum.
    rw [total, Finset.sum_congr rfl fun answer _ => ih answer (hnext answer), Finset.sum_const,
      Finset.card_univ, Fintype.card_fin, smul_eq_mul, ways_cons, Nat.mul_assoc]
  | note event next ih => exact ih h

/-- The draws are those of the list, and over all ways to answer them the average
of `f` is `c`. -/
structure Averages (ds : List Draw) (f : β → ℕ) (c : ℕ) (x : Randomized β) : Prop where
  asks : x.Asks ds
  total_eq : x.total f = ways ds * c

theorem averages_done (f : β → ℕ) (value : β) : Averages [] f (f value) (done value) :=
  ⟨rfl, (Nat.one_mul _).symm⟩

theorem Averages.notes {ds : List Draw} {f : β → ℕ} {c : ℕ} {x : Randomized β}
    (h : x.Averages ds f c) (events : List Event) : (notes events x).Averages ds f c := by
  induction events with
  | nil => exact h
  | cons event events ih => exact ⟨ih.asks, ih.total_eq⟩

theorem Averages.congr {ds : List Draw} {f g : β → ℕ} {c : ℕ} {x : Randomized β}
    (h : x.Averages ds f c) (hfg : ∀ v ∈ x, f v = g v) : x.Averages ds g c :=
  ⟨h.asks, (total_congr hfg).symm.trans h.total_eq⟩

theorem Averages.affine {ds : List Draw} {f : β → ℕ} {c : ℕ} {x : Randomized β}
    (h : x.Averages ds f c) (a b : ℕ) : x.Averages ds (fun v => a + b * f v) (a + b * c) where
  asks := h.asks
  total_eq := by
    rw [total_add, h.asks.total_const, total_mul, h.total_eq, Nat.mul_add, Nat.mul_left_comm]

theorem Averages.add {ds : List Draw} {f : β → ℕ} {c : ℕ} {x : Randomized β}
    (h : x.Averages ds f c) (a : ℕ) : x.Averages ds (fun v => f v + a) (c + a) := by
  simpa only [Nat.one_mul, Nat.add_comm a] using h.affine a 1

theorem Averages.map {ds : List Draw} {g : β → γ} {f : γ → ℕ} {c : ℕ} {x : Randomized β}
    (h : x.Averages ds (fun v => f (g v)) c) : (x.bind fun v => done (g v)).Averages ds f c where
  asks := by
    have hasks : (x.bind fun v => done (g v)).Asks (ds ++ []) := h.asks.bind fun _ _ => rfl
    rwa [List.append_nil] at hasks
  total_eq := by
    rw [total_bind]
    exact h.total_eq

/-- A fair step after a fair step: if `g` keeps the value of `h` on average, and
`h` is `c` on average, then so is the outcome of both. -/
theorem Averages.bind {ds es : List Draw} {x : Randomized β} {g : β → Randomized γ}
    {h : β → ℕ} {f : γ → ℕ} {c : ℕ} (hx : x.Averages ds h c)
    (hg : ∀ v ∈ x, (g v).Averages es f (h v)) : (x.bind g).Averages (ds ++ es) f c where
  asks := hx.asks.bind fun v hv => (hg v hv).asks
  total_eq := by
    -- Each way to answer `ds` is followed by all the ways to answer `es`.
    rw [total_bind, total_congr fun v hv => (hg v hv).total_eq, total_mul, hx.total_eq,
      ways_append, Nat.mul_left_comm, Nat.mul_assoc]

end QuantileSketch.Randomized
