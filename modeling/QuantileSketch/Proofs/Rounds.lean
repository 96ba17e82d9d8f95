/-
Loops, round by round.

A round of a loop goes on from a new state (`yield`), ends the loop (`done`), or does not come
to an end itself (`none`), as when an index is out of bounds:

* `Runs` — the loop that starts from a state ends in another one after so many rounds;
* `Runs.unique` — in one state and after one number of rounds only;
* `exists_runs` — a loop ends if its rounds keep an invariant and lower a measure.

Design notes: `Runs` is inductive, so a loop that never ends has no run, and neither has one
that a round breaks off.  That there is a run says both that the loop ends and that nothing
goes wrong in it.
-/
import Mathlib.Data.Nat.Notation

namespace QuantileSketch

variable {σ : Type} {round : σ → Option (ForInStep σ)}

/-- The loop that starts from the first state ends in the second one, after `t` rounds that
went on. -/
inductive Runs (round : σ → Option (ForInStep σ)) : (t : ℕ) → σ → σ → Prop
  /-- The loop ends here. -/
  | done {s s' : σ} (h : round s = some (.done s')) : Runs round 0 s s'
  /-- The loop goes on from another state. -/
  | yield {t : ℕ} {s s' s'' : σ} (h : round s = some (.yield s')) (rest : Runs round t s' s'') :
      Runs round (t + 1) s s''

/-- A loop ends in one way. -/
theorem Runs.unique {t t' : ℕ} {s u u' : σ} (h : Runs round t s u) (h' : Runs round t' s u') :
    t = t' ∧ u = u' := by
  induction h generalizing t' with
  | done h =>
    cases h' with
    | done h' =>
      cases h.symm.trans h'
      exact ⟨rfl, rfl⟩
    | yield h' rest' => cases h.symm.trans h'
  | yield h rest ih =>
    cases h' with
    | done h' => cases h.symm.trans h'
    | yield h' rest' =>
      cases h.symm.trans h'
      obtain ⟨rfl, rfl⟩ := ih rest'
      exact ⟨rfl, rfl⟩

/-- **Total correctness of a loop.**  If every round from a state with the invariant ends the
loop as it should, or goes on from such a state with a lower measure, then the loop ends after
no more rounds than the measure says, as it should. -/
theorem exists_runs {Inv Post : σ → Prop} {measure : σ → ℕ}
    (hround : ∀ s, Inv s → (∃ s', round s = some (.done s') ∧ Post s')
      ∨ ∃ s', round s = some (.yield s') ∧ Inv s' ∧ measure s' < measure s)
    {s : σ} (hs : Inv s) : ∃ t ≤ measure s, ∃ s', Runs round t s s' ∧ Post s' := by
  induction hm : measure s using Nat.strongRecOn generalizing s with
  | ind m ih =>
    rcases hround s hs with ⟨s', hdone, hpost⟩ | ⟨s', hyield, hs', hlt⟩
    · exact ⟨0, Nat.zero_le m, s', .done hdone, hpost⟩
    · obtain ⟨t, ht, s'', hruns, hpost⟩ := ih (measure s') (hm ▸ hlt) hs' rfl
      exact ⟨t + 1, by omega, s'', .yield hyield hruns, hpost⟩

end QuantileSketch
