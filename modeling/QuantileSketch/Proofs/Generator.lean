/-
The xorshift generator never stalls.

A step folds shifted copies of the state into it.  Only zero is a shifted copy of itself, so
each of these can be undone, and a step loses nothing:

* `eq_zero_of_shiftLeft_eq`, `eq_zero_of_ushiftRight_eq` — words that are copies of themselves;
* `eq_of_xor_shiftLeft_eq`, `eq_of_xor_ushiftRight_eq` — folding in a shifted copy;
* `XorShift.step_bijective`, `XorShift.step_ne_zero` — one step;
* `XorShift.combine_characteristic` — some of the states from any state on cancel out;
* `XorShift.step_ne_self` — a step moves every state but zero;
* `Request`, `Reply`, `serveAll` — requests of any kind to a source, in any order;
* `XorShift.serveAll_state`, `XorShift.serveAll_ne_zero` — any number of steps;
* `XorShift.never_stalls` — all of this together.

Design notes: every request spends one word, whatever becomes of it, so only the number of
requests matters for the state.  A step keeps sums without carry, so a relation between the
states that follow one another need only be checked for the 64 powers of two.  The one that
is used here adds up an odd number of states, so it cannot hold for a state that stays.
-/
import Mathlib.Data.FinEnum
import Mathlib.Data.Nat.Bitwise
import Mathlib.Logic.Function.Iterate
import QuantileSketch.Random.XorShift

namespace QuantileSketch

/-! ### Folding in a shifted copy -/

section Shifts

variable {w shift : ℕ} {x y z : BitVec w}

theorem shiftLeft_mul_eq (h : z <<< shift = z) (n : ℕ) : z <<< (shift * n) = z := by
  induction n with
  | zero => rw [Nat.mul_zero, BitVec.shiftLeft_zero]
  | succ n ih => rw [Nat.mul_succ, BitVec.shiftLeft_add, ih, h]

theorem ushiftRight_mul_eq (h : z >>> shift = z) (n : ℕ) : z >>> (shift * n) = z := by
  induction n with
  | zero => rw [Nat.mul_zero, BitVec.ushiftRight_zero]
  | succ n ih => rw [Nat.mul_succ, BitVec.shiftRight_add, ih, h]

/-- What does not change when it is shifted is shifted out in the end. -/
theorem eq_zero_of_shiftLeft_eq (hshift : 0 < shift) (h : z <<< shift = z) : z = 0#w := by
  rw [← shiftLeft_mul_eq h w]
  exact BitVec.shiftLeft_eq_zero (Nat.le_mul_of_pos_left w hshift)

theorem eq_zero_of_ushiftRight_eq (hshift : 0 < shift) (h : z >>> shift = z) : z = 0#w := by
  rw [← ushiftRight_mul_eq h w]
  exact BitVec.ushiftRight_eq_zero (Nat.le_mul_of_pos_left w hshift)

theorem xor_eq_xor_of_xor_eq {a b : BitVec w} (h : x ^^^ a = y ^^^ b) : a ^^^ b = x ^^^ y := by
  have ha : a = x ^^^ (y ^^^ b) := by
    rw [← h, ← BitVec.xor_assoc, BitVec.xor_self, BitVec.zero_xor]
  rw [ha, BitVec.xor_assoc, BitVec.xor_assoc, BitVec.xor_self, BitVec.xor_zero]

theorem eq_of_xor_shiftLeft_eq (hshift : 0 < shift) (h : x ^^^ x <<< shift = y ^^^ y <<< shift) :
    x = y := by
  have hcopy : (x ^^^ y) <<< shift = x ^^^ y := by
    rw [BitVec.shiftLeft_xor_distrib, xor_eq_xor_of_xor_eq h]
  exact BitVec.xor_eq_zero_iff.mp (eq_zero_of_shiftLeft_eq hshift hcopy)

theorem eq_of_xor_ushiftRight_eq (hshift : 0 < shift) (h : x ^^^ x >>> shift = y ^^^ y >>> shift) :
    x = y := by
  have hcopy : (x ^^^ y) >>> shift = x ^^^ y := by
    rw [BitVec.ushiftRight_xor_distrib, xor_eq_xor_of_xor_eq h]
  exact BitVec.xor_eq_zero_iff.mp (eq_zero_of_ushiftRight_eq hshift hcopy)

end Shifts

/-! ### Words as sums of powers of two -/

theorem xor_xor_xor_comm (a b c d : UInt64) :
    (a ^^^ b) ^^^ (c ^^^ d) = (a ^^^ c) ^^^ (b ^^^ d) := by
  rw [UInt64.xor_assoc, ← UInt64.xor_assoc b, UInt64.xor_comm b, UInt64.xor_assoc,
    ← UInt64.xor_assoc a]

/-- Taking away a digit that is one makes a number less. -/
theorem xor_two_pow_lt {n i : ℕ} (h : n.testBit i = true) : n ^^^ 2 ^ i < n := by
  refine Nat.lt_of_testBit i ?_ h fun j hij => ?_
  · rw [Nat.testBit_xor, h, Nat.testBit_two_pow_self]
    rfl
  · rw [Nat.testBit_xor, Nat.testBit_two_pow_of_ne hij.ne, Bool.xor_false]

/-- A function that keeps sums is zero if it is so of the powers of two. -/
theorem eq_zero_of_forall_two_pow {f : UInt64 → UInt64}
    (hxor : ∀ x y, f (x ^^^ y) = f x ^^^ f y) (h : ∀ i < 64, f (UInt64.ofNat (2 ^ i)) = 0)
    (x : UInt64) : f x = 0 := by
  induction hn : x.toNat using Nat.strongRecOn generalizing x with
  | ind n ih =>
    by_cases hx : n = 0
    · have hzero := hxor 0 0
      rw [UInt64.xor_self, UInt64.xor_self] at hzero
      obtain rfl : x = 0 := UInt64.toNat_inj.mp (hn.trans hx)
      exact hzero
    · obtain ⟨i, hi⟩ := Nat.exists_testBit_of_ne_zero hx
      have hi64 : i < 64 := by
        have hle := Nat.ge_two_pow_of_testBit hi
        rw [← hn] at hle
        exact (Nat.pow_lt_pow_iff_right (by decide)).mp (hle.trans_lt x.toNat_lt)
      have hpower : (UInt64.ofNat (2 ^ i)).toNat = 2 ^ i :=
        UInt64.toNat_ofNat_of_lt' (Nat.pow_lt_pow_right (by decide) hi64)
      have hrest : f (x ^^^ UInt64.ofNat (2 ^ i)) = 0 := by
        refine ih _ ?_ _ rfl
        rw [UInt64.toNat_xor, hpower, hn]
        exact xor_two_pow_lt hi
      rwa [hxor, h i hi64, UInt64.xor_zero] at hrest

namespace XorShift

/-! ### One step -/

theorem step_injective : Function.Injective step := by
  intro x y h
  have hleft : ∀ {a b shift : UInt64}, 0 < (shift.toBitVec % 64).toNat →
      a ^^^ a <<< shift = b ^^^ b <<< shift → a = b := fun hshift hab =>
    UInt64.toBitVec_inj.mp (eq_of_xor_shiftLeft_eq hshift (congrArg UInt64.toBitVec hab))
  have hright : ∀ {a b shift : UInt64}, 0 < (shift.toBitVec % 64).toNat →
      a ^^^ a >>> shift = b ^^^ b >>> shift → a = b := fun hshift hab =>
    UInt64.toBitVec_inj.mp (eq_of_xor_ushiftRight_eq hshift (congrArg UInt64.toBitVec hab))
  exact hleft (by decide) (hright (by decide) (hleft (by decide) h))

/-- Every state is that after a step from one state. -/
theorem step_bijective : Function.Bijective step :=
  Finite.injective_iff_bijective.mp step_injective

theorem step_zero : step 0 = 0 := by decide

theorem step_ne_zero {x : UInt64} (h : x ≠ 0) : step x ≠ 0 := by
  intro hzero
  exact h (step_injective (hzero.trans step_zero.symm))

/-! ### States that do not move -/

theorem step_xor (x y : UInt64) : step (x ^^^ y) = step x ^^^ step y := by
  simp only [step, UInt64.shiftLeft_xor, UInt64.shiftRight_xor, xor_xor_xor_comm]

/-- The sum of those of the states from `x` on that the coefficients choose. -/
def combine : List Bool → UInt64 → UInt64
  | [], _ => 0
  | c :: cs, x => (if c then x else 0) ^^^ combine cs (step x)

theorem combine_xor (cs : List Bool) (x y : UInt64) :
    combine cs (x ^^^ y) = combine cs x ^^^ combine cs y := by
  induction cs generalizing x y with
  | nil => exact UInt64.xor_self.symm
  | cons c cs ih =>
    rw [combine, combine, combine, step_xor, ih]
    cases c with
    | false => simp only [Bool.false_eq_true, if_false, UInt64.zero_xor]
    | true => exact xor_xor_xor_comm _ _ _ _

/-- The coefficients of the characteristic polynomial of a step, the lowest first. -/
def characteristic : List Bool := (List.range 65).map (Nat.testBit 0x1013ed4a358913201)

/-- The states that the characteristic polynomial chooses cancel out. -/
theorem combine_characteristic (x : UInt64) : combine characteristic x = 0 := by
  refine eq_zero_of_forall_two_pow (combine_xor characteristic) ?_ x
  -- Each power of two is followed for 64 steps.
  decide +kernel

/-- A state that does not move is left over if an odd number of states is added up. -/
theorem combine_of_step_eq {x : UInt64} (h : step x = x) (cs : List Bool) :
    combine cs x = if cs.count true % 2 = 1 then x else 0 := by
  induction cs with
  | nil => rfl
  | cons c cs ih =>
    rw [combine, h, ih]
    cases c with
    | false => simp
    | true =>
      rw [List.count_cons_self, if_pos rfl]
      by_cases hodd : cs.count true % 2 = 1
      · rw [if_pos hodd, if_neg (by omega), UInt64.xor_self]
      · rw [if_neg hodd, if_pos (by omega), UInt64.xor_zero]

/-- Every state but zero moves. -/
theorem step_ne_self {x : UInt64} (h : x ≠ 0) : step x ≠ x := by
  intro hstep
  have hodd : characteristic.count true % 2 = 1 := by decide
  have hzero := combine_characteristic x
  rw [combine_of_step_eq hstep, if_pos hodd] at hzero
  exact h hzero

/-! ### Seeds -/

theorem state_ofSeed_ne_zero (seed : UInt64) : (ofSeed seed).state ≠ 0 := by
  rw [ofSeed]
  split
  · decide
  · assumption

end XorShift

/-! ### Requests -/

/-- What can be asked of a source. -/
inductive Request
  /-- A word as it is. -/
  | word
  /-- The answer to a draw. -/
  | draw (d : Draw)

/-- What a source gives. -/
inductive Reply
  | word (word : UInt64)
  | draw (d : Draw) (answer : Fin d.range)

/-- What a word gives for a request. -/
def Request.reply : Request → UInt64 → Reply
  | .word, drawn => .word drawn
  | .draw d, drawn => .draw d (d.ofWord drawn)

variable {ρ : Type} [RandomSource ρ]

/-- The reply to a request, and the source after it. -/
def Request.serve : Request → ρ → Reply × ρ
  | .word, source => (RandomSource.next source).map .word id
  | .draw d, source => (RandomSource.answer d source).map (.draw d) id

/-- The replies to requests in order, and the source after them. -/
def serveAll : List Request → ρ → List Reply × ρ
  | [], source => ([], source)
  | request :: requests, source =>
    let (reply, source) := request.serve source
    let (replies, source) := serveAll requests source
    (reply :: replies, source)

namespace XorShift

/-- Whatever is asked for, one step is taken. -/
theorem serve_eq (request : Request) (g : XorShift) :
    request.serve g = (request.reply (step g.state), ⟨step g.state⟩) := by
  cases request with
  | word => rfl
  | draw d => rfl

theorem serveAll_state (requests : List Request) (g : XorShift) :
    (serveAll requests g).2.state = step^[requests.length] g.state := by
  induction requests generalizing g with
  | nil => rfl
  | cons request requests ih =>
    rw [serveAll, serve_eq]
    exact ih ⟨step g.state⟩

/-- A generator that is not at zero replies by words that are not zero, and does not get there. -/
theorem serveAll_ne_zero (requests : List Request) {g : XorShift} (h : g.state ≠ 0) :
    (serveAll requests g).2.state ≠ 0
      ∧ List.Forall₂ (fun request reply => ∃ word ≠ 0, reply = request.reply word) requests
          (serveAll requests g).1 := by
  induction requests generalizing g with
  | nil => exact ⟨h, .nil⟩
  | cons request requests ih =>
    have hstep : step g.state ≠ 0 := step_ne_zero h
    obtain ⟨hstate, hreplies⟩ := ih (g := ⟨step g.state⟩) hstep
    rw [serveAll, serve_eq]
    exact ⟨hstate, .cons ⟨step g.state, hstep, rfl⟩ hreplies⟩

/-- **The generator never stalls, and streams never meet.**  A step is a bijection of states; it
leads to zero from zero alone, and moves every other state.  So from every seed, whatever is asked
for and however often, the state is not zero, and every reply is that of a word that is not zero.
Generators in different states are in different states again after the same number of
requests. -/
theorem never_stalls :
    Function.Bijective step ∧ (∀ x, x ≠ 0 → step x ≠ 0 ∧ step x ≠ x)
      ∧ (∀ seed requests, (serveAll requests (ofSeed seed)).2.state ≠ 0
          ∧ List.Forall₂ (fun request reply => ∃ word ≠ 0, reply = request.reply word) requests
              (serveAll requests (ofSeed seed)).1)
      ∧ ∀ g g' : XorShift, g ≠ g' → ∀ requests requests' : List Request,
          requests.length = requests'.length →
            (serveAll requests g).2 ≠ (serveAll requests' g').2 := by
  refine ⟨step_bijective, fun x hx => ⟨step_ne_zero hx, step_ne_self hx⟩,
    fun seed requests => serveAll_ne_zero requests (state_ofSeed_ne_zero seed), ?_⟩
  intro g g' hne requests requests' hlength heq
  have hstate := congrArg XorShift.state heq
  rw [serveAll_state, serveAll_state, ← hlength] at hstate
  exact hne (congrArg XorShift.mk (step_injective.iterate requests.length hstate))

/-- A generator of seed zero, and two generators that are asked for different things. -/
theorem never_stalls_zero :
    (step 1 ≠ 0 ∧ step 1 ≠ 1)
      ∧ (serveAll [.word, .draw .bit, .draw (.below 10 (by decide)), .word] (ofSeed 0)).2.state ≠ 0
      ∧ (∃ word ≠ 0, (serveAll [.word] (ofSeed 0)).1 = [.word word])
      ∧ ofSeed 1 ≠ ofSeed 2
      ∧ (serveAll [.word, .word] (ofSeed 1)).2 ≠ (serveAll [.draw .bit, .word] (ofSeed 2)).2 := by
  obtain ⟨-, hstep, hstall, hmeet⟩ := never_stalls
  have hne : ofSeed 1 ≠ ofSeed 2 := by decide
  obtain ⟨-, hreply⟩ := hstall 0 [.word]
  obtain ⟨reply, replies, ⟨word, hword, rfl⟩, hrest, hreplies⟩ :=
    List.forall₂_cons_left_iff.mp hreply
  rw [List.forall₂_nil_left_iff.mp hrest] at hreplies
  exact ⟨hstep 1 (by decide), (hstall 0 _).1, ⟨word, hword, hreplies⟩, hne, hmeet _ _ hne _ _ rfl⟩

end XorShift

end QuantileSketch
