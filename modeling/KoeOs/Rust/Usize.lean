/-
# `KoeOs.Rust.Usize` — the `usize` operations the kernel uses

A `usize` is a natural number below `2 ^ 64`.  The operators panic where the
result leaves that range (`cargo build` checks overflow).  `<<` and `>>` lose bits
instead, and panic for an amount of 64 or more; `shl` is for amounts below that.
At the end are the few operations on `isize` and `u16`.
The bit-counting functions of `core` are given as it documents them:

    next_power_of_two   the least power of two not below `n`; overflow above `2 ^ 63`
    ilog2               the base-2 logarithm, rounded down
    trailing_zeros      64 on zero
    leading_zeros       64 on zero
    next_multiple_of    rounds up to a multiple
-/
import KoeOs.Rust.Code
import Mathlib.Algebra.Order.Group.Nat
import Mathlib.Tactic.Ring

namespace Koe.Usize

variable {σ : Type}

/-- `usize::BITS`. -/
def bits : ℕ := 64

/-- One more than `usize::MAX`. -/
def modulus : ℕ := 2 ^ bits

/-- `isize::MAX`. -/
def isizeMax : ℕ := 2 ^ 63 - 1

/-- `a + b`. -/
def add (a b : ℕ) : Code σ ℕ := if a + b < modulus then pure (a + b) else throw .overflow

/-- `a - b`. -/
def sub (a b : ℕ) : Code σ ℕ := if b ≤ a then pure (a - b) else throw .overflow

/-- `a * b`. -/
def mul (a b : ℕ) : Code σ ℕ := if a * b < modulus then pure (a * b) else throw .overflow

/-- `a << k`: the bits shifted past the top are dropped. -/
def shl (a k : ℕ) : ℕ := (a <<< k) % modulus

/-- `n.next_power_of_two()`, where it does not overflow. -/
def powerOfTwoAbove (n : ℕ) : ℕ := if n ≤ 1 then 1 else 2 ^ ((n - 1).log2 + 1)

/-- `n.next_power_of_two()`. -/
def nextPowerOfTwo (n : ℕ) : Code σ ℕ :=
  if n ≤ 2 ^ 63 then pure (powerOfTwoAbove n) else throw .overflow

/-- `n.ilog2()`. -/
def ilog2 (n : ℕ) : Code σ ℕ := if n = 0 then throw (.expectation "ilog2") else pure n.log2

/-- `a.div_ceil(b)`. -/
def divCeil (a b : ℕ) : ℕ := if a % b = 0 then a / b else a / b + 1

/-- `a` rounded up to a multiple of `b`, over the naturals. -/
def roundUp (a b : ℕ) : ℕ := if a % b = 0 then a else a + (b - a % b)

/-- `a.next_multiple_of(b)`. -/
def nextMultipleOf (a b : ℕ) : Code σ ℕ :=
  if roundUp a b < modulus then pure (roundUp a b) else throw .overflow

/-- `n.trailing_zeros()`. -/
def trailingZeros (n : ℕ) : ℕ := go bits n
where
  go : ℕ → ℕ → ℕ
    | 0, _ => 0
    | k + 1, n => if n % 2 = 1 then 0 else go k (n / 2) + 1

/-- `n.leading_zeros()`. -/
def leadingZeros (n : ℕ) : ℕ := if n = 0 then bits else bits - 1 - n.log2

/-! ## The checked operators touch no state -/

section Preserves

variable {I : σ → Prop} (a b : ℕ)

theorem preserves_add : Code.Preserves I (add a b) :=
  Code.preserves_ite (Code.preserves_pure _) (Code.preserves_throw _)

theorem preserves_sub : Code.Preserves I (sub a b) :=
  Code.preserves_ite (Code.preserves_pure _) (Code.preserves_throw _)

theorem preserves_nextPowerOfTwo : Code.Preserves I (nextPowerOfTwo a) :=
  Code.preserves_ite (Code.preserves_pure _) (Code.preserves_throw _)

theorem preserves_nextMultipleOf : Code.Preserves I (nextMultipleOf a b) :=
  Code.preserves_ite (Code.preserves_pure _) (Code.preserves_throw _)

end Preserves

/-! ## The checked operators, where they do not overflow -/

theorem add_of_lt {a b : ℕ} (h : a + b < modulus) (s : σ) : (add a b).run s = .ok (a + b) s := by
  simp [add, h]

theorem add_eq_ok {a b c : ℕ} {s s' : σ} :
    (add a b).run s = .ok c s' ↔ a + b < modulus ∧ c = a + b ∧ s = s' := by
  by_cases h : a + b < modulus
  · rw [add_of_lt h]; simp [h, eq_comm]
  · simp [add, h]

/-- A shift that loses no bits. -/
theorem shl_of_lt {a k : ℕ} (h : a * 2 ^ k < modulus) : shl a k = a * 2 ^ k := by
  rw [shl, Nat.shiftLeft_eq, Nat.mod_eq_of_lt h]

theorem sub_of_le {a b : ℕ} (h : b ≤ a) (s : σ) : (sub a b).run s = .ok (a - b) s := by
  simp [sub, h]

theorem sub_of_lt {a b : ℕ} (h : a < b) (s : σ) : (sub a b).run s = .error .overflow s := by
  simp [sub, Nat.not_le.mpr h]

theorem sub_eq_ok {a b c : ℕ} {s s' : σ} :
    (sub a b).run s = .ok c s' ↔ b ≤ a ∧ c = a - b ∧ s = s' := by
  by_cases h : b ≤ a
  · rw [sub_of_le h]; simp [h, eq_comm]
  · rw [sub_of_lt (Nat.not_le.mp h)]; simp [h]

theorem mul_of_lt {a b : ℕ} (h : a * b < modulus) (s : σ) : (mul a b).run s = .ok (a * b) s := by
  simp [mul, h]

theorem nextPowerOfTwo_of_le {n : ℕ} (h : n ≤ 2 ^ 63) (s : σ) :
    (nextPowerOfTwo n).run s = .ok (powerOfTwoAbove n) s := by
  rw [nextPowerOfTwo, if_pos h]; rfl

theorem nextPowerOfTwo_of_gt {n : ℕ} (h : 2 ^ 63 < n) (s : σ) :
    (nextPowerOfTwo n).run s = .error .overflow s := by
  rw [nextPowerOfTwo, if_neg (Nat.not_le.mpr h)]; rfl

theorem mul_eq_ok {a b c : ℕ} {s s' : σ} :
    (mul a b).run s = .ok c s' ↔ a * b < modulus ∧ c = a * b ∧ s = s' := by
  by_cases h : a * b < modulus
  · rw [mul_of_lt h]; simp [h, eq_comm]
  · simp [mul, h]

theorem nextPowerOfTwo_eq_ok {n a : ℕ} {s s' : σ} :
    (nextPowerOfTwo n).run s = .ok a s' ↔ n ≤ 2 ^ 63 ∧ a = powerOfTwoAbove n ∧ s = s' := by
  by_cases h : n ≤ 2 ^ 63
  · rw [nextPowerOfTwo_of_le h]
    constructor
    · intro he; cases he; exact ⟨h, rfl, rfl⟩
    · rintro ⟨-, rfl, rfl⟩; rfl
  · rw [nextPowerOfTwo_of_gt (Nat.not_le.mp h)]
    exact ⟨fun he => (nomatch he), fun he => absurd he.1 h⟩

theorem ilog2_of_pos {n : ℕ} (h : 0 < n) (s : σ) : (ilog2 n).run s = .ok n.log2 s := by
  simp [ilog2, Nat.pos_iff_ne_zero.mp h]

theorem nextMultipleOf_eq_ok {a b c : ℕ} {s s' : σ} (h : (nextMultipleOf a b).run s = .ok c s') :
    c = roundUp a b ∧ s = s' := by
  unfold nextMultipleOf at h
  split at h
  · cases h; exact ⟨rfl, rfl⟩
  · exact nomatch h

theorem nextMultipleOf_of_lt {a b : ℕ} (h : roundUp a b < modulus) (s : σ) :
    (nextMultipleOf a b).run s = .ok (roundUp a b) s := by
  simp [nextMultipleOf, h]

/-! ## Powers of two -/

/-- The exponent of `powerOfTwoAbove`. -/
def ceilLog2 (n : ℕ) : ℕ := if n ≤ 1 then 0 else (n - 1).log2 + 1

theorem powerOfTwoAbove_eq (n : ℕ) : powerOfTwoAbove n = 2 ^ ceilLog2 n := by
  unfold powerOfTwoAbove ceilLog2
  split <;> rfl

theorem powerOfTwoAbove_pos (n : ℕ) : 0 < powerOfTwoAbove n := by
  rw [powerOfTwoAbove_eq]; exact Nat.two_pow_pos _

@[simp] theorem log2_powerOfTwoAbove (n : ℕ) : (powerOfTwoAbove n).log2 = ceilLog2 n := by
  rw [powerOfTwoAbove_eq, Nat.log2_two_pow]

theorem le_powerOfTwoAbove (n : ℕ) : n ≤ powerOfTwoAbove n := by
  unfold powerOfTwoAbove
  split
  · assumption
  · have h : n - 1 < 2 ^ ((n - 1).log2 + 1) := Nat.lt_log2_self
    omega

/-- `powerOfTwoAbove` is the least power of two that is large enough. -/
theorem ceilLog2_le {n k : ℕ} (h : n ≤ 2 ^ k) : ceilLog2 n ≤ k := by
  unfold ceilLog2
  split
  · exact Nat.zero_le k
  · have hlt : (n - 1).log2 < k := (Nat.log2_lt (by omega)).mpr (by omega)
    exact hlt

theorem le_ceilLog2 {n k : ℕ} (h : 2 ^ k ≤ n) : k ≤ ceilLog2 n := by
  refine (Nat.pow_le_pow_iff_right (by decide : 1 < 2)).mp ?_
  rw [← powerOfTwoAbove_eq]
  exact h.trans (le_powerOfTwoAbove n)

/-! ## Rounding up -/

theorem le_divCeil_mul {a b : ℕ} (hb : 0 < b) : a ≤ divCeil a b * b := by
  have hdiv := Nat.div_add_mod' a b
  have hlt := Nat.mod_lt a hb
  unfold divCeil
  split
  · omega
  · rw [Nat.add_mul]; omega

theorem divCeil_mul_lt {a b : ℕ} (hb : 0 < b) : divCeil a b * b < a + b := by
  have hdiv := Nat.div_add_mod' a b
  unfold divCeil
  split
  · omega
  · rw [Nat.add_mul]; omega

theorem le_roundUp (a b : ℕ) : a ≤ roundUp a b := by
  unfold roundUp; split <;> omega

theorem roundUp_of_dvd {a b : ℕ} (h : b ∣ a) : roundUp a b = a := by
  simp [roundUp, Nat.mod_eq_zero_of_dvd h]

@[simp] theorem roundUp_zero (b : ℕ) : roundUp 0 b = 0 := by simp [roundUp]

theorem dvd_roundUp {a b : ℕ} (hb : 0 < b) : b ∣ roundUp a b := by
  unfold roundUp
  split
  · exact Nat.dvd_of_mod_eq_zero (by assumption)
  · have hlt := Nat.mod_lt a hb
    have hsum : a + (b - a % b) = b * (a / b + 1) := by
      have := Nat.div_add_mod a b
      rw [Nat.mul_add, Nat.mul_one]; omega
    exact ⟨_, hsum⟩

theorem roundUp_lt {a b : ℕ} (hb : 0 < b) : roundUp a b < a + b := by
  unfold roundUp; split <;> omega

/-- Rounding up is the least multiple that is not below. -/
theorem roundUp_le_iff {a b q : ℕ} (hb : 0 < b) (h : b ∣ q) : roundUp a b ≤ q ↔ a ≤ q := by
  refine ⟨Nat.le_trans (le_roundUp a b), fun hle => ?_⟩
  by_contra hgt
  -- otherwise two multiples of `b` are less than `b` apart
  have hlt := roundUp_lt (a := a) hb
  obtain ⟨k, hk⟩ := Nat.dvd_sub (dvd_roundUp (a := a) hb) h
  have hk0 : 0 < k := Nat.pos_of_ne_zero (by rintro rfl; omega)
  have := Nat.le_mul_of_pos_right b hk0
  omega

/-- Rounding down is the greatest multiple that is not above. -/
theorem le_sub_mod_iff {a b q : ℕ} (hb : 0 < b) (h : b ∣ q) : q ≤ a - a % b ↔ q ≤ a := by
  obtain ⟨k, rfl⟩ := h
  have hdiv := Nat.div_add_mod a b
  have hle : b * k ≤ b * (a / b) ↔ b * k ≤ a := by
    rw [Nat.mul_le_mul_left_iff hb, Nat.le_div_iff_mul_le hb, Nat.mul_comm]
  omega

theorem lt_divCeil_iff {a b k : ℕ} (hb : 0 < b) : k < divCeil a b ↔ k * b < a := by
  have hle := le_divCeil_mul (a := a) hb
  have hlt := divCeil_mul_lt (a := a) hb
  constructor
  · intro h
    have := Nat.mul_le_mul_right b (Nat.succ_le_of_lt h)
    rw [Nat.succ_mul] at this
    omega
  · intro h
    exact Nat.lt_of_mul_lt_mul_right (Nat.lt_of_lt_of_le h hle)

/-! ## Counting bits -/

theorem trailingZeros_dvd (n : ℕ) : 2 ^ trailingZeros n ∣ n := by
  suffices h : ∀ k n : ℕ, 2 ^ trailingZeros.go k n ∣ n from h bits n
  intro k
  induction k with
  | zero => intro n; exact Nat.one_dvd n
  | succ k ih =>
      intro n
      rw [trailingZeros.go]
      split
      · exact Nat.one_dvd n
      · obtain ⟨q, hq⟩ := ih (n / 2)
        refine ⟨q, ?_⟩
        rw [Nat.pow_succ, Nat.mul_right_comm, ← hq]
        omega

theorem le_trailingZeros {n j : ℕ} (hj : j ≤ bits) (h : 2 ^ j ∣ n) : j ≤ trailingZeros n := by
  suffices hgo : ∀ k n j : ℕ, j ≤ k → 2 ^ j ∣ n → j ≤ trailingZeros.go k n from hgo bits n j hj h
  intro k
  induction k with
  | zero => intro n j hj _; exact hj
  | succ k ih =>
      intro n j hj h
      rw [trailingZeros.go]
      cases j with
      | zero => exact Nat.zero_le _
      | succ j =>
          obtain ⟨q, hq⟩ := h
          rw [Nat.pow_succ, Nat.mul_right_comm] at hq
          rw [if_neg (by omega)]
          exact Nat.succ_le_succ (ih (n / 2) j (by omega) ⟨q, by omega⟩)

theorem trailingZeros_two_pow {k : ℕ} (h : k ≤ bits) : trailingZeros (2 ^ k) = k :=
  Nat.le_antisymm ((Nat.pow_dvd_pow_iff_le_right (by decide)).mp (trailingZeros_dvd _))
    (le_trailingZeros h (Nat.dvd_refl _))

theorem trailingZeros_zero : trailingZeros 0 = bits := by decide

/-- `usize::BITS - n.leading_zeros() - 1`. -/
theorem bits_sub_leadingZeros {n : ℕ} (hn : n ≠ 0) (h : n < modulus) :
    bits - leadingZeros n - 1 = n.log2 := by
  have hlog : n.log2 < bits := (Nat.log2_lt hn).mpr h
  rw [leadingZeros, if_neg hn]
  simp only [bits] at *
  omega

/-- `usize::BITS - n.leading_zeros()` is the number of bits of `n`. -/
theorem bits_sub_leadingZeros_le {n k : ℕ} (h : n < modulus) :
    bits - leadingZeros n ≤ k ↔ n < 2 ^ k := by
  rcases Nat.eq_zero_or_pos n with rfl | hpos
  · exact iff_of_true (Nat.zero_le k) (Nat.two_pow_pos k)
  · have hn := Nat.pos_iff_ne_zero.mp hpos
    have hlog : n.log2 < bits := (Nat.log2_lt hn).mpr h
    rw [leadingZeros, if_neg hn, ← Nat.log2_lt hn]
    omega

end Koe.Usize

namespace Koe.Isize

variable {σ : Type}

/-- `a as isize`. -/
def ofUsize (a : ℕ) : ℤ := if a < 2 ^ 63 then a else (a : ℤ) - 2 ^ 64

/-- `a as usize`. -/
def toUsize (a : ℤ) : ℕ := (a % 2 ^ 64).toNat

/-- `usize::try_from(a).ok()`. -/
def tryToUsize (a : ℤ) : Option ℕ := if 0 ≤ a then some a.toNat else none

/-- `a - b`. -/
def sub (a b : ℤ) : Code σ ℤ :=
  if -2 ^ 63 ≤ a - b ∧ a - b < 2 ^ 63 then pure (a - b) else throw .overflow

/-- An integer that is an `isize`. -/
def Fits (a : ℤ) : Prop := -2 ^ 63 ≤ a ∧ a < 2 ^ 63

instance (a : ℤ) : Decidable (Fits a) := inferInstanceAs (Decidable (_ ∧ _))

/-- `a + b`. -/
def add (a b : ℤ) : Code σ ℤ := if Fits (a + b) then pure (a + b) else throw .overflow

theorem preserves_sub {I : σ → Prop} (a b : ℤ) : Code.Preserves I (sub a b) :=
  Code.preserves_ite (Code.preserves_pure _) (Code.preserves_throw _)

theorem ofUsize_of_lt {a : ℕ} (h : a < 2 ^ 63) : ofUsize a = a := if_pos h

theorem sub_of_mem {a b : ℤ} (h : -2 ^ 63 ≤ a - b ∧ a - b < 2 ^ 63) (s : σ) :
    (sub a b).run s = .ok (a - b) s := by
  rw [sub, if_pos h]; rfl

theorem add_of_fits {a b : ℤ} (h : Fits (a + b)) (s : σ) : (add a b).run s = .ok (a + b) s := by
  rw [add, if_pos h]; rfl

theorem sub_eq_ok {a b c : ℤ} {s s' : σ} (h : (sub a b).run s = .ok c s') : c = a - b ∧ s = s' := by
  unfold sub at h
  split at h
  · cases h; exact ⟨rfl, rfl⟩
  · exact nomatch h

theorem fits_of_sub_eq_ok {a b c : ℤ} {s s' : σ} (h : (sub a b).run s = .ok c s') :
    Fits (a - b) := by
  unfold sub at h
  split at h
  · assumption
  · exact nomatch h

theorem add_eq_ok {a b c : ℤ} {s s' : σ} (h : (add a b).run s = .ok c s') :
    Fits (a + b) ∧ c = a + b ∧ s = s' := by
  unfold add at h
  split at h
  · cases h; exact ⟨by assumption, rfl, rfl⟩
  · exact nomatch h

/-- Casts to `isize` and back lose nothing in a difference. -/
theorem toUsize_sub {a b : ℕ} (h : b ≤ a) (ha : a < 2 ^ 64) :
    toUsize (ofUsize a - ofUsize b) = a - b := by
  unfold toUsize ofUsize
  split <;> split <;> omega

/-- A difference of two casts is the difference itself, or off by `2 ^ 64` where one of the two
alone is cast to a negative number. -/
theorem ofUsize_sub_cases (a b : ℕ) :
    ((a < 2 ^ 63 ↔ b < 2 ^ 63) ∧ ofUsize a - ofUsize b = (a : ℤ) - b) ∨
    (a < 2 ^ 63 ∧ 2 ^ 63 ≤ b ∧ ofUsize a - ofUsize b = (a : ℤ) - b + 2 ^ 64) ∨
    (2 ^ 63 ≤ a ∧ b < 2 ^ 63 ∧ ofUsize a - ofUsize b = (a : ℤ) - b - 2 ^ 64) := by
  unfold ofUsize
  split <;> split <;> omega

/-- `a.try_into().unwrap_or(0)`. -/
theorem tryToUsize_getD (a : ℤ) : (tryToUsize a).getD 0 = a.toNat := by
  unfold tryToUsize
  split
  · rfl
  · rw [Option.getD_none, Int.toNat_of_nonpos (by omega)]

@[simp] theorem tryToUsize_natCast (a : ℕ) : tryToUsize a = some a := by simp [tryToUsize]

theorem toUsize_natCast {a : ℕ} (h : a < 2 ^ 64) : toUsize a = a := by
  rw [toUsize]; omega

end Koe.Isize

namespace Koe.U16

variable {σ : Type}

/-- The result of an operation on `u16`; panics if it is none. -/
def checked (n : ℕ) : Code σ ℕ := if n < 2 ^ 16 then pure n else throw .overflow

theorem checked_of_lt {n : ℕ} (h : n < 2 ^ 16) (s : σ) : (checked n).run s = .ok n s := by
  rw [checked, if_pos h]; rfl

end Koe.U16
