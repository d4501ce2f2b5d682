import Mathlib.Algebra.Order.Ring.Nat
import Mathlib.Data.Nat.Bitwise
import Mathlib.Tactic.NormNum
import Mathlib.Tactic.Ring

/-!
Bytes inside a word.

A word of several bytes is a number, its `i`-th byte is a digit of that
number to the base 256, and arithmetic on the word acts on every byte at
once, up to a carry from the bytes below. What a trick on whole words
decides about single bytes is read off the top bit of each of them.
-/

namespace Lane

/-- The `i`-th byte of a word. -/
def byte (x i : ℕ) : ℕ := x / 256 ^ i % 256

theorem byte_lt (x i : ℕ) : byte x i < 256 := Nat.mod_lt _ (by omega)

/-- The top bit of a byte, as a bit of the word. -/
theorem testBit_top (x i : ℕ) : x.testBit (8 * i + 7) = decide (128 ≤ byte x i) := by
  have hpow : (2 : ℕ) ^ (8 * i + 7) = 256 ^ i * 128 := by
    rw [pow_add, pow_mul]
    norm_num
  rw [Nat.testBit_eq_decide_div_mod_eq, hpow, ← Nat.div_div_eq_div_mul, decide_eq_decide, byte]
  omega

/-- What an addition carries into the `i`-th byte. -/
def carry (x y i : ℕ) : ℕ := (x % 256 ^ i + y % 256 ^ i) / 256 ^ i

theorem carry_le_one (x y i : ℕ) : carry x y i ≤ 1 := by
  have hpos : 0 < 256 ^ i := Nat.pow_pos (by omega)
  have hx := Nat.mod_lt x hpos
  have hy := Nat.mod_lt y hpos
  exact Nat.lt_succ_iff.mp ((Nat.div_lt_iff_lt_mul hpos).mpr (by omega))

@[simp] theorem carry_zero (x y : ℕ) : carry x y 0 = 0 := by simp [carry, Nat.mod_one]

/-- A byte carries when it overflows. -/
theorem carry_succ (x y i : ℕ) :
    carry x y (i + 1) = (byte x i + byte y i + carry x y i) / 256 := by
  have hpos : 0 < 256 ^ i := Nat.pow_pos (by omega)
  have hsum : x % 256 ^ (i + 1) + y % 256 ^ (i + 1) =
      x % 256 ^ i + y % 256 ^ i + 256 ^ i * (byte x i + byte y i) := by
    rw [Nat.mod_pow_succ, Nat.mod_pow_succ, byte, byte]
    ring
  rw [carry, hsum, pow_succ, ← Nat.div_div_eq_div_mul, Nat.add_mul_div_left _ _ hpos, carry,
    Nat.add_comm]

/-- Bytes that do not overflow carry nothing. -/
theorem carry_eq_zero {x y i : ℕ} (h : ∀ j < i, byte x j + byte y j < 256) : carry x y i = 0 := by
  induction i with
  | zero => exact carry_zero x y
  | succ i ih =>
      have hcarry := ih fun j hj => h j (Nat.lt_succ_of_lt hj)
      rw [carry_succ, hcarry]
      exact Nat.div_eq_of_lt (h i (Nat.lt_succ_self i))

/-- A carry out of the lowest byte goes through bytes that lack one. -/
theorem carry_eq_one {x y i : ℕ} (hfirst : 256 ≤ byte x 0 + byte y 0)
    (h : ∀ j, 0 < j → j ≤ i → 255 ≤ byte x j + byte y j) : carry x y (i + 1) = 1 := by
  have hle := carry_le_one x y (i + 1)
  have hpos : 0 < carry x y (i + 1) := by
    induction i with
    | zero =>
        rw [carry_succ]
        exact Nat.div_pos (by rw [carry_zero]; exact hfirst) (by omega)
    | succ i ih =>
        have hcarry := ih (fun j h0 hj => h j h0 (Nat.le_succ_of_le hj)) (carry_le_one x y _)
        have hbytes := h (i + 1) (Nat.succ_pos i) le_rfl
        rw [carry_succ]
        exact Nat.div_pos (by omega) (by omega)
  omega

/-- A byte of a sum is the sum of the bytes and the carry. -/
theorem byte_add (x y i : ℕ) :
    byte (x + y) i = (byte x i + byte y i + carry x y i) % 256 := by
  have hpos : 0 < 256 ^ i := Nat.pow_pos (by omega)
  have hcarry : carry x y i = if 256 ^ i ≤ x % 256 ^ i + y % 256 ^ i then 1 else 0 := by
    have hle := carry_le_one x y i
    split
    · have : 0 < carry x y i := Nat.div_pos (by assumption) hpos
      omega
    · exact Nat.div_eq_of_lt (by omega)
  rw [hcarry, byte, byte, byte, Nat.add_div hpos]
  omega

/-- A byte does not see what lies above the word. -/
theorem byte_mod {n i : ℕ} (x : ℕ) (h : i < n) : byte (x % 256 ^ n) i = byte x i := by
  obtain ⟨k, rfl⟩ : ∃ k, n = i + 1 + k := ⟨n - (i + 1), by omega⟩
  have hpow : 256 ^ (i + 1 + k) = 256 ^ i * (256 * 256 ^ k) := by ring
  rw [byte, byte, hpow, Nat.mod_mul_right_div_self, Nat.mod_mul_right_mod]

/-- The number written with the bytes `bs`, the lowest first. -/
def word (bs : List ℕ) : ℕ := bs.foldr (fun b w => b + 256 * w) 0

theorem byte_word {bs : List ℕ} (hbs : ∀ b ∈ bs, b < 256) (i : ℕ) :
    byte (word bs) i = bs.getD i 0 := by
  induction bs generalizing i with
  | nil => simp [word, byte]
  | cons b bs ih =>
      have hb : b < 256 := hbs b (by simp)
      cases i with
      | zero =>
          simp only [byte, word, List.foldr_cons, pow_zero, Nat.div_one, List.getD_cons_zero]
          omega
      | succ i =>
          have hdiv : (b + 256 * word bs) / 256 ^ (i + 1) = word bs / 256 ^ i := by
            rw [pow_succ', ← Nat.div_div_eq_div_mul]
            congr 1
            omega
          have htail := ih (fun c hc => hbs c (by simp [hc])) i
          rw [byte] at htail
          rw [byte, List.getD_cons_succ, ← htail]
          exact congrArg (· % 256) hdiv

theorem word_lt {bs : List ℕ} (hbs : ∀ b ∈ bs, b < 256) : word bs < 256 ^ bs.length := by
  induction bs with
  | nil => simp [word]
  | cons b bs ih =>
      have hb : b < 256 := hbs b (by simp)
      have htail := ih fun c hc => hbs c (by simp [hc])
      simp only [word, List.foldr_cons, List.length_cons, pow_succ'] at htail ⊢
      omega

end Lane
