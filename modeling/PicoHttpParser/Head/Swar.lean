import PicoHttpParser.Lib.Lane
import PicoHttpParser.Rust.Core
import Mathlib.Tactic.IntervalCases

/-!
The filter of the port's value scan.

The scan skips eight bytes at once when one subtraction and one addition on
the word they form raise no top bit. A byte that must not be skipped raises
its own top bit whatever carry comes in from below, so a verdict "clean" is
a verdict on every byte. Where every byte is printable nothing is carried and
nothing is borrowed, so a verdict "dirty" is no false alarm either.
-/

namespace PicoHttpParser.Head

open Lane Rust

/-- Inside the range the filter lets pass. -/
def IsPrintable (b : UInt8) : Prop := 0x20 ≤ b ∧ b ≤ 0x7e

theorem fromLeBytes_toNat {w : List UInt8} (h : w.length ≤ 8) :
    (fromLeBytes w).toNat = word (w.map UInt8.toNat) := by
  induction w with
  | nil => rfl
  | cons b w ih =>
      have hbytes : ∀ n ∈ (b :: w).map UInt8.toNat, n < 256 := by
        simpa using ⟨b.toNat_lt, fun c _ => c.toNat_lt⟩
      have hlt := word_lt hbytes
      have hpow : 256 ^ ((b :: w).map UInt8.toNat).length ≤ 256 ^ 8 :=
        Nat.pow_le_pow_right (by omega) (by simpa using h)
      have htail := ih (by simp at h; omega)
      simp only [fromLeBytes, word, List.foldr_cons, List.map_cons] at htail hlt ⊢
      rw [UInt64.toNat_add, UInt64.toNat_mul, htail, UInt8.toNat_toUInt64]
      simp at *
      omega

/-! ### The two tests, byte by byte -/

theorem testBit_swarHi {i : ℕ} (h : i < 8) : swarHi.toNat.testBit (8 * i + 7) = true := by
  interval_cases i <;> rfl

/-- The filter keeps the top bit of each of the eight bytes, and no other. -/
theorem testBit_swarHi_of_ne {j : ℕ} (h : ∀ i < 8, j ≠ 8 * i + 7) :
    swarHi.toNat.testBit j = false := by
  rcases Nat.lt_or_ge j 64 with hj | hj
  · have hall : ∀ j < 64, (∀ i < 8, j ≠ 8 * i + 7) → swarHi.toNat.testBit j = false := by decide
    exact hall j hj h
  · exact Nat.testBit_lt_two_pow (swarHi.toNat_lt.trans_le (Nat.pow_le_pow_right (by omega) hj))

theorem byte_ones {i : ℕ} (h : i < 8) : byte (swarLo * (127 - 0x7e)).toNat i = 1 := by
  interval_cases i <;> rfl

/-- Subtracting a blank from every byte is adding these, modulo the word. -/
theorem byte_blanks {i : ℕ} (h : i < 8) :
    byte (2 ^ 64 - (swarLo * 0x20).toNat) i = if i = 0 then 0xe0 else 0xdf := by
  interval_cases i <;> rfl

theorem testBit_not (x : UInt64) {j : ℕ} (h : j < 64) :
    (~~~x).toNat.testBit j = !x.toNat.testBit j := by
  have hsub : UInt64.size - 1 - x.toNat = 2 ^ 64 - (x.toNat + 1) := by
    simp only [UInt64.size]
    omega
  rw [UInt64.toNat_not, hsub, Nat.testBit_two_pow_sub_succ x.toNat_lt]
  simp [h]

/-- The `i`-th byte raises its flag. -/
def Flagged (x : UInt64) (i : ℕ) : Prop :=
  (128 ≤ byte (x - swarLo * 0x20).toNat i ∧ byte x.toNat i < 128) ∨
    128 ≤ byte (x + swarLo * (127 - 0x7e)).toNat i ∨ 128 ≤ byte x.toNat i

/-- The flag is the top bit of the byte in the word the filter looks at. -/
theorem testBit_flags (x : UInt64) {i : ℕ} (hi : i < 8) :
    ((x - swarLo * 0x20) &&& ~~~x &&& swarHi |||
        ((x + swarLo * (127 - 0x7e)) ||| x) &&& swarHi).toNat.testBit (8 * i + 7) = true ↔
      Flagged x i := by
  simp only [UInt64.toNat_or, UInt64.toNat_and, Nat.testBit_or, Nat.testBit_and,
    testBit_not x (show 8 * i + 7 < 64 by omega), testBit_swarHi hi]
  simp only [Flagged, testBit_top, Bool.and_true, Bool.or_eq_true, Bool.and_eq_true,
    Bool.not_eq_true', decide_eq_true_eq, decide_eq_false_iff_not, Nat.not_le]

/-- The verdict of the filter is that of the flags. -/
theorem hasOutsidePrintable_iff (x : UInt64) :
    hasOutsidePrintable x = true ↔ ∃ i < 8, Flagged x i := by
  rw [hasOutsidePrintable, bne_iff_ne, ne_eq, ← UInt64.toNat_inj]
  constructor
  · intro hne
    obtain ⟨j, hj⟩ := Nat.exists_testBit_of_ne_zero hne
    by_contra hnone
    have hmask : swarHi.toNat.testBit j = true := by
      simp only [UInt64.toNat_or, UInt64.toNat_and, Nat.testBit_or, Nat.testBit_and,
        ← Bool.and_or_distrib_right, Bool.and_eq_true] at hj
      exact hj.2
    by_cases htop : ∃ i < 8, j = 8 * i + 7
    · obtain ⟨i, hi, rfl⟩ := htop
      exact hnone ⟨i, hi, (testBit_flags x hi).mp hj⟩
    · rw [testBit_swarHi_of_ne fun i hi hij => htop ⟨i, hi, hij⟩] at hmask
      cases hmask
  · rintro ⟨i, hi, hflag⟩ hzero
    have hbit := (testBit_flags x hi).mpr hflag
    rw [hzero] at hbit
    simp at hbit

theorem byte_add_ones (x : UInt64) {i : ℕ} (hi : i < 8) :
    byte (x + swarLo * (127 - 0x7e)).toNat i =
      (byte x.toNat i + 1 + carry x.toNat (swarLo * (127 - 0x7e)).toNat i) % 256 := by
  rw [UInt64.toNat_add, show (2 : ℕ) ^ 64 = 256 ^ 8 by rfl, byte_mod _ hi, byte_add, byte_ones hi]

theorem byte_sub_blanks (x : UInt64) {i : ℕ} (hi : i < 8) :
    byte (x - swarLo * 0x20).toNat i =
      ((if i = 0 then 0xe0 else 0xdf) + byte x.toNat i +
        carry (2 ^ 64 - (swarLo * 0x20).toNat) x.toNat i) % 256 := by
  rw [UInt64.toNat_sub, show (2 : ℕ) ^ 64 = 256 ^ 8 by rfl, byte_mod _ hi, byte_add,
    show (256 : ℕ) ^ 8 = 2 ^ 64 by rfl, byte_blanks hi]

/-- A byte outside the range raises its flag, whatever the bytes below it do. -/
theorem flagged_of_outside {x : UInt64} {i : ℕ} (hi : i < 8)
    (h : byte x.toNat i < 0x20 ∨ 0x7e < byte x.toNat i) : Flagged x i := by
  have hb := byte_lt x.toNat i
  have hones := carry_le_one x.toNat (swarLo * (127 - 0x7e)).toNat i
  have hblanks := carry_le_one (2 ^ 64 - (swarLo * 0x20).toNat) x.toNat i
  have hfirst : i = 0 → carry (2 ^ 64 - (swarLo * 0x20).toNat) x.toNat i = 0 := by
    rintro rfl
    exact carry_zero _ _
  rw [Flagged, byte_add_ones x hi, byte_sub_blanks x hi]
  generalize carry x.toNat (swarLo * (127 - 0x7e)).toNat i = c at *
  generalize carry (2 ^ 64 - (swarLo * 0x20).toNat) x.toNat i = d at *
  split <;> omega

/-- Where all bytes are in the range the addition carries nothing and the
subtraction borrows nothing, so no flag is raised. -/
theorem not_flagged {x : UInt64}
    (h : ∀ j < 8, 0x20 ≤ byte x.toNat j ∧ byte x.toNat j ≤ 0x7e) {i : ℕ} (hi : i < 8) :
    ¬Flagged x i := by
  have hrange := h i hi
  have hones : carry x.toNat (swarLo * (127 - 0x7e)).toNat i = 0 := by
    refine carry_eq_zero fun j hj => ?_
    have hclean := h j (hj.trans hi)
    rw [byte_ones (hj.trans hi)]
    omega
  rw [Flagged, byte_add_ones x hi, byte_sub_blanks x hi, hones]
  cases i with
  | zero =>
      rw [carry_zero, if_pos rfl]
      omega
  | succ i =>
      have hblanks : carry (2 ^ 64 - (swarLo * 0x20).toNat) x.toNat (i + 1) = 1 := by
        refine carry_eq_one ?_ fun j h0 hj => ?_
        · have hclean := h 0 (by omega)
          rw [byte_blanks (by omega), if_pos rfl]
          omega
        · have hclean := h j (by omega)
          rw [byte_blanks (by omega), if_neg h0.ne']
          omega
      rw [hblanks, if_neg (Nat.succ_ne_zero i)]
      omega

/-- The filter flags a word exactly when one of its eight bytes is outside the
range. -/
theorem outside_printable_iff (x : UInt64) :
    hasOutsidePrintable x = true ↔
      ∃ i < 8, byte x.toNat i < 0x20 ∨ 0x7e < byte x.toNat i := by
  rw [hasOutsidePrintable_iff]
  constructor
  · rintro ⟨i, hi, hflag⟩
    by_contra hnone
    refine not_flagged (fun j hj => ?_) hi hflag
    by_contra hout
    exact hnone ⟨j, hj, by omega⟩
  · rintro ⟨i, hi, hout⟩
    exact ⟨i, hi, flagged_of_outside hi hout⟩

theorem byte_printable_of_clear {x : UInt64} (h : hasOutsidePrintable x = false) {i : ℕ}
    (hi : i < 8) : 0x20 ≤ byte x.toNat i ∧ byte x.toNat i ≤ 0x7e := by
  by_contra hout
  have hflag : hasOutsidePrintable x = true :=
    (hasOutsidePrintable_iff x).mpr ⟨i, hi, flagged_of_outside hi (by omega)⟩
  rw [h] at hflag
  cases hflag

/-- A window the filter finds clean holds printable bytes only. -/
theorem printable_of_clear {w : List UInt8} (hlen : w.length = 8)
    (h : hasOutsidePrintable (fromLeBytes w) = false) : ∀ b ∈ w, IsPrintable b := by
  intro b hb
  obtain ⟨i, hi, rfl⟩ := List.mem_iff_getElem.mp hb
  have hbytes : ∀ n ∈ w.map UInt8.toNat, n < 256 := by
    simpa using fun b _ => b.toNat_lt
  have hbyte : byte (fromLeBytes w).toNat i = w[i].toNat := by
    rw [fromLeBytes_toNat hlen.le, byte_word hbytes]
    simp [hi]
  have hrange := byte_printable_of_clear h (i := i) (by omega)
  rw [hbyte] at hrange
  exact ⟨UInt8.le_iff_toNat_le.mpr hrange.1, UInt8.le_iff_toNat_le.mpr hrange.2⟩

end PicoHttpParser.Head
