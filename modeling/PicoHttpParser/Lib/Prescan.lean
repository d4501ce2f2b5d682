import Mathlib.Data.List.Infix

/-!
Scans ahead of a loop.

A loop that looks at one element in each turn may be started further right,
behind elements that it steps over anyway. So a scan that compares a block of
elements at once with a few ranges changes nothing, as long as the ranges
contain every element at which the loop does something else. The instructions
for such a scan are those of SSE4.2.
-/

namespace Incremental

variable {β γ : Type}

/-- From `p` to `q` there are elements of one kind. -/
structure Stretch (P : β → Prop) (buf : List β) (p q : ℕ) : Prop where
  le : p ≤ q
  all : ∀ i, p ≤ i → i < q → ∃ b, buf[i]? = some b ∧ P b

namespace Stretch

variable {P : β → Prop} {buf : List β} {p q r : ℕ}

theorem refl (p : ℕ) : Stretch P buf p p :=
  ⟨le_rfl, fun _ hle hlt => absurd hlt (Nat.not_lt.mpr hle)⟩

theorem trans (hpq : Stretch P buf p q) (hqr : Stretch P buf q r) : Stretch P buf p r where
  le := hpq.le.trans hqr.le
  all i hpi hir := by
    rcases Nat.lt_or_ge i q with hiq | hqi
    · exact hpq.all i hpi hiq
    · exact hqr.all i hqi hir

theorem single {b : β} (hb : buf[p]? = some b) (h : P b) : Stretch P buf p (p + 1) where
  le := Nat.le_succ p
  all i hpi hip := by
    obtain rfl : i = p := by omega
    exact ⟨b, hb, h⟩

/-- A loop that steps over such elements may be started behind them. -/
theorem loop_eq (h : Stretch P buf p q) (loop : ℕ → γ)
    (hloop : ∀ i b, buf[i]? = some b → P b → loop i = loop (i + 1)) : loop p = loop q := by
  obtain ⟨n, rfl⟩ := Nat.exists_eq_add_of_le h.le
  induction n with
  | zero => rfl
  | succ n ih =>
      have hfront : Stretch P buf p (p + n) :=
        ⟨Nat.le_add_right p n, fun i hpi hi => h.all i hpi (hi.trans (Nat.lt_succ_self _))⟩
      obtain ⟨b, hb, hP⟩ := h.all (p + n) (Nat.le_add_right p n) (Nat.lt_succ_self _)
      rw [ih hfront, hloop (p + n) b hb hP]
      rfl

end Stretch

/-! ### The instructions -/

/-- Between two bounds, which are paired as they come. -/
def inRanges : List UInt8 → UInt8 → Bool
  | lo :: hi :: ranges, b => (lo ≤ b && b ≤ hi) || inRanges ranges b
  | _, _ => false

/-- `_mm_loadu_si128`, within an object. -/
def loadu (buf : List UInt8) (p : ℕ) : Option (List UInt8) :=
  if p + 16 ≤ buf.length then some ((buf.drop p).take 16) else none

/-- `_mm_cmpestri` in the mode `_SIDD_LEAST_SIGNIFICANT | _SIDD_CMP_RANGES |
_SIDD_UBYTE_OPS`: the first of the `lb` bytes of `b` in one of the ranges that
the first `la` bytes of `a` bound, or 16. -/
def cmpestri (a : List UInt8) (la : ℕ) (b : List UInt8) (lb : ℕ) : ℕ :=
  ((b.take lb).findIdx? (inRanges (a.take la))).getD 16

section

variable {buf : List UInt8} {p : ℕ}

theorem loadu_eq_some (h : p + 16 ≤ buf.length) :
    loadu buf p = some ((buf.drop p).take 16) := if_pos h

/-- The bytes of a block, at their places in the buffer. -/
theorem getElem?_block {i : ℕ} (h : i < 16) :
    ((buf.drop p).take 16)[i]? = buf[p + i]? := by
  rw [List.getElem?_take_of_lt h, List.getElem?_drop]

/-- What an index says of a block. -/
theorem cmpestri_spec (ranges : List UInt8) (n : ℕ) (h : p + 16 ≤ buf.length) {r : ℕ}
    (hr : cmpestri ranges n ((buf.drop p).take 16) 16 = r) :
    Stretch (fun b => inRanges (ranges.take n) b = false) buf p (p + r) ∧
      (r ≠ 16 → r < 16 ∧ ∃ b, buf[p + r]? = some b ∧ inRanges (ranges.take n) b = true) := by
  have hlen : ((buf.drop p).take 16).length = 16 := by
    rw [List.length_take, List.length_drop]
    omega
  have hskip (k : ℕ) (hk : k ≤ 16)
      (hnone : ∀ i (hi : i < ((buf.drop p).take 16).length), i < k →
        inRanges (ranges.take n) ((buf.drop p).take 16)[i] = false) :
      Stretch (fun b => inRanges (ranges.take n) b = false) buf p (p + k) := by
    refine ⟨Nat.le_add_right p k, fun i hpi hi => ?_⟩
    obtain ⟨i, rfl⟩ := Nat.exists_eq_add_of_le hpi
    have hik : i < k := Nat.lt_of_add_lt_add_left hi
    have hi16 : i < ((buf.drop p).take 16).length := by omega
    refine ⟨_, ?_, hnone i hi16 hik⟩
    rw [← getElem?_block (hik.trans_le hk), List.getElem?_eq_getElem hi16]
  unfold cmpestri at hr
  rw [List.take_of_length_le hlen.le] at hr
  cases hfind : ((buf.drop p).take 16).findIdx? (inRanges (ranges.take n)) with
  | none =>
      rw [hfind] at hr
      obtain rfl : 16 = r := hr
      rw [List.findIdx?_eq_none_iff] at hfind
      exact ⟨hskip 16 le_rfl fun i hi _ => hfind _ (List.getElem_mem hi), fun h => absurd rfl h⟩
  | some k =>
      rw [hfind] at hr
      obtain rfl : k = r := hr
      obtain ⟨hk, hfound, hbefore⟩ := List.findIdx?_eq_some_iff_getElem.mp hfind
      have hk16 : k < 16 := hlen ▸ hk
      refine ⟨hskip k hk16.le fun i hi hik => by simpa using hbefore i hik, fun _ =>
        ⟨hk16, _, ?_, hfound⟩⟩
      rw [← getElem?_block hk16, List.getElem?_eq_getElem hk]

end

end Incremental
