import PicoHttpParser.Head.Growth
import PicoHttpParser.Lib.Program
import Mathlib.Data.List.GetD

/-!
The readers of a head as programs, in the form in which both implementations
have them: runs of bytes are loops that return a position, and the blanks at
the end of a value are found by counting its length down.
-/

namespace PicoHttpParser.Head

open Incremental Incremental.Reader

/-! ### Windows of the buffer -/

theorem take_drop_succ {buf : List UInt8} {start len : ℕ} (h : start < buf.length) :
    (buf.drop start).take (len + 1) = buf[start] :: (buf.drop (start + 1)).take len := by
  rw [List.drop_eq_getElem_cons h, List.take_succ_cons]

theorem getElem?_window {buf : List UInt8} {pos n i : ℕ} (h : pos + n ≤ buf.length) (hi : i < n) :
    buf[pos + i]? = some (((buf.drop pos).take n).getD i 0) := by
  rw [List.getD_eq_getElem _ _ (by simp; omega), List.getElem?_eq_getElem (by omega)]
  simp

/-! ### Parts of a head -/

variable {ε σ ω : Type} [Signals ε] {publish : σ → ω → σ}

/-- A run of bytes as a span, and the position behind it. -/
theorem realize_span (f : UInt8 → Act) (buf : List UInt8) (pos : ℕ) :
    (realize publish (do
        let start ← position
        scan f
        let p ← position
        pure (start, p - start) : Reader UInt8 ω Span) buf pos : EStateM ε σ (Span × ℕ)) =
      lift ((scanFrom f buf pos).settle >>= fun r => .ok ((pos, r.2 - pos), r.2)) := by
  simp only [realize_bind, realize_position, pure_bind, realize_pure, lift_bind, realize_scan]
  rfl

/-- A scan as a loop that returns the position. -/
theorem lift_scanFrom (f : UInt8 → Act) (buf : List UInt8) (pos : ℕ) :
    (lift (scanFrom f buf pos).settle : EStateM ε σ (Unit × ℕ)) =
      (fun q => ((), q)) <$> lift ((scanFrom f buf pos).settle >>= fun r => .ok r.2) := by
  cases scanFrom f buf pos <;> rfl

/-- Whether the first byte is looked at does not matter: where there is none,
the buffer has ended, and a scan will find out one byte further. -/
theorem realize_skipPast (f : UInt8 → Act) (buf : List UInt8) (pos : ℕ) :
    (realize publish (skipPast f) buf pos : EStateM ε σ (Unit × ℕ)) =
      (fun q => ((), q)) <$> lift ((scanFrom f buf (pos + 1)).settle >>= fun r => .ok r.2) := by
  rw [skipPast, realize_bind, realize_next_bind]
  cases hb : buf[pos]? with
  | none =>
      have hend : buf[pos + 1]? = none := by
        rw [List.getElem?_eq_none_iff] at hb ⊢
        omega
      rw [scanFrom_none hend]
      rfl
  | some b =>
      dsimp only
      rw [realize_scan, lift_scanFrom]

/-- A program that returns the rest of a line as a span. -/
theorem realize_text {x : ℕ → Except ε ℕ} {buf : List UInt8} {pos : ℕ}
    (hx : ∀ u q, scanFrom textAct buf pos = .done (u, q) →
      realize publish eol buf q = (fun q => ((), q)) <$> lift (x q)) :
    (fun r => ((r.1.1, r.1.2.length), r.2)) <$> realize publish text buf pos =
      lift ((scanFrom textAct buf pos).settle >>= fun r =>
        x r.2 >>= fun q => .ok ((pos, r.2 - pos), q)) := by
  simp only [text, realize_bind, realize_position, realize_captured, realize_scan, pure_bind,
    bind_map_left, map_bind, lift_bind]
  cases h : scanFrom textAct buf pos with
  | more => rfl
  | fail => rfl
  | done r =>
      obtain ⟨u, q⟩ := r
      obtain ⟨hle, hlt, -⟩ := scanFrom_done h
      have hlen : ((buf.drop pos).take (q - pos)).length = q - pos := by simp; omega
      show (realize publish eol buf q >>= _) = lift (x q) >>= _
      simp only [hx u q h, bind_map_left, realize_pure, map_pure, hlen]
      rfl

omit [Signals ε] in
/-- The trimmed length counts the bytes up to the last one that is no blank. -/
theorem trim_eq {f : ℕ → Except ε ℕ} {buf : List UInt8} {start : ℕ} (hzero : f 0 = .ok 0)
    (hsucc : ∀ len b, buf[start + len]? = some b →
      f (len + 1) = if IsBlank b then f len else .ok (len + 1))
    (len : ℕ) (h : start + len ≤ buf.length) :
    f len =
      .ok (((buf.drop start).take len).rdropWhile fun b => decide (IsBlank b)).length := by
  induction len with
  | zero => exact hzero
  | succ len ih =>
      have hb : buf[start + len]? = some buf[start + len] := List.getElem?_eq_getElem (by omega)
      have htake : (buf.drop start).take (len + 1) =
          (buf.drop start).take len ++ [buf[start + len]] := by
        rw [List.take_add_one]
        simp [hb]
      rw [hsucc len _ hb, htake, List.rdropWhile_concat]
      by_cases hblank : IsBlank buf[start + len]
      · rw [if_pos hblank, ih (by omega), if_pos (decide_eq_true hblank)]
      · rw [if_neg hblank, if_neg (by simpa using hblank)]
        simp
        omega

end PicoHttpParser.Head
