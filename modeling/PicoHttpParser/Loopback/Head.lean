import PicoHttpParser.Head.Words
import PicoHttpParser.Loopback.Library

/-!
The loops for heads.

Both sides receive a head bit by bit, reset their variables, and call the
parser on all they have, with the length at the call before as the hint.
`HeadTurned` is what such a turn shows of the stream so far, for either kind of
head.
-/

namespace PicoHttpParser.Loopback

open Incremental Incremental.Reader Head

/-- `sizeof(buf)` -/
abbrev bufSize : ℕ := 4096

/-- `sizeof(headers) / sizeof(headers[0])` -/
abbrev headersLen : ℕ := 32

/-- The first `have` bytes of `buf`, and what the parser writes to. -/
structure HeadLoop (σ : Type) where
  buf : List UInt8
  mem : σ

section

variable {σ α : Type}

/-- A loop for heads behind its `recv`: `reset` are the assignments in front of
the call of `parse`. -/
def headTurn (parse : List UInt8 → ℕ → σ → Option (Int32 × σ)) (reset : σ → σ) (text : String)
    (s : HeadLoop σ) (bs : List UInt8) : HeadLoop σ ⊕ Except Stop (Int32 × HeadLoop σ) :=
  let prev := s.buf.length
  let buf := s.buf ++ bs
  match parse buf prev (reset s.mem) with
  | none => .inr (.error .undefined)
  | some (ret, mem) =>
    if ret = -2 then .inl ⟨buf, mem⟩
    else if ret < 0 then .inr (.error (.fail (text ++ toString ret)))
    else .inr (.ok (ret, ⟨buf, mem⟩))

/-- What a turn shows of what has been received, `got`, of which the last read
has brought `n` bytes. -/
inductive HeadTurned (bytes : α → List UInt8) (Room : α → Prop) (Shows : HeadLoop σ → α → Prop)
    (text : String) (got : List UInt8) (n : ℕ) :
    HeadLoop σ ⊕ Except Stop (Int32 × HeadLoop σ) → Prop
  | waits {s : HeadLoop σ} (hbuf : s.buf = got) (h : NoWord bytes Room got) :
      HeadTurned bytes Room Shows text got n (.inl s)
  | malformed (h : ∀ ext, NoWord bytes Room (got ++ ext)) :
      HeadTurned bytes Room Shows text got n
        (.inr (.error (.fail (text ++ toString (-1 : Int32)))))
  | head {x : α} {rest : List UInt8} {ret : Int32} {s : HeadLoop σ} (hbuf : s.buf = got)
      (hgot : got = bytes x ++ rest) (hrest : rest.length < n) (hx : Room x)
      (hret : ret.toInt = (bytes x).length) (hshows : Shows s x) :
      HeadTurned bytes Room Shows text got n (.inr (.ok (ret, s)))

section

variable {p : Reader UInt8 Event Unit} {bytes : α → List UInt8} {events : α → List Event}
  {Room : α → Prop} {Shows : HeadLoop σ → α → Prop} {publish : σ → Event → σ}
  {zeroed reset : σ → σ} {parse : List UInt8 → ℕ → σ → Option (Int32 × σ)}

theorem headTurn_rule (hwords : Words p bytes events Room) (hne : ∀ x, 0 < (bytes x).length)
    (hparse : ∀ {buf lastLen}, lastLen ≤ buf.length → ∀ mem,
      parse buf lastLen (reset mem) = some (answer publish p buf lastLen (zeroed mem)))
    (hshows : ∀ x rest mem,
      Shows ⟨bytes x ++ rest, (events x).foldl publish (zeroed mem)⟩ x)
    (text : String) {s : HeadLoop σ} {bs : List UInt8} (hnone : NoWord bytes Room s.buf)
    (hlen : (s.buf ++ bs).length ≤ bufSize) :
    HeadTurned bytes Room Shows text (s.buf ++ bs) bs.length (headTurn parse reset text s bs) := by
  have htold := hwords.told publish (zeroed s.mem) hne hnone (hlen.trans_lt (by decide))
  unfold headTurn
  dsimp only
  rw [hparse (List.prefix_append s.buf bs).length_le]
  generalize answer publish p (s.buf ++ bs) s.buf.length (zeroed s.mem) = r at htold ⊢
  cases htold with
  | fail h =>
      dsimp only
      rw [if_neg (by decide), if_pos (by decide)]
      exact .malformed h
  | more h =>
      dsimp only
      rw [if_pos rfl]
      exact .waits rfl h
  | done hx hbuf hpos hret =>
      rename_i x rest ret
      have hneg : ¬ret < 0 := fun h => Int32.lt_irrefl (Int32.lt_trans hpos h)
      have hne : ret ≠ -2 := by
        rintro rfl
        exact absurd hpos (by decide)
      have hnew := hnone.lt hx ⟨rest, hbuf.symm⟩
      have htotal := congrArg List.length hbuf
      rw [List.length_append, List.length_append] at htotal
      dsimp only
      rw [if_neg hne, if_neg hneg]
      exact .head rfl hbuf (by omega) hx hret (hbuf ▸ hshows x rest s.mem)

end

end

end PicoHttpParser.Loopback
