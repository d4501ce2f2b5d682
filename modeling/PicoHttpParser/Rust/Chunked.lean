import PicoHttpParser.Rust.Core
import PicoHttpParser.Abi

/-!
The chunked decoder, `chunked.rs`, and its part of `ffi.rs`.

The locals of `decode_chunked` are a record, and the buffer is one of them:
it is rewritten while it is read. `break 'out` is an exception that carries
the outcome and the locals to the epilogue, and `continue` is the return of
the chain that was running.
-/

namespace PicoHttpParser.Rust.Chunked

open Incremental

abbrev stSize : Int8 := 0
abbrev stExt : Int8 := 1
abbrev stExpectLf : Int8 := 2
abbrev stData : Int8 := 3
abbrev stDataCr : Int8 := 4
abbrev stDataLf : Int8 := 5
abbrev stTrailHead : Int8 := 6
abbrev stTrailMid : Int8 := 7

/-- `is_in_data` -/
def isInData (dec : PhrChunkedDecoder) : Bool := dec.state == stData

/-- `hex_val` -/
def hexVal (b : UInt8) : Option UInt8 :=
  if 0x30 ≤ b ∧ b ≤ 0x39 then some (b - 0x30)
  else if 0x41 ≤ b ∧ b ≤ 0x46 then some (b - 0x41 + 0xa)
  else if 0x61 ≤ b ∧ b ≤ 0x66 then some (b - 0x61 + 0xa)
  else none

/-- The local variables of `decode_chunked`. `bufsz` is the length of `buf`,
which does not change. -/
structure Locals where
  st : Int8
  left : UInt64
  hex : Int8
  src : ℕ
  dst : ℕ
  buf : List UInt8

/-- How the loop ends. -/
inductive Break where
  | out (err : Option Error) (l : Locals)
  | panic (l : Locals)

abbrev Chain := Except Break

/-- `buf[src]` -/
def byte (l : Locals) : Chain UInt8 :=
  match l.buf[l.src]? with
  | none => throw (.panic l)
  | some b => pure b

/-- `buf.copy_within(src..src + n, dst)`, guarded by `dst != src`. -/
def moveDown (l : Locals) (n : ℕ) : Chain (List UInt8) :=
  if l.dst = l.src then pure l.buf
  else if l.src + n ≤ l.buf.length ∧ l.dst + n ≤ l.buf.length then
    pure (l.buf.take l.dst ++ (l.buf.drop l.src).take n ++ l.buf.drop (l.dst + n))
  else throw (.panic l)

/-! ### Chain A -/

/-- The loop over the digits of a size. The comparison of the digit count
with `size_of::<usize>() * 2` is one of the sign-extended count, and its
increment wraps. -/
def sizeLoop (l : Locals) : Chain Locals :=
  if l.src = l.buf.length then throw (.out (some .Partial) l)
  else
    match _h : l.buf[l.src]? with
    | none => throw (.panic l)
    | some b =>
      match hexVal b with
      | none =>
        if l.hex = 0 then throw (.out (some .Malformed) l)
        else if b = SP ∨ b = HTAB ∨ b = 0x3b ∨ b = LF ∨ b = CR then pure l
        else throw (.out (some .Malformed) l)
      | some v =>
        if l.hex = 16 then throw (.out (some .Malformed) l)
        else
          sizeLoop
            { l with left := l.left * 16 + v.toUInt64, hex := l.hex + 1, src := l.src + 1 }
  termination_by l.buf.length - l.src
  decreasing_by
    have := (List.getElem?_eq_some_iff.mp _h).1
    omega

/-- A loop that looks for a byte, which it stops in front of. -/
def scanLoop (f : UInt8 → Reader.Act) (l : Locals) : Chain Locals :=
  if l.src = l.buf.length then throw (.out (some .Partial) l)
  else
    match _h : l.buf[l.src]? with
    | none => throw (.panic l)
    | some b =>
      match f b with
      | .stop => pure l
      | .bad => throw (.out (some .Malformed) l)
      | .skip => scanLoop f { l with src := l.src + 1 }
  termination_by l.buf.length - l.src
  decreasing_by
    have := (List.getElem?_eq_some_iff.mp _h).1
    omega

/-- The loop over a chunk extension, up to CR. -/
def extLoop : Locals → Chain Locals :=
  scanLoop fun b => if b = CR then .stop else if b = LF then .bad else .skip

/-- `SIZE`, when that is the state. -/
def size (l : Locals) : Chain Locals :=
  if l.st = stSize then do
    let l ← sizeLoop l
    pure { l with hex := 0, st := stExt }
  else pure l

/-- `EXT`, when that is the state. -/
def ext (l : Locals) : Chain Locals :=
  if l.st = stExt then do
    let l ← extLoop l
    pure { l with src := l.src + 1, st := stExpectLf }
  else pure l

/-- A byte that must come next, and is consumed. -/
def expect (ch : UInt8) (l : Locals) : Chain Locals :=
  if l.src = l.buf.length then throw (.out (some .Partial) l)
  else do
    let b ← byte l
    if b ≠ ch then throw (.out (some .Malformed) l)
    else pure { l with src := l.src + 1 }

/-- `SIZE`, `EXT`, `EXPECT_LF`. -/
def chainA (consumeTrailer : Int8) (l : Locals) : Chain Locals := do
  let l ← size l
  let l ← ext l
  let l ← expect LF l
  if l.left = 0 then
    if consumeTrailer ≠ 0 then pure { l with st := stTrailHead }
    -- complete, and the state stays `EXPECT_LF`
    else throw (.out none l)
  else pure { l with st := stData }

/-! ### Chain B -/

/-- `DATA`, when that is the state. -/
def data (l : Locals) : Chain Locals :=
  if l.st = stData then
    let avail := l.buf.length - l.src
    if avail < l.left.toNat then do
      let buf ← moveDown l avail
      throw (.out (some .Partial)
        { l with
          buf := buf, src := l.src + avail, dst := l.dst + avail
          left := l.left - UInt64.ofNat avail })
    else do
      let n := l.left.toNat
      let buf ← moveDown l n
      pure { l with buf := buf, src := l.src + n, dst := l.dst + n, left := 0, st := stDataCr }
  else pure l

/-- `DATA_CR`, when that is the state. -/
def dataCr (l : Locals) : Chain Locals :=
  if l.st = stDataCr then do
    let l ← expect CR l
    pure { l with st := stDataLf }
  else pure l

/-- `DATA`, `DATA_CR`, `DATA_LF`. -/
def chainB (l : Locals) : Chain Locals := do
  let l ← data l
  let l ← dataCr l
  let l ← expect LF l
  pure { l with st := stSize }

/-! ### Chain C -/

/-- `TRAIL_HEAD`, when that is the state. -/
def trailHead (l : Locals) : Chain Locals :=
  if l.st = stTrailHead then do
    let l ← scanLoop (fun b => if b ≠ CR then .stop else .skip) l
    let b ← byte l
    -- the LF of an empty line is consumed before the decoder completes
    let l := { l with src := l.src + 1 }
    if b = LF then throw (.out none l)
    else pure { l with st := stTrailMid }
  else pure l

/-- `TRAIL_MID`, when that is the state. -/
def trailMid (l : Locals) : Chain Locals :=
  if l.st = stTrailMid then do
    let l ← scanLoop (fun b => if b = LF then .stop else .skip) l
    pure { l with src := l.src + 1, st := stTrailHead }
  else pure l

/-- `TRAIL_HEAD`, `TRAIL_MID`. -/
def chainC (l : Locals) : Chain Locals := do
  let l ← trailHead l
  trailMid l

/-- The body of the loop. -/
def chain (consumeTrailer : Int8) (l : Locals) : Chain Locals :=
  if l.st = stSize ∨ l.st = stExt ∨ l.st = stExpectLf then chainA consumeTrailer l
  else if l.st = stData ∨ l.st = stDataCr ∨ l.st = stDataLf then chainB l
  else if l.st = stTrailHead ∨ l.st = stTrailMid then chainC l
  -- `unreachable!`, which a forged state reaches
  else throw (.panic l)

/-! ### Where a chain leaves off

The loop ends because each chain that returns has consumed a byte. -/

theorem sizeLoop_bounds {l l' : Locals} (h : sizeLoop l = .ok l') :
    l.src ≤ l'.src ∧ l'.buf = l.buf := by
  fun_induction sizeLoop l with
  | case4 =>
      obtain rfl := Except.ok.inj h
      exact ⟨le_rfl, rfl⟩
  | case7 l _ b _ v _ _ ih =>
      obtain ⟨hle, hbuf⟩ := ih h
      exact ⟨(Nat.le_succ _).trans hle, hbuf⟩
  | _ => cases h

theorem scanLoop_bounds {f : UInt8 → Reader.Act} {l l' : Locals} (h : scanLoop f l = .ok l') :
    l.src ≤ l'.src ∧ l'.src < l'.buf.length ∧ l'.buf = l.buf := by
  fun_induction scanLoop f l with
  | case3 l _ b hb =>
      obtain rfl := Except.ok.inj h
      exact ⟨le_rfl, (List.getElem?_eq_some_iff.mp hb).1, rfl⟩
  | case5 l _ b hb _ ih =>
      obtain ⟨hle, hlt, hbuf⟩ := ih h
      exact ⟨(Nat.le_succ _).trans hle, hlt, hbuf⟩
  | _ => cases h

theorem size_bounds {l l' : Locals} (h : size l = .ok l') : l.src ≤ l'.src ∧ l'.buf = l.buf := by
  unfold size at h
  split at h
  · obtain ⟨l₁, h₁, h⟩ := except_bind_eq_ok h
    obtain ⟨hle, hbuf⟩ := sizeLoop_bounds h₁
    obtain rfl := Except.ok.inj h
    exact ⟨hle, hbuf⟩
  · obtain rfl := Except.ok.inj h
    exact ⟨le_rfl, rfl⟩

theorem ext_bounds {l l' : Locals} (h : ext l = .ok l') : l.src ≤ l'.src ∧ l'.buf = l.buf := by
  unfold ext at h
  split at h
  · obtain ⟨l₁, h₁, h⟩ := except_bind_eq_ok h
    obtain rfl := Except.ok.inj h
    obtain ⟨hle, -, hbuf⟩ := scanLoop_bounds h₁
    exact ⟨hle.trans (Nat.le_succ _), hbuf⟩
  · obtain rfl := Except.ok.inj h
    exact ⟨le_rfl, rfl⟩

theorem byte_lt {l : Locals} {b : UInt8} (h : byte l = .ok b) : l.src < l.buf.length := by
  unfold byte at h
  split at h
  · cases h
  · rename_i hb
    exact (List.getElem?_eq_some_iff.mp hb).1

theorem expect_bounds {ch : UInt8} {l l' : Locals} (h : expect ch l = .ok l') :
    l'.src = l.src + 1 ∧ l'.src ≤ l'.buf.length ∧ l'.buf = l.buf := by
  unfold expect at h
  split at h
  · cases h
  · obtain ⟨b, hb, h⟩ := except_bind_eq_ok h
    split at h
    · cases h
    · obtain rfl := Except.ok.inj h
      exact ⟨rfl, byte_lt hb, rfl⟩

theorem moveDown_length {l : Locals} {n : ℕ} {buf : List UInt8} (h : moveDown l n = .ok buf) :
    buf.length = l.buf.length := by
  unfold moveDown at h
  split at h
  · rw [← Except.ok.inj h]
  split at h
  · rw [← Except.ok.inj h]
    simp only [List.length_append, List.length_take, List.length_drop]
    omega
  · cases h

theorem data_bounds {l l' : Locals} (h : data l = .ok l') :
    l.src ≤ l'.src ∧ l'.buf.length = l.buf.length := by
  unfold data at h
  dsimp only at h
  split at h
  · split at h
    · obtain ⟨buf, -, h⟩ := except_bind_eq_ok h
      cases h
    · obtain ⟨buf, hbuf, h⟩ := except_bind_eq_ok h
      obtain rfl := Except.ok.inj h
      exact ⟨Nat.le_add_right _ _, moveDown_length hbuf⟩
  · obtain rfl := Except.ok.inj h
    exact ⟨le_rfl, rfl⟩

theorem dataCr_bounds {l l' : Locals} (h : dataCr l = .ok l') :
    l.src ≤ l'.src ∧ l'.buf = l.buf := by
  unfold dataCr at h
  split at h
  · obtain ⟨l₁, h₁, h⟩ := except_bind_eq_ok h
    obtain rfl := Except.ok.inj h
    obtain ⟨hsrc, -, hbuf⟩ := expect_bounds h₁
    exact ⟨by rw [hsrc]; exact Nat.le_succ _, hbuf⟩
  · obtain rfl := Except.ok.inj h
    exact ⟨le_rfl, rfl⟩

theorem trailHead_bounds {l l' : Locals} (h : trailHead l = .ok l') :
    l.src ≤ l'.src ∧ l'.buf = l.buf ∧ (l.st = stTrailHead → l'.st = stTrailMid) ∧
      (l.st ≠ stTrailHead → l' = l) := by
  unfold trailHead at h
  split at h
  · rename_i hst
    obtain ⟨l₁, h₁, h⟩ := except_bind_eq_ok h
    obtain ⟨b, -, h⟩ := except_bind_eq_ok h
    obtain ⟨hle, -, hbuf⟩ := scanLoop_bounds h₁
    dsimp only at h
    split at h
    · cases h
    · obtain rfl := Except.ok.inj h
      exact ⟨hle.trans (Nat.le_succ _), hbuf, fun _ => rfl, fun hne => absurd hst hne⟩
  · rename_i hst
    obtain rfl := Except.ok.inj h
    exact ⟨le_rfl, rfl, fun heq => absurd heq hst, fun _ => rfl⟩

theorem trailMid_bounds {l l' : Locals} (hst : l.st = stTrailMid) (h : trailMid l = .ok l') :
    l.src < l'.src ∧ l'.src ≤ l'.buf.length ∧ l'.buf = l.buf := by
  unfold trailMid at h
  rw [if_pos hst] at h
  obtain ⟨l₁, h₁, h⟩ := except_bind_eq_ok h
  obtain rfl := Except.ok.inj h
  obtain ⟨hle, hlt, hbuf⟩ := scanLoop_bounds h₁
  exact ⟨Nat.lt_succ_of_le hle, hlt, hbuf⟩

theorem chain_bounds {consumeTrailer : Int8} {l l' : Locals}
    (h : chain consumeTrailer l = .ok l') :
    l.src < l'.src ∧ l'.src ≤ l'.buf.length ∧ l'.buf.length = l.buf.length := by
  unfold chain at h
  split at h
  · obtain ⟨l₁, h₁, h⟩ := except_bind_eq_ok h
    obtain ⟨l₂, h₂, h⟩ := except_bind_eq_ok h
    obtain ⟨l₃, h₃, h⟩ := except_bind_eq_ok h
    obtain ⟨hle₁, hbuf₁⟩ := size_bounds h₁
    obtain ⟨hle₂, hbuf₂⟩ := ext_bounds h₂
    obtain ⟨hsrc, hlen, hbuf₃⟩ := expect_bounds h₃
    have hkeep : l'.src = l₃.src ∧ l'.buf = l₃.buf := by
      split at h
      · split at h
        · obtain rfl := Except.ok.inj h
          exact ⟨rfl, rfl⟩
        · cases h
      · obtain rfl := Except.ok.inj h
        exact ⟨rfl, rfl⟩
    rw [hkeep.1, hkeep.2]
    exact ⟨by omega, hlen, by rw [hbuf₃, hbuf₂, hbuf₁]⟩
  split at h
  · obtain ⟨l₁, h₁, h⟩ := except_bind_eq_ok h
    obtain ⟨l₂, h₂, h⟩ := except_bind_eq_ok h
    obtain ⟨l₃, h₃, h⟩ := except_bind_eq_ok h
    obtain ⟨hle₁, hbuf₁⟩ := data_bounds h₁
    obtain ⟨hle₂, hbuf₂⟩ := dataCr_bounds h₂
    obtain ⟨hsrc, hlen, hbuf₃⟩ := expect_bounds h₃
    obtain rfl := Except.ok.inj h
    exact ⟨by dsimp only; omega, hlen, by dsimp only; rw [hbuf₃, hbuf₂, hbuf₁]⟩
  split at h
  · rename_i hst
    obtain ⟨l₁, h₁, h⟩ := except_bind_eq_ok h
    obtain ⟨hle, hbuf, hhead, hmid⟩ := trailHead_bounds h₁
    have hst₁ : l₁.st = stTrailMid := by
      by_cases hst' : l.st = stTrailHead
      · exact hhead hst'
      · rw [hmid hst']
        exact hst.resolve_left hst'
    obtain ⟨hlt, hlen, hbuf'⟩ := trailMid_bounds hst₁ h
    exact ⟨hle.trans_lt hlt, hlen, by rw [hbuf', hbuf]⟩
  · cases h

/-! ### The decoder -/

/-- `'out: loop` -/
def decodeFrom (consumeTrailer : Int8) (l : Locals) : Break :=
  match _h : chain consumeTrailer l with
  | .error b => b
  | .ok l' => decodeFrom consumeTrailer l'
  termination_by l.buf.length - l.src
  decreasing_by
    have := chain_bounds _h
    omega

/-- The locals the loop starts with. -/
def enter (dec : PhrChunkedDecoder) (buf : List UInt8) : Locals where
  st := dec.state
  left := dec.bytesLeftInChunk
  hex := dec.hexCount
  src := 0
  dst := 0
  buf := buf

/-- The accounting on entry. -/
def countRead (dec : PhrChunkedDecoder) (bufsz : ℕ) : PhrChunkedDecoder :=
  { dec with totalRead := dec.totalRead + UInt64.ofNat bufsz }

/-- The overhead rule, after `_total_overhead` has been brought up to date. -/
def isOverhead (dec : PhrChunkedDecoder) : Bool :=
  dec.totalOverhead ≥ 100 * 1024 && dec.totalRead - dec.totalOverhead < dec.totalRead / 4

/-- The epilogue: the status, the decoded length, the decoder and the buffer. -/
def epilogue (dec : PhrChunkedDecoder) (err : Option Error) (l : Locals) :
    EStateM.Result Fault (PhrChunkedDecoder × List UInt8) (Except Error ℕ × ℕ) :=
  let bufsz := l.buf.length
  -- written back on every exit, a rejection included
  let dec := { dec with state := l.st, bytesLeftInChunk := l.left, hexCount := l.hex }
  match moveDown l (bufsz - l.src) with
  | .error _ => .error .panic (dec, l.buf)
  | .ok buf =>
    match err with
    | none => .ok (.ok (bufsz - l.src), l.dst) (dec, buf)
    | some .Malformed => .ok (.error .Malformed, l.dst) (dec, buf)
    | some .Partial =>
      let dec :=
        { dec with totalOverhead := dec.totalOverhead + UInt64.ofNat (bufsz - l.dst) }
      if isOverhead dec then .ok (.error .Malformed, l.dst) (dec, buf)
      else .ok (.error .Partial, l.dst) (dec, buf)

/-- `decode_chunked` -/
def decodeChunked : EStateM Fault (PhrChunkedDecoder × List UInt8) (Except Error ℕ × ℕ) :=
  fun (dec, buf) =>
    let dec := countRead dec buf.length
    match decodeFrom dec.consumeTrailer (enter dec buf) with
    | .out err l => epilogue dec err l
    -- a panic unwinds past the epilogue, so only `_total_read` has changed
    | .panic l => .error .panic (dec, l.buf)

end PicoHttpParser.Rust.Chunked

namespace PicoHttpParser.Rust

/-! ### `phr_decode_chunked` -/

/-- The pointers passed to `phr_decode_chunked`. -/
structure DecodeArgs where
  decoder : ℕ
  buf : ℕ
  bufsz : ℕ

/-- What the pointers passed to `phr_decode_chunked` point to: the decoder,
the `*bufsz` bytes at `buf`, and `*bufsz` itself. -/
structure DecodeMem where
  decoder : PhrChunkedDecoder
  buf : List UInt8
  bufsz : ℕ

/-- `phr_decode_chunked`, with the return value of a panic. A leftover is
the length of a part of an object in memory, which an `isize` holds. -/
def phrDecodeChunked (a : DecodeArgs) (dec : PhrChunkedDecoder) (buf : List UInt8) :
    ℤ × DecodeMem :=
  if a.decoder = 0 ∨ a.bufsz = 0 then (-1, ⟨dec, buf, buf.length⟩)
  else if buf.length ≠ 0 ∧ a.buf = 0 then (-1, ⟨dec, buf, buf.length⟩)
  else
    match Chunked.decodeChunked (dec, buf) with
    | .ok (.ok leftover, decoded) (dec, buf) => (leftover, ⟨dec, buf, decoded⟩)
    | .ok (.error .Partial, decoded) (dec, buf) => (-2, ⟨dec, buf, decoded⟩)
    | .ok (.error .Malformed, decoded) (dec, buf) => (-1, ⟨dec, buf, decoded⟩)
    | .error _ (dec, buf') => (-1, ⟨dec, buf', buf.length⟩)

/-- `phr_decode_chunked_is_in_data`, from the pointer and what it points to. -/
def phrDecodeChunkedIsInData (decoder : ℕ) (dec : PhrChunkedDecoder) : Int32 :=
  if decoder = 0 then 0 else if Chunked.isInData dec then 1 else 0

end PicoHttpParser.Rust
