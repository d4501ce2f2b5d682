import PicoHttpParser.Lib.Prescan
import PicoHttpParser.Reference.Heads

/-!
The head parsers of `picohttpparser.c`, compiled with SSE4.2.

Three functions call `findchar_fast` to get ahead in blocks of 16 bytes, and
those that call one of the three are compiled anew. Everything else is the
same in both builds. The ranges are chosen so that the loops behind the call
step over what is outside of them.
-/

namespace PicoHttpParser.Reference.Sse

open Incremental

/-- The loop of `findchar_fast`: the position, and whether it is `*found`. -/
def findcharLoop (ranges16 : List UInt8) (rangesSize : ℕ) (buf : List UInt8) (p left : ℕ) :
    Res (ℕ × Bool) :=
  match loadu buf p with
  | none => .error .undefined
  | some b16 =>
    let r := cmpestri ranges16 rangesSize b16 16
    if r ≠ 16 then .ok (p + r, true)
    else if _hleft : left - 16 ≠ 0 then
      findcharLoop ranges16 rangesSize buf (p + 16) (left - 16)
    else .ok (p + 16, false)
  termination_by left
  decreasing_by omega

/-- `findchar_fast` -/
def findcharFast (buf : List UInt8) (p : ℕ) (ranges : List UInt8) (rangesSize : ℕ) :
    Res (ℕ × Bool) :=
  if 16 ≤ buf.length - p then
    match loadu ranges 0 with
    | none => .error .undefined
    | some ranges16 =>
      -- `(buf_end - buf) & ~15`
      findcharLoop ranges16 rangesSize buf p ((buf.length - p) / 16 * 16)
  else .ok (p, false)

/-- `ranges1`, in `get_token_to_eol` -/
def ranges1 : List UInt8 :=
  [0, 0o10, 0o12, 0o37, 0o177, 0o177, 0, 0, 0, 0, 0, 0, 0, 0, 0, 0]

/-- `ranges2`, in `ADVANCE_TOKEN` -/
def ranges2 : List UInt8 := [0, 0o40, 0o177, 0o177, 0, 0, 0, 0, 0, 0, 0, 0, 0, 0, 0, 0]

/-- `ranges`, in `parse_token` -/
def tokenRanges : List UInt8 :=
  [0x00, 0x20, 0x22, 0x22, 0x28, 0x29, 0x2c, 0x2c, 0x2f, 0x2f, 0x3a, 0x40, 0x5b, 0x5d, 0x7b, 0xff]

/-- `if (!found) { CHECK_EOF(); }` -/
def checkNotFound (buf : List UInt8) (p : ℕ) (found : Bool) : Res Unit :=
  if !found then checkEof buf p else .ok ()

/-- `get_token_to_eol` -/
def getTokenToEol (buf : List UInt8) (pos : ℕ) : Res (Span × ℕ) := do
  let (p, found) ← findcharFast buf pos ranges1 6
  let p ← (if found then .ok p else slowLoop buf p)
  foundCtl buf pos p

/-- `parse_token` -/
def parseToken (buf : List UInt8) (pos : ℕ) (nextChar : UInt8) : Res (Span × ℕ) := do
  let (p, found) ← findcharFast buf pos tokenRanges 16
  checkNotFound buf p found
  let p ← parseTokenFrom buf nextChar p
  pure ((pos, p - pos), p)

/-- `ADVANCE_TOKEN(tok, toklen)` -/
def advanceToken (buf : List UInt8) (pos : ℕ) : Res (Span × ℕ) := do
  let (p, found) ← findcharFast buf pos ranges2 4
  checkNotFound buf p found
  let p ← advanceTokenFrom buf p
  pure ((pos, p - pos), p)

/-! ### What is stepped over

A loop behind `findchar_fast` may as well be started where it is called. -/

section

variable {buf : List UInt8}

theorem findcharLoop_spec {ranges : List UInt8} {n : ℕ} {p left : ℕ} (hpos : left ≠ 0)
    (hdvd : 16 ∣ left) (h : p + left ≤ buf.length) :
    ∃ q found, findcharLoop ranges n buf p left = .ok (q, found) ∧
      Stretch (fun b => inRanges (ranges.take n) b = false) buf p q ∧
      (found = true → ∃ b, buf[q]? = some b ∧ inRanges (ranges.take n) b = true) := by
  induction hm : left using Nat.strong_induction_on generalizing p left with
  | _ m ih =>
      subst hm
      have hle : 16 ≤ left := Nat.le_of_dvd (Nat.pos_of_ne_zero hpos) hdvd
      have hp : p + 16 ≤ buf.length := by omega
      obtain ⟨hskip, hfound⟩ := cmpestri_spec ranges n hp rfl
      rw [findcharLoop, loadu_eq_some hp]
      dsimp only
      generalize cmpestri ranges n ((buf.drop p).take 16) 16 = r at hskip hfound ⊢
      by_cases hr : r = 16
      · subst hr
        rw [if_neg (by simp)]
        split
        · rename_i hmore
          have hless : left - 16 < left := by omega
          have hdvd' : 16 ∣ left - 16 := Nat.dvd_sub hdvd (Nat.dvd_refl 16)
          obtain ⟨q, found, hq, hstretch, hfound'⟩ :=
            ih (left - 16) hless hmore hdvd' (p := p + 16) (by omega) rfl
          exact ⟨q, found, hq, hskip.trans hstretch, hfound'⟩
        · exact ⟨p + 16, false, rfl, hskip, fun h => absurd h Bool.false_ne_true⟩
      · rw [if_pos hr]
        exact ⟨p + r, true, rfl, hskip, fun _ => (hfound hr).2⟩

/-- `findchar_fast` reads within the buffer, steps over bytes outside of the
ranges, and what it finds is in one of them. -/
theorem findcharFast_spec (buf : List UInt8) (p : ℕ) {ranges : List UInt8}
    (hranges : ranges.length = 16) (n : ℕ) :
    ∃ q found, findcharFast buf p ranges n = .ok (q, found) ∧
      Stretch (fun b => inRanges (ranges.take n) b = false) buf p q ∧
      (found = true → ∃ b, buf[q]? = some b ∧ inRanges (ranges.take n) b = true) := by
  unfold findcharFast
  split
  · rename_i hlen
    have hload : loadu ranges 0 = some ranges := by
      rw [loadu_eq_some (by omega), List.drop_zero, List.take_of_length_le hranges.le]
    rw [hload]
    exact findcharLoop_spec (by omega) (Nat.dvd_mul_left _ _) (by omega)
  · exact ⟨p, false, rfl, .refl p, fun h => absurd h Bool.false_ne_true⟩

theorem derefChecked_eq_ok {i : ℕ} {b : UInt8} (hb : buf[i]? = some b) :
    derefChecked buf i = .ok b := by
  have hlt := (List.getElem?_eq_some_iff.mp hb).1
  rw [derefChecked, checkEof, if_neg hlt.ne, deref, hb]
  rfl

/-- A byte at which `get_token_to_eol` leaves its loops. -/
def stops (b : UInt8) : Bool := !isPrintableAscii b && isCtl b

theorem slowLoop_skip {i : ℕ} {b : UInt8} (hb : buf[i]? = some b) (h : stops b = false) :
    slowLoop buf i = slowLoop buf (i + 1) := by
  rw [slowLoop]
  split <;> rename_i hd <;> rw [derefChecked_eq_ok hb] at hd
  · cases hd
  · obtain rfl := Except.ok.inj hd
    rw [if_neg]
    rw [stops] at h
    rw [h]
    exact Bool.false_ne_true

theorem slowLoop_stop {i : ℕ} {b : UInt8} (hb : buf[i]? = some b) (h : stops b = true) :
    slowLoop buf i = .ok i := by
  rw [slowLoop]
  split <;> rename_i hd <;> rw [derefChecked_eq_ok hb] at hd
  · cases hd
  · obtain rfl := Except.ok.inj hd
    exact if_pos h

theorem deref_eq_ok {i : ℕ} {b : UInt8} (hb : buf[i]? = some b) : deref buf i = .ok b := by
  rw [deref, hb]

/-- A round of the build without SSE4.2. -/
theorem doit_spec {k p : ℕ} (h : p + k ≤ buf.length) :
    ∃ q found, doit buf k p = .ok (q, found) ∧ Stretch (fun b => stops b = false) buf p q ∧
      (found = true → ∃ b, buf[q]? = some b ∧ isPrintableAscii b = false) := by
  induction k generalizing p with
  | zero => exact ⟨p, false, rfl, .refl p, fun h => absurd h Bool.false_ne_true⟩
  | succ k ih =>
      have hb : buf[p]? = some buf[p] := List.getElem?_eq_getElem (by omega)
      rw [doit, deref_eq_ok hb]
      cases hprint : isPrintableAscii buf[p] with
      | false => exact ⟨p, true, if_pos (by rw [hprint]; rfl), .refl p, fun _ => ⟨_, hb, hprint⟩⟩
      | true =>
          obtain ⟨q, found, hq, hskip, hfound⟩ := ih (p := p + 1) (by omega)
          have hstep : stops buf[p] = false := by rw [stops, hprint]; rfl
          refine ⟨q, found, ?_, (Stretch.single hb hstep).trans hskip, hfound⟩
          show (if _ then _ else _) = _
          rw [if_neg (by rw [hprint]; exact Bool.false_ne_true), hq]

/-- The rounds of eight lead where the loop byte by byte does. -/
theorem fastLoop_bind (p : ℕ) :
    (fastLoop buf p >>= fun r => if r.2 then .ok r.1 else slowLoop buf r.1) = slowLoop buf p := by
  fun_induction fastLoop buf p with
  | case1 p hlen e hd =>
      obtain ⟨q, found, hq, -⟩ := doit_spec hlen
      rw [hd] at hq
      cases hq
  | case2 p hlen q hd ih =>
      obtain ⟨q', found, hq, hskip, -⟩ := doit_spec hlen
      rw [hd] at hq
      obtain ⟨rfl, -⟩ := Prod.mk.inj (Except.ok.inj hq)
      rw [ih]
      exact (hskip.loop_eq (slowLoop buf) fun _ _ => slowLoop_skip).symm
  | case3 p hlen q hd ih =>
      obtain ⟨q', found, hq, hskip, hfound⟩ := doit_spec hlen
      rw [hd] at hq
      obtain ⟨rfl, rfl⟩ := Prod.mk.inj (Except.ok.inj hq)
      obtain ⟨b, hb, hprint⟩ := hfound rfl
      have hslow : slowLoop buf p = slowLoop buf q :=
        hskip.loop_eq (slowLoop buf) fun _ _ => slowLoop_skip
      rw [deref_eq_ok hb, hslow]
      cases hctl : isCtl b with
      | true =>
          have hstop : stops b = true := by rw [stops, hprint, hctl]; rfl
          rw [slowLoop_stop hb hstop]
          show (if _ then _ else _) >>= _ = _
          rw [if_pos hctl]
          rfl
      | false =>
          have hstep : stops b = false := by rw [stops, hprint, hctl]; rfl
          rw [slowLoop_skip hb hstep, ← ih]
          show (if _ then _ else _) >>= _ = _
          rw [if_neg (by rw [hctl]; exact Bool.false_ne_true)]
  | case4 p hlen => rfl

/-! ### The three functions -/

theorem inRanges_ranges1 (b : UInt8) : inRanges (ranges1.take 6) b = stops b :=
  forall_byte (P := fun b => inRanges (ranges1.take 6) b = stops b) (by decide +kernel) b

theorem inRanges_ranges2 {b : UInt8} (h : inRanges (ranges2.take 4) b = false) :
    b ≠ SP ∧ ¬(!isPrintableAscii b ∧ (b < 0o40 ∨ b = 0o177)) :=
  forall_byte (P := fun b => inRanges (ranges2.take 4) b = false →
    b ≠ SP ∧ ¬(!isPrintableAscii b ∧ (b < 0o40 ∨ b = 0o177))) (by decide +kernel) b h

/-- All that is outside of the ranges are token characters. The converse fails
for two of them, which are left to the loop. -/
theorem inRanges_tokenRanges {b : UInt8} (h : inRanges (tokenRanges.take 16) b = false) :
    (b ≠ SP ∧ b ≠ 0x3a) ∧ tokenCharMap.getD b.toNat 0 ≠ 0 :=
  forall_byte (P := fun b => inRanges (tokenRanges.take 16) b = false →
    (b ≠ SP ∧ b ≠ 0x3a) ∧ tokenCharMap.getD b.toNat 0 ≠ 0) (by decide +kernel) b h

theorem getTokenToEol_eq (buf : List UInt8) (pos : ℕ) :
    getTokenToEol buf pos = Reference.getTokenToEol buf pos := by
  obtain ⟨q, found, hq, hskip, hfound⟩ :=
    findcharFast_spec buf pos (show ranges1.length = 16 from rfl) 6
  have hslow : slowLoop buf pos = slowLoop buf q :=
    hskip.loop_eq (slowLoop buf) fun _ _ hb h =>
      slowLoop_skip hb ((inRanges_ranges1 _).symm.trans h)
  have hstop : (if found then .ok q else slowLoop buf q : Res ℕ) = slowLoop buf pos := by
    cases found with
    | false => exact hslow.symm
    | true =>
        obtain ⟨b, hb, hin⟩ := hfound rfl
        rw [hslow, slowLoop_stop hb ((inRanges_ranges1 b).symm.trans hin)]
        rfl
  have hscalar : Reference.getTokenToEol buf pos = slowLoop buf pos >>= foundCtl buf pos := by
    rw [← fastLoop_bind pos, bind_assoc]
    rfl
  rw [hscalar, getTokenToEol, hq, ← hstop]
  rfl

/-- A loop behind `if (!found) { CHECK_EOF(); }`. -/
theorem checkNotFound_bind (loop : ℕ → Res ℕ) {P : UInt8 → Prop} {pos q : ℕ} {found : Bool}
    (hskip : Stretch P buf pos q) (hfound : found = true → ∃ b, buf[q]? = some b)
    (hloop : ∀ i b, buf[i]? = some b → P b →
      loop i = checkEof buf (i + 1) >>= fun _ => loop (i + 1)) :
    (checkNotFound buf q found >>= fun _ => loop q) = checkEof buf pos >>= fun _ => loop pos := by
  have hcheck {i : ℕ} {b : UInt8} (hb : buf[i]? = some b) : checkEof buf i = .ok () :=
    if_neg (List.getElem?_eq_some_iff.mp hb).1.ne
  have hscan : (checkEof buf pos >>= fun _ => loop pos) = checkEof buf q >>= fun _ => loop q :=
    hskip.loop_eq (fun p => checkEof buf p >>= fun _ => loop p) fun i b hb hP => by
      rw [hcheck hb, ← hloop i b hb hP]
      rfl
  rw [hscan]
  cases found with
  | false => rfl
  | true =>
      obtain ⟨b, hb⟩ := hfound rfl
      rw [hcheck hb]
      rfl

theorem parseToken_eq (buf : List UInt8) (pos : ℕ) {nextChar : UInt8}
    (hnext : nextChar = SP ∨ nextChar = 0x3a) :
    parseToken buf pos nextChar = Reference.parseToken buf pos nextChar := by
  obtain ⟨q, found, hq, hskip, hfound⟩ :=
    findcharFast_spec buf pos (show tokenRanges.length = 16 from rfl) 16
  have hloop := checkNotFound_bind (parseTokenFrom buf nextChar) hskip
    (fun h => (hfound h).imp fun _ => And.left) fun i b hb hout => by
      obtain ⟨⟨hsp, hcolon⟩, htoken⟩ := inRanges_tokenRanges hout
      have hne : b ≠ nextChar := by
        rintro rfl
        exact hnext.elim hsp hcolon
      rw [parseTokenFrom]
      split <;> rename_i hd <;> rw [deref_eq_ok hb] at hd
      · cases hd
      · obtain rfl := Except.ok.inj hd
        rw [if_neg hne, if_neg htoken]
  rw [Reference.parseToken, ← bind_assoc, ← hloop, parseToken, hq, bind_assoc]
  rfl

theorem advanceToken_eq (buf : List UInt8) (pos : ℕ) :
    advanceToken buf pos = Reference.advanceToken buf pos := by
  obtain ⟨q, found, hq, hskip, hfound⟩ :=
    findcharFast_spec buf pos (show ranges2.length = 16 from rfl) 4
  have hloop := checkNotFound_bind (advanceTokenFrom buf) hskip
    (fun h => (hfound h).imp fun _ => And.left) fun i b hb hout => by
      obtain ⟨hsp, hctl⟩ := inRanges_ranges2 hout
      rw [advanceTokenFrom]
      split <;> rename_i hd <;> rw [deref_eq_ok hb] at hd
      · cases hd
      · obtain rfl := Except.ok.inj hd
        rw [if_neg hsp, if_neg hctl]
  rw [Reference.advanceToken, ← bind_assoc, ← hloop, advanceToken, hq, bind_assoc]
  rfl

end

/-! ### Headers -/

/-- The name part of one header, up to where its value starts. -/
def headerName (base : ℕ) (buf : List UInt8) (pos : ℕ) (b : UInt8) :
    EStateM Stop HeaderMem ℕ := do
  let mem ← EStateM.get
  if !(mem.numHeaders ≠ 0 ∧ (b = SP ∨ b = HTAB)) then
    let ((ns, nl), p) ← lift (parseToken buf pos 0x3a)
    writeHeader fun h => { h with name := base + ns, nameLen := nl }
    let mem ← EStateM.get
    if (mem.headers mem.numHeaders).nameLen = 0 then throw (.ret (-1))
    else lift (skipWhitespace buf (p + 1))
  else
    writeHeader fun h => { h with name := 0, nameLen := 0 }
    pure pos

/-- One turn of the loop of `parse_headers`, its `++*num_headers` included. -/
def headerTurn (base : ℕ) (buf : List UInt8) (maxHeaders pos : ℕ) :
    EStateM Stop HeaderMem (ℕ ⊕ ℕ) := do
  let b ← lift (derefChecked buf pos)
  if b = CR then
    let pos ← lift (expectChar buf (pos + 1) LF)
    pure (.inr pos)
  else if b = LF then pure (.inr (pos + 1))
  else
    let mem ← EStateM.get
    if mem.numHeaders = maxHeaders then throw (.ret (-1))
    else
      let pos ← headerName base buf pos b
      let ((vs, vl), p) ← lift (getTokenToEol buf pos)
      let vl ← lift (trimValue buf vs vl)
      writeHeader fun h => { h with value := base + vs, valueLen := vl }
      modify fun mem => { mem with numHeaders := mem.numHeaders + 1 }
      pure (.inl p)

theorem headerTurn_eq (base : ℕ) (buf : List UInt8) (maxHeaders pos : ℕ) :
    headerTurn base buf maxHeaders pos = Reference.headerTurn base buf maxHeaders pos := by
  have hname (pos : ℕ) (b : UInt8) :
      headerName base buf pos b = Reference.headerName base buf pos b := by
    unfold headerName Reference.headerName
    rw [parseToken_eq buf pos (.inr rfl)]
  unfold headerTurn Reference.headerTurn
  simp only [hname, getTokenToEol_eq]

/-- `parse_headers` -/
def parseHeaders (base : ℕ) (buf : List UInt8) (maxHeaders pos : ℕ) : EStateM Stop HeaderMem ℕ :=
  fun mem =>
    match _h : headerTurn base buf maxHeaders pos mem with
    | .ok (.inl pos') mem' => parseHeaders base buf maxHeaders pos' mem'
    | .ok (.inr pos') mem' => .ok pos' mem'
    | .error e mem' => .error e mem'
  termination_by buf.length - pos
  decreasing_by
    rw [headerTurn_eq] at _h
    have := headerTurn_bounds _h
    omega

/-! ### The entry points -/

/-- `parse_request`. Each output is written when its scan returns. -/
def parseRequest (base : ℕ) (buf : List UInt8) (maxHeaders : ℕ) : EStateM Stop RequestMem ℕ := do
  let pos ← lift (skipEmptyLine buf 0)
  let ((ms, ml), p) ← lift (parseToken buf pos SP)
  modify fun mem => { mem with method := base + ms, methodLen := ml }
  let pos ← lift (skipSpaces buf p)
  let ((ps, pl), p) ← lift (advanceToken buf pos)
  modify fun mem => { mem with path := base + ps, pathLen := pl }
  let pos ← lift (skipSpaces buf p)
  -- the lengths are read back through the out-pointers
  let mem ← EStateM.get
  if mem.methodLen = 0 ∨ mem.pathLen = 0 then throw (.ret (-1))
  else
    let (v, pos) ← lift (parseHttpVersion buf pos)
    modify fun mem => { mem with minorVersion := v }
    let pos ← lift (endOfLine buf pos)
    zoom RequestMem.block (fun mem block => { mem with block := block })
      (parseHeaders base buf maxHeaders pos)

/-- `phr_parse_request` -/
def phrParseRequest (base : ℕ) (buf : List UInt8) (lastLen : ℕ) (mem : RequestMem) :
    Option (Int32 × RequestMem) :=
  let maxHeaders := mem.block.numHeaders
  let program : EStateM Stop RequestMem ℕ := do
    lift (precheck buf lastLen)
    parseRequest base buf maxHeaders
  returned <| program
    { method := 0, methodLen := 0, path := 0, pathLen := 0, minorVersion := -1,
      block := { mem.block with numHeaders := 0 } }

/-- `parse_response` -/
def parseResponse (base : ℕ) (buf : List UInt8) (maxHeaders : ℕ) :
    EStateM Stop ResponseMem ℕ := do
  let (v, pos) ← lift (parseHttpVersion buf 0)
  modify fun mem => { mem with minorVersion := v }
  let b ← lift (deref buf pos)
  if b ≠ SP then throw (.ret (-1))
  else
    let pos ← lift (skipSpaces buf pos)
    if buf.length - pos < 4 then throw (.ret (-2))
    else
      let pos ← parseInt3 buf pos
      let ((ms, ml), p) ← lift (getTokenToEol buf pos)
      publishReason base buf ms ml
      zoom ResponseMem.block (fun mem block => { mem with block := block })
        (parseHeaders base buf maxHeaders p)

/-- `phr_parse_response` -/
def phrParseResponse (base : ℕ) (buf : List UInt8) (lastLen : ℕ) (mem : ResponseMem) :
    Option (Int32 × ResponseMem) :=
  let maxHeaders := mem.block.numHeaders
  let program : EStateM Stop ResponseMem ℕ := do
    lift (precheck buf lastLen)
    parseResponse base buf maxHeaders
  returned <| program
    { minorVersion := -1, status := 0, msg := 0, msgLen := 0,
      block := { mem.block with numHeaders := 0 } }

/-- `phr_parse_headers` -/
def phrParseHeaders (base : ℕ) (buf : List UInt8) (lastLen : ℕ) (mem : HeaderMem) :
    Option (Int32 × HeaderMem) :=
  let maxHeaders := mem.numHeaders
  let program : EStateM Stop HeaderMem ℕ := do
    lift (precheck buf lastLen)
    parseHeaders base buf maxHeaders 0
  returned <| program { mem with numHeaders := 0 }

/-! ### The builds -/

theorem parseHeaders_eq (base : ℕ) (buf : List UInt8) (maxHeaders pos : ℕ) :
    parseHeaders base buf maxHeaders pos = Reference.parseHeaders base buf maxHeaders pos := by
  funext mem
  induction hn : buf.length - pos using Nat.strong_induction_on generalizing pos mem with
  | _ n ih =>
      subst hn
      rw [parseHeaders, Reference.parseHeaders]
      split <;> rename_i hd <;> rw [headerTurn_eq] at hd
      · rename_i pos' mem'
        have hlt := headerTurn_bounds hd
        split <;> rename_i hd' <;> rw [hd] at hd' <;> cases hd'
        exact ih (buf.length - pos') (by omega) pos' mem' rfl
      · split <;> rename_i hd' <;> rw [hd] at hd' <;> cases hd'
        rfl
      · split <;> rename_i hd' <;> rw [hd] at hd' <;> cases hd'
        rfl

theorem parseRequest_eq (base : ℕ) (buf : List UInt8) (maxHeaders : ℕ) :
    parseRequest base buf maxHeaders = Reference.parseRequest base buf maxHeaders := by
  unfold parseRequest Reference.parseRequest
  simp only [parseToken_eq _ _ (.inl rfl), advanceToken_eq, parseHeaders_eq]

theorem parseResponse_eq (base : ℕ) (buf : List UInt8) (maxHeaders : ℕ) :
    parseResponse base buf maxHeaders = Reference.parseResponse base buf maxHeaders := by
  unfold parseResponse Reference.parseResponse
  simp only [getTokenToEol_eq, parseHeaders_eq]

/-- Built with SSE4.2 the three entry points do what they do without it, on
every call: they return and write the same, and a call has no defined outcome
in one build only if it has none in the other. -/
theorem builds_agree (base : ℕ) (buf : List UInt8) (lastLen : ℕ) :
    (∀ mem, phrParseRequest base buf lastLen mem =
      Reference.phrParseRequest base buf lastLen mem) ∧
      (∀ mem, phrParseResponse base buf lastLen mem =
        Reference.phrParseResponse base buf lastLen mem) ∧
      ∀ mem, phrParseHeaders base buf lastLen mem =
        Reference.phrParseHeaders base buf lastLen mem := by
  refine ⟨fun mem => ?_, fun mem => ?_, fun mem => ?_⟩
  · unfold phrParseRequest Reference.phrParseRequest
    simp only [parseRequest_eq]
  · unfold phrParseResponse Reference.phrParseResponse
    simp only [parseResponse_eq]
  · unfold phrParseHeaders Reference.phrParseHeaders
    simp only [parseHeaders_eq]

end PicoHttpParser.Reference.Sse
