import PicoHttpParser.Lib.Shift
import PicoHttpParser.Head.Words

/-!
A head is its first line and a header block.

Both programs read the lines of a block wherever it stands. So the parser of a
request, and that of a response, answer behind the first line what the parser
of header blocks answers to the bytes that follow, and leave the same in the
caller's array.
-/

namespace PicoHttpParser.Head

open Incremental Incremental.Reader

/-! ### Header blocks behind something else -/

/-- The same part of the input, behind `n` bytes. -/
def shiftSpan (n : ℕ) (s : Span) : Span := (n + s.1, s.2)

def HeaderEvent.shift (n : ℕ) : HeaderEvent → HeaderEvent
  | .name i s => .name i (s.map (shiftSpan n))
  | .value i s => .value i (shiftSpan n s)

section

variable {ω : Type} {w : List UInt8} {e : ω → ω}

theorem shifts_eol : Shifts w e id (eol : Reader UInt8 ω Unit) eol := by
  refine .bind .next fun b => ?_
  dsimp only [id]
  split
  · refine .bind .next fun c => ?_
    dsimp only [id]
    split
    · exact .pure ()
    · exact .reject
  · split
    · exact .pure ()
    · exact .reject

theorem shifts_skipPast (f : UInt8 → Act) :
    Shifts w e id (skipPast f : Reader UInt8 ω Unit) (skipPast f) :=
  .bind .next fun _ => .scan f

theorem shifts_token (stop : UInt8) :
    Shifts w e (shiftSpan w.length) (token stop : Reader UInt8 ω Span) (token stop) := by
  refine .bind .position fun start => .bind (.scan _) fun _ => .bind .position fun p => ?_
  have hlen : w.length + p - (w.length + start) = p - start := Nat.add_sub_add_left _ _ _
  rw [hlen]
  exact .pure (start, p - start)

theorem shifts_text :
    Shifts w e (Prod.map (w.length + ·) id) (text : Reader UInt8 ω (ℕ × List UInt8)) text :=
  .bind .position fun start => .bind (.captured (.scan textAct)) fun c =>
    .bind shifts_eol fun _ => .pure (start, c.1)

end

section

variable (w : List UInt8)

theorem shifts_value (i : ℕ) : Shifts w (HeaderEvent.shift w.length) id (value i) (value i) :=
  .bind shifts_text fun _ => .emit _

theorem shifts_header (i : ℕ) (b : UInt8) :
    Shifts w (HeaderEvent.shift w.length) id (header i b) (header i b) := by
  unfold header
  split
  · exact .bind (.emit (HeaderEvent.name i none)) fun _ => shifts_value w i
  · refine .bind (shifts_token 0x3a) fun name =>
      .bind (.emit (HeaderEvent.name i (some name))) fun _ => ?_
    show Shifts w _ id (if name.2 = 0 then _ else _) (if name.2 = 0 then _ else _)
    split
    · exact .reject
    · exact .bind (shifts_skipPast _) fun _ => shifts_value w i

theorem shifts_headerTurn (cap i : ℕ) :
    Shifts w (HeaderEvent.shift w.length) (Sum.map id id) (headerTurn cap i)
      (headerTurn cap i) := by
  refine .bind .peek fun b => ?_
  dsimp only [id]
  split
  · exact .bind shifts_eol fun _ => .pure (Sum.inr ())
  · split
    · exact .reject
    · exact .bind (shifts_header w i b) fun _ => .pure (Sum.inl (i + 1))

/-- A header block is read the same wherever it stands. -/
theorem shifts_headers (cap : ℕ) :
    Shifts w (HeaderEvent.shift w.length) id (headers cap) (headers cap) :=
  .iterate (fun i => shifts_headerTurn w cap i) 0

theorem shifts_complete :
    Shifts w id id (complete : Reader UInt8 Empty Unit) complete := by
  refine .iterate (fun cnt => .bind .next fun b => ?_) 0
  dsimp only [id]
  split
  · refine .bind .next fun c => ?_
    dsimp only [id]
    split
    · split
      · exact .pure (Sum.inr ())
      · exact .pure (Sum.inl (cnt + 1))
    · exact .reject
  · split
    · split
      · exact .pure (Sum.inr ())
      · exact .pure (Sum.inl (cnt + 1))
    · exact .pure (Sum.inl 0)

/-- The pre-check as well, where it begins behind what is in front. -/
theorem precheck_behind (buf : List UInt8) {j : ℕ} (hj : 3 ≤ j) :
    precheck (w ++ buf) (w.length + j) = (precheck buf j).shift id w.length := by
  have hread := shifts_complete w buf (j - 3)
  rw [← Nat.add_sub_assoc hj] at hread
  rw [precheck, if_neg (by omega), hread, precheck, if_neg (by omega)]

end

/-! ### First lines -/

section

variable {buf rest : List UInt8} {pos : ℕ} (cap : ℕ)

theorem leads_versionTail (hpos : pos ≤ buf.length) {d : UInt8} (hd : IsDigit d) {e : Eol}
    (hbuf : buf.drop pos = versionBytes d ++ (e.bytes ++ rest)) :
    Leads (versionTail cap) buf pos (mapEvents .header (headers cap)) (pos + 8 + e.bytes.length)
      [.version (digit d)] := by
  have hmore : e.bytes ++ rest ≠ [] := by
    obtain ⟨b, v, hb, -⟩ := e.head
    simp [hb]
  have hversion : Takes version buf pos (versionBytes d) (e.bytes ++ rest) (digit d)
      ([] : List Event) := (takes_version hpos).mpr ⟨hbuf, ⟨d, rfl, hd, rfl⟩, hmore, rfl⟩
  have heol : Takes eol buf (pos + 8) e.bytes rest () ([] : List Event) :=
    takes_eol.mpr ⟨hversion.drop, ⟨e, rfl⟩, rfl⟩
  exact hversion.leads (.emit (heol.leads .refl))

theorem leads_pathTail (hpos : pos ≤ buf.length) {method : Span} (hmethod : method.2 ≠ 0)
    {path : List UInt8} (hpath : IsTarget path) {gap : ℕ} {d : UInt8} (hd : IsDigit d) {e : Eol}
    (hbuf : buf.drop pos = path ++ (spacesBytes gap ++ (versionBytes d ++ (e.bytes ++ rest)))) :
    Leads (pathTail cap method) buf pos (mapEvents .header (headers cap))
      (pos + path.length + (gap + 1) + 8 + e.bytes.length)
      [.path (pos, path.length), .version (digit d)] := by
  have htarget : Takes target buf pos path _ (pos, path.length) ([] : List Event) :=
    takes_target.mpr ⟨hbuf, hpath.2, ⟨_, rfl⟩, rfl, rfl⟩
  have hpos₁ := htarget.le_length hpos
  have hspaces : Takes spaces buf (pos + path.length) (spacesBytes gap) _ ()
      ([] : List Event) :=
    (takes_spaces ⟨_, htarget.drop⟩).mpr
      ⟨htarget.drop, ⟨gap, rfl⟩, ⟨0x48, _, rfl, by decide⟩, rfl⟩
  have hlen : path.length ≠ 0 := fun h0 => hpath.1 (List.eq_nil_of_length_eq_zero h0)
  have htail := leads_versionTail cap (hspaces.le_length hpos₁) hd hspaces.drop
  rw [length_spacesBytes] at htail
  refine htarget.leads (.emit (hspaces.leads ?_))
  rw [if_neg (not_or.mpr ⟨hmethod, hlen⟩), length_spacesBytes]
  exact htail

end

/-- What stands in front of the header block of a request. -/
def RequestHead.line (head : RequestHead) : List UInt8 :=
  leadBytes head.lead ++ (head.method ++ (spacesBytes head.gap₁ ++ (head.path ++
    (spacesBytes head.gap₂ ++ (versionBytes head.version ++ head.eol.bytes)))))

theorem RequestHead.bytes_eq (head : RequestHead) :
    head.bytes = head.line ++ head.block.bytes := by
  simp only [bytes, line, List.append_assoc]

theorem RequestHead.length_line (head : RequestHead) : head.line.length = head.blockStart := by
  simp only [line, blockStart, pathStart, methodStart, versionBytes, List.length_append,
    length_spacesBytes, List.length_cons, List.length_nil]
  omega

def RequestHead.lineEvents (head : RequestHead) : List Event :=
  [.method (head.methodStart, head.method.length), .path (head.pathStart, head.path.length),
    .version (digit head.version)]

/-- Behind its first line a request is a header block. -/
theorem leads_request (head : RequestHead) (cap : ℕ) (rest : List UInt8) :
    Leads (request cap) (head.line ++ rest) 0 (mapEvents .header (headers cap)) head.line.length
      head.lineEvents := by
  obtain ⟨b, method', hb, hchar⟩ := head.isName.head
  obtain ⟨c, path', hc, hne⟩ := head.isTarget.head
  obtain ⟨buf, hbuf⟩ : ∃ buf, buf = head.line ++ rest := ⟨_, rfl⟩
  rw [← hbuf]
  let tail := head.path ++ (spacesBytes head.gap₂ ++ (versionBytes head.version ++
    (head.eol.bytes ++ rest)))
  have hempty : Takes emptyLine buf 0 (leadBytes head.lead)
      (head.method ++ (spacesBytes head.gap₁ ++ tail)) () ([] : List Event) := by
    refine takes_emptyLine.mpr ⟨?_, ⟨head.lead, rfl, fun _ => ?_⟩, rfl⟩
    · simp only [hbuf, RequestHead.line, tail, List.append_assoc, List.drop_zero]
    · exact ⟨b, _, by rw [hb]; rfl, not_eol_of_token hchar⟩
  have htoken : Takes (token SP) buf (0 + (leadBytes head.lead).length) head.method
      (spacesBytes head.gap₁ ++ tail) (_, head.method.length) ([] : List Event) :=
    (takes_token not_isTokenByte_sp).mpr ⟨hempty.drop, head.isName.2, ⟨_, rfl⟩, rfl, rfl⟩
  have htail : ∃ v, tail = c :: v := ⟨_, by simp only [tail, hc]; rfl⟩
  obtain ⟨v, hv⟩ := htail
  have hspaces : Takes spaces buf (0 + (leadBytes head.lead).length + head.method.length)
      (spacesBytes head.gap₁) tail () ([] : List Event) :=
    (takes_spaces ⟨_, htoken.drop⟩).mpr ⟨htoken.drop, ⟨_, rfl⟩, ⟨c, v, hv, hne⟩, rfl⟩
  have hpos := hspaces.le_length (htoken.le_length (hempty.le_length (Nat.zero_le _)))
  have hlen : head.method.length ≠ 0 :=
    fun h0 => head.isName.1 (List.eq_nil_of_length_eq_zero h0)
  have hpath := @leads_pathTail _ _ _ cap hpos (0 + (leadBytes head.lead).length,
    head.method.length) hlen _ head.isTarget _ _ head.isDigit _ hspaces.drop
  have hmethod := htoken.leads (k := fun s => do
    emit (.method s)
    spaces
    pathTail cap s) (.emit (hspaces.leads hpath))
  have hwhole := hempty.leads (k := fun _ => methodTail cap) hmethod
  rw [length_spacesBytes, Nat.zero_add] at hwhole
  rw [head.length_line]
  exact hwhole

section

variable {buf rest : List UInt8} {pos : ℕ} (cap : ℕ)

theorem leads_reasonTail (hpos : pos ≤ buf.length) {t : List UInt8} (ht : IsReason t) {e : Eol}
    (hbuf : buf.drop pos = t ++ (e.bytes ++ rest)) :
    Leads (reasonTail cap) buf pos (mapEvents .header (headers cap))
      (pos + t.length + e.bytes.length) [.msg (reasonSpan pos t)] := by
  have htext : Takes text buf pos (t ++ e.bytes) rest (pos, t) ([] : List Event) :=
    (takes_text hpos).mpr ⟨by rw [hbuf, List.append_assoc], t, e, rfl, ht.1, rfl, rfl⟩
  have hmsg : Takes (reason pos t) buf (pos + (t ++ e.bytes).length) [] rest ()
      [.msg (reasonSpan pos t)] := takes_reason.mpr ⟨htext.drop, rfl, ht.2, rfl⟩
  have hwhole := htext.leads (k := fun s => do
    reason s.1 s.2
    mapEvents .header (headers cap)) (hmsg.leads .refl)
  rw [List.length_append, ← Nat.add_assoc] at hwhole
  exact hwhole

/-- From the spaces on, the first of which has been seen. -/
theorem leads_statusTail (hpos : pos ≤ buf.length) {gap : ℕ} {d₁ d₂ d₃ : UInt8}
    (hd : IsDigit d₁ ∧ IsDigit d₂ ∧ IsDigit d₃) {t : List UInt8} (ht : IsReason t) {e : Eol}
    (hbuf : buf.drop pos = spacesBytes gap ++ ([d₁, d₂, d₃] ++ (t ++ (e.bytes ++ rest)))) :
    Leads (statusTail cap) buf pos (mapEvents .header (headers cap))
      (pos + (gap + 1) + 3 + t.length + e.bytes.length)
      [.status (100 * digit d₁ + 10 * digit d₂ + digit d₃),
        .msg (reasonSpan (pos + (gap + 1) + 3) t)] := by
  have hspaces : Takes spaces buf pos (spacesBytes gap) ([d₁, d₂, d₃] ++ (t ++ (e.bytes ++ rest)))
      () ([] : List Event) :=
    (takes_spaces ⟨_, hbuf⟩).mpr ⟨hbuf, ⟨gap, rfl⟩, ⟨d₁, _, rfl, digit_ne_space hd.1⟩, rfl⟩
  have hpos₁ := hspaces.le_length hpos
  have hmore : t ++ (e.bytes ++ rest) ≠ [] := by
    obtain ⟨b, v, hb, -⟩ := e.head
    simp [hb]
  have hstatus : Takes status buf _ [d₁, d₂, d₃] (t ++ (e.bytes ++ rest)) () _ :=
    (takes_status hpos₁).mpr ⟨hspaces.drop, ⟨d₁, d₂, d₃, rfl, hd, rfl⟩, hmore⟩
  have hdigits := (takes_mapEvents (g := Event.status)).mpr ⟨_, hstatus, rfl⟩
  have hreason := leads_reasonTail cap (hdigits.le_length hpos₁) ht hdigits.drop
  have hwhole := hspaces.leads (k := fun _ => do
    mapEvents .status status
    reasonTail cap) (hdigits.leads hreason)
  rw [length_spacesBytes] at hwhole
  exact hwhole

end

/-- What stands in front of the header block of a response. -/
def ResponseHead.line (head : ResponseHead) : List UInt8 :=
  versionBytes head.version ++ (spacesBytes head.gap ++ ([head.d₁, head.d₂, head.d₃] ++
    (head.reason ++ head.eol.bytes)))

theorem ResponseHead.length_line (head : ResponseHead) : head.line.length = head.blockStart := by
  simp only [line, blockStart, reasonStart, versionBytes, List.length_append,
    length_spacesBytes, List.length_cons, List.length_nil]
  omega

def ResponseHead.lineEvents (head : ResponseHead) : List Event :=
  [.version (digit head.version), .status head.status,
    .msg (reasonSpan head.reasonStart head.reason)]

/-- Behind its first line a response is a header block. -/
theorem leads_response (head : ResponseHead) (cap : ℕ) (rest : List UInt8) :
    Leads (response cap) (head.line ++ rest) 0 (mapEvents .header (headers cap)) head.line.length
      head.lineEvents := by
  obtain ⟨buf, hbuf⟩ : ∃ buf, buf = head.line ++ rest := ⟨_, rfl⟩
  rw [← hbuf]
  let tail := spacesBytes head.gap ++ ([head.d₁, head.d₂, head.d₃] ++
    (head.reason ++ (head.eol.bytes ++ rest)))
  have hversion : Takes version buf 0 (versionBytes head.version) tail (digit head.version)
      ([] : List Event) := by
    refine (takes_version (Nat.zero_le _)).mpr ⟨?_, ⟨_, rfl, head.isDigit, rfl⟩,
      List.cons_ne_nil SP _, rfl⟩
    simp only [hbuf, ResponseHead.line, tail, List.append_assoc, List.drop_zero]
  have hstatus := leads_statusTail cap (hversion.le_length (Nat.zero_le _)) head.isStatus
    head.isReason hversion.drop
  have hspace : Leads (spaceTail cap) buf (0 + (versionBytes head.version).length) _ _ _ :=
    .peek hversion.drop hstatus
  have hwhole := hversion.leads (k := fun v => do
    emit (.version v)
    spaceTail cap) (.emit hspace)
  rw [Nat.zero_add] at hwhole
  rw [head.length_line]
  exact hwhole

/-! ### The pre-check -/

/-- The hint for a buffer with `n` bytes more in front. No hint stays none. -/
def hintBehind (n j : ℕ) : ℕ := if j = 0 then 0 else n + j

/-- The parser itself is run. -/
def PassesGate (buf : List UInt8) (j : ℕ) : Prop := j = 0 ∨ Rust.isComplete buf j = .ok ()

theorem passesGate_iff {buf : List UInt8} {j : ℕ} (h : j ≤ buf.length) :
    PassesGate buf j ↔ ∃ r, precheck buf j = .done r := by
  have hgate := gate_eq h
  by_cases hj : j = 0
  · exact iff_of_true (.inl hj) ⟨((), 0), if_pos hj⟩
  rw [if_pos hj] at hgate
  rw [PassesGate, hgate, or_iff_right hj]
  cases precheck buf j with
  | done r => exact iff_of_true rfl ⟨r, rfl⟩
  | more => exact iff_of_false nofun nofun
  | fail => exact iff_of_false nofun nofun

section

variable {p : Reader UInt8 Event Unit} {w rest : List UInt8} {cap j : ℕ} {ls : List Event}
  (hj : j = 0 ∨ 3 ≤ j)

include hj

/-- What is in front does not change the pre-check. -/
theorem precheck_hintBehind :
    precheck (w ++ rest) (hintBehind w.length j) = (precheck rest j).shift id
      (if j = 0 then 0 else w.length) := by
  rcases hj with rfl | hj
  · rfl
  · rw [hintBehind, if_neg (by omega), if_neg (by omega)]
    exact precheck_behind w rest hj

/-- Where the pre-check lets a block pass, a head with this block is read up
to its first line, and then the block. -/
theorem gated_passed (hp : Leads p (w ++ rest) 0 (mapEvents .header (headers cap)) w.length ls)
    {r : Unit × ℕ} (hpre : precheck rest j = .done r) :
    (gated (hintBehind w.length j) p).read (w ++ rest) 0 =
      (((gated j (headers cap)).read rest 0).1.shift id w.length,
        ls ++ ((gated j (headers cap)).read rest 0).2.map
          fun e => .header (e.shift w.length)) := by
  have hblock := (shifts_headers w cap).read_append rest
  have hleads : p.read (w ++ rest) 0 = _ := hp
  simp only [gated, precheck_hintBehind hj, hpre, Verdict.shift, hleads, mapEvents, hblock,
    List.map_map]
  rfl

/-- Where it does not, the head is stopped as well. -/
theorem gated_stopped (hpre : ∀ r, precheck rest j ≠ .done r) :
    (gated (hintBehind w.length j) p).read (w ++ rest) 0 =
        (((gated j (headers cap)).read rest 0).1.shift id w.length, []) ∧
      ((gated j (headers cap)).read rest 0).2 = [] := by
  simp only [gated, precheck_hintBehind hj]
  cases h : precheck rest j with
  | done r => exact absurd h (hpre r)
  | more => exact ⟨rfl, rfl⟩
  | fail => exact ⟨rfl, rfl⟩

end

/-! ### Calls -/

/-- The return value with `n` bytes in front of the buffer: a count grows by
them, and an error stays. -/
def retBehind (n : ℕ) (ret : ℤ) : ℤ := if ret < 0 then ret else n + ret

theorem returned_shift {n len : ℕ} (hlen : n + len < 2 ^ 31) {v : Verdict (Unit × ℕ)}
    (hv : ∀ r, v = .done r → r.2 ≤ len) :
    (returned (v.shift id n)).toInt = retBehind n (returned v).toInt := by
  cases v with
  | done r =>
      obtain ⟨u, k⟩ := r
      have hk : k ≤ len := hv _ rfl
      have hhead : (Int32.ofNat (n + k)).toInt = ((n + k : ℕ) : ℤ) :=
        Int32.toInt_ofNat_of_lt (by omega)
      have hblock : (Int32.ofNat k).toInt = (k : ℤ) := Int32.toInt_ofNat_of_lt (by omega)
      show (Int32.ofNat (n + k)).toInt = retBehind n (Int32.ofNat k).toInt
      rw [hhead, hblock, retBehind, if_neg (Int.not_lt.mpr (Int.natCast_nonneg k)), Nat.cast_add]
  | more => rfl
  | fail => rfl

/-- What a block consumes is in the buffer. -/
theorem le_length_of_headers {cap j : ℕ} {rest : List UInt8} {r : Unit × ℕ}
    (h : ((gated j (headers cap)).read rest 0).1 = .done r) : r.2 ≤ rest.length := by
  have hread : (headers cap).read rest 0 = (.done r, ((gated j (headers cap)).read rest 0).2) :=
    gated_eq_done (Prod.ext h rfl)
  exact (reads_headers cap).le_length (Nat.zero_le _) hread

theorem publishHeader_shift (base n : ℕ) (mem : HeaderMem) (e : HeaderEvent) :
    Original.publishHeader base mem (e.shift n) = Original.publishHeader (base + n) mem e := by
  cases e with
  | name i s =>
      cases s with
      | none => rfl
      | some s =>
          unfold Original.publishHeader
          dsimp only [HeaderEvent.shift, Option.map_some, shiftSpan]
          rw [Nat.add_assoc]
  | value i s =>
      unfold Original.publishHeader
      dsimp only [HeaderEvent.shift, shiftSpan]
      rw [Nat.add_assoc]

/-- The headers of a head are written like those of a block at the place
where the block is. -/
theorem foldl_publish {σ : Type} {publish : σ → Event → σ} {put : HeaderMem → σ} {base n : ℕ}
    (h : ∀ block e, publish (put block) (.header e) = put (Original.publishHeader base block e))
    (l : List HeaderEvent) (block : HeaderMem) :
    (l.map fun e => Event.header (e.shift n)).foldl publish (put block) =
      put (l.foldl (Original.publishHeader (base + n)) block) := by
  induction l generalizing block with
  | nil => rfl
  | cons e l ih =>
      rw [List.map_cons, List.foldl_cons, List.foldl_cons, h, publishHeader_shift]
      exact ih _

/-- A call for a head, which is a first line of `n` bytes and `rest`, and a
call for the block that begins with `rest`. Where the pre-check lets the block
pass, the outputs of the head are those of its line, which `shown` puts in
front of a block; else they are the zeroed ones. The return value has to be
one that a `c_int` can hold. -/
structure CallsAgree {σ : Type} (shown zeroed : HeaderMem → σ) (n : ℕ) (rest : List UInt8) (j : ℕ)
    (head : Int32 × σ) (block : Int32 × HeaderMem) : Prop where
  ret : n + rest.length < 2 ^ 31 → head.1.toInt = retBehind n block.1.toInt
  passed : PassesGate rest j → head.2 = shown block.2
  stopped : ¬PassesGate rest j → head.2 = zeroed block.2

theorem answer_behind {σ : Type} {publish : σ → Event → σ} {shown zeroed : HeaderMem → σ}
    {base cap j : ℕ} {p : Reader UInt8 Event Unit} {w rest : List UInt8} {ls : List Event}
    (hp : Leads p (w ++ rest) 0 (mapEvents .header (headers cap)) w.length ls)
    (hshown : ∀ block e,
      publish (shown block) (.header e) = shown (Original.publishHeader base block e))
    (hline : ∀ block, ls.foldl publish (zeroed block) = shown block)
    (hj : j = 0 ∨ 3 ≤ j) (hlen : j ≤ rest.length) (block : HeaderMem) :
    CallsAgree shown zeroed w.length rest j
      (answer publish p (w ++ rest) (hintBehind w.length j) (zeroed block))
      (answer (Original.publishHeader (base + w.length)) (headers cap) rest j block) := by
  by_cases hgate : PassesGate rest j
  · obtain ⟨r, hpre⟩ := (passesGate_iff hlen).mp hgate
    have hread := gated_passed hj hp hpre
    unfold answer
    rw [hread]
    refine ⟨fun hbound => returned_shift hbound fun r => le_length_of_headers, fun _ => ?_,
      fun h => absurd hgate h⟩
    rw [List.foldl_append, hline]
    exact foldl_publish hshown _ block
  · have hpre : ∀ r, precheck rest j ≠ .done r := fun r h =>
      hgate ((passesGate_iff hlen).mpr ⟨r, h⟩)
    obtain ⟨hread, hnil⟩ := @gated_stopped p w _ cap _ hj hpre
    unfold answer
    rw [hread]
    refine ⟨fun hbound => returned_shift hbound fun r => le_length_of_headers,
      fun h => absurd h hgate, fun _ => ?_⟩
    rw [hnil]
    rfl

/-- What a call publishes of a first line. -/
def RequestHead.shown (head : RequestHead) (base : ℕ) (block : HeaderMem) : RequestMem where
  method := base + head.methodStart
  methodLen := head.method.length
  path := base + head.pathStart
  pathLen := head.path.length
  minorVersion := digit head.version
  block := block

def ResponseHead.shown (head : ResponseHead) (base : ℕ) (block : HeaderMem) : ResponseMem where
  minorVersion := digit head.version
  status := head.status
  msg := base + (reasonSpan head.reasonStart head.reason).1
  msgLen := (reasonSpan head.reasonStart head.reason).2
  block := block

/-- Calls for heads and calls for header blocks agree. -/
structure LinesThenBlocks (a : Rust.RequestArgs) (c : Rust.ResponseArgs) (b : Rust.HeadersArgs)
    (rest : List UInt8) (j : ℕ) : Prop where
  request : ∀ (head : RequestHead) (mem : RequestMem), b.buf = a.buf + head.line.length →
    CallsAgree (head.shown a.buf)
      (fun block => { Rust.RequestMem.zeroed mem with block := block }) head.line.length rest j
      (Rust.phrParseRequest a (head.line ++ rest) (hintBehind head.line.length j) mem)
      (Rust.phrParseHeaders b rest j mem.block)
  response : ∀ (head : ResponseHead) (mem : ResponseMem), b.buf = c.buf + head.line.length →
    CallsAgree (head.shown c.buf)
      (fun block => { Rust.ResponseMem.zeroed mem with block := block }) head.line.length rest j
      (Rust.phrParseResponse c (head.line ++ rest) (hintBehind head.line.length j) mem)
      (Rust.phrParseHeaders b rest j mem.block)

/-- A head is its first line and a header block: whatever follows the line,
the parser of heads returns what the parser of blocks returns for it, and the
line more, as long as that is below `2 ^ 31`, and leaves the same in the array,
with the same pointers. This holds with a hint as well, unless it makes the
pre-check look back into the line. -/
theorem line_then_block {a : Rust.RequestArgs} (ha : RequestNonNull a) {c : Rust.ResponseArgs}
    (hc : ResponseNonNull c) {b : Rust.HeadersArgs} (hb : HeadersNonNull b) (rest : List UInt8)
    {j : ℕ} (hj : j = 0 ∨ 3 ≤ j) (hlen : j ≤ rest.length) : LinesThenBlocks a c b rest j := by
  have hhint (w : List UInt8) : hintBehind w.length j ≤ (w ++ rest).length := by
    rw [hintBehind, List.length_append]
    split <;> omega
  constructor
  · intro head mem hbuf
    rw [port_request (hhint _) ha, port_headers hlen hb, hbuf]
    refine answer_behind (leads_request head _ rest) ?_ ?_ hj hlen _
    · exact fun _ _ => rfl
    · exact fun _ => rfl
  · intro head mem hbuf
    rw [port_response (hhint _) hc, port_headers hlen hb, hbuf]
    refine answer_behind (leads_response head _ rest) ?_ ?_ hj hlen _
    · exact fun _ _ => rfl
    · exact fun _ => rfl

/-- `GET / HTTP/1.1` with a header that arrives in two parts. -/
theorem line_then_block_second_part :
    let a : Rust.RequestArgs := ⟨1000, 1, 2, 3, 4, 5, 6, 7⟩
    let c : Rust.ResponseArgs := ⟨1000, 1, 2, 3, 4, 5, 6⟩
    let b : Rust.HeadersArgs := ⟨1016, 6, 7⟩
    let line : List UInt8 := [71, 69, 84, 32, 47, 32, 72, 84, 84, 80, 47, 49, 46, 49, 13, 10]
    let rest : List UInt8 := [72, 58, 97, 13, 10, 13, 10]
    let mem : RequestMem := ⟨0, 0, 0, 0, 0, ⟨fun _ => ⟨11, 12, 13, 14⟩, 4⟩⟩
    LinesThenBlocks a c b rest 4 ∧ (Rust.phrParseHeaders b rest 4 mem.block).1 = 7 ∧
      (Rust.phrParseRequest a (line ++ rest) 20 mem).1 = 23 := by
  intro a c b line rest mem
  have h : LinesThenBlocks a c b rest 4 := line_then_block (by constructor <;> decide)
    (by constructor <;> decide) (by constructor <;> decide) rest (by decide) (by decide)
  let block : HeaderBlock := ⟨[], .lf, fun line h => absurd h (Option.not_mem_none line)⟩
  let head : RequestHead := ⟨none, [71, 69, 84], 0, [47], 0, 0x31, .crlf, block,
    ⟨by decide, by decide +kernel⟩, ⟨by decide, by decide +kernel⟩, by decide⟩
  have hblock : (Rust.phrParseHeaders b rest 4 mem.block).1 = 7 := by decide +kernel
  have hret := (h.request head mem rfl).ret (by decide)
  rw [hblock] at hret
  exact ⟨h, hblock, Int32.toInt_inj.mp hret⟩

end PicoHttpParser.Head
