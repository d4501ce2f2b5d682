import PicoHttpParser.Head.RequestGrammar

/-!
The grammar of a response head.

The status line has its own parts; the version, the spaces and the block are
those of a request.
-/

namespace PicoHttpParser.Head

open Incremental Incremental.Reader

/-! ### The grammar -/

/-- Empty, or a space and text. -/
def IsReason (t : List UInt8) : Prop := IsText t ∧ ∀ b ∈ t.head?, b = SP

instance : DecidablePred IsReason := fun _ => inferInstanceAs (Decidable (_ ∧ _))

/-- A reason without the spaces it begins with, as a span, when it begins at
`p`. -/
def reasonSpan (p : ℕ) (t : List UInt8) : Span :=
  let kept := t.dropWhile fun b => decide (b = SP)
  (p + (t.length - kept.length), kept.length)

/-- A response head. -/
structure ResponseHead where
  version : UInt8
  gap : ℕ
  d₁ : UInt8
  d₂ : UInt8
  d₃ : UInt8
  reason : List UInt8
  eol : Eol
  block : HeaderBlock
  isDigit : IsDigit version
  isStatus : IsDigit d₁ ∧ IsDigit d₂ ∧ IsDigit d₃
  isReason : IsReason reason

namespace ResponseHead

variable (head : ResponseHead)

def bytes : List UInt8 :=
  versionBytes head.version ++ (spacesBytes head.gap ++ ([head.d₁, head.d₂, head.d₃] ++
    (head.reason ++ (head.eol.bytes ++ head.block.bytes))))

def status : Int32 := 100 * digit head.d₁ + 10 * digit head.d₂ + digit head.d₃

def reasonStart : ℕ := 8 + (head.gap + 1) + 3

def blockStart : ℕ := head.reasonStart + head.reason.length + head.eol.bytes.length

/-- What is published for a head. -/
def events : List Event :=
  .version (digit head.version) :: .status head.status ::
    .msg (reasonSpan head.reasonStart head.reason) ::
      (slotEvents 0 (slots head.blockStart head.block.lines)).map .header

end ResponseHead

/-! ### Words of the readers -/

section

variable {buf w r : List UInt8} {pos cap : ℕ} {u : Unit}

theorem takes_status (hpos : pos ≤ buf.length) {l : List Int32} :
    Takes status buf pos w r u l ↔
      buf.drop pos = w ++ r ∧
        (∃ d₁ d₂ d₃, w = [d₁, d₂, d₃] ∧ (IsDigit d₁ ∧ IsDigit d₂ ∧ IsDigit d₃) ∧
          l = [100 * digit d₁ + 10 * digit d₂ + digit d₃]) ∧ r ≠ [] := by
  rw [status, takes_window hpos]
  refine and_congr_right fun _ => ?_
  constructor
  · rintro ⟨hw, hlen, hf⟩
    obtain ⟨d₁, d₂, d₃, rfl⟩ := List.length_eq_three.mp hw
    cases r with
    | nil => simp at hlen
    | cons c r =>
        simp only [statusOf] at hf
        split at hf
        · cases hf
        split at hf
        · cases hf
        split at hf
        · cases hf
        rename_i h₁ h₂ h₃
        obtain ⟨-, rfl⟩ := Prod.mk.inj hf
        exact ⟨⟨d₁, d₂, d₃, rfl, ⟨not_not.mp h₁, not_not.mp h₂, not_not.mp h₃⟩, rfl⟩,
          List.cons_ne_nil c r⟩
  · rintro ⟨⟨d₁, d₂, d₃, rfl, ⟨h₁, h₂, h₃⟩, rfl⟩, hr⟩
    obtain ⟨c, r, rfl⟩ := List.exists_cons_of_ne_nil hr
    refine ⟨rfl, by simp, ?_⟩
    exact (if_neg (not_not.mpr h₁)).trans
      ((if_neg (not_not.mpr h₂)).trans (if_neg (not_not.mpr h₃)))

variable {l : List Event}

theorem takes_reason {start : ℕ} {bytes : List UInt8} :
    Takes (reason start bytes) buf pos w r u l ↔
      buf.drop pos = r ∧ w = [] ∧ (∀ b ∈ bytes.head?, b = SP) ∧
        l = [.msg (reasonSpan start bytes)] := by
  cases bytes with
  | nil =>
      rw [reason, takes_emit]
      simp [reasonSpan]
  | cons b bytes =>
      rw [reason]
      split
      · rename_i hb
        rw [takes_emit]
        simp [reasonSpan, hb]
      · rename_i hb
        rw [takes_emit_bind]
        refine iff_of_false ?_ ?_
        · rintro ⟨l', -, h⟩
          exact not_takes_reject h
        · rintro ⟨-, -, hhead, -⟩
          exact hb (hhead b rfl)

end

/-! ### Words of the parser -/

section

variable {buf w r : List UInt8} {pos cap : ℕ} {l : List Event} {u : Unit}

/-- A response head from its reason on. -/
def reasonTail (cap : ℕ) : Reader UInt8 Event Unit := do
  let (start, bytes) ← text
  reason start bytes
  mapEvents .header (headers cap)

/-- A response head from the spaces before its status on. -/
def statusTail (cap : ℕ) : Reader UInt8 Event Unit := do
  spaces
  mapEvents .status status
  reasonTail cap

/-- A response head behind its version. -/
def spaceTail (cap : ℕ) : Reader UInt8 Event Unit := do
  let b ← peek
  if b ≠ SP then reject
  else statusTail cap

theorem consumes_reasonTail (cap : ℕ) : Consumes (reasonTail cap) :=
  .bind_left consumes_text fun r => .bind_zero (reads_reason r.1 r.2) fun _ => reads_mapHeaders cap

theorem consumes_statusTail (cap : ℕ) : Consumes (statusTail cap) :=
  .bind (reads_skipPast _) fun _ => .bind (.mapEvents _ reads_status) fun _ =>
    consumes_reasonTail cap

theorem consumes_spaceTail (cap : ℕ) : Consumes (spaceTail cap) := by
  refine .bind .peek fun b => ?_
  split
  · exact .reject
  · exact consumes_statusTail cap

theorem takes_reasonTail (hpos : pos ≤ buf.length) :
    Takes (reasonTail cap) buf pos w r u l ↔
      buf.drop pos = w ++ r ∧
        ∃ (t : List UInt8) (e : Eol) (block : HeaderBlock), IsReason t ∧
          w = t ++ (e.bytes ++ block.bytes) ∧ block.lines.length ≤ cap ∧
          l = .msg (reasonSpan pos t) ::
            (slotEvents 0 (slots (pos + t.length + e.bytes.length) block.lines)).map .header := by
  have hreason (s : ℕ × List UInt8) : Reads 0 (do
      reason s.1 s.2
      mapEvents .header (headers cap)) :=
    .bind_zero (reads_reason s.1 s.2) fun _ => reads_mapHeaders cap
  constructor
  · intro h
    obtain ⟨s, w₁, w₂, l₁, l₂, rfl, rfl, htext, hrest⟩ :=
      Takes.bind_inv consumes_text.reads hreason hpos h
    obtain ⟨-, t, e, rfl, ht, rfl, rfl⟩ := (takes_text hpos).mp htext
    have hpos₁ := htext.le_length hpos
    obtain ⟨v, w₃, w₄, l₃, l₄, rfl, rfl, hmsg, hblock⟩ :=
      Takes.bind_inv (reads_reason _ _) (fun _ => reads_mapHeaders cap) hpos₁ hrest
    obtain ⟨-, rfl, hhead, rfl⟩ := takes_reason.mp hmsg
    obtain ⟨-, block, rfl, hroom, rfl⟩ := (takes_mapHeaders hpos₁).mp hblock
    refine ⟨h.rest, t, e, block, ⟨ht, hhead⟩, List.append_assoc _ _ _, hroom, ?_⟩
    rw [List.length_append, Nat.add_assoc]
    rfl
  · rintro ⟨hrest, t, e, block, ⟨ht, hhead⟩, rfl, hroom, rfl⟩
    have htext : Takes text buf pos (t ++ e.bytes) (block.bytes ++ r) (pos, t) ([] : List Event) :=
      (takes_text hpos).mpr
        ⟨by rw [hrest]; simp only [List.append_assoc], t, e, rfl, ht, rfl, rfl⟩
    have hpos₁ := htext.le_length hpos
    have hmsg : Takes (reason pos t) buf (pos + (t ++ e.bytes).length) [] (block.bytes ++ r) ()
        [.msg (reasonSpan pos t)] := takes_reason.mpr ⟨htext.drop, rfl, hhead, rfl⟩
    have hblock := (takes_mapHeaders (u := u) hpos₁).mpr ⟨htext.drop, block, rfl, hroom, rfl⟩
    have hwhole := htext.bind (q := fun s => do
      reason s.1 s.2
      mapEvents .header (headers cap)) (hmsg.bind hblock)
    rw [List.append_assoc] at hwhole
    rw [List.length_append, ← Nat.add_assoc] at hwhole
    exact hwhole

theorem digit_ne_space {d : UInt8} (h : IsDigit d) : d ≠ SP := by
  rintro rfl
  exact absurd h (by decide)

/-- From the spaces on, the first of which has been seen. -/
theorem takes_statusTail (hpos : pos ≤ buf.length) (hsp : ∃ v, buf.drop pos = SP :: v) :
    Takes (statusTail cap) buf pos w r u l ↔
      buf.drop pos = w ++ r ∧
        ∃ (gap : ℕ) (d₁ d₂ d₃ : UInt8) (t : List UInt8) (e : Eol) (block : HeaderBlock),
          (IsDigit d₁ ∧ IsDigit d₂ ∧ IsDigit d₃) ∧ IsReason t ∧
          w = spacesBytes gap ++ ([d₁, d₂, d₃] ++ (t ++ (e.bytes ++ block.bytes))) ∧
          block.lines.length ≤ cap ∧
          l = .status (100 * digit d₁ + 10 * digit d₂ + digit d₃) ::
            .msg (reasonSpan (pos + (gap + 1) + 3) t) ::
              (slotEvents 0 (slots (pos + (gap + 1) + 3 + t.length + e.bytes.length)
                block.lines)).map .header := by
  have hreads : Reads 0 (do
      mapEvents .status status
      reasonTail cap) :=
    (Consumes.bind (.mapEvents _ reads_status) fun _ => consumes_reasonTail cap).reads
  constructor
  · intro h
    obtain ⟨v, w₁, w₂, l₁, l₂, rfl, rfl, hspaces, hrest⟩ :=
      Takes.bind_inv (reads_skipPast _) (fun _ => hreads) hpos h
    obtain ⟨-, ⟨gap, rfl⟩, -, rfl⟩ := (takes_spaces hsp).mp hspaces
    have hpos₁ := hspaces.le_length hpos
    obtain ⟨v, w₃, w₄, l₃, l₄, rfl, rfl, hstatus, hreason⟩ := Takes.bind_inv
      (.mapEvents _ reads_status) (fun _ => (consumes_reasonTail cap).reads) hpos₁ hrest
    obtain ⟨l₅, hdigits, rfl⟩ := takes_mapEvents.mp hstatus
    obtain ⟨-, ⟨d₁, d₂, d₃, rfl, hd, rfl⟩, -⟩ := (takes_status hpos₁).mp hdigits
    obtain ⟨-, t, e, block, ht, rfl, hroom, rfl⟩ :=
      (takes_reasonTail (hstatus.le_length hpos₁)).mp hreason
    refine ⟨h.rest, gap, d₁, d₂, d₃, t, e, block, hd, ht, rfl, hroom, ?_⟩
    rw [length_spacesBytes]
    rfl
  · rintro ⟨hrest, gap, d₁, d₂, d₃, t, e, block, hd, ht, rfl, hroom, rfl⟩
    have hspaces : Takes spaces buf pos (spacesBytes gap)
        ([d₁, d₂, d₃] ++ (t ++ (e.bytes ++ block.bytes)) ++ r) () ([] : List Event) :=
      (takes_spaces hsp).mpr ⟨by rw [hrest, List.append_assoc], ⟨gap, rfl⟩,
        ⟨d₁, _, rfl, digit_ne_space hd.1⟩, rfl⟩
    have hpos₁ := hspaces.le_length hpos
    have hmore : t ++ (e.bytes ++ block.bytes) ++ r ≠ [] := by
      obtain ⟨b, v, hb, -⟩ := e.head
      simp [hb]
    have hstatus : Takes status buf (pos + (spacesBytes gap).length) [d₁, d₂, d₃]
        (t ++ (e.bytes ++ block.bytes) ++ r) () _ :=
      (takes_status hpos₁).mpr ⟨hspaces.drop, ⟨d₁, d₂, d₃, rfl, hd, rfl⟩, hmore⟩
    have hdigits := (takes_mapEvents (g := Event.status)).mpr ⟨_, hstatus, rfl⟩
    have hreason := (takes_reasonTail (u := u) (hdigits.le_length hpos₁)).mpr
      ⟨hdigits.drop, t, e, block, ht, rfl, hroom, rfl⟩
    have hwhole := hspaces.bind (q := fun _ => do
      mapEvents .status status
      reasonTail cap) (hdigits.bind hreason)
    rw [length_spacesBytes] at hwhole
    exact hwhole

/-- The words of `parse_response`. -/
theorem takes_response :
    Takes (response cap) buf 0 w r u l ↔
      buf = w ++ r ∧
        ∃ head : ResponseHead, w = head.bytes ∧ head.block.lines.length ≤ cap ∧
          l = head.events := by
  have hemit (v : Int32) : Consumes (do
      emit (.version v)
      spaceTail cap) := .bind_zero (.emit _) fun _ => consumes_spaceTail cap
  constructor
  · intro h
    obtain ⟨v, w₁, w₂, l₁, l₂, rfl, rfl, hversion, hrest⟩ :=
      Takes.bind_inv reads_version (fun v => (hemit v).reads) (Nat.zero_le _) h
    obtain ⟨-, ⟨d, rfl, hd, rfl⟩, -, rfl⟩ := (takes_version (Nat.zero_le _)).mp hversion
    obtain ⟨l₃, rfl, hspace⟩ := takes_emit_bind.mp hrest
    obtain ⟨b, v, hv, hbranch⟩ := takes_peek_bind.mp hspace
    split at hbranch
    · exact absurd hbranch not_takes_reject
    rename_i hb
    obtain rfl : b = SP := not_not.mp hb
    obtain ⟨-, gap, d₁, d₂, d₃, t, e, block, hstatus, ht, rfl, hroom, rfl⟩ :=
      (takes_statusTail (hversion.le_length (Nat.zero_le _)) ⟨v, hv⟩).mp hbranch
    refine ⟨h.rest, ⟨d, gap, d₁, d₂, d₃, t, e, block, hd, hstatus, ht⟩, rfl, hroom, ?_⟩
    simp [ResponseHead.events, ResponseHead.blockStart, ResponseHead.reasonStart,
      ResponseHead.status, versionBytes]
  · rintro ⟨hrest, ⟨d, gap, d₁, d₂, d₃, t, e, block, hd, hstatus, ht⟩, rfl, hroom, rfl⟩
    let tail := spacesBytes gap ++ ([d₁, d₂, d₃] ++ (t ++ (e.bytes ++ block.bytes)))
    have hversion : Takes version buf 0 (versionBytes d) (tail ++ r) (digit d) ([] : List Event) :=
      (takes_version (Nat.zero_le _)).mpr ⟨hrest.trans (List.append_assoc _ _ _),
        ⟨d, rfl, hd, rfl⟩, List.cons_ne_nil SP _, rfl⟩
    have htail := (takes_statusTail (u := u) (hversion.le_length (Nat.zero_le _))
      ⟨_, hversion.drop⟩).mpr
      ⟨hversion.drop, gap, d₁, d₂, d₃, t, e, block, hstatus, ht, rfl, hroom, rfl⟩
    have hspace : Takes (spaceTail cap) buf (0 + (versionBytes d).length) tail r u _ :=
      takes_peek_bind.mpr ⟨SP, _, hversion.drop, htail⟩
    have hwhole := hversion.bind (q := fun v => do
      emit (.version v)
      spaceTail cap) (takes_emit_bind.mpr ⟨_, rfl, hspace⟩)
    simp only [Nat.zero_add] at hwhole
    exact hwhole

end

/-! ### A head can be read in one way -/

theorem prefixFree_response : PrefixFree ResponseHead.bytes := by
  rintro ⟨d, gap, d₁, d₂, d₃, t, e, block, hd, hstatus, ht⟩
    ⟨d', gap', d₁', d₂', d₃', t', e', block', hd', hstatus', ht'⟩ r r' h
  simp only [ResponseHead.bytes, List.append_assoc] at h
  have hdigit {d : UInt8} (hd : IsDigit d) (v : List UInt8) : ∀ b ∈ (d :: v).head?, b ≠ SP := by
    rintro b ⟨⟩
    exact digit_ne_space hd
  obtain ⟨rfl, h₁⟩ := version_append_inj h
  obtain ⟨rfl, h₂⟩ := spaces_append_inj (hdigit hstatus.1 _) (hdigit hstatus'.1 _) h₁
  obtain ⟨rfl, h₃⟩ := List.cons.inj h₂
  obtain ⟨rfl, h₄⟩ := List.cons.inj h₃
  obtain ⟨rfl, h₅⟩ := List.cons.inj h₄
  obtain ⟨rfl, rfl, h₆⟩ := text_append_inj ht.1 ht'.1 h₅
  obtain ⟨rfl, rfl⟩ := prefixFree_block _ _ _ _ h₆
  exact ⟨rfl, rfl⟩

/-! ### What is published -/

/-- The outputs after the head of a response has been parsed. -/
structure ResponsePublished (st : LogSink × Rust.Response.Progress) (head : ResponseHead) :
    Prop where
  version : st.2.version = some (digit head.version)
  status : st.2.status = some head.status
  msg : st.2.msg = some (reasonSpan head.reasonStart head.reason)
  block : Published (Rust.Response.headerState st) (slots head.blockStart head.block.lines)

theorem foldl_responseHeaders {S : Type} [Rust.HeaderSink S] (l : List HeaderEvent)
    (st : S × Rust.Response.Progress) :
    (l.map Event.header).foldl Port.Response.publish st =
      Rust.Response.setHeaderState st
        (l.foldl Port.publishHeader (Rust.Response.headerState st)) := by
  induction l generalizing st with
  | nil => rfl
  | cons e l ih => exact ih _

theorem responsePublished (sink : LogSink) (head : ResponseHead) :
    ResponsePublished (head.events.foldl Port.Response.publish (sink, {})) head := by
  rw [ResponseHead.events, List.foldl_cons, List.foldl_cons, List.foldl_cons,
    foldl_responseHeaders]
  exact ⟨rfl, rfl, rfl, published_slotEvents sink _⟩

/-- The head lies at the start of the buffer and ends at `n`, and there is
room for the lines of its block. -/
structure ResponseHead.Fits (head : ResponseHead) (buf : List UInt8) (n cap : ℕ) : Prop where
  room : head.block.lines.length ≤ cap
  bytes : head.bytes <+: buf
  stop : n = head.bytes.length

/-- What `parse_response` accepts are the response heads there is room for. A
buffer begins with one of them at most, and its parts are what is reported. -/
theorem response_grammar (buf : List UInt8) (sink : LogSink) (n : ℕ) :
    ((∃ st, Rust.Response.parseResponse buf 0 (sink, {}) = .ok n st) ↔
      ∃ head : ResponseHead, head.Fits buf n sink.capacity) ∧
    ∀ head : ResponseHead, head.Fits buf n sink.capacity →
      (∃ st, Rust.Response.parseResponse buf 0 (sink, {}) = .ok n st ∧
        ResponsePublished st head) ∧
        ∀ head' : ResponseHead, head'.bytes <+: buf → head' = head := by
  have hfits (head : ResponseHead) : head.Fits buf n sink.capacity ↔
      head.block.lines.length ≤ sink.capacity ∧ head.bytes <+: buf ∧
        n = 0 + head.bytes.length := by
    rw [Nat.zero_add]
    exact ⟨fun h => ⟨h.room, h.bytes, h.stop⟩, fun ⟨hroom, hbytes, hstop⟩ => ⟨hroom, hbytes, hstop⟩⟩
  rw [Port.Response.parseResponse_first]
  exact run_grammar (consumes_response _).reads (Nat.zero_le _) takes_response prefixFree_response
    hfits (responsePublished sink)

end PicoHttpParser.Head
