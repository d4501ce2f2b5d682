import PicoHttpParser.Head.Gate
import PicoHttpParser.Lib.ReadLoop

/-!
Read loops over heads.

The hint a read loop passes does not change what it ends with, for requests
and for responses. For header blocks on their own there is one exception, an
empty block that arrives in two parts.
-/

namespace PicoHttpParser.Head

open Incremental Incremental.Reader

/-! ### The pre-check on a part of the input -/

section

variable {s : List UInt8} {n k : ℕ}

theorem LineEnd.take {p q : ℕ} (h : LineEnd s p q) (hqk : q ≤ k) : LineEnd (s.take k) p q := by
  have hlt := h.lt
  rcases h with ⟨hlf, rfl⟩ | ⟨hcr, hlf, rfl⟩
  · exact .inl ⟨by rwa [List.getElem?_take_of_lt (by omega)], rfl⟩
  · exact .inr ⟨by rwa [List.getElem?_take_of_lt (by omega)],
      by rwa [List.getElem?_take_of_lt (by omega)], rfl⟩

theorem Paired.take {i : ℕ} (h : Paired s i n) (hnk : n ≤ k) : Paired (s.take k) i n where
  le := h.le
  lf p hip hpn hcr := by
    rw [List.getElem?_take_of_lt (by omega)] at hcr
    obtain ⟨hlt, hlf⟩ := h.lf p hip hpn hcr
    exact ⟨hlt, by rwa [List.getElem?_take_of_lt (by omega)]⟩

/-- The pre-check does not give up on a part of a head. -/
theorem precheck_ne_fail (h : Paired s 0 n) (hkn : k ≤ n) {j : ℕ} (hj : j ≤ (s.take k).length) :
    precheck (s.take k) j ≠ .fail := by
  unfold precheck
  split
  · exact nofun
  apply complete_ne_fail _ (by omega)
  intro p hcr
  have hp := (List.getElem?_eq_some_iff.mp hcr).1
  rw [List.length_take] at hp
  rw [List.getElem?_take_of_lt (by omega)] at hcr
  -- the LF behind a CR may be the first byte that has not arrived
  rcases Nat.lt_or_ge (p + 1) k with hlt | hge
  · exact .inr (by rw [List.getElem?_take_of_lt hlt, (h.lf p (Nat.zero_le p) (by omega) hcr).2])
  · exact .inl (List.getElem?_eq_none_iff.mpr (by rw [List.length_take]; omega))

/-- The pre-check lets pass what holds a whole head that was not there at
the call before. -/
theorem precheck_done (h : Headlike s n) (hnk : n ≤ k) {j : ℕ} (hj : j < n) :
    ∃ r, precheck (s.take k) j = .done r := by
  unfold precheck
  split
  · exact ⟨_, rfl⟩
  obtain ⟨d, e, hde, hen⟩ := h.blank
  have hd := hde.lt
  have he := hen.lt
  exact complete_done (h.paired.take hnk) (hde.take (by omega)) (hen.take hnk) (by omega)

end

section

variable {ω : Type} {p : Reader UInt8 ω Unit} {s : List UInt8} {n j k : ℕ} {u : Unit} {l : List ω}

/-- On a part of an accepted head the parser waits. -/
theorem read_take_of_lt (hp : Reads 0 p) (h : p.read s 0 = (.done (u, n), l)) (hk : k < n) :
    (p.read (s.take k) 0).1 = .more := by
  obtain ⟨u', m, l', hr⟩ | ⟨l', hr⟩ | ⟨l', hr⟩ := cases_read p (s.take k) 0
  · have hlen := hp.le_length (Nat.zero_le _) hr
    have hlong := hp.done_append (Nat.zero_le _) hr (s.drop k)
    rw [List.take_append_drop, h] at hlong
    obtain rfl : n = m := (Prod.mk.inj (Verdict.done.inj (Prod.mk.inj hlong).1)).2
    rw [List.length_take] at hlen
    omega
  · rw [hr]
  · -- a part that fails would make the whole input fail
    have hlong := hp.fail (Nat.zero_le _) hr (s.drop k)
    rw [List.take_append_drop, h] at hlong
    cases hlong

theorem gated_before (hp : Reads 0 p) (h : p.read s 0 = (.done (u, n), l)) (hpair : Paired s 0 n)
    (hk : k < n) (hj : j ≤ (s.take k).length) : ((gated j p).read (s.take k) 0).1 = .more := by
  have hmore := read_take_of_lt hp h hk
  have hfail := precheck_ne_fail hpair hk.le hj
  cases hpre : precheck (s.take k) j with
  | more => simp only [gated, hpre]
  | fail => exact absurd hpre hfail
  | done r => simpa only [gated, hpre] using hmore

theorem gated_of_done {buf : List UInt8} {r : Unit × ℕ} (h : precheck buf j = .done r) (pos : ℕ) :
    (gated j p).read buf pos = p.read buf pos := by
  simp only [gated, h]

theorem gated_after (hp : Reads 0 p) (h : p.read s 0 = (.done (u, n), l)) (hn : n ≤ k)
    {r : Unit × ℕ} (hpre : precheck (s.take k) j = .done r) :
    (gated j p).read (s.take k) 0 = p.read s 0 := by
  rw [gated_of_done hpre, hp.done_take (Nat.zero_le _) h hn, h]

theorem gated_eq_done {buf : List UInt8} {pos : ℕ} {r : Unit × ℕ}
    (h : (gated j p).read buf pos = (.done r, l)) : p.read buf pos = (.done r, l) := by
  cases hpre : precheck buf j with
  | more => simp [gated, hpre] at h
  | fail => simp [gated, hpre] at h
  | done r' => rwa [gated_of_done hpre] at h

theorem gated_zero (p : Reader UInt8 ω Unit) (buf : List UInt8) (pos : ℕ) :
    (gated 0 p).read buf pos = p.read buf pos := gated_of_done rfl pos

end

/-! ### Requests and responses -/

/-- A call that asks for more input. -/
def isPartial {σ : Type} : EStateM.Result Rust.Fault σ ℕ → Bool
  | .error (.err .Partial) _ => true
  | _ => false

/-- The hint makes no difference to a read loop on `s`: it awaits what the
cold parse accepts and ends with it, it accepts nothing else, and the
pre-check neither gives up on an acceptable head nor withholds it. -/
structure LoopSound {σ : Type} (parse : List UInt8 → ℕ → EStateM.Result Rust.Fault σ ℕ)
    (s : List UInt8) (cuts : List ℕ) : Prop where
  accepted : ∀ n st, parse s 0 = .ok n st →
    Faithful n (.ok n st) isPartial cuts (readLoop parse isPartial s 0 cuts)
  unaccepted : (∀ m ≤ s.length, ∀ n st, parse (s.take m) 0 ≠ .ok n st) →
    ∀ c ∈ readLoop parse isPartial s 0 cuts, ∀ n st, c.2 ≠ .ok n st
  precheck : ∀ n st, parse s 0 = .ok n st → ∀ lastLen k, 0 < lastLen → lastLen < n →
    lastLen ≤ k → k ≤ s.length →
      Rust.isComplete (s.take k) lastLen ≠ .error (.err .Malformed) ∧
        (n ≤ k → Rust.isComplete (s.take k) lastLen = .ok ())

section

variable {σ ω : Type} {publish : σ → ω → σ} {p : Reader UInt8 ω Unit} {st : σ}

theorem isComplete_eq {buf : List UInt8} {lastLen : ℕ} (hzero : 0 < lastLen)
    (h : lastLen ≤ buf.length) :
    Rust.isComplete buf lastLen = (fun _ => ()) <$> (precheck buf lastLen).settle := by
  rw [← gate_eq h, if_pos hzero.ne']

theorem run_congr {q : Reader UInt8 ω Unit} {buf buf' : List UInt8}
    (h : p.read buf 0 = q.read buf' 0) :
    (realize publish p buf 0 >>= fun r => pure r.2 : EStateM Rust.Fault σ ℕ) st =
      (realize publish q buf' 0 >>= fun r => pure r.2 : EStateM Rust.Fault σ ℕ) st := by
  rw [run_realize, run_realize, h]

theorem run_isPartial {buf : List UInt8} (h : (p.read buf 0).1 = .more) :
    isPartial ((realize publish p buf 0 >>= fun r => pure r.2 :
      EStateM Rust.Fault σ ℕ) st) = true := by
  rw [run_realize, h]
  rfl

/-- A parser behind the pre-check, when what it accepts are heads. -/
theorem loopSound_of_reads {parse : List UInt8 → ℕ → EStateM.Result Rust.Fault σ ℕ}
    (hparse : ∀ buf j, j ≤ buf.length → parse buf j =
      (realize publish (gated j p) buf 0 >>= fun r => pure r.2 : EStateM Rust.Fault σ ℕ) st)
    (hp : Reads 0 p)
    (hhead : ∀ {buf n u l}, p.read buf 0 = (.done (u, n), l) → Headlike buf n)
    {s : List UInt8} {cuts : List ℕ} (hcuts : Boundaries s cuts) : LoopSound parse s cuts := by
  have hcold (buf : List UInt8) : parse buf 0 =
      (realize publish p buf 0 >>= fun r => pure r.2 : EStateM Rust.Fault σ ℕ) st := by
    rw [hparse buf 0 (Nat.zero_le _), run_congr (gated_zero p buf 0)]
  constructor
  · intro n st' hok
    rw [hcold] at hok
    obtain ⟨l, hread, -⟩ := run_eq_ok.mp hok
    have hhead := hhead hread
    obtain ⟨d, e, hde, hen⟩ := hhead.blank
    rw [faithful_iff (Nat.zero_lt_of_lt hen.lt.1) hcuts]
    · intro j k hjk hj hk
      obtain ⟨r, hpre⟩ := precheck_done hhead hk hj
      rw [hparse _ j (hint_le hcuts hjk), run_congr (gated_after hp hread hk hpre), hok]
    · intro j k hjk hk
      rw [hparse _ j (hint_le hcuts hjk)]
      exact run_isPartial (gated_before hp hread hhead.paired hk (hint_le hcuts hjk))
  · intro hnone c hc n st' hok
    obtain ⟨j, hjk, hcall⟩ := mem_readLoop hc
    have hk := hcuts.le_length c.1 (lt_of_mem_zip hcuts.increasing hjk).2
    rw [hcall, hparse _ j (hint_le hcuts hjk)] at hok
    obtain ⟨l, hread, -⟩ := run_eq_ok.mp hok
    have hread' := gated_eq_done hread
    apply hnone c.1 hk n st'
    rw [hcold, ← hok]
    exact run_congr (hread'.trans hread.symm)
  · intro n st' hok lastLen k hzero hn hle hk
    rw [hcold] at hok
    obtain ⟨l, hread, -⟩ := run_eq_ok.mp hok
    have hhead := hhead hread
    have hlen : lastLen ≤ (s.take k).length := by rw [List.length_take]; omega
    rw [isComplete_eq hzero hlen]
    have hdone (hnk : n ≤ k) :
        (fun _ => ()) <$> (precheck (s.take k) lastLen).settle = (.ok () : Rust.Res Unit) := by
      obtain ⟨r, hpre⟩ := precheck_done hhead hnk hn
      rw [hpre]
      rfl
    refine ⟨?_, hdone⟩
    rcases Nat.le_total n k with hnk | hkn
    · rw [hdone hnk]
      exact nofun
    · have hfail := precheck_ne_fail hhead.paired hkn hlen
      cases hpre : precheck (s.take k) lastLen with
      | more => exact nofun
      | fail => exact absurd hpre hfail
      | done r => exact nofun

end

/-- The hint changes nothing for requests and responses. -/
theorem read_loop_sound {S : Type} [Rust.HeaderSink S] (sink : S) {s : List UInt8}
    {cuts : List ℕ} (hcuts : Boundaries s cuts) :
    LoopSound (fun buf lastLen => Rust.Request.parseRequest buf lastLen (sink, {})) s cuts ∧
      LoopSound (fun buf lastLen => Rust.Response.parseResponse buf lastLen (sink, {})) s cuts :=
  ⟨loopSound_of_reads (fun _ _ h => request_gated sink h) (consumes_request _).reads
      request_headlike hcuts,
    loopSound_of_reads (fun _ _ h => response_gated sink h) (consumes_response _).reads
      response_headlike hcuts⟩

/-- A request in three parts, the second of which ends in the middle of the
CRLF that ends it. -/
theorem read_loop_sound_three_parts :
    let sink : Rust.RawSink := ⟨1000, fun _ => ⟨0, 0, 0, 0⟩, 4⟩
    let s : List UInt8 := [71, 69, 84, 32, 47, 32, 72, 84, 84, 80, 47, 49, 46, 49, 13, 10, 13, 10]
    (readLoop (fun buf lastLen => Rust.Request.parseRequest buf lastLen (sink, {})) isPartial s 0
        [5, 17, 18]).map (fun c => (c.1, isPartial c.2)) = [(5, true), (17, true), (18, false)] ∧
      LoopSound (fun buf lastLen => Rust.Request.parseRequest buf lastLen (sink, {})) s
        [5, 17, 18] ∧
      LoopSound (fun buf lastLen => Rust.Response.parseResponse buf lastLen (sink, {})) s
        [5, 17, 18] := by
  intro sink s
  exact ⟨by decide +kernel, read_loop_sound sink ⟨by decide, by decide⟩⟩

/-! ### Header blocks on their own -/

/-- The cold call accepts `n` bytes. -/
def HeadersAccept (a : Rust.HeadersArgs) (mem : HeaderMem) (s : List UInt8) (n : ℕ) : Prop :=
  ∃ st, Rust.parseHeaders s 0
    (({ base := a.buf, slots := mem.headers, cap := mem.numHeaders } : Rust.RawSink), 0) = .ok n st

/-- The calls of `phr_parse_headers` in a read loop, which goes on as long as
they return `-2`. -/
def headersLoop (a : Rust.HeadersArgs) (mem : HeaderMem) (s : List UInt8) (cuts : List ℕ) :
    List (ℕ × (Int32 × HeaderMem)) :=
  readLoop (fun buf lastLen => Rust.phrParseHeaders a buf lastLen mem) (fun r => r.1 == -2) s 0 cuts

/-- The hint makes no difference to a read loop over a block. -/
def HeadersLoopSound (a : Rust.HeadersArgs) (mem : HeaderMem) (s : List UInt8) (cuts : List ℕ) :
    Prop :=
  ∀ n, HeadersAccept a mem s n →
    Faithful n (Rust.phrParseHeaders a s 0 mem) (fun r => r.1 == -2) cuts (headersLoop a mem s cuts)

/-- An empty block of which the first read brings the CR, when there are no two
line ends in a row in what the second read makes of it. -/
def Stalls (s : List UInt8) (cuts : List ℕ) : Prop :=
  [CR, LF] <+: s ∧ ∃ k rest, cuts = 1 :: k :: rest ∧ ¬HasBlank (s.take k)

theorem headersAccept_iff {a : Rust.HeadersArgs} {mem : HeaderMem} {s : List UInt8} {n : ℕ} :
    HeadersAccept a mem s n ↔ ∃ u l, (headers mem.numHeaders).read s 0 = (.done (u, n), l) := by
  unfold HeadersAccept
  rw [Port.parseHeaders_eq]
  constructor
  · rintro ⟨st, h⟩
    obtain ⟨l, hread, -⟩ := run_eq_ok.mp h
    exact ⟨(), l, hread⟩
  · rintro ⟨u, l, h⟩
    exact ⟨_, run_eq_ok.mpr ⟨l, h, rfl⟩⟩

theorem isComplete_eq_ok {buf : List UInt8} {j : ℕ} (hzero : 0 < j) (h : j ≤ buf.length) :
    Rust.isComplete buf j = .ok () ↔ ∃ r, precheck buf j = .done r := by
  rw [isComplete_eq hzero h]
  cases precheck buf j with
  | more => exact ⟨nofun, nofun⟩
  | fail => exact ⟨nofun, nofun⟩
  | done r => exact ⟨fun _ => ⟨r, rfl⟩, fun _ => rfl⟩

/-- With the hint `1` the pre-check looks at the whole buffer. -/
theorem hasBlank_iff {buf : List UInt8} (h : 1 ≤ buf.length) :
    HasBlank buf ↔ ∃ r, precheck buf 1 = .done r := by
  constructor
  · rintro ⟨n, ⟨d, e, hde, hen⟩, hpair⟩
    exact complete_done hpair hde hen (Nat.zero_le d)
  · intro hpre
    exact blank_of_isCompleteFrom ((isComplete_eq_ok Nat.one_pos h).mpr hpre) (Nat.zero_le 1)
      fun h => absurd h (by decide)

/-- A call that does not pass the pre-check does not accept. -/
theorem returned_gated {ω : Type} {p : Reader UInt8 ω Unit} {buf : List UInt8} {j : ℕ}
    (h : ¬∃ r, precheck buf j = .done r) :
    returned ((gated j p).read buf 0).1 = -2 ∨ returned ((gated j p).read buf 0).1 = -1 := by
  cases hpre : precheck buf j with
  | more => exact .inl (by simp only [gated, hpre]; rfl)
  | fail => exact .inr (by simp only [gated, hpre]; rfl)
  | done r => exact absurd ⟨r, hpre⟩ h

/-- The hint `1` can only be given by the first of several boundaries. -/
theorem mem_zip_one {cuts : List ℕ} (h : (0 :: cuts).Pairwise (· < ·)) {k : ℕ}
    (hk : (1, k) ∈ (0 :: cuts).zip cuts) : ∃ rest, cuts = 1 :: k :: rest := by
  cases cuts with
  | nil => cases hk
  | cons c cuts =>
      obtain ⟨hpos, h⟩ := List.pairwise_cons.mp h
      have hc := hpos c List.mem_cons_self
      rcases List.mem_cons.mp hk with heq | hk
      · exact absurd (Prod.mk.inj heq).1 (by decide)
      · cases cuts with
        | nil => cases hk
        | cons d cuts =>
            obtain ⟨hlt, -⟩ := List.pairwise_cons.mp h
            rcases List.mem_cons.mp hk with heq | hk
            · obtain ⟨rfl, rfl⟩ := Prod.mk.inj heq
              exact ⟨cuts, rfl⟩
            · have := hlt 1 (List.of_mem_zip hk).1
              omega

theorem crlf_prefix {s : List UInt8} (hcr : s[0]? = some CR) (hlf : s[1]? = some LF) :
    [CR, LF] <+: s := by
  obtain ⟨b, c, t, rfl⟩ : ∃ b c t, s = b :: c :: t := by
    rcases s with _ | ⟨b, _ | ⟨c, t⟩⟩
    · cases hcr
    · cases hlf
    · exact ⟨b, c, t, rfl⟩
  obtain rfl : b = CR := Option.some.inj hcr
  obtain rfl : c = LF := Option.some.inj hlf
  exact List.prefix_append [CR, LF] t

/-- An empty block. -/
theorem headers_crlf {s : List UInt8} (h : [CR, LF] <+: s) (cap : ℕ) :
    ∃ u l, (headers cap).read s 0 = (.done (u, 2), l) := by
  obtain ⟨t, rfl⟩ := h
  refine ⟨(), [], ?_⟩
  apply iterateFrom_of_inr (l := [])
  rfl

section

variable {a : Rust.HeadersArgs} (ha : HeadersNonNull a) (mem : HeaderMem) {s : List UInt8}
  {cuts : List ℕ} (hcuts : Boundaries s cuts) {n : ℕ}

include ha hcuts

/-- The loop is sound when the first call that sees all of the block passes
the pre-check, and only then. -/
theorem headers_faithful_iff (h : HeadersAccept a mem s n) :
    Faithful n (Rust.phrParseHeaders a s 0 mem) (fun r => r.1 == -2) cuts
        (headersLoop a mem s cuts) ↔
      ∀ j k, (j, k) ∈ (0 :: cuts).zip cuts → j < n → n ≤ k →
        Rust.phrParseHeaders a (s.take k) j mem = Rust.phrParseHeaders a s 0 mem := by
  obtain ⟨u, l, hread⟩ := headersAccept_iff.mp h
  have hframed := headers_framed (Nat.zero_le _) hread
  obtain ⟨e, hen, -⟩ := hframed.blank
  apply faithful_iff (Nat.zero_lt_of_lt hen.lt.1) hcuts
  intro j k hjk hk
  have hj := hint_le hcuts hjk
  rw [port_headers hj ha, answer, gated_before (reads_headers _) hread hframed.paired hk hj]
  rfl

/-- The hint stalls a loop over a block in one case only. -/
theorem headers_loop_iff : HeadersLoopSound a mem s cuts ↔ ¬Stalls s cuts := by
  constructor
  · rintro hsound ⟨hcrlf, k, rest, rfl, hpre⟩
    have haccept : HeadersAccept a mem s 2 :=
      headersAccept_iff.mpr (headers_crlf hcrlf mem.numHeaders)
    have hcalls := (headers_faithful_iff ha mem hcuts haccept).mp (hsound 2 haccept)
    have hjk : (1, k) ∈ (0 :: 1 :: k :: rest).zip (1 :: k :: rest) :=
      List.mem_cons_of_mem _ List.mem_cons_self
    have hj := hint_le hcuts hjk
    have hlt := (lt_of_mem_zip hcuts.increasing hjk).1
    have hret := congrArg Prod.fst (hcalls 1 k hjk Nat.one_lt_two hlt)
    obtain ⟨u, l, hread⟩ := headers_crlf hcrlf mem.numHeaders
    rw [port_headers hj ha, port_headers (Nat.zero_le _) ha, answer, answer, gated_zero, hread]
      at hret
    change _ = (2 : Int32) at hret
    rw [hasBlank_iff hj] at hpre
    rcases returned_gated (p := headers mem.numHeaders) hpre with h | h <;>
      exact absurd (h.symm.trans hret) (by decide)
  · intro hstalls n haccept
    rw [headers_faithful_iff ha mem hcuts haccept]
    intro j k hjk hj hk
    obtain ⟨u, l, hread⟩ := headersAccept_iff.mp haccept
    have hframed := headers_framed (Nat.zero_le _) hread
    have hle := hint_le hcuts hjk
    suffices hpre : ∃ r, precheck (s.take k) j = .done r by
      obtain ⟨r, hpre⟩ := hpre
      rw [port_headers hle ha, port_headers (Nat.zero_le _) ha, answer, answer,
        gated_after (reads_headers _) hread hk hpre, gated_zero]
    obtain ⟨e, hen, rfl | ⟨d, -, hde⟩⟩ := hframed.blank
    · -- an empty block: it has no room for a hint, unless it is CRLF
      rcases Nat.eq_zero_or_pos j with rfl | hpos
      · exact ⟨_, rfl⟩
      rcases hen with ⟨-, rfl⟩ | ⟨hcr, hlf, rfl⟩
      · omega
      obtain rfl : j = 1 := by omega
      by_contra hpre
      obtain ⟨rest, rfl⟩ := mem_zip_one hcuts.increasing hjk
      refine hstalls ⟨?_, k, rest, rfl, ?_⟩
      · exact crlf_prefix hcr hlf
      · rwa [hasBlank_iff hle]
    · exact precheck_done ⟨hframed.paired, d, e, hde, hen⟩ hk hj

end

/-- A block of one line, which the hint does not stall. -/
theorem headers_loop_one_line :
    let a : Rust.HeadersArgs := ⟨1000, 2000, 3000⟩
    let mem : HeaderMem := ⟨fun _ => ⟨11, 12, 13, 14⟩, 4⟩
    let s : List UInt8 := [65, 58, 49, 13, 10, 13, 10]
    (headersLoop a mem s [1, 6, 7]).map (fun c => (c.1, c.2.1)) = [(1, -2), (6, -2), (7, 7)] ∧
      (HeadersLoopSound a mem s [1, 6, 7] ↔ ¬Stalls s [1, 6, 7]) := by
  intro a mem s
  have ha : HeadersNonNull a := by constructor <;> decide
  exact ⟨by decide +kernel, headers_loop_iff ha mem ⟨by decide, by decide⟩⟩

/-- An empty block in two reads: the cold call accepts its two bytes, and
the loop is still told to wait when both are there. -/
theorem headers_loop_stalls :
    let a : Rust.HeadersArgs := ⟨1000, 2000, 3000⟩
    let mem : HeaderMem := ⟨fun _ => ⟨11, 12, 13, 14⟩, 4⟩
    let s : List UInt8 := [CR, LF]
    ((Rust.phrParseHeaders a s 0 mem).1 = 2 ∧
        (headersLoop a mem s [1, 2]).map (fun c => (c.1, c.2.1)) = [(1, -2), (2, -2)]) ∧
      Boundaries s [1, 2] ∧ ¬HeadersLoopSound a mem s [1, 2] := by
  intro a mem s
  have hcold : (Rust.phrParseHeaders a s 0 mem).1 = 2 := by decide +kernel
  have hcalls : (headersLoop a mem s [1, 2]).map (fun c => (c.1, c.2.1)) = [(1, -2), (2, -2)] := by
    decide +kernel
  refine ⟨⟨hcold, hcalls⟩, ⟨by decide, by decide⟩, fun hsound => ?_⟩
  have haccept : HeadersAccept a mem s 2 :=
    headersAccept_iff.mpr (headers_crlf List.prefix_rfl mem.numHeaders)
  have hmem := (hsound 2 haccept).first 2 rfl
  have hret := List.mem_map_of_mem (f := fun c : ℕ × (Int32 × HeaderMem) => (c.1, c.2.1)) hmem
  rw [hcalls, hcold] at hret
  exact absurd hret (by decide)

end PicoHttpParser.Head
