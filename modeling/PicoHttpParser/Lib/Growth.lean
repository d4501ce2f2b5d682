import PicoHttpParser.Lib.Reader

/-!
Readers on a growing buffer.

`Reads k p` says how an answer of `p` survives more input. An answer "done"
rests on a stretch of the buffer that ends at most `k` elements beyond the
position reached, so it is repeated on every buffer that begins with that
stretch, shorter or longer. An answer "fail" is repeated on every longer
buffer. Before an answer "more" the events published are the first ones of
what any longer buffer will publish.

The look-ahead `k` is there because a scan sees the element it stops at
without consuming it. It is discharged by whatever comes next, as soon as
that consumes something: this is the rule `Reads.bind`.
-/

namespace Incremental

namespace Reader

variable {β ω α γ ι : Type}

/-- An answer of `p` rests on what it has consumed and on at most `k`
further elements. -/
structure Reads (k : ℕ) (p : Reader β ω α) : Prop where
  done : ∀ {buf : List β} {pos pos' : ℕ} {a : α} {l : List ω}, pos ≤ buf.length →
    p.read buf pos = (.done (a, pos'), l) → pos ≤ pos' ∧
      ∃ m, pos' ≤ m ∧ m ≤ pos' + k ∧ m ≤ buf.length ∧
        ∀ buf', buf'.take m = buf.take m → p.read buf' pos = (.done (a, pos'), l)
  fail : ∀ {buf : List β} {pos : ℕ} {l : List ω}, pos ≤ buf.length →
    p.read buf pos = (.fail, l) → ∀ ext, p.read (buf ++ ext) pos = (.fail, l)
  more : ∀ {buf : List β} {pos : ℕ} {l : List ω}, pos ≤ buf.length →
    p.read buf pos = (.more, l) → ∀ ext, l <+: (p.read (buf ++ ext) pos).2

/-- A reader that is done has consumed at least `m` elements. -/
structure Advances (m : ℕ) (p : Reader β ω α) : Prop where
  le : ∀ {buf : List β} {pos pos' : ℕ} {a : α} {l : List ω}, pos ≤ buf.length →
    p.read buf pos = (.done (a, pos'), l) → pos + m ≤ pos'

/-! ### Two buffers that begin alike -/

/-- A buffer that begins like `buf` for `m` elements has at least `m` of
them, if `buf` has. -/
theorem le_length_of_take_eq {buf buf' : List β} {m : ℕ} (hm : m ≤ buf.length)
    (h : buf'.take m = buf.take m) : m ≤ buf'.length := by
  have hlen := congrArg List.length h
  simp only [List.length_take] at hlen
  omega

theorem take_eq_of_le {buf buf' : List β} {m n : ℕ} (hnm : n ≤ m)
    (h : buf'.take m = buf.take m) : buf'.take n = buf.take n := by
  have hn := congrArg (List.take n) h
  simpa [List.take_take, Nat.min_eq_left hnm] using hn

theorem getElem?_eq_of_take_eq {buf buf' : List β} {m i : ℕ} (him : i < m)
    (h : buf'.take m = buf.take m) : buf'[i]? = buf[i]? := by
  have hi := congrArg (fun l : List β => l[i]?) h
  simpa [List.getElem?_take, him] using hi

theorem window_eq_of_take_eq {buf buf' : List β} {pos n : ℕ}
    (h : buf'.take (pos + n) = buf.take (pos + n)) :
    (buf'.drop pos).take n = (buf.drop pos).take n := by
  have hd := congrArg (List.drop pos) h
  simpa [List.drop_take] using hd

theorem take_append_of_le {buf : List β} {m : ℕ} (hm : m ≤ buf.length) (ext : List β) :
    (buf ++ ext).take m = buf.take m := List.take_append_of_le_length hm

namespace Reads

variable {p : Reader β ω α} {k j m : ℕ}

theorem mono (h : Reads k p) (hkj : k ≤ j) : Reads j p where
  done hpos hp := by
    obtain ⟨hle, m, hm, hmk, hlen, hall⟩ := h.done hpos hp
    exact ⟨hle, m, hm, by omega, hlen, hall⟩
  fail := h.fail
  more := h.more

theorem le (h : Reads k p) {buf : List β} {pos pos' : ℕ} {a : α} {l : List ω}
    (hpos : pos ≤ buf.length) (hp : p.read buf pos = (.done (a, pos'), l)) : pos ≤ pos' :=
  (h.done hpos hp).1

theorem le_length (h : Reads k p) {buf : List β} {pos pos' : ℕ} {a : α} {l : List ω}
    (hpos : pos ≤ buf.length) (hp : p.read buf pos = (.done (a, pos'), l)) :
    pos' ≤ buf.length := by
  obtain ⟨-, m, hm, -, hlen, -⟩ := h.done hpos hp
  omega

/-- A result is final: more input does not change it. -/
theorem done_append (h : Reads k p) {buf : List β} {pos pos' : ℕ} {a : α} {l : List ω}
    (hpos : pos ≤ buf.length) (hp : p.read buf pos = (.done (a, pos'), l)) (ext : List β) :
    p.read (buf ++ ext) pos = (.done (a, pos'), l) := by
  obtain ⟨-, m, -, -, hlen, hall⟩ := h.done hpos hp
  exact hall _ (take_append_of_le hlen ext)

/-- A reader without look-ahead gives its result already on the elements it
consumes. -/
theorem done_take (h : Reads 0 p) {buf : List β} {pos pos' n : ℕ} {a : α} {l : List ω}
    (hpos : pos ≤ buf.length) (hp : p.read buf pos = (.done (a, pos'), l)) (hn : pos' ≤ n) :
    p.read (buf.take n) pos = (.done (a, pos'), l) := by
  obtain ⟨-, m, hm, hmk, -, hall⟩ := h.done hpos hp
  exact hall _ (by rw [List.take_take, Nat.min_eq_left (by omega)])

/-! ### The rules -/

theorem pure (a : α) : Reads 0 (Pure.pure a : Reader β ω α) where
  done hpos hp := by
    simp only [read_pure, Prod.mk.injEq, Verdict.done.injEq] at hp
    obtain ⟨⟨rfl, rfl⟩, rfl⟩ := hp
    exact ⟨le_rfl, _, le_rfl, le_rfl, hpos, fun _ _ => rfl⟩
  fail _ hp := by simp at hp
  more _ hp := by simp at hp

theorem emit (e : ω) : Reads 0 (Reader.emit e : Reader β ω Unit) where
  done hpos hp := by
    simp only [read_emit, Prod.mk.injEq, Verdict.done.injEq] at hp
    obtain ⟨⟨-, rfl⟩, rfl⟩ := hp
    exact ⟨le_rfl, _, le_rfl, le_rfl, hpos, fun _ _ => rfl⟩
  fail _ hp := by simp at hp
  more _ hp := by simp at hp

theorem position : Reads 0 (Reader.position : Reader β ω ℕ) where
  done hpos hp := by
    simp only [read_position, Prod.mk.injEq, Verdict.done.injEq] at hp
    obtain ⟨⟨rfl, rfl⟩, rfl⟩ := hp
    exact ⟨le_rfl, _, le_rfl, le_rfl, hpos, fun _ _ => rfl⟩
  fail _ hp := by simp at hp
  more _ hp := by simp at hp

theorem reject : Reads 0 (Reader.reject : Reader β ω α) where
  done _ hp := by simp at hp
  fail _ hp _ := hp
  more _ hp := by simp at hp

theorem peek : Reads 1 (Reader.peek : Reader β ω β) where
  done {buf pos pos' b l} _ hp := by
    cases hb : buf[pos]? with
    | none => simp [read_peek_none hb] at hp
    | some c =>
        obtain ⟨hlt, -⟩ := List.getElem?_eq_some_iff.mp hb
        simp only [read_peek_some hb, Prod.mk.injEq, Verdict.done.injEq] at hp
        obtain ⟨⟨rfl, rfl⟩, rfl⟩ := hp
        refine ⟨le_rfl, pos + 1, by omega, le_rfl, hlt, fun buf' h => ?_⟩
        exact read_peek_some (by rw [getElem?_eq_of_take_eq (by omega) h, hb])
  fail {buf pos l} _ hp := by
    cases hb : buf[pos]? with
    | none => simp [read_peek_none hb] at hp
    | some c => simp [read_peek_some hb] at hp
  more {buf pos l} _ hp ext := by
    cases hb : buf[pos]? with
    | none =>
        simp only [read_peek_none hb, Prod.mk.injEq, true_and] at hp
        exact hp ▸ List.nil_prefix
    | some c => simp [read_peek_some hb] at hp

theorem next : Reads 0 (Reader.next : Reader β ω β) where
  done {buf pos pos' b l} _ hp := by
    cases hb : buf[pos]? with
    | none => simp [read_next_none hb] at hp
    | some c =>
        obtain ⟨hlt, -⟩ := List.getElem?_eq_some_iff.mp hb
        simp only [read_next_some hb, Prod.mk.injEq, Verdict.done.injEq] at hp
        obtain ⟨⟨rfl, rfl⟩, rfl⟩ := hp
        refine ⟨by omega, pos + 1, le_rfl, le_rfl, hlt, fun buf' h => ?_⟩
        exact read_next_some (by rw [getElem?_eq_of_take_eq (by omega) h, hb])
  fail {buf pos l} _ hp := by
    cases hb : buf[pos]? with
    | none => simp [read_next_none hb] at hp
    | some c => simp [read_next_some hb] at hp
  more {buf pos l} _ hp ext := by
    cases hb : buf[pos]? with
    | none =>
        simp only [read_next_none hb, Prod.mk.injEq, true_and] at hp
        exact hp ▸ List.nil_prefix
    | some c => simp [read_next_some hb] at hp

end Reads

/-- What a scan has seen when it stops. -/
theorem scanFrom_done {f : β → Act} {buf : List β} {pos pos' : ℕ}
    (h : scanFrom f buf pos = .done ((), pos')) :
    pos ≤ pos' ∧ pos' < buf.length ∧ ∀ buf', buf'.take (pos' + 1) = buf.take (pos' + 1) →
      scanFrom f buf' pos = .done ((), pos') := by
  induction hn : buf.length - pos generalizing pos with
  | zero =>
      have hb : buf[pos]? = none := List.getElem?_eq_none_iff.mpr (by omega)
      simp [scanFrom_none hb] at h
  | succ n ih =>
      have hlt : pos < buf.length := by omega
      have hb : buf[pos]? = some buf[pos] := List.getElem?_eq_getElem hlt
      rw [scanFrom_some hb] at h
      cases hf : f buf[pos] with
      | skip =>
          simp only [hf] at h
          obtain ⟨hle, hlen, hall⟩ := ih h (by omega)
          refine ⟨by omega, hlen, fun buf' h' => ?_⟩
          have hb' : buf'[pos]? = some buf[pos] := by
            rw [getElem?_eq_of_take_eq (by omega) h', hb]
          rw [scanFrom_some hb', hf]
          exact hall buf' h'
      | stop =>
          simp only [hf, Verdict.done.injEq, Prod.mk.injEq, true_and] at h
          subst h
          refine ⟨le_rfl, hlt, fun buf' h' => ?_⟩
          have hb' : buf'[pos]? = some buf[pos] := by
            rw [getElem?_eq_of_take_eq (by omega) h', hb]
          rw [scanFrom_some hb', hf]
      | bad => simp [hf] at h

theorem scanFrom_fail {f : β → Act} {buf : List β} {pos : ℕ}
    (h : scanFrom f buf pos = .fail) (ext : List β) :
    scanFrom f (buf ++ ext) pos = .fail := by
  induction hn : buf.length - pos generalizing pos with
  | zero =>
      have hb : buf[pos]? = none := List.getElem?_eq_none_iff.mpr (by omega)
      simp [scanFrom_none hb] at h
  | succ n ih =>
      have hlt : pos < buf.length := by omega
      have hb : buf[pos]? = some buf[pos] := List.getElem?_eq_getElem hlt
      have hb' : (buf ++ ext)[pos]? = some buf[pos] := by
        rw [List.getElem?_append_left hlt, hb]
      rw [scanFrom_some hb] at h
      rw [scanFrom_some hb']
      cases hf : f buf[pos] with
      | skip =>
          simp only [hf] at h
          exact ih h (by omega)
      | stop => simp [hf] at h
      | bad => rfl

/-- A scan that is done stands at an element it stops at. -/
theorem scanFrom_stop {f : β → Act} {buf : List β} {pos q : ℕ} {u : Unit}
    (h : scanFrom f buf pos = .done (u, q)) : ∃ b, buf[q]? = some b ∧ f b = .stop := by
  obtain ⟨hle, hlt, -⟩ := scanFrom_done h
  induction hn : q - pos generalizing pos with
  | zero =>
      obtain rfl : pos = q := by omega
      have hb : buf[pos]? = some buf[pos] := List.getElem?_eq_getElem hlt
      refine ⟨_, hb, ?_⟩
      rw [scanFrom_some hb] at h
      cases hf : f buf[pos] with
      | skip =>
          rw [hf] at h
          have := (scanFrom_done h).1
          omega
      | stop => rfl
      | bad => simp [hf] at h
  | succ n ih =>
      have hb : buf[pos]? = some buf[pos] := List.getElem?_eq_getElem (by omega)
      rw [scanFrom_some hb] at h
      cases hf : f buf[pos] with
      | skip =>
          rw [hf] at h
          exact ih h (scanFrom_done h).1 (by omega)
      | stop =>
          simp only [hf, Verdict.done.injEq, Prod.mk.injEq] at h
          omega
      | bad => simp [hf] at h

/-- A scan that is done has stepped over what lies before it. -/
theorem scanFrom_skip {f : β → Act} {buf : List β} {pos q : ℕ} {u : Unit}
    (h : scanFrom f buf pos = .done (u, q)) {p : ℕ} (hle : pos ≤ p) (hlt : p < q) :
    ∃ b, buf[p]? = some b ∧ f b = .skip := by
  have hlen := (scanFrom_done h).2.1
  induction hn : q - pos generalizing pos with
  | zero => omega
  | succ n ih =>
      have hb : buf[pos]? = some buf[pos] := List.getElem?_eq_getElem (by omega)
      rw [scanFrom_some hb] at h
      cases hf : f buf[pos] with
      | skip =>
          rw [hf] at h
          rcases Nat.eq_or_lt_of_le hle with rfl | hle
          · exact ⟨_, hb, hf⟩
          · exact ih h hle (by omega)
      | stop =>
          simp only [hf, Verdict.done.injEq, Prod.mk.injEq] at h
          omega
      | bad => simp [hf] at h

/-- A scan may start behind elements it would step over. -/
theorem scanFrom_of_skip {f : β → Act} {buf : List β} {p q : ℕ} (hle : p ≤ q)
    (h : ∀ i, p ≤ i → i < q → ∃ b, buf[i]? = some b ∧ f b = .skip) :
    scanFrom f buf q = scanFrom f buf p := by
  induction q, hle using Nat.le_induction with
  | base => rfl
  | succ q hle ih =>
      obtain ⟨b, hb, hskip⟩ := h q hle (Nat.lt_succ_self q)
      have hq : scanFrom f buf q = scanFrom f buf (q + 1) := by
        rw [scanFrom_some hb, hskip]
      rw [← hq]
      exact ih fun i hpi hiq => h i hpi (Nat.lt_succ_of_lt hiq)

namespace Reads

theorem scan (f : β → Act) : Reads 1 (Reader.scan f : Reader β ω Unit) where
  done _ hp := by
    simp only [read_scan, Prod.mk.injEq] at hp
    obtain ⟨hp, rfl⟩ := hp
    obtain ⟨hle, hlt, hall⟩ := scanFrom_done hp
    exact ⟨hle, _, by omega, le_rfl, hlt, fun buf' h => by rw [read_scan, hall buf' h]⟩
  fail _ hp ext := by
    simp only [read_scan, Prod.mk.injEq] at hp ⊢
    exact ⟨scanFrom_fail hp.1 ext, hp.2⟩
  more _ hp ext := by
    simp only [read_scan, Prod.mk.injEq] at hp
    exact hp.2 ▸ List.nil_prefix

theorem window {n k : ℕ} (hk : k ≤ n) (f : List β → Option α × List ω) :
    Reads (n - k) (Reader.window n k f) where
  done {buf pos pos' a l} _ hp := by
    by_cases hlen : buf.length < pos + n
    · simp [Reader.window, hlen] at hp
    · cases hf : f ((buf.drop pos).take n) with
      | mk r ev =>
          cases r with
          | none => simp [Reader.window, hlen, hf] at hp
          | some c =>
              simp only [Reader.window, hlen, if_false, hf, Prod.mk.injEq,
                Verdict.done.injEq] at hp
              obtain ⟨⟨rfl, rfl⟩, rfl⟩ := hp
              refine ⟨by omega, pos + n, by omega, by omega, by omega, fun buf' h => ?_⟩
              have hlen' : ¬buf'.length < pos + n :=
                Nat.not_lt.mpr (le_length_of_take_eq (Nat.not_lt.mp hlen) h)
              simp [Reader.window, hlen', window_eq_of_take_eq h, hf]
  fail {buf pos l} _ hp ext := by
    by_cases hlen : buf.length < pos + n
    · simp [Reader.window, hlen] at hp
    · have hlen' : ¬(buf ++ ext).length < pos + n := by
        rw [List.length_append]
        omega
      have hw : ((buf ++ ext).drop pos).take n = (buf.drop pos).take n :=
        window_eq_of_take_eq (take_append_of_le (Nat.not_lt.mp hlen) ext)
      simpa only [Reader.window, hlen, hlen', if_false, hw] using hp
  more {buf pos l} _ hp ext := by
    by_cases hlen : buf.length < pos + n
    · simp only [Reader.window, hlen, if_true, Prod.mk.injEq, true_and] at hp
      exact hp ▸ List.nil_prefix
    · cases hf : f ((buf.drop pos).take n) with
      | mk r ev => cases r <;> simp [Reader.window, hlen, hf] at hp

theorem events_captured (p : Reader β ω α) (buf : List β) (pos : ℕ) :
    ((Reader.captured p).read buf pos).2 = (p.read buf pos).2 := by
  obtain ⟨a, pos', l, hp⟩ | ⟨l, hp⟩ | ⟨l, hp⟩ := cases_read p buf pos <;>
    simp only [Reader.captured, hp]

theorem captured {p : Reader β ω α} {k : ℕ} (h : Reads k p) : Reads k (Reader.captured p) where
  done {buf pos pos' a l} hpos hp := by
    obtain ⟨c, q, l', hc⟩ | ⟨l', hc⟩ | ⟨l', hc⟩ := cases_read p buf pos
    · simp only [Reader.captured, hc, Prod.mk.injEq, Verdict.done.injEq] at hp
      obtain ⟨⟨rfl, rfl⟩, rfl⟩ := hp
      obtain ⟨hle, m, hm, hmk, hlen, hall⟩ := h.done hpos hc
      refine ⟨hle, m, hm, hmk, hlen, fun buf' h' => ?_⟩
      have hw : (buf'.drop pos).take (q - pos) = (buf.drop pos).take (q - pos) :=
        window_eq_of_take_eq (take_eq_of_le (by omega) h')
      simp only [Reader.captured, hall buf' h', hw]
    · simp [Reader.captured, hc] at hp
    · simp [Reader.captured, hc] at hp
  fail {buf pos l} hpos hp ext := by
    obtain ⟨c, q, l', hc⟩ | ⟨l', hc⟩ | ⟨l', hc⟩ := cases_read p buf pos
    · simp [Reader.captured, hc] at hp
    · simp [Reader.captured, hc] at hp
    · simpa only [Reader.captured, hc, h.fail hpos hc ext] using hp
  more {buf pos l} hpos hp ext := by
    obtain ⟨c, q, l', hc⟩ | ⟨l', hc⟩ | ⟨l', hc⟩ := cases_read p buf pos
    · simp [Reader.captured, hc] at hp
    · simp only [Reader.captured, hc, Prod.mk.injEq, true_and] at hp
      rw [events_captured]
      exact hp ▸ h.more hpos hc ext
    · simp [Reader.captured, hc] at hp

theorem mapEvents {ω' : Type} {p : Reader β ω α} {k : ℕ} (f : ω → ω') (h : Reads k p) :
    Reads k (Reader.mapEvents f p) where
  done {buf pos pos' a l} hpos hp := by
    simp only [Reader.mapEvents, Prod.mk.injEq] at hp
    obtain ⟨hle, m, hm, hmk, hlen, hall⟩ := h.done hpos (Prod.ext hp.1 rfl)
    refine ⟨hle, m, hm, hmk, hlen, fun buf' h' => ?_⟩
    simp only [Reader.mapEvents, hall buf' h', hp.2]
  fail {buf pos l} hpos hp ext := by
    simp only [Reader.mapEvents, Prod.mk.injEq] at hp ⊢
    rw [h.fail hpos (Prod.ext hp.1 rfl) ext]
    exact ⟨rfl, hp.2⟩
  more {buf pos l} hpos hp ext := by
    simp only [Reader.mapEvents, Prod.mk.injEq] at hp ⊢
    rw [← hp.2]
    exact (h.more hpos (Prod.ext hp.1 rfl) ext).map f

/-- The first part of a sequence publishes first. -/
theorem events_prefix_bind (p : Reader β ω α) (q : α → Reader β ω γ) (buf : List β) (pos : ℕ) :
    (p.read buf pos).2 <+: ((p >>= q).read buf pos).2 := by
  obtain ⟨a, pos', l, hp⟩ | ⟨l, hp⟩ | ⟨l, hp⟩ := cases_read p buf pos <;>
    simp [read_bind, hp]

/-- Look-ahead of the first part is discharged by the elements the second
part consumes. -/
theorem bind {p : Reader β ω α} {q : α → Reader β ω γ} {k j m : ℕ} (hp : Reads k p)
    (hq : ∀ a, Reads j (q a)) (hadv : ∀ a, Advances m (q a)) (hk : k ≤ j + m) :
    Reads j (p >>= q) where
  done {buf pos pos'' c l} hpos h := by
    obtain ⟨a, pos', l₁, l₂, h₁, h₂, rfl⟩ := bind_eq_done h
    have hlen := hp.le_length hpos h₁
    have hstep := (hadv a).le hlen h₂
    obtain ⟨hle₁, m₁, hm₁, hk₁, hlen₁, hall₁⟩ := hp.done hpos h₁
    obtain ⟨hle₂, m₂, hm₂, hk₂, hlen₂, hall₂⟩ := (hq a).done hlen h₂
    refine ⟨by omega, max m₁ m₂, by omega, by omega, by omega, fun buf' h' => ?_⟩
    have h₁' := hall₁ buf' (take_eq_of_le (le_max_left _ _) h')
    have h₂' := hall₂ buf' (take_eq_of_le (le_max_right _ _) h')
    simp only [read_bind, h₁', h₂']
  fail {buf pos l} hpos h ext := by
    obtain h₁ | ⟨a, pos', l₁, l₂, h₁, h₂, rfl⟩ := bind_eq_fail h
    · simp only [read_bind, hp.fail hpos h₁ ext]
    · simp only [read_bind, hp.done_append hpos h₁ ext,
        (hq a).fail (hp.le_length hpos h₁) h₂ ext]
  more {buf pos l} hpos h ext := by
    obtain h₁ | ⟨a, pos', l₁, l₂, h₁, h₂, rfl⟩ := bind_eq_more h
    · exact (hp.more hpos h₁ ext).trans (events_prefix_bind p q _ _)
    · simp only [read_bind, hp.done_append hpos h₁ ext]
      exact (List.prefix_append_right_inj l₁).mpr ((hq a).more (hp.le_length hpos h₁) h₂ ext)

end Reads

/-- A first part that does not look further ahead than the second. -/
theorem Reads.bind_of_le {p : Reader β ω α} {q : α → Reader β ω γ} {k j : ℕ} (hp : Reads k p)
    (hq : ∀ a, Reads j (q a)) (hk : k ≤ j) : Reads j (p >>= q) :=
  bind (m := 0) hp hq (fun a => ⟨fun hpos h => (hq a).le hpos h⟩) hk

theorem Reads.bind_zero {p : Reader β ω α} {q : α → Reader β ω γ} {j : ℕ} (hp : Reads 0 p)
    (hq : ∀ a, Reads j (q a)) : Reads j (p >>= q) := bind_of_le hp hq (Nat.zero_le j)

/-! ### Readers that consume something -/

/-- What may follow a scan: a reader without look-ahead that does not answer
before it has consumed an element. -/
structure Consumes (p : Reader β ω α) : Prop where
  reads : Reads 0 p
  advances : Advances 1 p

namespace Consumes

theorem next : Consumes (Reader.next : Reader β ω β) where
  reads := .next
  advances.le {buf pos pos' b l} _ hp := by
    cases hb : buf[pos]? with
    | none => simp [read_next_none hb] at hp
    | some c =>
        simp only [read_next_some hb, Prod.mk.injEq, Verdict.done.injEq] at hp
        omega

theorem reject : Consumes (Reader.reject : Reader β ω α) where
  reads := .reject
  advances.le _ hp := by simp at hp

/-- The element the first part looks at is one the second part consumes. -/
theorem bind {p : Reader β ω α} {q : α → Reader β ω γ} (hp : Reads 1 p)
    (hq : ∀ a, Consumes (q a)) : Consumes (p >>= q) where
  reads := .bind hp (fun a => (hq a).reads) (fun a => (hq a).advances) le_rfl
  advances.le hpos h := by
    obtain ⟨a, pos', l₁, l₂, h₁, h₂, -⟩ := bind_eq_done h
    have h₁' := hp.le hpos h₁
    have h₂' := (hq a).advances.le (hp.le_length hpos h₁) h₂
    omega

theorem bind_zero {p : Reader β ω α} {q : α → Reader β ω γ} (hp : Reads 0 p)
    (hq : ∀ a, Consumes (q a)) : Consumes (p >>= q) := bind (hp.mono (Nat.zero_le 1)) hq

/-- It is enough that the first part consumes something. -/
theorem bind_left {p : Reader β ω α} {q : α → Reader β ω γ} (hp : Consumes p)
    (hq : ∀ a, Reads 0 (q a)) : Consumes (p >>= q) where
  reads := .bind_zero hp.reads hq
  advances.le hpos h := by
    obtain ⟨a, pos', l₁, l₂, h₁, h₂, -⟩ := bind_eq_done h
    have h₁' := hp.advances.le hpos h₁
    have h₂' := (hq a).le (hp.reads.le_length hpos h₁) h₂
    omega

end Consumes

/-! ### Iteration -/

/-- One turn of an iteration that goes on. -/
theorem iterateFrom_of_inl {body : ι → Reader β ω (ι ⊕ α)} {i i' : ι} {buf : List β}
    {pos pos' : ℕ} {l : List ω} (h : (body i).read buf pos = (.done (.inl i', pos'), l))
    (hlt : pos < pos') (hlen : pos' ≤ buf.length) :
    iterateFrom body i buf pos =
      ((iterateFrom body i' buf pos').1, l ++ (iterateFrom body i' buf pos').2) := by
  rw [iterateFrom, h]
  simp [hlt, hlen]

theorem iterateFrom_of_inr {body : ι → Reader β ω (ι ⊕ α)} {i : ι} {a : α} {buf : List β}
    {pos pos' : ℕ} {l : List ω} (h : (body i).read buf pos = (.done (.inr a, pos'), l)) :
    iterateFrom body i buf pos = (.done (a, pos'), l) := by
  rw [iterateFrom, h]

theorem iterateFrom_of_more {body : ι → Reader β ω (ι ⊕ α)} {i : ι} {buf : List β}
    {pos : ℕ} {l : List ω} (h : (body i).read buf pos = (.more, l)) :
    iterateFrom body i buf pos = (.more, l) := by
  rw [iterateFrom, h]

theorem iterateFrom_of_fail {body : ι → Reader β ω (ι ⊕ α)} {i : ι} {buf : List β}
    {pos : ℕ} {l : List ω} (h : (body i).read buf pos = (.fail, l)) :
    iterateFrom body i buf pos = (.fail, l) := by
  rw [iterateFrom, h]

section

variable {body : ι → Reader β ω (ι ⊕ α)} (hbody : ∀ i, Consumes (body i))

include hbody

/-- The induction behind every statement about an iteration: a turn gives
the result, or goes on further right, or ends the iteration. -/
theorem iterateFrom_induction {P : ι → ℕ → Prop} {buf : List β}
    (hinr : ∀ i pos a pos' l, pos ≤ buf.length →
      (body i).read buf pos = (.done (.inr a, pos'), l) → P i pos)
    (hinl : ∀ i pos i' pos' l, pos ≤ buf.length →
      (body i).read buf pos = (.done (.inl i', pos'), l) → pos < pos' → pos' ≤ buf.length →
      P i' pos' → P i pos)
    (hmore : ∀ i pos l, pos ≤ buf.length → (body i).read buf pos = (.more, l) → P i pos)
    (hfail : ∀ i pos l, pos ≤ buf.length → (body i).read buf pos = (.fail, l) → P i pos)
    (i : ι) (pos : ℕ) (hpos : pos ≤ buf.length) : P i pos := by
  induction hn : buf.length - pos using Nat.strong_induction_on generalizing i pos with
  | _ n ih =>
      obtain ⟨r, pos', l, h⟩ | ⟨l, h⟩ | ⟨l, h⟩ := cases_read (body i) buf pos
      · have hlen := (hbody i).reads.le_length hpos h
        have hstep := (hbody i).advances.le hpos h
        cases r with
        | inr a => exact hinr i pos a pos' l hpos h
        | inl i' =>
            exact hinl i pos i' pos' l hpos h (by omega) hlen
              (ih (buf.length - pos') (by omega) i' pos' hlen rfl)
      · exact hmore i pos l hpos h
      · exact hfail i pos l hpos h

/-- An iteration is its first turn and the iteration that is left. -/
theorem read_iterate {buf : List β} (i : ι) {pos : ℕ} (hpos : pos ≤ buf.length) :
    (Reader.iterate body i).read buf pos =
      (body i >>= fun
        | .inl i' => Reader.iterate body i'
        | .inr a => pure a).read buf pos := by
  show iterateFrom body i buf pos = _
  obtain ⟨r, pos', l, h⟩ | ⟨l, h⟩ | ⟨l, h⟩ := cases_read (body i) buf pos
  · cases r with
    | inr a => simp only [iterateFrom_of_inr h, read_bind, h, read_pure, List.append_nil]
    | inl i' =>
        have hlt := (hbody i).advances.le hpos h
        rw [iterateFrom_of_inl h (by omega) ((hbody i).reads.le_length hpos h)]
        simp only [read_bind, h]
        rfl
  · simp only [iterateFrom_of_more h, read_bind, h]
  · simp only [iterateFrom_of_fail h, read_bind, h]

theorem Reads.iterate (i : ι) : Reads 0 (Reader.iterate body i) where
  done {buf pos pos' a l} hpos hp := by
    change iterateFrom body i buf pos = _ at hp
    revert hp
    refine iterateFrom_induction hbody (P := fun i pos =>
      ∀ l, iterateFrom body i buf pos = (.done (a, pos'), l) → pos ≤ pos' ∧
        ∃ m, pos' ≤ m ∧ m ≤ pos' + 0 ∧ m ≤ buf.length ∧
          ∀ buf', buf'.take m = buf.take m →
            iterateFrom body i buf' pos = (.done (a, pos'), l))
      ?_ ?_ ?_ ?_ i pos hpos l
    · intro i pos c q l hpos h l' hp
      rw [iterateFrom_of_inr h] at hp
      obtain ⟨⟨rfl, rfl⟩, rfl⟩ : (c = a ∧ q = pos') ∧ l = l' := by simpa using hp
      obtain ⟨hle, m, hm, hmk, hlen, hall⟩ := (hbody i).reads.done hpos h
      exact ⟨hle, m, hm, hmk, hlen, fun buf' h' => iterateFrom_of_inr (hall buf' h')⟩
    · intro i pos i' q l hpos h hlt hlen ih l' hp
      rw [iterateFrom_of_inl h hlt hlen] at hp
      obtain ⟨hv, rfl⟩ := Prod.mk.inj hp
      obtain ⟨hle, m, hm, hmk, hlen', hall⟩ := ih _ (Prod.ext hv rfl)
      obtain ⟨-, m₀, hm₀, hmk₀, -, hall₀⟩ := (hbody i).reads.done hpos h
      refine ⟨by omega, m, hm, hmk, hlen', fun buf' h' => ?_⟩
      have hbuf' := le_length_of_take_eq hlen' h'
      rw [iterateFrom_of_inl (hall₀ buf' (take_eq_of_le (by omega) h')) hlt (by omega),
        hall buf' h']
    · intro i pos l _ h l' hp
      simp [iterateFrom_of_more h] at hp
    · intro i pos l _ h l' hp
      simp [iterateFrom_of_fail h] at hp
  fail {buf pos l} hpos hp ext := by
    change iterateFrom body i buf pos = _ at hp
    revert hp
    refine iterateFrom_induction hbody (P := fun i pos =>
      ∀ l, iterateFrom body i buf pos = (.fail, l) →
        iterateFrom body i (buf ++ ext) pos = (.fail, l)) ?_ ?_ ?_ ?_ i pos hpos l
    · intro i pos c q l _ h l' hp
      simp [iterateFrom_of_inr h] at hp
    · intro i pos i' q l hpos h hlt hlen ih l' hp
      rw [iterateFrom_of_inl h hlt hlen] at hp
      obtain ⟨hv, rfl⟩ := Prod.mk.inj hp
      rw [iterateFrom_of_inl ((hbody i).reads.done_append hpos h ext) hlt
        (by rw [List.length_append]; omega), ih _ (Prod.ext hv rfl)]
    · intro i pos l _ h l' hp
      simp [iterateFrom_of_more h] at hp
    · intro i pos l hpos h l' hp
      rw [iterateFrom_of_fail h] at hp
      rw [iterateFrom_of_fail ((hbody i).reads.fail hpos h ext), ← hp]
  more {buf pos l} hpos hp ext := by
    change iterateFrom body i buf pos = _ at hp
    show l <+: (iterateFrom body i (buf ++ ext) pos).2
    revert hp
    refine iterateFrom_induction hbody (P := fun i pos =>
      ∀ l, iterateFrom body i buf pos = (.more, l) →
        l <+: (iterateFrom body i (buf ++ ext) pos).2) ?_ ?_ ?_ ?_ i pos hpos l
    · intro i pos c q l _ h l' hp
      simp [iterateFrom_of_inr h] at hp
    · intro i pos i' q l hpos h hlt hlen ih l' hp
      rw [iterateFrom_of_inl h hlt hlen] at hp
      obtain ⟨hv, rfl⟩ := Prod.mk.inj hp
      rw [iterateFrom_of_inl ((hbody i).reads.done_append hpos h ext) hlt
        (by rw [List.length_append]; omega)]
      exact (List.prefix_append_right_inj l).mpr (ih _ (Prod.ext hv rfl))
    · intro i pos l hpos h l' hp
      rw [iterateFrom_of_more h] at hp
      obtain ⟨-, rfl⟩ := Prod.mk.inj hp
      refine ((hbody i).reads.more hpos h ext).trans ?_
      obtain ⟨r, q, l', h'⟩ | ⟨l', h'⟩ | ⟨l', h'⟩ := cases_read (body i) (buf ++ ext) pos
      · cases r with
        | inr a => rw [h', iterateFrom_of_inr h']
        | inl i' =>
            have hpos' : pos ≤ (buf ++ ext).length := by rw [List.length_append]; omega
            have hlt : pos < q := (hbody i).advances.le hpos' h'
            rw [h', iterateFrom_of_inl h' hlt ((hbody i).reads.le_length hpos' h')]
            exact List.prefix_append _ _
      · rw [h', iterateFrom_of_more h']
      · rw [h', iterateFrom_of_fail h']
    · intro i pos l _ h l' hp
      simp [iterateFrom_of_fail h] at hp

end

end Reader

end Incremental
