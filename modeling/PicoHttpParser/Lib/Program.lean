import PicoHttpParser.Lib.Growth

/-!
Readers as programs.

A parser in an imperative language publishes its outputs by writing to its
caller's memory, and it leaves by returning a position or an error. Such a
program is an `EStateM`, whose state survives the error. `realize` turns a
reader into such a program: the events are written one after the other, then
the verdict decides how the program leaves. A program
implements a reader when it is equal to the program so obtained, and the
equations of this file are what such a proof rewrites with.
-/

namespace Incremental

variable {β ω ω' ε σ τ α γ ι : Type}

/-- The errors a program leaves with when its reader waits or fails. -/
class Signals (ε : Type) where
  more : ε
  fail : ε

/-- A verdict as the outcome of a program. -/
def Verdict.settle [Signals ε] : Verdict α → Except ε α
  | .done a => .ok a
  | .more => .error Signals.more
  | .fail => .error Signals.fail

/-- A computation that does not touch the state. -/
def lift (x : Except ε α) : EStateM ε σ α := fun s =>
  match x with
  | .ok a => .ok a s
  | .error e => .error e s

@[simp] theorem lift_ok (a : α) : (lift (.ok a) : EStateM ε σ α) = pure a := rfl

/-- A sequence without state returns when both its parts do. -/
theorem except_bind_eq_ok {x : Except ε α} {f : α → Except ε γ} {c : γ}
    (h : (x >>= f) = .ok c) : ∃ a, x = .ok a ∧ f a = .ok c := by
  cases x with
  | ok a => exact ⟨a, rfl, h⟩
  | error e => cases h

/-- A sequence returns when both its parts do. -/
theorem bind_eq_ok {x : EStateM ε σ α} {f : α → EStateM ε σ γ} {s s' : σ} {c : γ}
    (h : (x >>= f) s = .ok c s') : ∃ a s₁, x s = .ok a s₁ ∧ f a s₁ = .ok c s' := by
  change EStateM.bind x f s = _ at h
  cases hx : x s with
  | ok a s₁ => exact ⟨a, s₁, rfl, by simpa only [EStateM.bind, hx] using h⟩
  | error e s₁ => simp [EStateM.bind, hx] at h

theorem lift_eq_ok {x : Except ε α} {s s' : σ} {a : α}
    (h : (lift x : EStateM ε σ α) s = .ok a s') : x = .ok a ∧ s' = s := by
  cases x with
  | ok b =>
      obtain ⟨rfl, rfl⟩ : b = a ∧ s = s' := by simpa [lift] using h
      exact ⟨rfl, rfl⟩
  | error e => simp [lift] at h

theorem lift_injective {x y : Except ε α}
    (h : (lift x : EStateM ε Unit α) = lift y) : x = y := by
  have hrun := congrFun h ()
  cases x <;> cases y <;> simp_all [lift]

theorem lift_bind (x : Except ε α) (f : α → Except ε γ) :
    (lift (x >>= f) : EStateM ε σ γ) = lift x >>= fun a => lift (f a) := by
  cases x <;> rfl

theorem lift_map (f : α → γ) (x : Except ε α) :
    (lift (f <$> x) : EStateM ε σ γ) = f <$> lift x := by
  cases x <;> rfl

/-- A scan that returned stands at an element it stops at. -/
theorem scan_eq_ok [Signals ε] {f : β → Reader.Act} {buf : List β} {pos : ℕ} {k : Unit × ℕ → γ}
    {c : γ} (h : ((Reader.scanFrom f buf pos).settle >>= fun r => .ok (k r)) =
      (.ok c : Except ε γ)) :
    ∃ q, pos ≤ q ∧ q < buf.length ∧ k ((), q) = c := by
  cases hscan : Reader.scanFrom f buf pos with
  | more => rw [hscan] at h; cases h
  | fail => rw [hscan] at h; cases h
  | done r =>
      rw [hscan] at h
      obtain ⟨hle, hlt, -⟩ := Reader.scanFrom_done hscan
      exact ⟨r.2, hle, hlt, Except.ok.inj h⟩

/-- A loop that looks at one element in each turn, and leaves for `k` at the
first one it does not step over, is a scan followed by `k`. -/
theorem loop_eq_scan_of_le [Signals ε] {f : β → Reader.Act} {buf : List β}
    (loop : ℕ → Except ε γ) {k : ℕ → Except ε γ}
    (hloop : ∀ p ≤ buf.length, loop p =
      match buf[p]? with
      | none => .error Signals.more
      | some b =>
        match f b with
        | .skip => loop (p + 1)
        | .stop => k p
        | .bad => .error Signals.fail)
    (p : ℕ) (hp : p ≤ buf.length) :
    loop p = (Reader.scanFrom f buf p).settle >>= fun r => k r.2 := by
  induction hn : buf.length - p using Nat.strong_induction_on generalizing p with
  | _ n ih =>
      rw [hloop p hp]
      cases hb : buf[p]? with
      | none => rw [Reader.scanFrom_none hb]; rfl
      | some b =>
          have hlt := (List.getElem?_eq_some_iff.mp hb).1
          rw [Reader.scanFrom_some hb]
          dsimp only
          generalize f b = act
          cases act with
          | skip => exact ih (buf.length - (p + 1)) (by omega) (p + 1) hlt rfl
          | stop => rfl
          | bad => rfl

theorem loop_eq_scan [Signals ε] {f : β → Reader.Act} {buf : List β} {loop : ℕ → Except ε γ}
    {k : ℕ → Except ε γ}
    (hloop : ∀ p, loop p =
      match buf[p]? with
      | none => .error Signals.more
      | some b =>
        match f b with
        | .skip => loop (p + 1)
        | .stop => k p
        | .bad => .error Signals.fail)
    (p : ℕ) :
    loop p = (Reader.scanFrom f buf p).settle >>= fun r => k r.2 := by
  by_cases hp : p ≤ buf.length
  · exact loop_eq_scan_of_le loop (fun p _ => hloop p) p hp
  · have hb : buf[p]? = none := List.getElem?_eq_none_iff.mpr (by omega)
    rw [hloop, hb, Reader.scanFrom_none hb]
    rfl

/-- Run a program on a part of the state. -/
def zoom (get : σ → τ) (set : σ → τ → σ) (x : EStateM ε τ α) : EStateM ε σ α := fun s =>
  match x (get s) with
  | .ok a t => .ok a (set s t)
  | .error e t => .error e (set s t)

theorem zoom_map (get : σ → τ) (set : σ → τ → σ) (f : α → γ) (x : EStateM ε τ α) :
    zoom get set (f <$> x) = f <$> zoom get set x := by
  funext s
  show (match EStateM.map f x (get s) with | .ok a t => _ | .error e t => _) = EStateM.map f _ s
  cases h : x (get s) <;> simp [zoom, EStateM.map, h]

/-! ### Programs from the states of one kind

Two programs that differ in how they come by a value do the same from the
states in which the value is what the other program takes it to be. -/

/-- The program leaves `I` true when it returns. -/
structure Preserves (I : σ → Prop) (x : EStateM ε σ α) : Prop where
  of_eq_ok : ∀ {s s' : σ} {a : α}, I s → x s = .ok a s' → I s'

namespace Preserves

variable {I : σ → Prop}

theorem lift (x : Except ε α) : Preserves I (Incremental.lift x : EStateM ε σ α) where
  of_eq_ok hs h := by rwa [(lift_eq_ok h).2]

theorem pure (a : α) : Preserves I (Pure.pure a : EStateM ε σ α) := lift (.ok a)

theorem throw (e : ε) : Preserves I (MonadExcept.throw e : EStateM ε σ α) := lift (.error e)

theorem modify {m : σ → σ} (hm : ∀ s, I s → I (m s)) :
    Preserves I (modify m : EStateM ε σ Unit) where
  of_eq_ok hs h := (EStateM.Result.ok.inj h).2 ▸ hm _ hs

theorem zoom {get : σ → τ} {set : σ → τ → σ} (x : EStateM ε τ α)
    (hset : ∀ s t, I s → I (set s t) := by exact fun _ _ h => h) :
    Preserves I (Incremental.zoom get set x) where
  of_eq_ok {s s' a} hs h := by
    cases hx : x (get s) with
    | ok b t =>
        simp only [Incremental.zoom, hx, EStateM.Result.ok.injEq] at h
        exact h.2 ▸ hset s t hs
    | error e t => simp [Incremental.zoom, hx] at h

theorem bind {x : EStateM ε σ α} {f : α → EStateM ε σ γ} (hx : Preserves I x)
    (hf : ∀ a, Preserves I (f a)) : Preserves I (x >>= f) where
  of_eq_ok hs h := by
    obtain ⟨a, s₁, h₁, h₂⟩ := bind_eq_ok h
    exact (hf a).of_eq_ok (hx.of_eq_ok hs h₁) h₂

end Preserves

/-- The two programs do the same from every state in `I`. -/
structure AgreeOn (I : σ → Prop) (x y : EStateM ε σ α) : Prop where
  eq : ∀ s, I s → x s = y s

namespace AgreeOn

variable {I J : σ → Prop}

theorem refl (x : EStateM ε σ α) : AgreeOn I x x := ⟨fun _ _ => rfl⟩

theorem of_eq {x y : EStateM ε σ α} (h : x = y) : AgreeOn I x y := ⟨fun _ _ => by rw [h]⟩

theorem trans {x y z : EStateM ε σ α} (hxy : AgreeOn I x y) (hyz : AgreeOn I y z) :
    AgreeOn I x z := ⟨fun s hs => (hxy.eq s hs).trans (hyz.eq s hs)⟩

theorem bind_left {x y : EStateM ε σ α} (h : AgreeOn I x y) (f : α → EStateM ε σ γ) :
    AgreeOn I (x >>= f) (y >>= f) where
  eq s hs := by
    show EStateM.bind x f s = EStateM.bind y f s
    simp only [EStateM.bind, h.eq s hs]

theorem zoom {get : σ → τ} {set : σ → τ → σ} {I : τ → Prop} {x y : EStateM ε τ α}
    (h : AgreeOn I x y) :
    AgreeOn (fun s => I (get s)) (Incremental.zoom get set x) (Incremental.zoom get set y) where
  eq s hs := by simp only [Incremental.zoom, h.eq (get s) hs]

theorem bind {x : EStateM ε σ α} (hx : Preserves I x) {f g : α → EStateM ε σ γ}
    (h : ∀ a, (∃ s s', x s = .ok a s') → AgreeOn I (f a) (g a)) :
    AgreeOn I (x >>= f) (x >>= g) where
  eq s hs := by
    show EStateM.bind x f s = EStateM.bind x g s
    cases hxs : x s with
    | ok a s' =>
        simpa only [EStateM.bind, hxs] using (h a ⟨s, s', hxs⟩).eq s' (hx.of_eq_ok hs hxs)
    | error e s' => simp only [EStateM.bind, hxs]

theorem lift_bind (x : Except ε α) {f g : α → EStateM ε σ γ}
    (h : ∀ a, x = .ok a → AgreeOn I (f a) (g a)) : AgreeOn I (lift x >>= f) (lift x >>= g) where
  eq s hs := by
    cases x with
    | ok a => exact (h a rfl).eq s hs
    | error e => rfl

/-- A write after which the states are those of `J`. -/
theorem modify_bind {m : σ → σ} {f g : Unit → EStateM ε σ γ} (hm : ∀ s, I s → J (m s))
    (h : AgreeOn J (f ()) (g ())) : AgreeOn I (modify m >>= f) (modify m >>= g) where
  eq s hs := h.eq (m s) (hm s hs)

/-- A write that does not matter. -/
theorem modify_bind_self {m : σ → σ} {f g : Unit → EStateM ε σ γ} (h : AgreeOn I (f ()) (g ()))
    (hm : ∀ s, I s → I (m s) := by exact fun _ h => h) :
    AgreeOn I (modify m >>= f) (modify m >>= g) := modify_bind hm h

/-- A look at the state that yields what `I` knows. -/
theorem get_bind {f : σ → EStateM ε σ γ} {y : EStateM ε σ γ} (h : ∀ s, I s → f s s = y s) :
    AgreeOn I (EStateM.get >>= f) y where
  eq := h

end AgreeOn

/-! ### Readers as programs -/

section

variable [Signals ε] {publish : σ → ω → σ}

/-- The program of a reader. -/
def realize (publish : σ → ω → σ) (p : Reader β ω α) (buf : List β) (pos : ℕ) :
    EStateM ε σ (α × ℕ) := fun s =>
  match p.read buf pos with
  | (.done a, l) => .ok a (l.foldl publish s)
  | (.more, l) => .error Signals.more (l.foldl publish s)
  | (.fail, l) => .error Signals.fail (l.foldl publish s)

theorem realize_congr {p q : Reader β ω α} {buf : List β} {pos : ℕ}
    (h : p.read buf pos = q.read buf pos) :
    (realize publish p buf pos : EStateM ε σ (α × ℕ)) = realize publish q buf pos := by
  funext s
  simp only [realize, h]

theorem realize_of_read {p : Reader β ω α} {buf : List β} {pos : ℕ} {v : Verdict (α × ℕ)}
    (h : p.read buf pos = (v, [])) :
    (realize publish p buf pos : EStateM ε σ (α × ℕ)) = lift v.settle := by
  cases v <;> (funext s; simp only [realize, h]; rfl)

@[simp] theorem realize_pure (a : α) (buf : List β) (pos : ℕ) :
    (realize publish (pure a) buf pos : EStateM ε σ (α × ℕ)) = pure (a, pos) := rfl

@[simp] theorem realize_emit (e : ω) (buf : List β) (pos : ℕ) :
    (realize publish (Reader.emit e) buf pos : EStateM ε σ (Unit × ℕ)) =
      (do modify fun s => publish s e
          pure ((), pos)) := rfl

@[simp] theorem realize_position (buf : List β) (pos : ℕ) :
    (realize publish Reader.position buf pos : EStateM ε σ (ℕ × ℕ)) = pure (pos, pos) := rfl

theorem realize_scan (f : β → Reader.Act) (buf : List β) (pos : ℕ) :
    (realize publish (Reader.scan f) buf pos : EStateM ε σ (Unit × ℕ)) =
      lift (Reader.scanFrom f buf pos).settle := realize_of_read rfl

/-- Reading the next element ends the program where there is none. -/
theorem realize_next_bind (f : β × ℕ → EStateM ε σ γ) (buf : List β) (pos : ℕ) :
    realize publish Reader.next buf pos >>= f =
      match buf[pos]? with
      | none => throw Signals.more
      | some b => f (b, pos + 1) := by
  cases hb : buf[pos]? with
  | none => rw [realize_of_read (Reader.read_next_none hb)]; rfl
  | some b => rw [realize_of_read (Reader.read_next_some hb)]; rfl

theorem realize_peek_bind (f : β × ℕ → EStateM ε σ γ) (buf : List β) (pos : ℕ) :
    realize publish Reader.peek buf pos >>= f =
      match buf[pos]? with
      | none => throw Signals.more
      | some b => f (b, pos) := by
  cases hb : buf[pos]? with
  | none => rw [realize_of_read (Reader.read_peek_none hb)]; rfl
  | some b => rw [realize_of_read (Reader.read_peek_some hb)]; rfl

theorem realize_captured (p : Reader β ω α) (buf : List β) (pos : ℕ) :
    (realize publish (Reader.captured p) buf pos : EStateM ε σ ((List β × α) × ℕ)) =
      (fun r => (((buf.drop pos).take (r.2 - pos), r.1), r.2)) <$> realize publish p buf pos := by
  funext s
  show _ = EStateM.map _ _ s
  obtain ⟨a, pos', l, hp⟩ | ⟨l, hp⟩ | ⟨l, hp⟩ := Reader.cases_read p buf pos <;>
    simp only [realize, Reader.captured, hp, EStateM.map]

/-- Where the program of a reader returns, the reader is done. -/
theorem read_of_realize {p : Reader β ω α} {buf : List β} {pos q : ℕ} {a : α}
    {x : Except ε (α × ℕ)}
    (h : (realize (fun u _ => u) p buf pos : EStateM ε Unit (α × ℕ)) = lift x)
    (hx : x = .ok (a, q)) : ∃ l, p.read buf pos = (.done (a, q), l) := by
  have hrun := congrFun h ()
  rw [hx] at hrun
  obtain ⟨a', q', l, hp⟩ | ⟨l, hp⟩ | ⟨l, hp⟩ := Reader.cases_read p buf pos
  · simp only [realize, hp] at hrun
    obtain ⟨rfl, rfl⟩ := Prod.mk.inj (EStateM.Result.ok.inj hrun).1
    exact ⟨l, hp⟩
  · simp [realize, hp, lift] at hrun
  · simp [realize, hp, lift] at hrun

/-- A decision without events, on a window that may not be there yet. -/
theorem realize_window {n k : ℕ} {f : List β → Option α × List ω}
    (hf : ∀ w, (f w).2 = []) (buf : List β) (pos : ℕ) :
    (realize publish (Reader.window n k f) buf pos : EStateM ε σ (α × ℕ)) =
      lift (if buf.length < pos + n then .error Signals.more
        else
          match (f ((buf.drop pos).take n)).1 with
          | some a => .ok (a, pos + k)
          | none => .error Signals.fail) := by
  have hw := hf ((buf.drop pos).take n)
  by_cases hlen : buf.length < pos + n
  · rw [realize_of_read (v := .more) (by simp [Reader.window, hlen]), if_pos hlen]
    rfl
  · rw [if_neg hlen]
    rcases h : f ((buf.drop pos).take n) with ⟨_ | a, l⟩ <;> rw [h] at hw <;> dsimp only at hw
    · rw [realize_of_read (v := .fail) (by simp [Reader.window, hlen, h, hw])]
      rfl
    · rw [realize_of_read (v := .done (a, pos + k)) (by simp [Reader.window, hlen, h, hw])]
      rfl

/-- Sequencing of readers is sequencing of programs. -/
theorem realize_bind (p : Reader β ω α) (q : α → Reader β ω γ) (buf : List β) (pos : ℕ) :
    (realize publish (p >>= q) buf pos : EStateM ε σ (γ × ℕ)) =
      realize publish p buf pos >>= fun r => realize publish (q r.1) buf r.2 := by
  funext s
  show _ = EStateM.bind _ _ s
  obtain ⟨a, pos', l, hp⟩ | ⟨l, hp⟩ | ⟨l, hp⟩ := Reader.cases_read p buf pos
  · obtain ⟨c, pos'', l', hq⟩ | ⟨l', hq⟩ | ⟨l', hq⟩ := Reader.cases_read (q a) buf pos' <;>
      simp only [Reader.read_bind, hp, hq, realize, EStateM.bind, List.foldl_append]
  · simp only [Reader.read_bind, hp, realize, EStateM.bind]
  · simp only [Reader.read_bind, hp, realize, EStateM.bind]

/-- What follows a reader needs to be known only for answers it gives, and
for the states its events lead to. -/
theorem AgreeOn.realize_bind {I J : σ → Prop} {p : Reader β ω α} {buf : List β} {pos : ℕ}
    {f g : α × ℕ → EStateM ε σ γ}
    (h : ∀ a pos' l, p.read buf pos = (.done (a, pos'), l) →
      AgreeOn J (f (a, pos')) (g (a, pos')) ∧ ∀ s, I s → J (l.foldl publish s)) :
    AgreeOn I (realize publish p buf pos >>= f) (realize publish p buf pos >>= g) where
  eq s hs := by
    show EStateM.bind _ _ s = EStateM.bind _ _ s
    obtain ⟨a, pos', l, hp⟩ | ⟨l, hp⟩ | ⟨l, hp⟩ := Reader.cases_read p buf pos
    · obtain ⟨hagree, hJ⟩ := h a pos' l hp
      simp only [hp, realize, EStateM.bind, hagree.eq _ (hJ s hs)]
    · simp only [hp, realize, EStateM.bind]
    · simp only [hp, realize, EStateM.bind]

theorem realize_bind_congr {p : Reader β ω α} {buf : List β} {pos : ℕ}
    {f g : α × ℕ → EStateM ε σ γ}
    (h : ∀ a pos' l, p.read buf pos = (.done (a, pos'), l) → f (a, pos') = g (a, pos')) :
    realize publish p buf pos >>= f = realize publish p buf pos >>= g :=
  funext fun s => (AgreeOn.realize_bind (I := fun _ => True) (J := fun _ => True)
    fun a pos' l hp => ⟨.of_eq (h a pos' l hp), fun _ _ => trivial⟩).eq s trivial

/-- A loop whose turns are those of an iteration, and which leaves for `k`
when the iteration is done, is the iteration followed by `k`. The `i`-th turn
starts in a state in `I i`. -/
theorem realize_iterate {body : ι → Reader β ω (ι ⊕ α)} (hbody : ∀ i, Reader.Consumes (body i))
    {I : ι → σ → Prop} {buf : List β} (loop : ι → ℕ → EStateM ε σ γ) (k : α × ℕ → EStateM ε σ γ)
    (hloop : ∀ i, ∀ pos ≤ buf.length, AgreeOn (I i) (loop i pos)
      (realize publish (body i) buf pos >>= fun
        | (.inl i', pos') => loop i' pos'
        | (.inr a, pos') => k (a, pos')))
    (hI : ∀ i pos i' pos' l s, (body i).read buf pos = (.done (.inl i', pos'), l) → I i s →
      I i' (l.foldl publish s))
    (i : ι) (pos : ℕ) (hpos : pos ≤ buf.length) :
    AgreeOn (I i) (loop i pos) (realize publish (Reader.iterate body i) buf pos >>= k) where
  eq s hs := by
    induction hn : buf.length - pos using Nat.strong_induction_on generalizing i pos s with
    | _ n ih =>
        rw [(hloop i pos hpos).eq s hs, realize_congr (Reader.read_iterate hbody i hpos),
          realize_bind, bind_assoc]
        show EStateM.bind _ _ s = EStateM.bind _ _ s
        obtain ⟨r, pos', l, h⟩ | ⟨l, h⟩ | ⟨l, h⟩ := Reader.cases_read (body i) buf pos
        · have hlt := (hbody i).advances.le hpos h
          have hlen := (hbody i).reads.le_length hpos h
          simp only [realize, h, EStateM.bind]
          cases r with
          | inl i' =>
              exact ih (buf.length - pos') (by omega) i' pos' hlen _ (hI _ _ _ _ _ _ h hs) rfl
          | inr a => simp only [realize_pure, pure_bind]
        · simp only [realize, h, EStateM.bind]
        · simp only [realize, h, EStateM.bind]

/-- The same for a loop that does not depend on the state. -/
theorem realize_iterate_eq (publish : σ → ω → σ) {body : ι → Reader β ω (ι ⊕ α)}
    (hbody : ∀ i, Reader.Consumes (body i)) {buf : List β} (loop : ι → ℕ → EStateM ε σ γ)
    (k : α × ℕ → EStateM ε σ γ)
    (hloop : ∀ i, ∀ pos ≤ buf.length, loop i pos =
      realize publish (body i) buf pos >>= fun
        | (.inl i', pos') => loop i' pos'
        | (.inr a, pos') => k (a, pos'))
    (i : ι) (pos : ℕ) (hpos : pos ≤ buf.length) :
    loop i pos = realize publish (Reader.iterate body i) buf pos >>= k :=
  funext fun s =>
    (realize_iterate hbody (I := fun _ _ => True) loop k
      (fun i pos hpos => ⟨fun _ _ => by rw [hloop i pos hpos]⟩)
      (fun _ _ _ _ _ _ _ _ => trivial) i pos hpos).eq s trivial

theorem foldl_zoom {get : σ → τ} {set : σ → τ → σ} {publish' : τ → ω' → τ} {f : ω' → ω}
    (get_set : ∀ s t, get (set s t) = t) (set_set : ∀ s t t', set (set s t) t' = set s t')
    (set_get : ∀ s, set s (get s) = s)
    (hpublish : ∀ s e, publish s (f e) = set s (publish' (get s) e)) (l : List ω') (s : σ) :
    (l.map f).foldl publish s = set s (l.foldl publish' (get s)) := by
  induction l generalizing s with
  | nil => exact (set_get s).symm
  | cons e l ih =>
      rw [List.map_cons, List.foldl_cons, List.foldl_cons, ih, hpublish, get_set, set_set]

/-- A part of the state to which a part of the events goes. -/
theorem zoom_realize (publish : σ → ω → σ) {get : σ → τ} {set : σ → τ → σ}
    {publish' : τ → ω' → τ} {f : ω' → ω}
    (get_set : ∀ s t, get (set s t) = t) (set_set : ∀ s t t', set (set s t) t' = set s t')
    (set_get : ∀ s, set s (get s) = s)
    (hpublish : ∀ s e, publish s (f e) = set s (publish' (get s) e))
    (p : Reader β ω' α) (buf : List β) (pos : ℕ) :
    zoom get set (realize publish' p buf pos) =
      (realize publish (Reader.mapEvents f p) buf pos : EStateM ε σ (α × ℕ)) := by
  funext s
  have hfold := foldl_zoom get_set set_set set_get hpublish (p.read buf pos).2 s
  rcases h : p.read buf pos with ⟨_ | _ | _, l⟩ <;>
    simp only [h] at hfold <;> simp only [zoom, realize, Reader.mapEvents, h, hfold]

end

end Incremental
