import Mathlib.Tactic.Common

/-!
# Programs over a state that may stop

A `Program` reads and changes a state and returns a value, or stops with an error.  `wp x Q E s` says
that `x` started in `s` returns with `Q`, or stops with an error that `E` permits.  The rules follow
the program: one for each construct, and `wp_mono` for consequence.  `on` runs a program on a part of a
larger state.
-/

namespace EnhancedXv6.Hoare

/-- A program over states `σ` that may stop with an `ε`. -/
def Program (σ ε α : Type) := σ → Except ε (α × σ)

variable {σ τ ε α β : Type}

namespace Program

instance : Monad (Program σ ε) where
  pure a := fun s ↦ .ok (a, s)
  bind x f := fun s ↦
    match x s with
    | .ok (a, s') => f a s'
    | .error e => .error e

def stop (e : ε) : Program σ ε α := fun _ ↦ .error e

def get : Program σ ε σ := fun s ↦ .ok (s, s)

def modify (f : σ → σ) : Program σ ε Unit := fun s ↦ .ok ((), f s)

def when (c : Prop) [Decidable c] (x : Program σ ε Unit) : Program σ ε Unit :=
  if c then x else pure ()

theorem run_bind {x : Program σ ε α} {f : α → Program σ ε β} {s s' : σ} {a : α}
    (h : x s = .ok (a, s')) : (x >>= f) s = f a s' := by
  simp only [bind, h]

/-- A program on the part of the state that `view` reads and `put` writes back. -/
def on (view : τ → σ) (put : σ → τ → τ) (x : Program σ ε α) : Program τ ε α := fun s ↦
  match x (view s) with
  | .ok (a, s') => .ok (a, put s' s)
  | .error e => .error e

/-- `x` returns with `Q` or stops with `E`. -/
def wp (x : Program σ ε α) (Q : α → σ → Prop) (E : ε → Prop) (s : σ) : Prop :=
  match x s with
  | .ok (a, s') => Q a s'
  | .error e => E e

variable {x : Program σ ε α} {f : α → Program σ ε β} {Q Q' : α → σ → Prop} {R : β → σ → Prop}
  {E : ε → Prop} {s : σ}

@[simp] theorem wp_pure {a : α} : (pure a : Program σ ε α).wp Q E s ↔ Q a s := Iff.rfl

@[simp] theorem wp_stop {e : ε} : (stop e : Program σ ε α).wp Q E s ↔ E e := Iff.rfl

@[simp] theorem wp_get {Q : σ → σ → Prop} : (get : Program σ ε σ).wp Q E s ↔ Q s s := Iff.rfl

@[simp] theorem wp_modify {g : σ → σ} {Q : Unit → σ → Prop} :
    (modify g : Program σ ε Unit).wp Q E s ↔ Q () (g s) := Iff.rfl

@[simp] theorem wp_bind :
    (x >>= f).wp R E s ↔ x.wp (fun a s' ↦ (f a).wp R E s') E s := by
  unfold wp
  simp only [bind]
  cases x s with
  | ok r => rfl
  | error e => rfl

@[simp] theorem wp_on {view : τ → σ} {put : σ → τ → τ} {Q : α → τ → Prop} {s : τ} :
    (x.on view put).wp Q E s ↔ x.wp (fun a s' ↦ Q a (put s' s)) E (view s) := by
  unfold wp on
  cases x (view s) with
  | ok r => rfl
  | error e => rfl

theorem wp_ite {c : Prop} [Decidable c] {y : Program σ ε α} (hx : c → x.wp Q E s)
    (hy : ¬ c → y.wp Q E s) : (if c then x else y).wp Q E s := by
  split_ifs with h
  · exact hx h
  · exact hy h

theorem wp_when {c : Prop} [Decidable c] {y : Program σ ε Unit} {Q : Unit → σ → Prop}
    (hy : c → y.wp Q E s) (hskip : ¬ c → Q () s) : (when c y).wp Q E s :=
  wp_ite hy hskip

theorem wp_mono (h : x.wp Q E s) (hQ : ∀ a s', Q a s' → Q' a s') : x.wp Q' E s := by
  unfold wp at h ⊢
  cases hx : x s with
  | ok r =>
    rw [hx] at h
    exact hQ r.1 r.2 h
  | error e => simpa [hx] using h

/-- The rule for a call: `x` by its specification, then the rest. -/
theorem wp_seq (h : x.wp Q E s) (hf : ∀ a s', Q a s' → (f a).wp R E s') : (x >>= f).wp R E s :=
  wp_bind.mpr (wp_mono h hf)

theorem wp_of_run {r : α × σ} (hx : x s = .ok r) (h : Q r.1 r.2) : x.wp Q E s := by
  unfold wp
  rwa [hx]

/-- What a specification says about an execution that returned. -/
theorem wp_ok {r : α × σ} (h : x.wp Q E s) (hx : x s = .ok r) : Q r.1 r.2 := by
  unfold wp at h
  rwa [hx] at h

/-- What a specification says about an execution that stopped. -/
theorem wp_error {e : ε} (h : x.wp Q E s) (hx : x s = .error e) : E e := by
  unfold wp at h
  rwa [hx] at h

/-! ## Programs that keep a record -/

/-- What `x` does in `s` is what `y` does in the part of `s` that `view` shows. -/
def ErasesAt (view : σ → τ) (x : Program σ ε α) (y : Program τ ε α) (s : σ) : Prop :=
  y (view s) = (x s).map fun r ↦ (r.1, view r.2)

namespace ErasesAt

variable {view : σ → τ} {x' : Program σ ε α} {y y' : Program τ ε α} {g : α → Program τ ε β} {s' : σ}

theorem pure (a : α) : ErasesAt view (Pure.pure a : Program σ ε α) (Pure.pure a) s := rfl

theorem stop (e : ε) : ErasesAt view (stop e : Program σ ε α) (Program.stop e) s := rfl

theorem modify {u : σ → σ} {w : τ → τ} (h : view (u s) = w (view s)) :
    ErasesAt view (modify u : Program σ ε Unit) (Program.modify w) s := by
  simp only [ErasesAt, Program.modify, Except.map, h]

theorem bind (hx : ErasesAt view x y s) (hf : ∀ a s', ErasesAt view (f a) (g a) s') :
    ErasesAt view (x >>= f) (y >>= g) s := by
  simp only [ErasesAt, Bind.bind] at hx ⊢
  rw [hx]
  cases x s with
  | ok r => exact hf r.1 r.2
  | error e => rfl

theorem get {f : σ → Program σ ε β} {g : τ → Program τ ε β}
    (h : ErasesAt view (f s) (g (view s)) s) : ErasesAt view (get >>= f) (Program.get >>= g) s := h

theorem ite {c : Prop} [Decidable c] (hx : c → ErasesAt view x y s)
    (hx' : ¬ c → ErasesAt view x' y' s) :
    ErasesAt view (if c then x else x') (if c then y else y') s := by
  split_ifs with h
  · exact hx h
  · exact hx' h

theorem of_run {a : α} (hx : x s = .ok (a, s')) (hy : y (view s) = .ok (a, view s')) :
    ErasesAt view x y s := by
  rw [ErasesAt, hx, hy]
  rfl

theorem of_stop {e : ε} (hx : x s = .error e) (hy : y (view s) = .error e) :
    ErasesAt view x y s := by
  rw [ErasesAt, hx, hy]
  rfl

end ErasesAt

end Program

end EnhancedXv6.Hoare
