import Mathlib.Algebra.BigOperators.Group.Finset.Basic
import Mathlib.Data.Fintype.Basic

/-!
# Programs that own resources

A program works on a state it shares with others, in atomic steps.  Each program holds resources,
elements of a commutative monoid, and `W s r` says that the state `s` agrees with the resources `r`
that all programs hold together.  `Prog.wp` is the weakest precondition on what a program holds: it
never panics, and whenever it ends with a result, it holds what the postcondition says.  Others may
change the state between two steps, as long as they keep `W`; so a program may rely on its resources
only.
-/

namespace EnhancedXv6.Resource

/-- A program over a shared state. -/
inductive Prog (σ α : Type)
  | pure (a : α)
  /-- the program stops the whole system -/
  | panic
  /-- in state `s` and with choice `c` of the environment, the state becomes `f c s` and the program
  goes on with `k c s` -/
  | step (f : Bool → σ → σ) (k : Bool → σ → Prog σ α)

namespace Prog

variable {σ α β : Type}

def bind : Prog σ α → (α → Prog σ β) → Prog σ β
  | .pure a, g => g a
  | .panic, _ => .panic
  | .step f k, g => .step f fun c s ↦ (k c s).bind g

instance : Monad (Prog σ) where
  pure := .pure
  bind := bind

@[simp] theorem pure_bind (a : α) (g : α → Prog σ β) :
    ((Pure.pure a : Prog σ α) >>= g) = g a := rfl

/-- The program without interruption; `choices n` is the choice at step `n`. -/
def run : Prog σ α → (ℕ → Bool) → σ → Option (α × σ)
  | .pure a, _, s => some (a, s)
  | .panic, _, _ => none
  | .step f k, choices, s => (k (choices 0) s).run (fun n ↦ choices (n + 1)) (f (choices 0) s)

def forSome {ι : Type} (f : ι → Prog σ Unit) : Option ι → Prog σ Unit
  | none => .pure ()
  | some i => f i

def forEach {ι : Type} (f : ι → Prog σ Unit) : List ι → Prog σ Unit
  | [] => .pure ()
  | i :: is => (f i).bind fun _ ↦ forEach f is

theorem forEach_cons {ι : Type} (f : ι → Prog σ Unit) (i : ι) (is : List ι) :
    forEach f (i :: is) = (f i >>= fun _ ↦ forEach f is) := rfl

end Prog

variable {σ R α β : Type} [AddCommMonoid R] {W : σ → R → Prop} {h : R}

def Possible (W : σ → R → Prop) (h : R) : Prop :=
  ∃ s rest, W s (h + rest)

namespace Prog

def wp (W : σ → R → Prop) : Prog σ α → (α → R → Prop) → R → Prop
  | .pure a, Q, h => Possible W h → Q a h
  | .panic, _, h => ¬Possible W h
  | .step f k, Q, h => ∀ c s rest, W s (h + rest) →
      ∃ h', W (f c s) (h' + rest) ∧ (k c s).wp W Q h'

variable {Q : α → R → Prop} {x : Prog σ α}

theorem wp_of_not_possible (hnot : ¬Possible W h) : x.wp W Q h := by
  cases x with
  | pure a => exact fun hpossible ↦ absurd hpossible hnot
  | panic => exact hnot
  | step f k => exact fun c s rest hs ↦ absurd ⟨s, rest, hs⟩ hnot

theorem wp_pure {a : α} (ha : Q a h) : wp W (Pure.pure a : Prog σ α) Q h :=
  fun _ ↦ ha

theorem wp_step {f : Bool → σ → σ} {k : Bool → σ → Prog σ α}
    (hstep : ∀ c s rest, W s (h + rest) → ∃ h', W (f c s) (h' + rest) ∧ (k c s).wp W Q h') :
    (Prog.step f k).wp W Q h :=
  hstep

theorem wp_bind {g : α → Prog σ β} {Q : β → R → Prop}
    (hx : x.wp W (fun a h' ↦ (g a).wp W Q h') h) : wp W (x >>= g) Q h := by
  induction x generalizing h with
  | pure a =>
    by_cases hpossible : Possible W h
    · exact hx hpossible
    · exact wp_of_not_possible hpossible
  | panic => exact hx
  | step f k ih =>
    intro c s rest hs
    obtain ⟨h', hs', hk⟩ := hx c s rest hs
    exact ⟨h', hs', ih c s hk⟩

theorem wp_mono {Q' : α → R → Prop} (hx : x.wp W Q h) (hQ : ∀ a h', Q a h' → Q' a h') :
    x.wp W Q' h := by
  induction x generalizing h with
  | pure a => exact fun hpossible ↦ hQ a h (hx hpossible)
  | panic => exact hx
  | step f k ih =>
    intro c s rest hs
    obtain ⟨h', hs', hk⟩ := hx c s rest hs
    exact ⟨h', hs', ih c s hk⟩

/-- What is known of the resources of a program may be used. -/
theorem wp_of_possible (hx : Possible W h → x.wp W Q h) : x.wp W Q h := by
  by_cases hpossible : Possible W h
  · exact hx hpossible
  · exact wp_of_not_possible hpossible

/-- A loop whose iterations turn `I i` into `I (i + 1)`. -/
theorem wp_forEach {ι : Type} {f : ι → Prog σ Unit} {Q : Unit → R → Prop} (I : List ι → R → Prop)
    {is : List ι} (hI : I is h) (hend : ∀ h', I [] h' → Q () h')
    (hstep : ∀ i is h', I (i :: is) h' → (f i).wp W (fun _ ↦ I is) h') :
    (forEach f is).wp W Q h := by
  induction is generalizing h with
  | nil => exact fun _ ↦ hend h hI
  | cons i is ih =>
    refine wp_bind (x := f i) (wp_mono (hstep i is h hI) ?_)
    intro _ h' hI'
    exact ih hI'

/-- A program that is not interrupted ends, with the resources of its postcondition. -/
theorem wp_run (choices : ℕ → Bool) {s : σ} {rest : R} (hx : x.wp W Q h) (hs : W s (h + rest)) :
    ∃ a s' h', x.run choices s = some (a, s') ∧ W s' (h' + rest) ∧ Q a h' := by
  induction x generalizing h s choices with
  | pure a => exact ⟨a, s, h, rfl, hs, hx ⟨s, rest, hs⟩⟩
  | panic => exact absurd ⟨s, rest, hs⟩ hx
  | step f k ih =>
    obtain ⟨h', hs', hk⟩ := hx (choices 0) s rest hs
    exact ih (choices 0) s _ hk hs'

/-! ### Runs without interruption -/

theorem run_bind_of_pure {g : α → Prog σ β} {choices : ℕ → Bool} {s s' : σ} {a : α} {b : β}
    (hx : x.run choices s = some (a, s')) (hg : g a = Pure.pure b) :
    Prog.run (x >>= g) choices s = some (b, s') := by
  induction x generalizing choices s with
  | pure a' =>
    obtain ⟨rfl, rfl⟩ : a' = a ∧ s = s' := by simpa [run] using hx
    change (g a').run choices s = _
    rw [hg]
    rfl
  | panic => cases hx
  | step f k ih => exact ih (choices 0) s hx

theorem exists_of_run_bind {g : α → Prog σ β} {choices : ℕ → Bool} {s : σ} {r : β × σ}
    (hrun : Prog.run (x >>= g) choices s = some r) :
    ∃ a s' choices', x.run choices s = some (a, s') ∧ (g a).run choices' s' = some r := by
  induction x generalizing choices s with
  | pure a => exact ⟨a, s, choices, rfl, hrun⟩
  | panic => cases hrun
  | step f k ih => exact ih (choices 0) s hrun

/-! ### Parts of the state that a program leaves alone -/

variable {τ : Type} {π : σ → τ}

/-- No step changes `π`. -/
def Keeps (π : σ → τ) : Prog σ α → Prop
  | .pure _ => True
  | .panic => True
  | .step f k => ∀ c s, π (f c s) = π s ∧ (k c s).Keeps π

theorem keeps_pure (a : α) : Keeps π (Pure.pure a : Prog σ α) := trivial

theorem keeps_panic : Keeps π (.panic : Prog σ α) := trivial

theorem Keeps.bind {g : α → Prog σ β} (hx : x.Keeps π) (hg : ∀ a, (g a).Keeps π) :
    Keeps π (x >>= g) := by
  induction x with
  | pure a => exact hg a
  | panic => trivial
  | step f k ih => exact fun c s ↦ ⟨(hx c s).1, ih c s (hx c s).2⟩

theorem keeps_forSome {ι : Type} {f : ι → Prog σ Unit} (hf : ∀ i, (f i).Keeps π) (o : Option ι) :
    (forSome f o).Keeps π := by
  cases o with
  | none => exact keeps_pure ()
  | some i => exact hf i

theorem keeps_forEach {ι : Type} {f : ι → Prog σ Unit} (hf : ∀ i, (f i).Keeps π) (is : List ι) :
    (forEach f is).Keeps π := by
  induction is with
  | nil => exact keeps_pure ()
  | cons i is ih => exact Keeps.bind (hf i) fun _ ↦ ih

/-- A program that keeps `π` keeps what depends on `π`. -/
theorem Keeps.comp {τ' : Type} (hx : x.Keeps π) (g : τ → τ') : x.Keeps (g ∘ π) := by
  induction x with
  | pure a => trivial
  | panic => trivial
  | step f k ih => exact fun c s ↦ ⟨congrArg g (hx c s).1, ih c s (hx c s).2⟩

theorem Keeps.run {choices : ℕ → Bool} {s s' : σ} {a : α} (hx : x.Keeps π)
    (hrun : x.run choices s = some (a, s')) : π s' = π s := by
  induction x generalizing choices s with
  | pure a' =>
    obtain ⟨-, rfl⟩ : a' = a ∧ s = s' := by simpa [Prog.run] using hrun
    rfl
  | panic => cases hrun
  | step f k ih => exact (ih (choices 0) s (hx (choices 0) s).2 hrun).trans (hx (choices 0) s).1

end Prog

/-! ## Several programs -/

section Agents

variable {ι : Type} [Fintype ι] [DecidableEq ι]

def others (held : ι → R) (i : ι) : R := ∑ j ∈ Finset.univ.erase i, held j

theorem sum_held (held : ι → R) (i : ι) : ∑ j, held j = held i + others held i :=
  (Finset.add_sum_erase _ _ (Finset.mem_univ i)).symm

theorem exists_others_eq (held : ι → R) {i j : ι} (hij : j ≠ i) :
    ∃ rest, others held i = held j + rest :=
  ⟨_, (Finset.add_sum_erase _ _ (Finset.mem_erase.mpr ⟨hij, Finset.mem_univ j⟩)).symm⟩

theorem sum_held_update (held : ι → R) (i : ι) (h : R) :
    ∑ j, Function.update held i h j = h + others held i := by
  rw [sum_held _ i, Function.update_self]
  congr 1
  apply Finset.sum_congr rfl
  intro j hj
  rw [Function.update_of_ne (Finset.ne_of_mem_erase hj)]

/-- The resources of two agents, apart from the others. -/
theorem sum_held_pair (held : ι → R) {i j : ι} (hij : i ≠ j) :
    ∃ rest, ∑ k, held k = held i + held j + rest ∧
      ∀ a b, ∑ k, Function.update (Function.update held j b) i a k = a + b + rest := by
  refine ⟨others (Function.update held i 0) j, ?_, fun a b ↦ ?_⟩
  · have hzero := sum_held_update held i 0
    rw [zero_add, sum_held _ j, Function.update_of_ne (Ne.symm hij)] at hzero
    rw [sum_held held i, ← hzero, add_assoc]
  · have hzero := sum_held_update (Function.update held i 0) j b
    rw [Function.update_comm hij] at hzero
    have hupdate := sum_held_update (Function.update held j b) i a
    have hothers := sum_held_update (Function.update held j b) i 0
    rw [zero_add] at hothers
    rw [hupdate, ← hothers, hzero, ← add_assoc]

end Agents

end EnhancedXv6.Resource
