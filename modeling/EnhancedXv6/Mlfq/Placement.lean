import EnhancedXv6.Mlfq.Bounds

/-!
# Who runs where

With each scheduler pass as one step, a hart runs only `RUNNING` processes and no process runs on
two harts; a child that `fork` has not finished is `USED` and belongs to one parent.  This holds for
any number of harts.
-/

namespace EnhancedXv6.Mlfq

open Kernel Trap Transition Fallible

variable {s t s' : State} {xs : Fin queueSize → List Slot} {h : Hart} {p np : Slot} {e : Event}

/-- The harts run different processes, all of them `RUNNING`, and unfinished children are `USED`. -/
structure Placed (s : State) : Prop extends Forking s where
  running : ∀ h p, s.cpu h = some p → (s.proc p).state = .running
  cpu_inj : ∀ h h' p, s.cpu h = some p → s.cpu h' = some p → h = h'

/-- A process that was not made `RUNNABLE` is in the state it was in. -/
theorem Woken.state_eq {pr pr' : Proc} (h : Woken pr pr') (hne : pr'.state ≠ .runnable) :
    pr'.state = pr.state := by
  rcases h with h | ⟨-, h⟩
  · exact h
  · exact absurd h hne

/-- A process that did not sleep is in the state it was in. -/
theorem Woken.of_ne_sleeping {pr pr' : Proc} (h : Woken pr pr') (hne : pr.state ≠ .sleeping) :
    pr'.state = pr.state := by
  rcases h with h | ⟨h, -⟩
  · exact h
  · exact absurd h hne

theorem Woken.used {pr pr' : Proc} (h : Woken pr pr') (hused : pr.state = .used) :
    pr'.state = .used :=
  (h.of_ne_sleeping (by simp [hused])).trans hused

theorem Woken.unused {pr pr' : Proc} (h : Woken pr pr') (hunused : pr.state = .unused) :
    pr'.state = .unused :=
  (h.of_ne_sleeping (by simp [hunused])).trans hunused

/-- Nothing is placed differently when states, harts and unfinished children are the same. -/
theorem Placed.of_state_eq (hplaced : Placed s) (hstate : ∀ i, (t.proc i).state = (s.proc i).state)
    (hcpu : t.cpu = s.cpu) (hfork : t.forkChild = s.forkChild) : Placed t where
  toForking := hplaced.toForking.of_used hfork fun i hi ↦ (hstate i).trans hi
  running h p hp := (hstate p).trans (hplaced.running h p (hcpu ▸ hp))
  cpu_inj h h' p := by
    rw [hcpu]
    exact hplaced.cpu_inj h h' p

theorem Placed.stir {tick : Bool} (hplaced : Placed s) (hstir : Stir tick s s') : Placed s' where
  toForking := hplaced.toForking.of_used hstir.forkChild fun i ↦ (hstir.proc i).woken.used
  running h p hp := (hstir.proc p).woken.running_iff.mpr (hplaced.running h p (hstir.cpu ▸ hp))
  cpu_inj h h' p := by
    rw [hstir.cpu]
    exact hplaced.cpu_inj h h' p

theorem Placed.leave {tick : Bool} (hplaced : Placed s) (hleave : Leave tick h p s s') :
    Placed s' := by
  have hcpu : ∀ h' i, s'.cpu h' = some i → h' ≠ h ∧ s.cpu h' = some i := by
    intro h' i hi
    rw [hleave.cpu] at hi
    by_cases hh : h' = h
    · simp [hh] at hi
    · exact ⟨hh, by simpa [hh] using hi⟩
  refine ⟨hplaced.toForking.of_used hleave.forkChild fun i hused ↦ ?_, fun h' i hi ↦ ?_,
    fun h₁ h₂ i hi₁ hi₂ ↦ ?_⟩
  · have hne : i ≠ p := by
      rintro rfl
      rw [hplaced.running h i hleave.current] at hused
      cases hused
    exact (hleave.others i hne).woken.used hused
  · obtain ⟨hh, hi⟩ := hcpu h' i hi
    have hne : i ≠ p := by
      rintro rfl
      exact hh (hplaced.cpu_inj h' h i hi hleave.current)
    exact (hleave.others i hne).woken.running_iff.mpr (hplaced.running h' i hi)
  · exact hplaced.cpu_inj h₁ h₂ i (hcpu h₁ i hi₁).2 (hcpu h₂ i hi₂).2

theorem Placed.around (hplaced : Placed s) (haround : Around np s s')
    (hnp : (s.proc np).state ≠ .running) (hforking : Forking s') : Placed s' := by
  refine ⟨hforking, fun h p hp ↦ ?_, fun h h' p ↦ ?_⟩
  · have hrunning := hplaced.running h p (haround.cpu ▸ hp)
    have hne : p ≠ np := by
      rintro rfl
      exact hnp hrunning
    exact (haround.others p hne).woken.running_iff.mpr hrunning
  · rw [haround.cpu]
    exact hplaced.cpu_inj h h' p

/-- The children in the making are untouched by a step about another slot. -/
theorem Around.used (haround : Around np s s') (i : Slot) (hi : i ≠ np)
    (hused : (s.proc i).state = .used) : (s'.proc i).state = .used :=
  (haround.others i hi).woken.used hused

theorem Placed.alloc (hplaced : Placed s) (haround : Around np s s')
    (hunused : (s.proc np).state = .unused) (hused : (s'.proc np).state = .used)
    (hfork : s'.forkChild = Function.update s.forkChild p (some np)) : Placed s' :=
  hplaced.around haround (by simp [hunused])
    (hplaced.toForking.alloc hunused hused haround.used hfork)

theorem Placed.publish (hplaced : Placed s) (haround : Around np s s')
    (hnp : s.forkChild p = some np) (hfork : s'.forkChild = Function.update s.forkChild p none) :
    Placed s' :=
  hplaced.around haround (by simp [hplaced.child p np hnp])
    (hplaced.toForking.publish hnp haround.used hfork)

theorem Placed.free (hplaced : Placed s) (haround : Around np s s')
    (hnp : (s.proc np).state = .unused ∨ (s.proc np).state = .zombie)
    (hfork : s'.forkChild = s.forkChild) : Placed s' := by
  have hne : (s.proc np).state ≠ .running ∧ (s.proc np).state ≠ .used := by
    rcases hnp with h | h <;> simp [h]
  refine hplaced.around haround hne.1 (hplaced.toForking.of_used hfork fun i hused ↦ ?_)
  apply haround.used i _ hused
  rintro rfl
  exact hne.2 hused

theorem dispatch_state (s : State) (h : Hart) (p i : Slot) :
    ((dispatch s h p).proc i).state = if i = p then .running else (s.proc i).state := by
  by_cases hi : i = p <;> simp [dispatch, hi]

/-- An idle hart takes a process that no hart runs, since it is `RUNNABLE`. -/
theorem Placed.dispatch (hplaced : Placed s) (hp : (s.proc p).state = .runnable) :
    Placed (dispatch s h p) := by
  have hcpu : ∀ h' i, (Kernel.dispatch s h p).cpu h' = some i →
      (h' = h ∧ i = p) ∨ (h' ≠ h ∧ i ≠ p ∧ s.cpu h' = some i) := by
    intro h' i hi
    by_cases hh : h' = h
    · exact .inl ⟨hh, by simpa [Kernel.dispatch, hh, eq_comm] using hi⟩
    · have hold : s.cpu h' = some i := by simpa [Kernel.dispatch, hh] using hi
      refine .inr ⟨hh, ?_, hold⟩
      rintro rfl
      rw [hplaced.running h' i hold] at hp
      cases hp
  refine ⟨hplaced.toForking.of_used rfl fun i hused ↦ ?_, fun h' i hi ↦ ?_,
    fun h₁ h₂ i hi₁ hi₂ ↦ ?_⟩
  · have hne : i ≠ p := by
      rintro rfl
      rw [hp] at hused
      cases hused
    rw [dispatch_state, if_neg hne]
    exact hused
  · rw [dispatch_state]
    rcases hcpu h' i hi with ⟨-, rfl⟩ | ⟨-, hne, hold⟩
    · exact if_pos rfl
    · rw [if_neg hne]
      exact hplaced.running h' i hold
  · rcases hcpu h₁ i hi₁ with ⟨rfl, rfl⟩ | ⟨-, hne, hold₁⟩ <;>
      rcases hcpu h₂ i hi₂ with ⟨rfl, hi⟩ | ⟨-, hne', hold₂⟩
    · rfl
    · exact absurd rfl hne'
    · exact absurd hi hne
    · exact hplaced.cpu_inj h₁ h₂ i hold₁ hold₂

theorem Placed.of_frame (hplaced : Placed s) (hframe : Frame s t) : Placed t :=
  hplaced.of_state_eq hframe.state hframe.cpu hframe.forkChild

theorem Placed.passed (hplaced : Placed s) (hpass : Passed s xs h s') : Placed s' := by
  cases hpass with
  | idle _ _ hframe => exact hplaced.of_frame hframe
  | exhausted _ _ _ hframe => exact hplaced.of_frame hframe
  | dispatched _ _ _ hp _ _ hframe =>
    exact (hplaced.of_frame hframe).dispatch ((hframe.state _).trans hp)

theorem Expired.state {q : Fin queueSize} (hexpired : Expired s xs p q t) (i : Slot) :
    (t.proc i).state = (s.proc i).state := by
  cases hexpired with
  | unexpired _ => rfl
  | empty _ _ _ hdemoted => exact hdemoted.state i
  | popped _ _ _ hdemoted => exact hdemoted.state i

theorem Placed.expired {q : Fin queueSize} (hplaced : Placed s) (hexpired : Expired s xs p q t) :
    Placed t ∧ t.cpu = s.cpu := by
  cases hexpired with
  | unexpired _ => exact ⟨hplaced, rfl⟩
  | empty _ _ _ hd => exact ⟨hplaced.of_state_eq hd.state hd.cpu hd.forkChild, hd.cpu⟩
  | popped _ _ _ hd => exact ⟨hplaced.of_state_eq hd.state hd.cpu hd.forkChild, hd.cpu⟩

theorem Placed.effect (hplaced : Placed s) (hsound : Sound s xs) (heffect : Effect s e s') :
    Placed s' := by
  cases heffect with
  | pass _ hpass => exact hplaced.passed (pass_ok hsound.rep hpass).1
  | slice hp hstir hexpire =>
    obtain ⟨q, -, hexpired⟩ := (hsound.stir hstir).expire hexpire
    obtain ⟨hplaced', hcpu⟩ := (hplaced.stir hstir).expired hexpired
    exact hplaced'.leave (leave_yield (Stir.refl _) (by rw [hcpu, hstir.cpu, hp]))
  | stir hstir => exact hplaced.stir hstir
  | leave hleave => exact hplaced.leave hleave
  | alloc _ _ hunused hused _ _ _ _ haround hfork =>
    exact hplaced.alloc haround hunused hused hfork
  | discard _ hunused _ _ _ _ _ haround hfork => exact hplaced.free haround (.inl hunused) hfork
  | publish _ hnp _ _ haround hfork => exact hplaced.publish haround hnp hfork
  | reap _ hzombie _ _ _ _ _ haround hfork => exact hplaced.free haround (.inr hzombie) hfork

theorem placed_start : Placed (system .mlfq).start where
  running h p hp := by cases hp
  cpu_inj h h' p hp := by cases hp
  child p np hnp := by cases hnp
  child_inj p p' np hnp := by cases hnp

end EnhancedXv6.Mlfq
