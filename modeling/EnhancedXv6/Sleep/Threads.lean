import EnhancedXv6.Sleep.Model

/-!
# Harts, locks and threads

What each step does to the locks, to the thread a hart runs and to the processes, read off the code
once.  From this follows that a lock has one holder and, as long as the schedulers switch to
`RUNNABLE` processes only, that a process has one hart.
-/

namespace EnhancedXv6.Sleep

open Kernel Ownership Transition

variable {P H : Type} {b : Build} {chan : Chan} {table : List P} {s s' : SleepState P H} {h : H}
  {act : Act P} {pc : HartPc P} {m : Move P} {p q : P} {f : Proc → Proc}

/-! ## Locks and threads -/

namespace HartPc

def holdsLk : HartPc P → Prop
  | .code phase _ | .scan phase _ _ _ | .visiting phase _ _ _ _ | .visited phase _ _ _ _ =>
    phase ≠ .outside
  | .commit _ _ | .locked _ _ => True
  | _ => False

def holdsProc : HartPc P → Option P
  | .visiting _ _ _ q _ | .visited _ _ _ q _ => some q
  | .polled p | .back p | .entered p _ | .yielding p _ | .exiting p _ | .locked p _
  | .released p _ _ | .chanSet p _ _ | .switching p _ | .resumed p _ | .tidied p _ => some p
  | .code _ _ | .scan _ _ _ _ | .commit _ _ => none

/-- The locks of a hart between two steps. -/
def Holds (pc : HartPc P) : Lock P → Prop
  | .lk => pc.holdsLk
  | .proc p => pc.holdsProc = some p

def current : HartPc P → Option P
  | .code _ c | .scan _ c _ _ | .visiting _ c _ _ _ | .visited _ c _ _ _ => c.proc
  | .entered p _ | .yielding p _ | .exiting p _ | .commit p _ | .locked p _ | .released p _ _
  | .chanSet p _ _ | .switching p _ | .resumed p _ | .tidied p _ => some p
  | .polled _ | .back _ => none

def Departed : HartPc P → Prop
  | .switching _ _ => True
  | _ => False

theorem Departed.holds (hdeparted : pc.Departed) (hcurrent : pc.current = some p) :
    pc.Holds (.proc p) := by
  cases pc with
  | switching q context => exact hcurrent
  | _ => exact hdeparted.elim

end HartPc

theorem Phase.after_ne_outside {ch : Chan} {phase : Phase} :
    phase.after chan ch ≠ .outside ↔ phase ≠ .outside := by
  cases phase <;> simp only [Phase.after, ne_eq, not_true_eq_false, reduceCtorEq, not_false_eq_true]
  split <;> simp

theorem holds_resume (p : P) (context : Context) (l : Lock P) :
    (resume p context).Holds l ↔ l = .proc p := by
  cases context <;> cases l <;>
    simp [resume, HartPc.Holds, HartPc.holdsLk, HartPc.holdsProc, eq_comm]

theorem current_resume (p : P) (context : Context) : (resume p context).current = some p := by
  cases context <;> rfl

/-! ## Writes -/

/-- What a hart at `pc` writes to a process on its way to `pc'`. -/
inductive Writes (b : Build) (s : SleepState P H) : HartPc P → HartPc P → P → (Proc → Proc) → Prop
  | dispatch {p : P} : b = .mlfq ∨ (s.proc p).state = .runnable →
      Writes b s (.polled p) (resume p (s.context p)) p (setState .running)
  | wakeup {phase : Phase} {c : Frame P} {ch : Chan} {q : P} {rest : List P} :
      Writes b s (.visiting phase c ch q rest) (.visited phase c ch q rest) q (wakeupProc ch)
  | yield {p : P} {relock : Bool} :
      Writes b s (.yielding p relock) (.switching p (.yielded relock)) p (yieldProc b)
  | exit {p : P} {status : Int32} :
      Writes b s (.exiting p status) (.switching p (.yielded false)) p (exitSleeper status)
  | setChan {p : P} {ch : Chan} {relock : Bool} :
      Writes b s (.released p ch relock) (.chanSet p ch relock) p (setChan ch)
  | sleep {p : P} {ch : Chan} {relock : Bool} :
      Writes b s (.chanSet p ch relock) (.switching p (.slept relock)) p (setState .sleeping)
  | tidy {p : P} {relock : Bool} :
      Writes b s (.resumed p relock) (.tidied p relock) p (setChan .null)
  /-- a section under the lock of `q` -/
  | foreign {c : Frame P} {q : P} {f : Proc → Proc} : ((s.proc q).state = .running →
      (f (s.proc q)).state = .running) → (f (s.proc q)).state ≠ .sleeping →
      Writes b s (.code .outside c) (.code .outside c) q f

/-- A thread gives up `RUNNING` only on its way to `sched`. -/
theorem Writes.running {pc' : HartPc P} (hwrites : Writes b s pc pc' q f)
    (hrunning : (s.proc q).state = .running) (hstays : ¬pc'.Departed) :
    (f (s.proc q)).state = .running := by
  cases hwrites with
  | dispatch => rfl
  | wakeup => simp [wakeupProc, hrunning]
  | yield | exit | sleep => exact absurd trivial hstays
  | setChan | tidy => exact hrunning
  | foreign hkeeps => exact hkeeps hrunning

theorem Writes.current_of_departed {pc' : HartPc P} (hwrites : Writes b s pc pc' q f)
    (hdeparted : pc'.Departed) : pc.current = some q := by
  cases hwrites with
  | dispatch =>
    cases hcontext : s.context q <;> simp [resume, hcontext, HartPc.Departed] at hdeparted
  | wakeup | setChan | tidy | foreign => exact hdeparted.elim
  | yield | exit | sleep => rfl

/-! ## Threads -/

/-- The scheduler switches to a `RUNNABLE` process.  The DEFAULT and LBS schedulers test this under
`p->lock`. -/
def TakesRunnable (b : Build) (s : SleepState P H) (e : H × Act P) : Prop :=
  b = .mlfq → ∀ p, s.pc e.1 = .polled p → (s.proc p).state = .runnable

/-- Locks have one holder, a process has one hart, and it is `RUNNING` there. -/
structure ThreadInv (s : SleepState P H) : Prop where
  excludes : Excludes s.owner fun h ↦ (s.pc h).Holds
  running : ∀ h p, (s.pc h).current = some p → ¬(s.pc h).Departed → (s.proc p).state = .running
  alone : ∀ h h' p, (s.pc h).current = some p → (s.pc h').current = some p → h = h'

/-- A process that is dispatched runs nowhere else. -/
theorem not_current_of_polled {i : H} (hinv : ThreadInv s) (hpolled : s.pc h = .polled p)
    (hrunnable : (s.proc p).state = .runnable) : (s.pc i).current ≠ some p := by
  intro hcurrent
  by_cases hdeparted : (s.pc i).Departed
  · have hholds : (s.pc h).Holds (.proc p) := by simp [hpolled, HartPc.Holds, HartPc.holdsProc]
    obtain rfl := hinv.excludes.eq (hdeparted.holds hcurrent) hholds
    simp [hpolled, HartPc.Departed] at hdeparted
  · simp [hinv.running i p hcurrent hdeparted] at hrunnable

/-! ## The code -/

variable [DecidableEq P]

theorem follows_advance (hm : advance b chan s pc = some m) :
    m.lock.Follows pc.Holds m.pc.Holds := by
  unfold advance at hm
  split at hm <;> (try split at hm) <;> cases hm <;>
    simp only [LockOp.Follows, holds_resume] <;>
    (try refine ⟨?_, ?_⟩) <;> (try rintro (_ | r)) <;>
    simp [HartPc.Holds, HartPc.holdsLk, HartPc.holdsProc, Phase.after_ne_outside] <;>
    grind

theorem follows_choose {phase : Phase} {c : Frame P}
    (hm : choose b chan table s phase c act = some m) :
    m.lock.Follows (HartPc.code phase c).Holds m.pc.Holds := by
  unfold choose at hm
  split at hm <;> (repeat' split at hm) <;> cases hm <;>
    simp only [LockOp.Follows] <;>
    (try refine ⟨?_, ?_⟩) <;> (try rintro (_ | r)) <;>
    simp_all [HartPc.Holds, HartPc.holdsLk, HartPc.holdsProc]

/-- A move is one of `advance`, or of `choose` outside of it. -/
theorem moveOf_cases (hm : moveOf b chan table s pc act = some m) :
    advance b chan s pc = some m ∨
      ∃ phase c, pc = .code phase c ∧ choose b chan table s phase c act = some m := by
  unfold moveOf at hm
  split at hm
  · exact .inl hm
  · rename_i phase c _
    exact .inr ⟨phase, c, rfl, hm⟩
  · cases hm

theorem follows_moveOf (hm : moveOf b chan table s pc act = some m) :
    m.lock.Follows pc.Holds m.pc.Holds := by
  obtain hadvance | ⟨phase, c, rfl, hchoose⟩ := moveOf_cases hm
  · exact follows_advance hadvance
  · exact follows_choose hchoose

/-- A hart changes threads only by a dispatch or a switch. -/
theorem current_moveOf (hm : moveOf b chan table s pc act = some m) :
    m.pc.current = pc.current ∧ ¬pc.Departed ∨
      (∃ p, pc = .polled p ∧ m.pc = resume p (s.context p) ∧
        m.write = some (p, setState .running) ∧ (b = .mlfq ∨ (s.proc p).state = .runnable)) ∨
      m.pc.current = none := by
  obtain hadvance | ⟨phase, c, rfl, hchoose⟩ := moveOf_cases hm
  · unfold advance at hadvance
    split at hadvance <;> (try split at hadvance) <;> cases hadvance <;>
      simp_all [HartPc.current, HartPc.Departed, Frame.proc]
  · unfold choose at hchoose
    split at hchoose <;> (repeat' split at hchoose) <;> cases hchoose <;>
      simp_all [HartPc.current, HartPc.Departed, Frame.proc]

theorem writes_of_moveOf (hm : moveOf b chan table s pc act = some m)
    (hwrite : m.write = some (q, f)) : Writes b s pc m.pc q f := by
  obtain hadvance | ⟨phase, c, rfl, hchoose⟩ := moveOf_cases hm
  · unfold advance at hadvance
    split at hadvance <;> (try split at hadvance) <;> cases hadvance <;> cases hwrite <;> first
      | exact .dispatch ‹_› | constructor
  · unfold choose at hchoose
    split at hchoose <;> (repeat' split at hchoose) <;> cases hchoose <;> cases hwrite
    · rename_i hphase
      subst hphase
      exact .foreign (fun h ↦ by simp [killProc, h]) (by simp only [killProc]; split <;> simp_all)
    all_goals
      rename_i hguard
      obtain ⟨rfl, hstate⟩ := hguard
      exact .foreign (fun h ↦ by simp [hstate] at h) (by
        simp [allocprocFound, setState, freeproc])

theorem locked_of_moveOf (hm : moveOf b chan table s pc act = some m)
    (hwrite : m.write = some (q, f)) :
    pc.Holds (.proc q) ∨ m.lock = .within (.proc q) := by
  obtain hadvance | ⟨phase, c, rfl, hchoose⟩ := moveOf_cases hm
  · unfold advance at hadvance
    split at hadvance <;> (try split at hadvance) <;> cases hadvance <;> cases hwrite <;>
      exact .inl rfl
  · unfold choose at hchoose
    split at hchoose <;> (repeat' split at hchoose) <;> cases hchoose <;> cases hwrite <;>
      exact .inr rfl

/-! ## Runs -/

variable [DecidableEq H]

theorem apply_eq (happly : m.apply s h = some s') :
    m.lock.run s.owner h = some s'.owner ∧ s'.pc = Function.update s.pc h m.pc ∧
      s'.cond = m.cond.getD s.cond := by
  obtain ⟨owner, hrun, rfl⟩ := Option.map_eq_some_iff.mp happly
  exact ⟨hrun, rfl, rfl⟩

theorem apply_proc_of_none (happly : m.apply s h = some s') (hwrite : m.write = none) :
    s'.proc = s.proc := by
  obtain ⟨owner, hrun, rfl⟩ := Option.map_eq_some_iff.mp happly
  simp only [hwrite]

theorem apply_proc_of_some (happly : m.apply s h = some s') (hwrite : m.write = some (q, f)) :
    s'.proc = Function.update s.proc q (f (s.proc q)) := by
  obtain ⟨owner, hrun, rfl⟩ := Option.map_eq_some_iff.mp happly
  simp only [hwrite]

theorem excludes_next (hinv : ThreadInv s) (hm : moveOf b chan table s (s.pc h) act = some m)
    (happly : m.apply s h = some s') : Excludes s'.owner fun i ↦ (s'.pc i).Holds := by
  obtain ⟨hrun, hpc, -⟩ := apply_eq happly
  have hexcludes := hinv.excludes.run hrun (follows_moveOf hm)
  convert hexcludes using 2 with i
  by_cases hi : i = h <;> simp [hpc, hi]

theorem proc_cases (hm : moveOf b chan table s (s.pc h) act = some m)
    (happly : m.apply s h = some s') (p : P) :
    s'.proc p = s.proc p ∨ ∃ f, Writes b s (s.pc h) m.pc p f ∧ s'.proc p = f (s.proc p) := by
  cases hwrite : m.write with
  | none => exact .inl (by rw [apply_proc_of_none happly hwrite])
  | some w =>
    obtain ⟨q, f⟩ := w
    have hproc := apply_proc_of_some happly hwrite
    by_cases hp : p = q
    · subst hp
      exact .inr ⟨f, writes_of_moveOf hm hwrite, by simp [hproc]⟩
    · exact .inl (by simp [hproc, hp])

theorem proc_of_holds {i : H} (hinv : ThreadInv s)
    (hm : moveOf b chan table s (s.pc h) act = some m) (happly : m.apply s h = some s')
    (hi : i ≠ h) (hholds : (s.pc i).Holds (.proc p)) : s'.proc p = s.proc p := by
  cases hwrite : m.write with
  | none => rw [apply_proc_of_none happly hwrite]
  | some w =>
    obtain ⟨q, f⟩ := w
    have hne : p ≠ q := by
      rintro rfl
      rcases locked_of_moveOf hm hwrite with hholds' | hwithin
      · exact hi (hinv.excludes.eq hholds hholds')
      · have hrun := (apply_eq happly).1
        have hfree : s.owner (.proc p) = none := by
          by_contra howned
          simp [hwithin, LockOp.run, howned] at hrun
        exact hinv.excludes.not_of_free hfree hholds
    simp [apply_proc_of_some happly hwrite, hne]

theorem running_next (hinv : ThreadInv s) (hm : moveOf b chan table s (s.pc h) act = some m)
    (happly : m.apply s h = some s') (i : H) (p : P) (hcurrent : (s'.pc i).current = some p)
    (hstays : ¬(s'.pc i).Departed) : (s'.proc p).state = .running := by
  rw [(apply_eq happly).2.1] at hcurrent hstays
  by_cases hi : i = h
  · subst hi
    rw [Function.update_self] at hcurrent hstays
    obtain ⟨hsame, hstay⟩ | ⟨q, -, hresume, hwrite, -⟩ | hnone := current_moveOf hm
    · have hrunning := hinv.running i p (hsame ▸ hcurrent) hstay
      obtain hproc | ⟨f, hwrites, hproc⟩ := proc_cases hm happly p
      · rwa [hproc]
      · rw [hproc]
        exact hwrites.running hrunning hstays
    · obtain rfl : q = p := by simpa [hresume, current_resume] using hcurrent
      simp [apply_proc_of_some happly hwrite, setState]
    · simp [hnone] at hcurrent
  · rw [Function.update_of_ne hi] at hcurrent hstays
    have hrunning := hinv.running i p hcurrent hstays
    obtain hproc | ⟨f, hwrites, hproc⟩ := proc_cases hm happly p
    · rwa [hproc]
    · rw [hproc]
      apply hwrites.running hrunning
      intro hdeparted
      exact hi (hinv.alone i h p hcurrent (hwrites.current_of_departed hdeparted))

/-- A process that a hart runs after the step was there before, or was dispatched by the step. -/
theorem current_next (hm : moveOf b chan table s (s.pc h) act = some m)
    (happly : m.apply s h = some s') (i : H) (p : P) (hcurrent : (s'.pc i).current = some p) :
    (s.pc i).current = some p ∨
      i = h ∧ s.pc h = .polled p ∧ (b = .mlfq ∨ (s.proc p).state = .runnable) := by
  rw [(apply_eq happly).2.1] at hcurrent
  by_cases hi : i = h
  · subst hi
    rw [Function.update_self] at hcurrent
    obtain ⟨hsame, -⟩ | ⟨q, hpolled, hresume, -, hrunnable⟩ | hnone := current_moveOf hm
    · exact .inl (hsame ▸ hcurrent)
    · obtain rfl : q = p := by simpa [hresume, current_resume] using hcurrent
      exact .inr ⟨rfl, hpolled, hrunnable⟩
    · simp [hnone] at hcurrent
  · exact .inl (by simpa [hi] using hcurrent)

theorem ThreadInv.next (hinv : ThreadInv s) (htakes : TakesRunnable b s (h, act))
    (hm : moveOf b chan table s (s.pc h) act = some m) (happly : m.apply s h = some s') :
    ThreadInv s' := by
  refine ⟨excludes_next hinv hm happly, running_next hinv hm happly, fun i i' p hi hi' ↦ ?_⟩
  have hdispatch : s.pc h = .polled p → (b = .mlfq ∨ (s.proc p).state = .runnable) →
      ∀ j, (s.pc j).current ≠ some p := by
    intro hpolled hrunnable j
    exact not_current_of_polled hinv hpolled (hrunnable.elim (fun hb ↦ htakes hb p hpolled) id)
  rcases current_next hm happly i p hi with hold | ⟨rfl, hpolled, hrunnable⟩ <;>
    rcases current_next hm happly i' p hi' with hold' | ⟨rfl, hpolled', hrunnable'⟩
  · exact hinv.alone i i' p hold hold'
  · exact absurd hold (hdispatch hpolled' hrunnable' i)
  · exact absurd hold' (hdispatch hpolled hrunnable i')
  · rfl

end EnhancedXv6.Sleep
