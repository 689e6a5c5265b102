import EnhancedXv6.ExitWait.Family

/-!
# Waking the parent

A process that sleeps in `wait` has no exited child, except while another process, with `wait_lock`
held, has given it such a child and is about to wake it.
-/

namespace EnhancedXv6.ExitWait

open Kernel Ownership Transition

variable {b : Build} {s s' : ExitState} {e : ExitEvent} {m : Move} {k k' : State} {p w z : Slot}
  {pc : ProcPc}

/-! ## Sleeping and waking -/

def AsleepInWait (s : ExitState) (w : Slot) : Prop :=
  (∃ x, s.pc w = .waitAsleep x) ∧ (s.kernel.proc w).state = .sleeping

/-- The process is as awake as before, or on its way to be. -/
def Rests (pr pr' : Proc) : Prop :=
  pr'.state = pr.state ∧ pr'.chan = pr.chan ∨ pr.state ≠ .running ∧ pr'.state ≠ .sleeping

theorem rests_modify {q : Slot} {f : Proc → Proc} (hf : Rests (k.proc q) (f (k.proc q)))
    (i : Slot) : Rests (k.proc i) ((k.modify q f).proc i) := by
  by_cases hi : i = q
  · subst hi
    simpa using hf
  · exact .inl (by simp [hi])

theorem rests_wakeupProc (chan : Chan) (pr : Proc) : Rests pr (wakeupProc chan pr) := by
  unfold wakeupProc
  split
  · exact .inr ⟨by simp [*], by simp⟩
  · exact .inl ⟨rfl, rfl⟩

theorem rests_wakeupAt (k : State) (p q : Slot) (chan : Chan) (i : Slot) :
    Rests (k.proc i) ((wakeupAt k p q chan).proc i) := by
  unfold wakeupAt
  split
  · exact .inl ⟨rfl, rfl⟩
  · exact rests_modify (rests_wakeupProc chan _) i

theorem rests_killProc (pr : Proc) : Rests pr (killProc pr) := by
  by_cases hsleeping : pr.state = .sleeping
  · exact .inr ⟨by simp [hsleeping], by simp [killProc, hsleeping]⟩
  · exact .inl ⟨by simp [killProc, hsleeping], rfl⟩

theorem rests_reap {pp : Slot} {x fails : Bool} (hzombie : (k.proc pp).state = .zombie)
    (i : Slot) : Rests (k.proc i) ((reap b k p pp x fails).proc i) := by
  have hmerged : ∀ i, Rests (k.proc i)
      ((if x then k else k.modify p (addCounters (k.proc pp).sysCounter)).proc i) := by
    cases x
    · exact rests_modify (.inl ⟨rfl, rfl⟩)
    · exact fun i ↦ .inl ⟨rfl, rfl⟩
  cases fails with
  | true => exact hmerged i
  | false =>
    by_cases hi : i = pp
    · subst hi
      exact .inr ⟨by simp [hzombie], by simp [reap, freeproc]⟩
    · simpa [reap, hi] using hmerged i

/-- What a call does to the sleep of the processes, apart from `sleep` and the end of `exit`. -/
theorem rests_advance {fails : Bool} (hm : advance b k p fails pc = some m)
    (hchild : ∀ np, pc.child = some np → stage (k.proc np).state = .used) (hw : w ≠ p) :
    Rests (k.proc w) (m.kernel.proc w) := by
  cases pc with
  | out => cases hm
  | forkLocked np =>
    obtain rfl := Option.some.inj hm
    exact rests_modify (.inl ⟨rfl, rfl⟩) w
  | forkUnlocked np =>
    obtain rfl := Option.some.inj hm
    have hused := hchild np rfl
    refine rests_modify (k := k) (.inr ⟨fun hrunning ↦ ?_, by simp [setState]⟩) w
    simp [hrunning, stage] at hused
  | exitReparent status rest =>
    cases rest with
    | nil =>
      obtain rfl := Option.some.inj hm
      exact .inl ⟨rfl, rfl⟩
    | cons pp rest =>
      simp only [advance] at hm
      split at hm <;> obtain rfl := Option.some.inj hm
      · exact rests_modify (.inl ⟨rfl, rfl⟩) w
      · exact .inl ⟨rfl, rfl⟩
  | exitInit status rest scan =>
    cases scan with
    | nil =>
      obtain rfl := Option.some.inj hm
      exact .inl ⟨rfl, rfl⟩
    | cons q scan =>
      obtain rfl := Option.some.inj hm
      exact rests_wakeupAt k p q _ w
  | exitParent status chan scan =>
    cases scan with
    | nil =>
      obtain rfl := Option.some.inj hm
      exact .inl ⟨rfl, rfl⟩
    | cons q scan =>
      obtain rfl := Option.some.inj hm
      exact rests_wakeupAt k p q _ w
  | exitLast status =>
    obtain rfl := Option.some.inj hm
    exact .inl (by simp [hw])
  | waitScan x rest havekids =>
    cases rest with
    | nil =>
      simp only [advance] at hm
      split at hm <;> obtain rfl := Option.some.inj hm <;> exact .inl ⟨rfl, rfl⟩
    | cons pp rest =>
      simp only [advance] at hm
      split at hm
      · split at hm <;> obtain rfl := Option.some.inj hm
        · exact rests_reap ‹_› w
        · exact .inl ⟨rfl, rfl⟩
      · obtain rfl := Option.some.inj hm
        exact .inl ⟨rfl, rfl⟩
  | waitKilled x =>
    simp only [advance] at hm
    split at hm <;> obtain rfl := Option.some.inj hm <;> exact .inl ⟨rfl, rfl⟩
  | waitSleep x | waitAsleep x =>
    obtain rfl := Option.some.inj hm
    exact .inl (by simp [hw])
  | killScan pid rest =>
    cases rest with
    | nil =>
      obtain rfl := Option.some.inj hm
      exact .inl ⟨rfl, rfl⟩
    | cons q rest =>
      simp only [advance] at hm
      split at hm <;> obtain rfl := Option.some.inj hm
      · exact rests_modify (rests_killProc _) w
      · exact .inl ⟨rfl, rfl⟩
  | _ =>
    obtain rfl := Option.some.inj hm
    exact .inl ⟨rfl, rfl⟩

/-- Nobody puts another process to sleep or takes it off its hart. -/
theorem rests_moveOf (hm : moveOf b s e = some m)
    (hchild : ∀ p np, (s.pc p).child = some np → stage (s.kernel.proc np).state = .used)
    (hw : w ≠ e.actor) : Rests (s.kernel.proc w) (m.kernel.proc w) := by
  cases e with
  | advance p fails =>
    simp only [moveOf] at hm
    split at hm
    · exact rests_advance hm (hchild p) hw
    · cases hm
  | fork p np outcome =>
    simp only [moveOf] at hm
    split at hm <;> cases hm
    rename_i hguard
    by_cases hwnp : w = np
    · subst hwnp
      refine .inr ⟨by simp [hguard.2.2], ?_⟩
      rw [forkAllocAt_state]
      split <;> simp
    · rw [forkAllocAt_proc_of_ne hwnp]
      exact .inl ⟨rfl, rfl⟩
  | wait p x | kill p pid =>
    simp only [moveOf] at hm
    split at hm <;> cases hm
    exact .inl ⟨rfl, rfl⟩
  | wakeup p chan =>
    obtain rfl := Option.some.inj hm
    exact rests_modify (rests_wakeupProc chan _) w
  | dispatch p | preempt p | sleep p chan | exit p status =>
    simp only [moveOf] at hm
    split at hm <;> cases hm
    have hw : w ≠ p := hw
    exact .inl (by simp [hw])

theorem advance_waitAsleep {x fails : Bool} (hm : advance b k p fails pc = some m)
    (hpc : m.pc = .waitAsleep x) : pc = .waitSleep x ∧ (m.kernel.proc p).chan = .proc p := by
  unfold advance at hm
  split at hm <;> (try split at hm) <;> (try split at hm) <;> cases hm <;> cases hpc
  simp [sleepOn]

/-- A process goes to sleep in `wait` only from `waitSleep`. -/
theorem asleep_moveOf {x : Bool} (hm : moveOf b s e = some m) (hpc : m.pc = .waitAsleep x)
    (hasleep : (m.kernel.proc e.actor).state = .sleeping) :
    s.pc e.actor = .waitAsleep x ∧ Rests (s.kernel.proc e.actor) (m.kernel.proc e.actor) ∨
      s.pc e.actor = .waitSleep x ∧ (m.kernel.proc e.actor).chan = .proc e.actor := by
  cases e with
  | dispatch p | preempt p =>
    simp only [moveOf] at hm
    split at hm <;> cases hm
    simp [ExitEvent.actor, setState] at hasleep
  | sleep p chan =>
    simp only [moveOf] at hm
    split at hm <;> cases hm
    rename_i hguard
    simp only at hpc
    simp [hpc, ProcPc.maySleep] at hguard
  | wakeup p chan =>
    obtain rfl := Option.some.inj hm
    exact .inl ⟨hpc, rests_modify (rests_wakeupProc chan _) p⟩
  | fork p np outcome =>
    simp only [moveOf] at hm
    split at hm <;> cases hm
    cases outcome <;> cases hpc
  | exit p status | wait p x | kill p pid =>
    simp only [moveOf] at hm
    split at hm <;> cases hm
    cases hpc
  | advance p fails =>
    simp only [moveOf] at hm
    split at hm
    · exact .inr (advance_waitAsleep hm hpc)
    · cases hm

/-- Whoever sleeps in `wait` after a step slept there before, or was about to. -/
theorem AsleepInWait.before (hm : moveOf b s e = some m)
    (hchild : ∀ p np, (s.pc p).child = some np → stage (s.kernel.proc np).state = .used)
    (hpc : ∃ x, Function.update s.pc e.actor m.pc w = .waitAsleep x)
    (hasleep : (m.kernel.proc w).state = .sleeping) :
    AsleepInWait s w ∧ (m.kernel.proc w).chan = (s.kernel.proc w).chan ∨
      w = e.actor ∧ (∃ x, s.pc w = .waitSleep x) ∧ (m.kernel.proc w).chan = .proc w := by
  have hrests : Rests (s.kernel.proc w) (m.kernel.proc w) → (s.kernel.proc w).state = .sleeping ∧
      (m.kernel.proc w).chan = (s.kernel.proc w).chan := by
    rintro (⟨hstate, hchan⟩ | ⟨-, hawake⟩)
    · exact ⟨hstate ▸ hasleep, hchan⟩
    · exact absurd hasleep hawake
  obtain ⟨x, hx⟩ := hpc
  by_cases hw : w = e.actor
  · subst hw
    rcases asleep_moveOf hm (by simpa using hx) hasleep with ⟨hpc, hrest⟩ | ⟨hpc, hchan⟩
    · obtain ⟨hsleeping, hchan⟩ := hrests hrest
      exact .inl ⟨⟨⟨x, hpc⟩, hsleeping⟩, hchan⟩
    · exact .inr ⟨rfl, ⟨x, hpc⟩, hchan⟩
  · obtain ⟨hsleeping, hchan⟩ := hrests (rests_moveOf hm hchild hw)
    exact .inl ⟨⟨⟨x, by simpa [hw] using hx⟩, hsleeping⟩, hchan⟩

/-! ## Waking the parent -/

/-- At `pc` a process is about to wake `w`. -/
def ToWake (k : State) (w : Slot) : ProcPc → Prop
  | .exitInit _ _ scan => k.initproc = some w ∧ w ∈ scan
  | .exitParent _ chan scan => chan = .proc w ∧ w ∈ scan
  | _ => False

/-- `exit` is done with `reparent`. -/
def ProcPc.Leaving : ProcPc → Prop
  | .exitParent _ _ _ | .exitLast _ => True
  | _ => False

theorem ToWake.congr (h : ToWake k w pc) (hinit : k'.initproc = k.initproc) : ToWake k' w pc := by
  cases pc with
  | exitInit status rest scan => exact ⟨hinit.trans h.1, h.2⟩
  | exitParent status chan scan => exact h
  | _ => exact h.elim

theorem ToWake.locked (h : ToWake k w pc) : pc.Locked := by
  cases pc <;> trivial

theorem ProcPc.Leaving.locked (h : pc.Leaving) : pc.Locked := by
  cases pc <;> trivial

/-- `wakeup` reaches the process it is meant for. -/
theorem wakeupAt_state (hne : w ≠ p) (hasleep : (k.proc w).state = .sleeping)
    (hchan : (k.proc w).chan = .proc w) : ((wakeupAt k p w (.proc w)).proc w).state ≠ .sleeping := by
  simp [wakeupAt, hne, wakeupProc, hasleep, hchan]

theorem wakeupAt_initproc (k : State) (p q : Slot) (chan : Chan) :
    (wakeupAt k p q chan).initproc = k.initproc := by
  unfold wakeupAt
  split <;> rfl

theorem toWake_advance {fails : Bool} (hm : advance b k p fails pc = some m) (h : ToWake k w pc)
    (hne : w ≠ p) (hasleep : (k.proc w).state = .sleeping) (hchan : (k.proc w).chan = .proc w) :
    ToWake m.kernel w m.pc ∨ (m.kernel.proc w).state ≠ .sleeping := by
  cases pc with
  | exitInit status rest scan =>
    obtain ⟨hinit, hmem⟩ := h
    cases scan with
    | nil => cases hmem
    | cons q scan =>
      obtain rfl := Option.some.inj hm
      rcases List.mem_cons.mp hmem with rfl | hmem
      · rw [hinit]
        exact .inr (wakeupAt_state hne hasleep hchan)
      · exact .inl ⟨(wakeupAt_initproc k p q _).trans hinit, hmem⟩
  | exitParent status chan scan =>
    obtain ⟨rfl, hmem⟩ := h
    cases scan with
    | nil => cases hmem
    | cons q scan =>
      obtain rfl := Option.some.inj hm
      rcases List.mem_cons.mp hmem with rfl | hmem
      · exact .inr (wakeupAt_state hne hasleep hchan)
      · exact .inl ⟨rfl, hmem⟩
  | _ => exact h.elim

theorem toWake_moveOf (hm : moveOf b s e = some m) (h : ToWake s.kernel w (s.pc e.actor))
    (hne : w ≠ e.actor) (hasleep : (s.kernel.proc w).state = .sleeping)
    (hchan : (s.kernel.proc w).chan = .proc w) :
    ToWake m.kernel w m.pc ∨ (m.kernel.proc w).state ≠ .sleeping := by
  cases e with
  | advance p fails =>
    simp only [moveOf] at hm
    split at hm
    · exact toWake_advance hm h hne hasleep hchan
    · cases hm
  | wakeup p chan =>
    obtain rfl := Option.some.inj hm
    exact .inl (h.congr rfl)
  | dispatch p | preempt p | sleep p chan =>
    simp only [moveOf] at hm
    split at hm <;> cases hm
    exact .inl (h.congr rfl)
  | fork p np outcome | exit p status =>
    simp only [moveOf] at hm
    split at hm <;> cases hm
    rename_i hguard
    simp only [ExitEvent.actor, hguard.2.1] at h
    exact h.elim
  | wait p x | kill p pid =>
    simp only [moveOf] at hm
    split at hm <;> cases hm
    rename_i hguard
    simp only [ExitEvent.actor, hguard.2] at h
    exact h.elim

theorem leaving_advance {fails : Bool} (hm : advance b k p fails pc = some m) (h : m.pc.Leaving)
    (hparent : (k.proc p).parent = some w) : pc.Leaving ∨ ToWake m.kernel w m.pc := by
  by_cases hleaving : pc.Leaving
  · exact .inl hleaving
  right
  unfold advance at hm
  split at hm <;> (try split at hm) <;> (try split at hm) <;> cases hm <;>
    first | exact absurd trivial hleaving | exact h.elim | skip
  exact ⟨by rw [hparent]; rfl, List.mem_finRange w⟩

/-- `exit` begins the scan for the parent with the whole table before it. -/
theorem leaving_moveOf (hm : moveOf b s e = some m) (h : m.pc.Leaving)
    (hparent : (s.kernel.proc e.actor).parent = some w) :
    (s.pc e.actor).Leaving ∨ ToWake m.kernel w m.pc := by
  cases e with
  | advance p fails =>
    simp only [moveOf] at hm
    split at hm
    · exact leaving_advance hm h hparent
    · cases hm
  | fork p np outcome =>
    simp only [moveOf] at hm
    split at hm <;> cases hm
    cases outcome <;> exact h.elim
  | wakeup p chan =>
    obtain rfl := Option.some.inj hm
    exact .inl h
  | dispatch p | preempt p | sleep p chan =>
    simp only [moveOf] at hm
    split at hm <;> cases hm
    exact .inl h
  | exit p status | wait p x | kill p pid =>
    simp only [moveOf] at hm
    split at hm <;> cases hm
    exact h.elim

/-! ## The holder of wait_lock -/

theorem running_advance {fails : Bool} (hm : advance b k p fails pc = some m) (h : m.pc.Locked)
    (hrunning : (k.proc p).state = .running) : (m.kernel.proc p).state = .running := by
  have hparent : ∀ q parent, ((k.modify q (setParent parent)).proc p).state = .running := by
    intro q parent
    by_cases hp : p = q
    · subst hp
      simpa [setParent] using hrunning
    · simpa [hp] using hrunning
  have hwakeup : ∀ q chan, ((wakeupAt k p q chan).proc p).state = .running := by
    intro q chan
    unfold wakeupAt
    split
    · exact hrunning
    · simpa [Ne.symm ‹_›] using hrunning
  unfold advance at hm
  split at hm <;> (try split at hm) <;> (try split at hm) <;> cases hm <;>
    first
      | exact h.elim
      | exact hrunning
      | exact hparent _ _
      | exact hwakeup _ _

/-- The holder of `wait_lock` stays on its hart. -/
theorem running_moveOf (hm : moveOf b s e = some m) (h : m.pc.Locked)
    (hrunning : (s.pc e.actor).Locked →
      (s.kernel.proc e.actor).state = .running ∧ s.waitLock = some e.actor) :
    (m.kernel.proc e.actor).state = .running := by
  cases e with
  | dispatch p =>
    simp only [moveOf] at hm
    split at hm <;> cases hm
    simp [ExitEvent.actor, setState]
  | preempt p =>
    simp only [moveOf] at hm
    split at hm <;> cases hm
    rename_i hguard
    exact absurd (hrunning h).2 hguard.2
  | sleep p chan =>
    simp only [moveOf] at hm
    split at hm <;> cases hm
    rename_i hguard
    simp only at h
    generalize s.pc p = pc at h hguard
    cases pc <;> first | exact h.elim | cases hguard.2
  | wakeup p chan =>
    obtain rfl := Option.some.inj hm
    have hstate : (s.kernel.proc p).state = .running := (hrunning h).1
    simp [ExitEvent.actor, wakeupProc, hstate]
  | fork p np outcome =>
    simp only [moveOf] at hm
    split at hm <;> cases hm
    cases outcome <;> exact h.elim
  | exit p status | wait p x | kill p pid =>
    simp only [moveOf] at hm
    split at hm <;> cases hm
    exact h.elim
  | advance p fails =>
    simp only [moveOf] at hm
    split at hm
    · exact running_advance hm h ‹_›
    · cases hm

theorem Does.initproc {note : Note} (h : Does b k p pc m note) :
    m.kernel.initproc = k.initproc := by
  cases h with
  | quiet _ _ _ hinit => exact hinit
  | alloc | allocFails => exact forkAllocAt_initproc
  | link | publish | adopt | die => rfl
  | reap => exact reap_initproc b k _ _ _ _

/-- A process that does not hold `wait_lock` changes no parent and ends no process. -/
theorem Does.unlocked {note : Note} (h : Does b k p pc m note) (hpc : ¬pc.Locked) (i : Slot) :
    ((k.proc i).state ≠ .unused → (m.kernel.proc i).parent = (k.proc i).parent) ∧
      ((m.kernel.proc i).state = .zombie → (k.proc i).state = .zombie) := by
  cases h with
  | quiet _ hsame =>
    refine ⟨fun _ ↦ (hsame i).parent, fun hzombie ↦ ?_⟩
    rw [← stage_eq_zombie, ← (hsame i).stage, hzombie, stage]
  | @alloc np _ hunused | @allocFails np _ _ hunused =>
    by_cases hi : i = np
    · subst hi
      refine ⟨fun h ↦ absurd hunused h, fun hzombie ↦ ?_⟩
      rw [forkAllocAt_state] at hzombie
      split at hzombie <;> cases hzombie
    · rw [forkAllocAt_proc_of_ne hi]
      exact ⟨fun _ ↦ rfl, id⟩
  | @publish np =>
    by_cases hi : i = np
    · subst hi
      simp [ExitWait.publish, setState]
    · simp [ExitWait.publish, hi]
  | link | adopt | die | reap => exact absurd trivial hpc

theorem Scanned.congr (h : Scanned k p pc)
    (hchild : ∀ i, (k'.proc i).parent = some p → (k'.proc i).state = .zombie →
      (k.proc i).parent = some p ∧ (k.proc i).state = .zombie) : Scanned k' p pc := by
  cases pc with
  | waitScan x rest havekids =>
    intro i hi hparent hzombie
    obtain ⟨hparent, hzombie⟩ := hchild i hparent hzombie
    exact h i hi hparent hzombie
  | waitKilled x | waitSleep x =>
    intro i hparent hzombie
    obtain ⟨hparent, hzombie⟩ := hchild i hparent hzombie
    exact h i hparent hzombie
  | _ => trivial

theorem scanned_of_not_locked (h : ¬pc.Locked) : Scanned k p pc := by
  cases pc <;> first | trivial | exact absurd trivial h

/-! ## No exited child while asleep -/

structure Told (s : ExitState) : Prop where
  excludes : Excludes s.owner fun p _ ↦ (s.pc p).Locked
  running : ∀ p, (s.pc p).Locked → (s.kernel.proc p).state = .running
  scanned : ∀ p, Scanned s.kernel p (s.pc p)
  chan : ∀ w, AsleepInWait s w → (s.kernel.proc w).chan = .proc w
  child : ∀ w z, AsleepInWait s w → (s.kernel.proc z).parent = some w →
    (s.kernel.proc z).state = .zombie → ∃ p, ToWake s.kernel w (s.pc p)
  parent : ∀ p w, AsleepInWait s w → (s.kernel.proc p).parent = some w → (s.pc p).Leaving →
    ToWake s.kernel w (s.pc p)

namespace Told

theorem scanned_step (h : Told s) (hm : moveOf b s e = some m) (p : Slot) :
    Scanned m.kernel p (Function.update s.pc e.actor m.pc p) := by
  have hdoes := does_moveOf hm
  by_cases hp : p = e.actor
  · subst hp
    have hscanned := h.scanned e.actor
    rw [Function.update_self]
    generalize s.pc e.actor = pc, noteOf s e = note at hdoes hscanned
    cases hdoes with
    | quiet honward hsame =>
      refine (honward.scanned hscanned).congr fun i hparent hzombie ↦ ?_
      rw [← stage_eq_zombie, (hsame i).stage, stage_eq_zombie] at hzombie
      exact ⟨(hsame i).parent ▸ hparent, hzombie⟩
    | _ => trivial
  · rw [Function.update_of_ne hp]
    by_cases hlocked : (s.pc p).Locked
    · have hfree : ¬(s.pc e.actor).Locked := fun hactor ↦
        hp (h.excludes.eq (l := .waitLock) hlocked hactor)
      refine (h.scanned p).congr fun i hparent hzombie ↦ ?_
      obtain ⟨hsame, hold⟩ := hdoes.unlocked hfree i
      have hzombie := hold hzombie
      exact ⟨hsame (by simp [hzombie]) ▸ hparent, hzombie⟩
    · exact scanned_of_not_locked hlocked

/-- Who is about to wake a sleeper does so or stays about to. -/
theorem toWake_step (h : Told s) (hm : moveOf b s e = some m) (hasleep : AsleepInWait s w)
    (hasleep' : (m.kernel.proc w).state = .sleeping) (hwake : ToWake s.kernel w (s.pc p)) :
    ToWake m.kernel w (Function.update s.pc e.actor m.pc p) := by
  by_cases hp : p = e.actor
  · subst hp
    rw [Function.update_self]
    have hne : w ≠ e.actor := by
      rintro rfl
      obtain ⟨⟨x, hx⟩, -⟩ := hasleep
      rw [hx] at hwake
      exact hwake
    have hstep := toWake_moveOf hm hwake hne hasleep.2 (h.chan w hasleep)
    exact hstep.resolve_right (absurd hasleep')
  · rw [Function.update_of_ne hp]
    exact hwake.congr (does_moveOf hm).initproc

/-- A zombie whose parent sleeps has somebody who will wake the parent. -/
theorem child_step (hfamily : Family s.kernel s.pc) (h : Told s) (hm : moveOf b s e = some m)
    (hpc : ∃ x, Function.update s.pc e.actor m.pc w = .waitAsleep x)
    (hasleep' : (m.kernel.proc w).state = .sleeping) (hparent : (m.kernel.proc z).parent = some w)
    (hzombie : (m.kernel.proc z).state = .zombie) :
    ∃ p, ToWake m.kernel w (Function.update s.pc e.actor m.pc p) := by
  have hdoes := does_moveOf hm
  rcases AsleepInWait.before hm hfamily.child hpc hasleep' with ⟨hasleep, -⟩ | ⟨rfl, ⟨x, hx⟩, -⟩
  · -- a child that had exited before is still to be told of
    have hbefore : (s.kernel.proc z).parent = some w → (s.kernel.proc z).state = .zombie →
        ∃ p, ToWake m.kernel w (Function.update s.pc e.actor m.pc p) := by
      intro hparent hzombie
      obtain ⟨p, hwake⟩ := h.child w z hasleep hparent hzombie
      exact ⟨p, h.toWake_step hm hasleep hasleep' hwake⟩
    by_cases hlocked : (s.pc e.actor).Locked
    · generalize hactor : s.pc e.actor = pc, noteOf s e = note at hdoes hlocked
      cases hdoes with
      | quiet _ hsame =>
        rw [← stage_eq_zombie, (hsame z).stage, stage_eq_zombie] at hzombie
        exact hbefore ((hsame z).parent ▸ hparent) hzombie
      | alloc | allocFails | publish => exact hlocked.elim
      | @link np =>
        by_cases hz : z = np
        · subst hz
          have hused := hfamily.child e.actor z (by rw [hactor, ProcPc.child])
          have hzombie : (s.kernel.proc z).state = .zombie := by simpa [setParent] using hzombie
          simp [hzombie, stage] at hused
        · exact hbefore (by simpa [hz] using hparent) (by simpa [hz] using hzombie)
      | @adopt _ pp =>
        by_cases hz : z = pp
        · subst hz
          refine ⟨e.actor, ?_⟩
          rw [Function.update_self]
          exact ⟨by simpa [setParent] using hparent, List.mem_finRange w⟩
        · exact hbefore (by simpa [hz] using hparent) (by simpa [hz] using hzombie)
      | die =>
        by_cases hz : z = e.actor
        · subst hz
          have hwake := h.parent e.actor w hasleep (by simpa [exitState] using hparent)
            (by rw [hactor]; trivial)
          rw [hactor] at hwake
          exact hwake.elim
        · exact hbefore (by simpa [hz] using hparent) (by simpa [hz] using hzombie)
      | @reap x _ pp _ hrunning _ hold =>
        have hne : e.actor ≠ pp := by
          rintro rfl
          simp [hrunning] at hold
        by_cases hz : z = pp
        · subst hz
          rw [reap_proc_child b s.kernel x hne] at hzombie
          cases hzombie
        · have hsame := same_reap b s.kernel e.actor x hz
          rw [← stage_eq_zombie, hsame.stage, stage_eq_zombie] at hzombie
          exact hbefore (hsame.parent ▸ hparent) hzombie
    · obtain ⟨hsame, hold⟩ := hdoes.unlocked hlocked z
      have hzombie := hold hzombie
      exact hbefore (hsame (by simp [hzombie]) ▸ hparent) hzombie
  · -- `wait` has just scanned the table
    have hscanned := h.scanned e.actor
    rw [hx] at hdoes hscanned
    generalize noteOf s e = note at hdoes
    cases hdoes with
    | quiet _ hsame =>
      rw [← stage_eq_zombie, (hsame z).stage, stage_eq_zombie] at hzombie
      exact absurd hzombie (hscanned z ((hsame z).parent ▸ hparent))

theorem parent_step (hfamily : Family s.kernel s.pc) (h : Told s) (hm : moveOf b s e = some m)
    (hpc : ∃ x, Function.update s.pc e.actor m.pc w = .waitAsleep x)
    (hasleep' : (m.kernel.proc w).state = .sleeping) (hparent : (m.kernel.proc p).parent = some w)
    (hleaving : (Function.update s.pc e.actor m.pc p).Leaving) :
    ToWake m.kernel w (Function.update s.pc e.actor m.pc p) := by
  have hdoes := does_moveOf hm
  have hbefore := AsleepInWait.before hm hfamily.child hpc hasleep'
  by_cases hp : p = e.actor
  · subst hp
    rw [Function.update_self] at hleaving ⊢
    have hasleep : AsleepInWait s w := by
      rcases hbefore with ⟨hasleep, -⟩ | ⟨rfl, -, -⟩
      · exact hasleep
      · obtain ⟨x, hx⟩ := hpc
        rw [Function.update_self] at hx
        rw [hx] at hleaving
        exact hleaving.elim
    have hold : (s.kernel.proc e.actor).parent = some w := by
      generalize s.pc e.actor = pc, noteOf s e = note at hdoes
      cases hdoes with
      | quiet _ hsame => exact (hsame e.actor).parent ▸ hparent
      | _ => exact hleaving.elim
    rcases leaving_moveOf hm hleaving hold with hleft | hwake
    · simpa using h.toWake_step hm hasleep hasleep' (h.parent e.actor w hasleep hold hleft)
    · exact hwake
  · have hleft : (s.pc p).Leaving := by simpa [hp] using hleaving
    have hfree : ¬(s.pc e.actor).Locked := fun hactor ↦
      hp (h.excludes.eq (l := .waitLock) hleft.locked hactor)
    have hused : (s.kernel.proc p).state ≠ .unused := by simp [h.running p hleft.locked]
    have hold := (hdoes.unlocked hfree p).1 hused ▸ hparent
    rcases hbefore with ⟨hasleep, -⟩ | ⟨rfl, ⟨x, hx⟩, -⟩
    · exact h.toWake_step hm hasleep hasleep' (h.parent p w hasleep hold hleft)
    · rw [hx] at hfree
      exact absurd trivial hfree

theorem next (hfamily : Family s.kernel s.pc) (h : Told s) (hm : moveOf b s e = some m)
    (happly : m.apply s e.actor = some s') : Told s' := by
  obtain ⟨owner, hrun, rfl⟩ := Option.map_eq_some_iff.mp happly
  refine ⟨fun p l hp ↦ ?_, fun p hp ↦ ?_, h.scanned_step hm, fun w hw ↦ ?_,
    fun w z hw ↦ child_step hfamily h hm hw.1 hw.2,
    fun p w hw ↦ parent_step hfamily h hm hw.1 hw.2⟩
  · refine h.excludes.run hrun (follows_moveOf hm) p l ?_
    by_cases hpa : p = e.actor
    · subst hpa
      simpa using hp
    · simpa [hpa] using hp
  · by_cases hpa : p = e.actor
    · subst hpa
      exact running_moveOf hm (by simpa using hp) fun hlocked ↦
        ⟨h.running e.actor hlocked, h.excludes e.actor .waitLock hlocked⟩
    · have hrunning := h.running p (by simpa [hpa] using hp)
      rcases rests_moveOf hm hfamily.child hpa with ⟨hstate, -⟩ | ⟨hother, -⟩
      · exact hstate.trans hrunning
      · exact absurd hrunning hother
  · rcases AsleepInWait.before hm hfamily.child hw.1 hw.2 with ⟨hasleep, hchan⟩ | ⟨-, -, hchan⟩
    · exact hchan.trans (h.chan w hasleep)
    · exact hchan

end Told

theorem told_start (b : Build) : Told (exitWait b).start := by
  refine ⟨fun p _ h ↦ h.elim, fun p h ↦ h.elim, fun p ↦ trivial, fun w hw ↦ ?_, fun w z hw ↦ ?_,
    fun p w _ _ h ↦ h.elim⟩ <;>
  · obtain ⟨⟨x, hx⟩, -⟩ := hw
    cases hx

end EnhancedXv6.ExitWait
