import EnhancedXv6.Sleep.Threads

/-!
# No lost wakeups

A process that has tested the condition holds `lk`, and holds its own lock before it gives `lk` up,
until the scheduler has left its thread.  The scan of a `wakeup` that begins after the condition
became true therefore finds it asleep.  The argument needs that `myproc()`, which the scan skips, is
not asleep on another hart.  The DEFAULT and LBS schedulers ensure this; the MLFQ scheduler does not
test `p->state` again once it holds `p->lock`.
-/

namespace EnhancedXv6.Sleep

open Kernel Ownership Transition

variable {P H : Type} {b : Build} {chan : Chan} {table : List P} {s s' : SleepState P H} {h : H}
  {act : Act P} {pc : HartPc P} {m : Move P} {p q : P} {f : Proc → Proc}

/-! ## The protocol -/

def Asleep (chan : Chan) (pr : Proc) : Prop :=
  pr.state = .sleeping ∧ pr.chan = chan

/-- The process has given up `lk` to sleep on `chan`, or sleeps there. -/
def Committed (chan : Chan) (s : SleepState P H) (p : P) : Prop :=
  (∃ h relock, s.pc h = .released p chan relock ∨ s.pc h = .chanSet p chan relock) ∨
    Asleep chan (s.proc p)

/-- The hart has made the condition true and is not at the end of `wakeup(chan)`. -/
def Waking : HartPc P → Prop
  | .code phase _ | .scan phase _ _ _ | .visiting phase _ _ _ _ | .visited phase _ _ _ _ =>
    phase = .made
  | _ => False

/-- The hart has made the condition true and has still to look at `p`. -/
def Owes (chan : Chan) (p : P) : HartPc P → Prop
  | .code phase _ => phase = .made
  | .scan phase _ ch rest | .visited phase _ ch _ rest => phase = .made ∧ (ch = chan → p ∈ rest)
  | .visiting phase _ ch q rest => phase = .made ∧ (ch = chan → p ∈ q :: rest)
  | _ => False

theorem Owes.waking (howes : Owes chan p pc) : Waking pc := by
  cases pc with
  | code => exact howes
  | scan | visiting | visited => exact howes.1
  | _ => exact howes.elim

structure ProtocolInv (chan : Chan) (s : SleepState P H) : Prop where
  chanSet : ∀ h p ch relock, s.pc h = .chanSet p ch relock → (s.proc p).chan = ch
  tested : ∀ h p, s.pc h = .commit p chan ∨ s.pc h = .locked p chan → s.cond = false
  owed : s.cond = true → ∀ p, Committed chan s p → ∃ h, Owes chan p (s.pc h)

/-- `myproc()` of a hart that is not about to switch does not sleep. -/
theorem not_committed_of_current (hthread : ThreadInv s) (hcurrent : (s.pc h).current = some p)
    (hfree : ¬(s.pc h).Holds (.proc p)) : ¬Committed chan s p := by
  rintro (⟨i, relock, hpc⟩ | hasleep)
  · have hi : (s.pc i).current = some p := by rcases hpc with hpc | hpc <;> rw [hpc] <;> rfl
    obtain rfl := hthread.alone i h p hi hcurrent
    rcases hpc with hpc | hpc <;> exact hfree (by rw [hpc]; rfl)
  · have hrunning := hthread.running h p hcurrent fun hdeparted ↦ hfree (hdeparted.holds hcurrent)
    cases hrunning.symm.trans hasleep.1

/-! ## Steps -/

variable [DecidableEq P]

/-- The condition changes under `lk`, and who makes it true owes a `wakeup`. -/
theorem cond_moveOf (hm : moveOf b chan table s pc act = some m) {v : Bool}
    (hcond : m.cond = some v) : pc.Holds .lk ∧ (v = true → ∀ p, Owes chan p m.pc) := by
  obtain hadvance | ⟨phase, c, rfl, hchoose⟩ := moveOf_cases hm
  · unfold advance at hadvance
    split at hadvance <;> (try split at hadvance) <;> cases hadvance <;> cases hcond
  · unfold choose at hchoose
    split at hchoose <;> (repeat' split at hchoose) <;> cases hchoose <;> cases hcond <;>
      simp_all [HartPc.Holds, HartPc.holdsLk, Owes]

/-- Where a hart on its way into `sleep` comes from.  The way to `sleep(chan, lk)` begins with a
test. -/
theorem origin_moveOf (hm : moveOf b chan table s pc act = some m) :
    (m.pc = .commit p chan → m.cond = none ∧ s.cond = false) ∧
    (m.pc = .locked p chan → m.cond = none ∧ pc = .commit p chan) ∧
    (∀ relock, m.pc = .released p chan relock → pc = .locked p chan) ∧
    ∀ ch relock, m.pc = .chanSet p ch relock →
      pc = .released p ch relock ∧ m.write = some (p, setChan ch) := by
  obtain hadvance | ⟨phase, c, rfl, hchoose⟩ := moveOf_cases hm
  · unfold advance at hadvance
    split at hadvance <;> (try split at hadvance) <;> cases hadvance <;> simp
    · cases hcontext : s.context ‹P› <;> simp [resume]
    · grind
  · unfold choose at hchoose
    split at hchoose <;> (repeat' split at hchoose) <;> cases hchoose <;> simp_all

/-- A waker looks at every process but `myproc()`. -/
theorem owes_moveOf (htable : ∀ p, p ∈ table) (hm : moveOf b chan table s pc act = some m)
    (howes : Owes chan p pc) (hcond : m.cond = none) :
    Owes chan p m.pc ∨ pc.current = some p ∧ ¬pc.Holds (.proc p) ∨
      ∃ phase c rest, m.pc = .visited phase c chan p rest ∧
        m.write = some (p, wakeupProc chan) := by
  obtain hadvance | ⟨phase, c, rfl, hchoose⟩ := moveOf_cases hm
  · unfold advance at hadvance
    split at hadvance <;> (try split at hadvance) <;> cases hadvance <;>
      simp_all [Owes, HartPc.current, HartPc.Holds, HartPc.holdsProc, Phase.after]
    all_goals grind
  · unfold choose at hchoose
    split at hchoose <;> (repeat' split at hchoose) <;> cases hchoose <;>
      simp_all [Owes]

variable [DecidableEq H]

theorem chanSet_next (hthread : ThreadInv s) (hinv : ProtocolInv chan s)
    (hm : moveOf b chan table s (s.pc h) act = some m) (happly : m.apply s h = some s') (i : H)
    (p : P) (ch : Chan) (relock : Bool) (hset : s'.pc i = .chanSet p ch relock) :
    (s'.proc p).chan = ch := by
  rw [(apply_eq happly).2.1] at hset
  by_cases hi : i = h
  · obtain ⟨-, hwrite⟩ := (origin_moveOf hm).2.2.2 ch relock (by simpa [hi] using hset)
    simp [apply_proc_of_some happly hwrite, setChan]
  · have hset : s.pc i = .chanSet p ch relock := by simpa [hi] using hset
    have hholds : (s.pc i).Holds (.proc p) := by simp [hset, HartPc.Holds, HartPc.holdsProc]
    rw [proc_of_holds hthread hm happly hi hholds]
    exact hinv.chanSet i p ch relock hset

theorem tested_next (hthread : ThreadInv s) (hinv : ProtocolInv chan s)
    (hm : moveOf b chan table s (s.pc h) act = some m) (happly : m.apply s h = some s') (i : H)
    (p : P) (hpc : s'.pc i = .commit p chan ∨ s'.pc i = .locked p chan) : s'.cond = false := by
  obtain ⟨-, hupdate, hcond⟩ := apply_eq happly
  rw [hupdate] at hpc
  by_cases hi : i = h
  · subst hi
    rw [Function.update_self] at hpc
    obtain ⟨hcommit, hlocked, -⟩ := origin_moveOf (p := p) hm
    rcases hpc with hpc | hpc
    · obtain ⟨hnone, hfalse⟩ := hcommit hpc
      simp [hcond, hnone, hfalse]
    · obtain ⟨hnone, horigin⟩ := hlocked hpc
      simp [hcond, hnone, hinv.tested i p (.inl horigin)]
  · rw [Function.update_of_ne hi] at hpc
    cases hchange : m.cond with
    | none => simp [hcond, hchange, hinv.tested i p hpc]
    | some v =>
      have hholds : (s.pc i).Holds .lk := by
        rcases hpc with hpc | hpc <;> simp [hpc, HartPc.Holds, HartPc.holdsLk]
      exact absurd (hthread.excludes.eq hholds (cond_moveOf hm hchange).1) hi

/-- A process that sleeps on `chan` after a step slept there before or was on its way. -/
theorem committed_of_asleep (hthread : ThreadInv s) (hinv : ProtocolInv chan s)
    (hm : moveOf b chan table s (s.pc h) act = some m) (happly : m.apply s h = some s')
    (hasleep : Asleep chan (s'.proc p)) : Committed chan s p := by
  obtain hproc | ⟨f, hwrites, hproc⟩ := proc_cases hm happly p
  · exact .inr (hproc ▸ hasleep)
  rw [hproc] at hasleep
  generalize hpc : s.pc h = pc at hwrites
  generalize m.pc = pc' at hwrites
  have hrunning : pc.current = some p → ¬pc.Departed → (s.proc p).state = .running := by
    rw [← hpc]
    exact hthread.running h p
  cases hwrites with
  | dispatch => cases hasleep.1
  | wakeup =>
    unfold wakeupProc at hasleep
    split at hasleep
    · cases hasleep.1
    · exact .inr hasleep
  | yield =>
    unfold yieldProc at hasleep
    split at hasleep
    · exact .inr hasleep
    · cases hasleep.1
  | exit => cases hasleep.1
  | setChan | tidy => cases (hrunning rfl id).symm.trans hasleep.1
  | sleep =>
    rename_i ch relock
    have hchan : ch = chan := (hinv.chanSet h p ch relock hpc).symm.trans hasleep.2
    exact .inl ⟨h, relock, .inr (hchan ▸ hpc)⟩
  | foreign _ hawake => exact absurd hasleep.1 hawake

/-- While the condition is true, nobody begins to sleep on `chan`. -/
theorem committed_next (hthread : ThreadInv s) (hinv : ProtocolInv chan s)
    (hm : moveOf b chan table s (s.pc h) act = some m) (happly : m.apply s h = some s')
    (htrue : s.cond = true) (hcommitted : Committed chan s' p) : Committed chan s p := by
  rcases hcommitted with ⟨i, relock, hpc⟩ | hasleep
  · rw [(apply_eq happly).2.1] at hpc
    by_cases hi : i = h
    · subst hi
      rw [Function.update_self] at hpc
      obtain ⟨-, -, hreleased, hchanSet⟩ := origin_moveOf (p := p) hm
      rcases hpc with hpc | hpc
      · have hfalse := hinv.tested i p (.inr (hreleased relock hpc))
        simp [htrue] at hfalse
      · exact .inl ⟨i, relock, .inl (hchanSet chan relock hpc).1⟩
    · exact .inl ⟨i, relock, by simpa [hi] using hpc⟩
  · exact committed_of_asleep hthread hinv hm happly hasleep

/-- A process that the scan has just looked at does not sleep. -/
theorem not_committed_of_visited (hthread : ThreadInv s)
    (hm : moveOf b chan table s (s.pc h) act = some m) (happly : m.apply s h = some s')
    {phase : Phase} {c : Frame P} {rest : List P} (hvisited : m.pc = .visited phase c chan p rest)
    (hwrite : m.write = some (p, wakeupProc chan)) : ¬Committed chan s' p := by
  have hpc : s'.pc h = .visited phase c chan p rest := by simp [(apply_eq happly).2.1, hvisited]
  rintro (⟨i, relock, hi⟩ | hasleep)
  · have hholds : (s'.pc i).Holds (.proc p) := by rcases hi with hi | hi <;> rw [hi] <;> rfl
    obtain rfl := (excludes_next hthread hm happly).eq hholds (by rw [hpc]; rfl)
    simp [hpc] at hi
  · simp only [apply_proc_of_some happly hwrite, Function.update_self, wakeupProc] at hasleep
    split at hasleep
    · cases hasleep.1
    · contradiction

theorem owed_next (htable : ∀ p, p ∈ table) (hthread : ThreadInv s) (hinv : ProtocolInv chan s)
    (hm : moveOf b chan table s (s.pc h) act = some m) (happly : m.apply s h = some s')
    (htrue : s'.cond = true) (p : P) (hcommitted : Committed chan s' p) :
    ∃ i, Owes chan p (s'.pc i) := by
  obtain ⟨-, hpc, hcond⟩ := apply_eq happly
  cases hchange : m.cond with
  | some v =>
    obtain rfl : v = true := by simpa [hcond, hchange] using htrue
    exact ⟨h, by simpa [hpc] using (cond_moveOf hm hchange).2 rfl p⟩
  | none =>
    have htrue : s.cond = true := by simpa [hcond, hchange] using htrue
    have hbefore := committed_next hthread hinv hm happly htrue hcommitted
    obtain ⟨i, howes⟩ := hinv.owed htrue p hbefore
    by_cases hi : i = h
    · subst hi
      obtain howes | ⟨hcurrent, hfree⟩ | ⟨phase, c, rest, hvisited, hwrite⟩ :=
        owes_moveOf htable hm howes hchange
      · exact ⟨i, by simpa [hpc] using howes⟩
      · exact absurd hbefore (not_committed_of_current hthread hcurrent hfree)
      · exact absurd hcommitted
          (not_committed_of_visited hthread hm happly hvisited hwrite)
    · exact ⟨i, by simpa [hpc, hi] using howes⟩

/-! ## Runs -/

variable {init : P} {cond : Bool}

theorem inv_of_reachable (htable : ∀ p, p ∈ table)
    (hs : (sleepers H b chan table init cond).Reachable (TakesRunnable b) s) :
    ThreadInv s ∧ ProtocolInv chan s := by
  refine hs.invariant (fun s ↦ ThreadInv s ∧ ProtocolInv chan s) ⟨⟨?_, ?_, ?_⟩, ?_, ?_, ?_⟩ ?_
  · rintro h (_ | p) hholds
    · exact absurd rfl hholds
    · cases hholds
  · intro h p hcurrent
    cases hcurrent
  · intro h h' p hcurrent
    cases hcurrent
  · intro h p ch relock hpc
    cases hpc
  · rintro h p (hpc | hpc) <;> cases hpc
  · rintro - p (⟨h, relock, hpc | hpc⟩ | hasleep)
    · cases hpc
    · cases hpc
    · have hstate : ((sleepers H b chan table init cond).start.proc p).state ≠ .sleeping := by
        by_cases hp : p = init <;> simp [sleepers, hp]
      exact absurd hasleep.1 hstate
  · rintro s ⟨h, act⟩ s' ⟨hthread, hinv⟩ htakes hnext
    obtain ⟨m, hm, happly⟩ := sleepers_next.mp hnext
    exact ⟨hthread.next htakes hm happly, chanSet_next hthread hinv hm happly,
      tested_next hthread hinv hm happly, owed_next htable hthread hinv hm happly⟩

/-- For each build, any number of processes and harts, any channel and any interleaving in which the
schedulers switch to `RUNNABLE` processes only: if a process sleeps on the channel while the
condition is true, some hart has made it true and has not finished its `wakeup`. -/
theorem no_lost_wakeup (P H : Type) [DecidableEq P] [DecidableEq H] (b : Build) (chan : Chan)
    (table : List P) (htable : ∀ p, p ∈ table) (init : P) (cond : Bool) {s : SleepState P H}
    (hs : (sleepers H b chan table init cond).Reachable (TakesRunnable b) s) :
    ¬∃ p, Asleep chan (s.proc p) ∧ s.cond = true ∧ ∀ h, ¬Waking (s.pc h) := by
  rintro ⟨p, hasleep, htrue, hwaking⟩
  obtain ⟨h, howes⟩ := (inv_of_reachable htable hs).2.owed htrue p (.inr hasleep)
  exact hwaking h howes.waking

/-! ## Two runs -/

instance (chan : Chan) (pr : Proc) : Decidable (Asleep chan pr) :=
  inferInstanceAs (Decidable (pr.state = .sleeping ∧ pr.chan = chan))

instance : (pc : HartPc P) → Decidable (Waking pc)
  | .code phase _ | .scan phase _ _ _ | .visiting phase _ _ _ _ | .visited phase _ _ _ _ =>
    inferInstanceAs (Decidable (phase = .made))
  | .polled _ | .back _ | .entered _ _ | .yielding _ _ | .exiting _ _ | .commit _ _ | .locked _ _
  | .released _ _ _ | .chanSet _ _ _ | .switching _ _ | .resumed _ _ | .tidied _ _ =>
    inferInstanceAs (Decidable False)

instance (b : Build) (s : SleepState Slot Hart) (e : Hart × Act Slot) :
    Decidable (TakesRunnable b s e) :=
  inferInstanceAs (Decidable (b = .mlfq → ∀ p, s.pc e.1 = .polled p →
    (s.proc p).state = .runnable))

/-- The thread that hart `h` runs finds the condition false and goes to sleep. -/
def fallAsleep (h : Hart) : List (Hart × Act Slot) :=
  [(h, Act.enter), (h, .test)] ++ List.replicate 6 (h, Act.advance)

set_option maxRecDepth 100000 in
theorem no_lost_wakeup_of_sleeper :
    ∃ s, ((sleepers Hart .default .ticks Kernel.table 0 false).Reachable (TakesRunnable .default) s ∧
        Asleep .ticks (s.proc 0) ∧ s.cond = true) ∧
      ¬∃ p, Asleep .ticks (s.proc p) ∧ s.cond = true ∧ ∀ h, ¬Waking (s.pc h) := by
  obtain ⟨s, hs, hasleep, htrue⟩ := (sleepers Hart .default .ticks Kernel.table 0
    false).exists_reachable (TakesRunnable .default) (fun s ↦ Asleep .ticks (s.proc 0) ∧ s.cond = true)
    ([(0, Act.poll 0), (0, .advance), (0, .advance)] ++ fallAsleep 0 ++
      [(1, Act.enter), (1, .makeTrue)])
    (by decide +kernel)
  exact ⟨s, ⟨hs, hasleep, htrue⟩,
    no_lost_wakeup Slot Hart .default .ticks Kernel.table List.mem_finRange 0 false hs⟩

set_option maxRecDepth 100000 in
/-- MLFQ on two harts.  Both schedulers find the process `RUNNABLE` and switch to it.  On hart 0 it
falls asleep, on hart 1 it makes the condition true and calls `wakeup`, which skips `myproc()`. -/
theorem wakeup_lost :
    ∃ s, (sleepers Hart .mlfq .ticks Kernel.table 0 false).Reachable (fun _ _ ↦ True) s ∧
      ∃ p, Asleep .ticks (s.proc p) ∧ s.cond = true ∧ ∀ h, ¬Waking (s.pc h) := by
  obtain ⟨s, hs, hlost⟩ := (sleepers Hart .mlfq .ticks Kernel.table 0
    false).exists_reachable (fun _ _ ↦ True)
    (fun s ↦ Asleep .ticks (s.proc 0) ∧ s.cond = true ∧ ∀ h, ¬Waking (s.pc h))
    ([(0, Act.pick 0), (1, .pick 0), (1, .advance), (1, .advance), (1, .advance), (0, .advance),
      (0, .advance), (0, .advance)] ++ fallAsleep 0 ++
      [(1, Act.enter), (1, .makeTrue), (1, .wakeup .ticks)] ++ List.replicate 191 (1, Act.advance))
    (by decide +kernel)
  exact ⟨s, hs, 0, hlost⟩

end EnhancedXv6.Sleep
