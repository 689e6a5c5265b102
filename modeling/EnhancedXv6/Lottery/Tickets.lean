import EnhancedXv6.Arith.WrappingSum
import EnhancedXv6.Kernel.System
import EnhancedXv6.Lottery.Generator

/-!
# When the lottery chooses a process

`settickets` accepts every `int` that is not negative, and `fork` hands the number on.  A pass adds up
the tickets of the `RUNNABLE` processes in an `int` and works as a lottery exactly when their number is
positive and fits an `int`; otherwise the sum wraps around, or the pass chooses nobody although
processes are ready.
-/

namespace EnhancedXv6.Lottery

open Arith Kernel Transition

/-! ## The two sums -/

variable {proc : Slot → Proc} {s s' : State}

def stake (proc : Slot → Proc) (p : Slot) : Int32 :=
  if (proc p).state = .runnable then (proc p).tickets else 0

def runnableTickets (proc : Slot → Proc) : ℤ :=
  ∑ p, if (proc p).state = .runnable then (proc p).tickets.toInt else 0

def ticketsBefore (proc : Slot → Proc) (n : ℕ) : ℤ :=
  ((table.take n).map fun p ↦ (stake proc p).toInt).sum

def totalAfter (proc : Slot → Proc) (n : ℕ) : Int32 :=
  (table.take n).foldl (addTickets proc) 0

def currentAfter (proc : Slot → Proc) (winner : Int32) (n : ℕ) : Int32 :=
  ((table.take n).foldl (drawStep proc winner) {}).currentTickets

theorem addTickets_eq (total : Int32) (p : Slot) :
    addTickets proc total p = total + stake proc p := by
  unfold addTickets stake
  split <;> simp

theorem drawStep_currentTickets (winner : Int32) (d : Draw) (p : Slot) :
    (drawStep proc winner d p).currentTickets = d.currentTickets + stake proc p := by
  unfold drawStep stake
  dsimp only
  split
  · split <;> rfl
  · simp

theorem foldl_addTickets (ps : List Slot) (total : Int32) :
    ps.foldl (addTickets proc) total = (ps.map (stake proc)).foldl (· + ·) total := by
  rw [List.foldl_map]
  exact List.foldl_ext _ _ _ fun total p _ ↦ addTickets_eq total p

theorem foldl_drawStep (winner : Int32) (ps : List Slot) (d : Draw) :
    (ps.foldl (drawStep proc winner) d).currentTickets =
      (ps.map (stake proc)).foldl (· + ·) d.currentTickets := by
  induction ps generalizing d with
  | nil => rfl
  | cons p rest ih => simp [ih, drawStep_currentTickets]

theorem totalAfter_eq (n : ℕ) :
    totalAfter proc n = wrappingSum ((table.map (stake proc)).take n) := by
  rw [totalAfter, foldl_addTickets, List.map_take, wrappingSum]

theorem currentAfter_eq (winner : Int32) (n : ℕ) :
    currentAfter proc winner n = wrappingSum ((table.map (stake proc)).take n) := by
  rw [currentAfter, foldl_drawStep, List.map_take, wrappingSum]

theorem totalTickets_eq : totalTickets proc = wrappingSum (table.map (stake proc)) :=
  foldl_addTickets table 0

/-- Both scans compute the same number. -/
theorem draw_currentTickets (winner : Int32) :
    (draw proc winner).currentTickets = totalTickets proc := by
  rw [totalTickets_eq]
  exact foldl_drawStep winner table {}

theorem ticketsBefore_eq (n : ℕ) :
    ticketsBefore proc n = exactSum ((table.map (stake proc)).take n) := by
  rw [ticketsBefore, exactSum, ← List.map_take, List.map_map]
  rfl

theorem runnableTickets_eq : runnableTickets proc = exactSum (table.map (stake proc)) := by
  rw [runnableTickets, exactSum, List.map_map, Fin.sum_univ_def]
  refine congrArg List.sum (List.map_congr_left fun p _ ↦ ?_)
  unfold stake
  dsimp only [Function.comp_apply]
  split <;> rfl

/-! ## The draw -/

/-- What the second scan knows: the choice is `RUNNABLE`, and there is one as soon as
`current_tickets` has passed `winner`. -/
structure DrawInv (proc : Slot → Proc) (winner : Int32) (d : Draw) : Prop where
  runnable : ∀ p, d.chosen = some p → (proc p).state = .runnable
  found : d.chosen = none → d.currentTickets ≤ winner

theorem DrawInv.step {winner : Int32} {d : Draw} (hd : DrawInv proc winner d) (p : Slot) :
    DrawInv proc winner (drawStep proc winner d p) := by
  unfold drawStep
  dsimp only
  split_ifs with hrunnable hwins
  · exact ⟨fun q hq ↦ Option.some.inj hq ▸ hrunnable, fun hq ↦ by cases hq⟩
  · refine ⟨hd.runnable, fun hnone ↦ ?_⟩
    have hnone : d.chosen = none := hnone
    have hlose : ¬ winner < d.currentTickets + (proc p).tickets := by
      intro hlt
      exact hwins ⟨hlt, by simp [hnone, replaces]⟩
    exact Int32.not_lt.mp hlose
  · exact hd

theorem drawInv_draw {winner : Int32} (hwinner : 0 ≤ winner) :
    DrawInv proc winner (draw proc winner) := by
  have hrun : ∀ (ps : List Slot) d, DrawInv proc winner d →
      DrawInv proc winner (ps.foldl (drawStep proc winner) d) := by
    intro ps
    induction ps with
    | nil => exact fun d hd ↦ hd
    | cons p rest ih => exact fun d hd ↦ ih _ (hd.step p)
  refine hrun table {} ⟨fun p hp ↦ ?_, fun _ ↦ hwinner⟩
  cases hp

theorem rand_nonneg (next : UInt64) : 0 ≤ (rand next).1.toInt := by
  rw [rand_toInt]
  omega

/-- A pass that counts a positive number of tickets chooses a `RUNNABLE` process. -/
theorem choose_of_pos (hpos : 0 < totalTickets s.proc) :
    ∃ p, (choose s).1 = some p ∧ (s.proc p).state = .runnable := by
  have hpos' : 0 < (totalTickets s.proc).toInt := Int32.lt_iff_toInt_lt.mp hpos
  set winner := (rand s.next).1 % totalTickets s.proc with hwinner
  have hnonneg : 0 ≤ winner.toInt := by
    rw [hwinner, Int32.toInt_mod]
    exact Int.tmod_nonneg _ (rand_nonneg s.next)
  have hlt : winner.toInt < (totalTickets s.proc).toInt := by
    rw [hwinner, Int32.toInt_mod]
    exact Int.tmod_lt_of_pos _ hpos'
  have hinv : DrawInv s.proc winner (draw s.proc winner) :=
    drawInv_draw (Int32.le_iff_toInt_le.mpr (by simpa using hnonneg))
  have hchoose : (choose s).1 = (draw s.proc winner).chosen := by
    simp [choose, hpos, hwinner]
  rw [hchoose]
  cases hchosen : (draw s.proc winner).chosen with
  | some p => exact ⟨p, rfl, hinv.runnable p hchosen⟩
  | none =>
    have hle := Int32.le_iff_toInt_le.mp (hinv.found hchosen)
    rw [draw_currentTickets] at hle
    omega

/-! ## Tickets along a run -/

def Funded (s : State) : Prop :=
  ∀ i, 0 ≤ (s.proc i).tickets.toInt

def SameTickets (s s' : State) : Prop :=
  ∀ i, (s'.proc i).tickets = (s.proc i).tickets

theorem SameTickets.trans {t : State} (h : SameTickets s t) (h' : SameTickets t s') :
    SameTickets s s' := fun i ↦ (h' i).trans (h i)

theorem SameTickets.setCpu (h : SameTickets s s') (c : Hart) (p : Option Slot) :
    SameTickets s (s'.setCpu c p) := h

theorem Funded.same (hs : Funded s) (h : SameTickets s s') : Funded s' := by
  intro i
  rw [h i]
  exact hs i

theorem Funded.modify {p : Slot} {f : Proc → Proc} (hs : Funded s)
    (hf : 0 ≤ (f (s.proc p)).tickets.toInt) : Funded (s.modify p f) := by
  intro i
  by_cases hi : i = p
  · subst hi
    simpa using hf
  · simpa [hi] using hs i

theorem sameTickets_modify {p : Slot} {f : Proc → Proc}
    (hf : (f (s.proc p)).tickets = (s.proc p).tickets) : SameTickets s (s.modify p f) := by
  intro i
  by_cases hi : i = p
  · subst hi
    simpa using hf
  · simp [hi]

theorem tickets_of_rehomed {pr pr' : Proc} (h : Rehomed pr pr') : pr'.tickets = pr.tickets := by
  obtain ⟨state, parent, rfl, -⟩ := h
  rfl

theorem sameTickets_wakeup (me : Option Slot) (chan : Chan) :
    SameTickets s (wakeup s me chan) :=
  fun i ↦ tickets_of_rehomed (rehomed_wakeup s me chan i)

theorem sameTickets_reparent (p : Slot) : SameTickets s (reparent s p) :=
  fun i ↦ tickets_of_rehomed (rehomed_reparent s p i)

theorem sameTickets_exit {h : Hart} {p : Slot} {status : Int32}
    (hexit : exit s h p status = .ok s') : SameTickets s s' := by
  unfold exit at hexit
  split at hexit
  · cases hexit
  · cases hexit
    refine SameTickets.setCpu (SameTickets.trans ?_ (sameTickets_modify rfl)) h none
    have hclosed : SameTickets s (s.modify p closeFiles) :=
      sameTickets_modify rfl
    exact (hclosed.trans (sameTickets_reparent p)).trans (sameTickets_wakeup _ _)

theorem sameTickets_timerintr (b : Build) (h : Hart) : SameTickets s (timerintr b s h) := by
  have hupdate : SameTickets s (updateTime b { s with ticks := s.ticks + 1 }) := by
    intro i
    simp only [updateTime, updateTimeProc]
    split_ifs <;> rfl
  unfold timerintr
  split
  · unfold clockintr
    refine SameTickets.trans ?_ (sameTickets_wakeup _ _)
    cases s.cpu h with
    | none => exact hupdate
    | some p =>
      refine hupdate.trans (sameTickets_modify ?_)
      unfold countTick
      split <;> rfl
  · exact fun _ ↦ rfl

theorem alarmTick_tickets {pr pr' : Proc} {kalloc : Bool} (h : alarmTick pr kalloc = .ok pr') :
    pr'.tickets = pr.tickets := by
  unfold alarmTick at h
  dsimp only at h
  split_ifs at h <;> cases h <;> rfl

theorem sameTickets_yield (b : Build) (h : Hart) (p : Slot) : SameTickets s (yield b s h p) := by
  refine SameTickets.setCpu (sameTickets_modify ?_) h none
  split <;> rfl

theorem sameTickets_usertrapTimer {h : Hart} {p : Slot} {ctx : Trap.UserContext} {kalloc : Bool}
    (htrap : usertrapTimer .lbs s h p ctx kalloc = .ok s') : SameTickets s s' := by
  obtain ⟨pr, halarm, hs'⟩ := Fallible.bind_eq_ok.mp htrap
  cases hs'
  refine SameTickets.trans ?_ (sameTickets_modify (alarmTick_tickets halarm))
  exact SameTickets.trans (sameTickets_modify rfl) (sameTickets_timerintr .lbs h)

theorem sameTickets_usertrapReturn {h : Hart} {p : Slot}
    (htrap : usertrapReturn .lbs s h p = .ok s') : SameTickets s s' := by
  by_cases hkilled : (s.proc p).killed = true
  · simp only [usertrapReturn, usertrapAge, hkilled, if_true] at htrap
    exact sameTickets_exit htrap
  · simp only [usertrapReturn, usertrapAge, hkilled] at htrap
    cases htrap
    exact fun _ ↦ rfl

theorem sameTickets_usertrap {h : Hart} {p : Slot} {ctx : Trap.UserContext} {kalloc : Bool}
    (htrap : usertrap .lbs s h p ctx kalloc = .ok s') : SameTickets s s' := by
  obtain ⟨t, htimer, hrest⟩ := Fallible.bind_eq_ok.mp htrap
  refine (sameTickets_usertrapTimer htimer).trans ?_
  by_cases hkilled : (t.proc p).killed = true
  · simp only [usertrapAge, hkilled, if_true] at hrest
    exact sameTickets_exit hrest
  · simp only [usertrapAge, hkilled] at hrest
    cases hrest
    exact sameTickets_yield .lbs h p

theorem sameTickets_kerneltrap (h : Hart) : SameTickets s (kerneltrap .lbs s h) := by
  refine SameTickets.trans (sameTickets_timerintr .lbs h) ?_
  unfold kerneltrap
  dsimp only
  split
  · exact fun _ ↦ rfl
  · split
    · exact sameTickets_yield .lbs h _
    · exact fun _ ↦ rfl

theorem sameTickets_kill (pid : Int32) : SameTickets s (kill s pid).2 := by
  unfold kill
  split
  · exact fun _ ↦ rfl
  · exact sameTickets_modify rfl

theorem sameTickets_dispatch (h : Hart) (p : Slot) : SameTickets s (dispatch s h p) :=
  SameTickets.setCpu (sameTickets_modify rfl) h (some p)

theorem sameTickets_pass (h : Hart) : SameTickets s (pass s h) := by
  unfold pass
  generalize choose s = c
  obtain ⟨_ | p, next⟩ := c
  · exact fun _ ↦ rfl
  · exact SameTickets.trans (fun _ ↦ rfl) (sameTickets_dispatch h p)

/-- A new process has one ticket until `fork` hands on the tickets of the parent. -/
theorem Funded.allocprocAt (hs : Funded s) (np : Slot) (outcome : AllocOutcome) :
    Funded (allocprocAt .lbs s np outcome).2 := by
  intro i
  by_cases hi : i = np
  · subst hi
    cases outcome <;> simp [Kernel.allocprocAt, allocprocFound, allocprocReady, freeproc, hs i]
  · cases outcome <;> simp [Kernel.allocprocAt, hi, hs i]

theorem Funded.forkCopy (hs : Funded s) (p : Slot) (outcome : AllocOutcome) (child : Option Slot) :
    Funded (forkCopy .lbs s p outcome child) := by
  cases child with
  | none => exact hs
  | some np =>
    intro i
    by_cases hi : i = np
    · by_cases hcopy : outcome = .noCopy <;> simp [Kernel.forkCopy, hcopy, hi, freeproc, hs p]
    · by_cases hcopy : outcome = .noCopy <;> simp [Kernel.forkCopy, hcopy, hi, hs i]

theorem Funded.forkAlloc (hs : Funded s) (p : Slot) (outcome : AllocOutcome) :
    Funded (forkAlloc .lbs s p outcome) := by
  unfold Kernel.forkAlloc allocproc
  cases findUnused s with
  | none => exact hs
  | some np => exact (hs.allocprocAt np outcome).forkCopy p outcome _

theorem Funded.settickets (hs : Funded s) (p : Slot) (number : Int32) :
    Funded (settickets s p number).2 := by
  unfold Kernel.settickets
  by_cases hnumber : number < 0
  · simpa [hnumber] using hs
  · have hle : 0 ≤ number.toInt := by
      simpa using Int32.le_iff_toInt_le.mp (Int32.not_lt.mp hnumber)
    simpa [hnumber] using hs.modify (p := p) (f := fun pr ↦ { pr with tickets := number }) hle

theorem sameTickets_forkPublish (p : Slot) : SameTickets s (forkPublish s p) := by
  intro i
  unfold forkPublish
  split
  · rfl
  · rename_i np _
    by_cases hi : i = np <;> simp [hi]

theorem sameTickets_wait {p : Slot} {copyoutFails : Bool} {r : Int32 × State}
    (hwait : wait .lbs s p copyoutFails = some r) : SameTickets s r.2 := by
  unfold wait at hwait
  split at hwait
  · rename_i pp _
    have hadd : SameTickets s (s.modify p (addCounters (s.proc pp).sysCounter)) :=
      sameTickets_modify rfl
    split at hwait <;> cases hwait
    · exact hadd
    · exact hadd.trans (sameTickets_modify rfl)
  · split at hwait <;> cases hwait
    exact fun _ ↦ rfl

theorem sameTickets_waitx {p : Slot} {copyoutFails : Bool}
    {r : Int32 × Option (UInt32 × UInt32) × State}
    (hwait : waitx .lbs s p copyoutFails = some r) : SameTickets s r.2.2 := by
  unfold waitx at hwait
  split at hwait
  · split at hwait <;> cases hwait
    · exact fun _ ↦ rfl
    · exact sameTickets_modify rfl
  · split at hwait <;> cases hwait
    exact fun _ ↦ rfl

theorem sameTickets_sleep (h : Hart) (p : Slot) (chan : Chan) : SameTickets s (sleep s h p chan) :=
  SameTickets.setCpu (sameTickets_modify rfl) h none

theorem Funded.next {e : Event} (hs : Funded s) (hnext : (system .lbs).next s e = some s') :
    Funded s' := by
  obtain ⟨henabled, hexec⟩ := system_next.mp hnext
  cases e with
  | pass h =>
    cases hexec
    exact hs.same (sameTickets_pass h)
  | poll h p => cases henabled.1
  | kernelTimer h =>
    cases hexec
    exact hs.same (sameTickets_kerneltrap h)
  | wakeup h chan =>
    cases hexec
    exact hs.same (sameTickets_wakeup _ chan)
  | kill h pid =>
    cases hexec
    exact hs.same (sameTickets_kill pid)
  | userTimer h ctx kalloc =>
    obtain ⟨p, hp, -⟩ := henabled
    exact hs.same (sameTickets_usertrap ((asProcess_some hp).symm.trans hexec))
  | trapReturn h =>
    obtain ⟨p, hp, -⟩ := henabled
    exact hs.same (sameTickets_usertrapReturn ((asProcess_some hp).symm.trans hexec))
  | sleep h chan =>
    obtain ⟨p, hp, -⟩ := henabled
    cases (asProcess_some hp).symm.trans hexec
    exact hs.same (sameTickets_sleep h p chan)
  | forkAlloc h outcome =>
    obtain ⟨p, hp, -⟩ := henabled
    cases (asProcess_some hp).symm.trans hexec
    exact hs.forkAlloc p outcome
  | forkPublish h =>
    obtain ⟨p, np, hp, hnp⟩ := henabled
    cases (asProcess_some hp).symm.trans hexec
    exact hs.same (sameTickets_forkPublish p)
  | exit h status =>
    obtain ⟨p, hp, -⟩ := henabled
    exact hs.same (sameTickets_exit ((asProcess_some hp).symm.trans hexec))
  | wait h copyoutFails =>
    obtain ⟨p, hp, -⟩ := henabled
    rcases exec_wait hp hexec with rfl | ⟨r, hscan, rfl⟩
    · exact hs.same (sameTickets_sleep h p _)
    · exact hs.same (sameTickets_wait hscan)
  | waitx h copyoutFails =>
    obtain ⟨p, hp, -⟩ := henabled
    rcases exec_waitx hp hexec with rfl | ⟨r, hscan, rfl⟩
    · exact hs.same (sameTickets_sleep h p _)
    · exact hs.same (sameTickets_waitx hscan)
  | settickets h number =>
    obtain ⟨p, hp, -⟩ := henabled
    cases (asProcess_some hp).symm.trans hexec
    exact hs.settickets p number

theorem funded_start : Funded (system .lbs).start := by
  intro i
  have hboot : ∀ i, 0 ≤ ((userinit .lbs).proc i).tickets.toInt := by decide +kernel
  exact hboot i

/-! ## The lottery works if and only if its tickets fit an `int` -/

/-- A pass over this table works as a lottery: it chooses a `RUNNABLE` process, the two sums are
exact after every iteration of their loops, and they are positive at the end. -/
structure Draws (s : State) : Prop where
  chooses : ∃ p, (choose s).1 = some p ∧ (s.proc p).state = .runnable
  total_exact : ∀ n, (totalAfter s.proc n).toInt = ticketsBefore s.proc n
  current_exact : ∀ winner n, (currentAfter s.proc winner n).toInt = ticketsBefore s.proc n
  total_pos : 0 < totalTickets s.proc
  current_pos : ∀ winner, 0 < (draw s.proc winner).currentTickets

theorem Funded.stake_nonneg (hs : Funded s) : ∀ x ∈ table.map (stake s.proc), 0 ≤ x.toInt := by
  intro x hx
  obtain ⟨p, -, rfl⟩ := List.mem_map.mp hx
  unfold stake
  split
  · exact hs p
  · decide

/-- In every reachable table of the LBS kernel a pass works as a lottery if and only if the
`RUNNABLE` processes have a ticket and their tickets fit an `int`. -/
theorem draws_iff_tickets_fit (hs : (system .lbs).Reachable (fun _ _ ↦ True) s) :
    Draws s ↔ 0 < runnableTickets s.proc ∧ runnableTickets s.proc < 2 ^ 31 := by
  have hfunded : Funded s :=
    hs.invariant Funded funded_start fun _ _ _ hinv _ hnext ↦ hinv.next hnext
  have hstake := hfunded.stake_nonneg
  rw [runnableTickets_eq, ← noOverflow_iff hstake]
  constructor
  · intro hdraws
    have hexact : NoOverflow (table.map (stake s.proc)) := fun n ↦ by
      rw [← totalAfter_eq, ← ticketsBefore_eq]
      exact hdraws.total_exact n
    have htotal := toInt_wrappingSum hstake ((noOverflow_iff hstake).mp hexact)
    have hpos := Int32.lt_iff_toInt_lt.mp hdraws.total_pos
    rw [totalTickets_eq, htotal] at hpos
    exact ⟨by simpa using hpos, hexact⟩
  · rintro ⟨hpos, hexact⟩
    have htotal := toInt_wrappingSum hstake ((noOverflow_iff hstake).mp hexact)
    have htotal_pos : 0 < totalTickets s.proc := by
      rw [Int32.lt_iff_toInt_lt, totalTickets_eq, htotal]
      simpa using hpos
    refine ⟨choose_of_pos htotal_pos, fun n ↦ ?_, fun winner n ↦ ?_, htotal_pos, fun winner ↦ ?_⟩
    · rw [totalAfter_eq, ticketsBefore_eq]
      exact hexact n
    · rw [currentAfter_eq, ticketsBefore_eq]
      exact hexact n
    · rw [draw_currentTickets]
      exact htotal_pos

/-- The first process takes 5 tickets and forks a child, which inherits them. -/
def inheritFive : List Event :=
  [.pass 0, .settickets 0 5, .forkAlloc 0 .ok, .forkPublish 0]

set_option maxRecDepth 100000 in
theorem draws_inheritFive :
    ∃ s, ((system .lbs).Reachable (fun _ _ ↦ True) s ∧ runnableTickets s.proc = 5) ∧ Draws s := by
  obtain ⟨s, hs, hfive⟩ := (system .lbs).exists_reachable (fun _ _ ↦ True)
    (fun s ↦ runnableTickets s.proc = 5) inheritFive (by decide +kernel)
  exact ⟨s, ⟨hs, hfive⟩, (draws_iff_tickets_fit hs).mpr (by rw [hfive]; decide)⟩

def giveUpTickets : List Event :=
  [.pass 0, .settickets 0 0, .kernelTimer 0]

/-- The first process takes `INT_MAX` tickets, forks a child, which inherits them, and gives up its
hart. -/
def inheritMaximum : List Event :=
  [.pass 0, .settickets 0 2147483647, .forkAlloc 0 .ok, .forkPublish 0, .kernelTimer 0]

set_option maxRecDepth 100000 in
/-- A pass chooses nobody while a process is `RUNNABLE`: because the tickets add up to 0, or because
their sum wraps around to a negative number. -/
theorem lottery_idles_with_runnable_process :
    (∃ s, (system .lbs).Reachable (fun _ _ ↦ True) s ∧ (s.proc 0).state = .runnable ∧
      totalTickets s.proc = 0 ∧ (choose s).1 = none) ∧
    ∃ s, (system .lbs).Reachable (fun _ _ ↦ True) s ∧ (s.proc 0).state = .runnable ∧
      totalTickets s.proc = -2 ∧ (choose s).1 = none :=
  ⟨(system .lbs).exists_reachable (fun _ _ ↦ True) (fun s ↦ (s.proc 0).state = .runnable ∧
      totalTickets s.proc = 0 ∧ (choose s).1 = none) giveUpTickets (by decide +kernel),
    (system .lbs).exists_reachable (fun _ _ ↦ True) (fun s ↦ (s.proc 0).state = .runnable ∧
      totalTickets s.proc = -2 ∧ (choose s).1 = none) inheritMaximum (by decide +kernel)⟩

end EnhancedXv6.Lottery
