import EnhancedXv6.Lifecycle.Waiting

/-!
# kill

`kill` stops at the first slot of the table with the pid it looks for, whether or not the slot is in
use.  In every run the free slots are those that `freeproc` or the boot code left with pid 0, so the
call goes wrong for this pid only: `kill(0)` succeeds and marks a free slot, unless a process that
has got pid 0 after an overflow of `nextpid` stands before it.
-/

namespace EnhancedXv6.Lifecycle

open Kernel Transition

variable {b : Build} {s s' : State} {e : LifeEvent} {p : Slot} {pr pr' : Proc} {pid : Int32}

/-! ## Free slots -/

def Vacant (pr : Proc) : Prop := pr.state = .unused → pr.pid = 0

theorem Vacant.of_eq (h : Vacant pr) (hstate : pr'.state = .unused → pr.state = .unused)
    (hpid : pr'.pid = pr.pid) : Vacant pr' := fun hunused ↦ hpid.trans (h (hstate hunused))

theorem vacant_freeproc (b : Build) (pr : Proc) : Vacant (freeproc b pr) := fun _ ↦ rfl

theorem Vacant.killProc (h : Vacant pr) : Vacant (killProc pr) := by
  refine h.of_eq (fun hunused ↦ ?_) rfl
  simp only [Kernel.killProc] at hunused
  split_ifs at hunused
  exact hunused

theorem Vacant.updateTimeProc (h : Vacant pr) : Vacant (updateTimeProc b pr) := by
  unfold Kernel.updateTimeProc
  split_ifs
  · exact h.of_eq id rfl
  · exact h.of_eq id rfl
  · exact h

theorem Vacant.of_rehomed (h : Vacant pr) (hrehomed : Rehomed pr pr') : Vacant pr' := by
  obtain ⟨state, parent, rfl, hstate⟩ := hrehomed
  refine h.of_eq (fun hunused ↦ ?_) rfl
  rcases hstate with rfl | ⟨-, rfl⟩
  · exact hunused
  · cases hunused

theorem vacant_modify (h : ∀ i, Vacant (s.proc i)) {f : Proc → Proc} (hf : Vacant (f (s.proc p)))
    (i : Slot) : Vacant ((s.modify p f).proc i) := by
  by_cases hi : i = p
  · subst hi
    simpa using hf
  · simpa [hi] using h i

theorem vacant_forkAllocAt (h : ∀ i, Vacant (s.proc i)) (p np : Slot) (outcome : AllocOutcome)
    (i : Slot) : Vacant ((forkAllocAt b s p np outcome).proc i) := by
  by_cases hi : i = np
  · subst hi
    intro hunused
    rw [forkAllocAt_state] at hunused
    cases outcome with
    | ok => simp at hunused
    | _ => simp [forkAllocAt, allocprocAt, forkCopy, freeproc]
  · rw [forkAllocAt_proc_of_ne hi]
    exact h i

/-- `freeproc` clears the pid, and no step gives one to a free slot. -/
theorem vacant_next (h : ∀ i, Vacant (s.proc i)) (hnext : (lifecycle b).next s e = some s') :
    ∀ i, Vacant (s'.proc i) := by
  obtain ⟨henabled, hperform⟩ := lifecycle_next.mp hnext
  cases e with
  | move p state =>
    obtain rfl := Option.some.inj hperform
    refine vacant_modify h fun hunused ↦ ?_
    obtain rfl : state = .unused := hunused
    exact absurd (Or.inl rfl) (not_dead_of_live henabled.2)
  | tick =>
    obtain rfl := Option.some.inj hperform
    exact h
  | visit p =>
    obtain rfl := Option.some.inj hperform
    exact vacant_modify h (h p).updateTimeProc
  | requeue p level startTime waitTicks =>
    obtain rfl := Option.some.inj hperform
    exact vacant_modify h ((h p).of_eq id rfl)
  | complete p num =>
    obtain rfl := Option.some.inj hperform
    exact vacant_modify h ((h p).of_eq id rfl)
  | setFile p fd file =>
    obtain rfl := Option.some.inj hperform
    exact vacant_modify h ((h p).of_eq id rfl)
  | forkAlloc p np outcome =>
    obtain rfl := Option.some.inj hperform
    exact vacant_forkAllocAt h p np outcome
  | forkPublish p =>
    obtain rfl := Option.some.inj hperform
    intro i
    rw [forkPublish_proc]
    split_ifs
    · exact fun hunused ↦ by cases hunused
    · exact h i
  | exit p status =>
    obtain rfl := Option.some.inj hperform
    intro i
    by_cases hi : i = p
    · subst hi
      obtain ⟨parent, hself⟩ := exitProc_self s i status
      rw [hself]
      exact fun hunused ↦ by cases hunused
    · exact (h i).of_rehomed (rehomed_exitProc s status hi)
  | wait p copyoutFails =>
    obtain ⟨r, hscan, rfl⟩ := Option.map_eq_some_iff.mp hperform
    rcases wait_cases hscan with ⟨-, hr⟩ | ⟨pp, -, hr⟩
    · rwa [hr]
    · have hmerged := vacant_modify (f := addCounters (s.proc pp).sysCounter) h
        ((h p).of_eq id rfl)
      rw [hr]
      split_ifs
      · exact hmerged
      · exact vacant_modify hmerged (vacant_freeproc b _)
  | waitx p copyoutFails =>
    obtain ⟨r, hscan, rfl⟩ := Option.map_eq_some_iff.mp hperform
    rcases waitx_cases hscan with hr | ⟨pp, -, hr⟩ <;> rw [hr]
    · exact h
    · exact vacant_modify h (vacant_freeproc b _)
  | kill pid =>
    obtain rfl := Option.some.inj hperform
    unfold kill
    split
    · exact h
    · exact vacant_modify h (h _).killProc
  | settickets p number =>
    obtain rfl := Option.some.inj hperform
    unfold settickets
    split_ifs
    · exact h
    · dsimp only
      exact vacant_modify h ((h p).of_eq id rfl)

theorem vacant_userinit (b : Build) (i : Slot) : Vacant ((userinit b).proc i) := by
  intro hunused
  rw [userinit_state] at hunused
  split_ifs at hunused with hi
  simp only [userinit, allocproc, allocprocAt, findUnused_zeroed, reduceCtorEq, if_false]
  simp [zeroed, hi]

theorem vacant_of_reachable (hs : (lifecycle b).Reachable (fun _ _ ↦ True) s) :
    ∀ i, Vacant (s.proc i) :=
  hs.invariant (fun s ↦ ∀ i, Vacant (s.proc i)) (vacant_userinit b)
    fun _ _ _ h _ hnext ↦ vacant_next h hnext

/-! ## The effect of kill -/

def Named (s : State) (pid : Int32) (p : Slot) : Prop :=
  (s.proc p).state ≠ .unused ∧ (s.proc p).pid = pid

/-- `kill(pid)` returns 0 if there is a process with that pid, which it marks as killed and takes out
of its sleep, and otherwise returns -1 and changes nothing. -/
def KillsNamed (s : State) (pid : Int32) : Prop :=
  ((kill s pid).1 = 0 ↔ ∃ p, Named s pid p) ∧
  ((∃ p, Named s pid p) → ∃ p, Named s pid p ∧ (kill s pid).2 = s.modify p fun pr ↦
    { pr with
      killed := true
      state := if pr.state = .sleeping then .runnable else pr.state }) ∧
  ((¬∃ p, Named s pid p) → kill s pid = (-1, s))

theorem killProc_eq_self_iff :
    killProc pr = pr ↔ pr.killed = true ∧ pr.state ≠ .sleeping := by
  constructor
  · intro h
    refine ⟨(congrArg Proc.killed h).symm, fun hsleeping ↦ ?_⟩
    have hstate := congrArg Proc.state h
    simp [killProc, hsleeping] at hstate
  · rintro ⟨hkilled, hstate⟩
    rw [killProc, if_neg hstate, ← hkilled]

/-- `kill` does the same to two different slots only if it changes neither. -/
theorem modify_killProc_eq_iff {p q : Slot} (hne : p ≠ q) :
    s.modify p killProc = s.modify q killProc ↔
      killProc (s.proc p) = s.proc p ∧ killProc (s.proc q) = s.proc q := by
  constructor
  · intro h
    have hp := congrArg (fun t ↦ t.proc p) h
    have hq := congrArg (fun t ↦ t.proc q) h
    simp only [State.modify_proc, if_true, if_neg hne, if_neg hne.symm] at hp hq
    exact ⟨hp, hq.symm⟩
  · rintro ⟨hp, hq⟩
    rw [State.modify_eq_self s p killProc hp, State.modify_eq_self s q killProc hq]

/-- The slot `kill(pid)` stops at is in use, or there is nothing left to change in it and in a process
with that pid. -/
def StopsAtProcess (s : State) (pid : Int32) : Prop :=
  ∀ p, table.find? (fun q ↦ (s.proc q).pid = pid) = some p →
    (s.proc p).state ≠ .unused ∨
      (s.proc p).killed = true ∧
        ∃ q, Named s pid q ∧ (s.proc q).killed = true ∧ (s.proc q).state ≠ .sleeping

theorem killsNamed_iff_stops : KillsNamed s pid ↔ StopsAtProcess s pid := by
  unfold KillsNamed StopsAtProcess kill
  cases hfind : table.find? fun q ↦ (s.proc q).pid = pid with
  | none =>
    have hnone : ¬∃ p, Named s pid p := by
      rintro ⟨p, -, hp⟩
      have hne := List.find?_eq_none.mp hfind p (List.mem_finRange p)
      exact hne (decide_eq_true hp)
    simp [hnone]
  | some p =>
    have hpid : (s.proc p).pid = pid := by simpa using List.find?_some hfind
    constructor
    · rintro ⟨hret, heffect, -⟩ q hq
      obtain rfl := Option.some.inj hq
      obtain ⟨q, hnamed, hsame⟩ := heffect (hret.mp rfl)
      by_cases hpq : p = q
      · exact .inl (hpq ▸ hnamed.1)
      · obtain ⟨hp, hq⟩ := (modify_killProc_eq_iff hpq).mp hsame
        exact .inr ⟨(killProc_eq_self_iff.mp hp).1, q, hnamed, killProc_eq_self_iff.mp hq⟩
    · intro h
      by_cases hunused : (s.proc p).state = .unused
      · obtain ⟨hkilled, q, hnamed, hq⟩ := (h p rfl).resolve_left (not_not.mpr hunused)
        have hpq : p ≠ q := fun hpq ↦ hnamed.1 (hpq ▸ hunused)
        have hp : (s.proc p).state ≠ .sleeping := by
          rw [hunused]
          exact fun hstate ↦ by cases hstate
        refine ⟨iff_of_true rfl ⟨q, hnamed⟩, fun _ ↦ ⟨q, hnamed, ?_⟩,
          fun hnone ↦ absurd ⟨q, hnamed⟩ hnone⟩
        exact (modify_killProc_eq_iff hpq).mpr
          ⟨killProc_eq_self_iff.mpr ⟨hkilled, hp⟩, killProc_eq_self_iff.mpr hq⟩
      · have hnamed : Named s pid p := ⟨hunused, hpid⟩
        exact ⟨iff_of_true rfl ⟨p, hnamed⟩, fun _ ↦ ⟨p, hnamed, rfl⟩,
          fun hnone ↦ absurd ⟨p, hnamed⟩ hnone⟩

/-- In every run, for each pid: `kill` does what it should if the pid is not 0, and for pid 0 if it
does not stop at a free slot. -/
theorem kill_hits_named_iff (b : Build) (hs : (lifecycle b).Reachable (fun _ _ ↦ True) s)
    (pid : Int32) : KillsNamed s pid ↔ pid ≠ 0 ∨ StopsAtProcess s 0 := by
  rw [killsNamed_iff_stops]
  by_cases hpid : pid = 0
  · simp [hpid]
  · refine iff_of_true (fun p hfind ↦ .inl fun hunused ↦ ?_) (.inl hpid)
    have hp : (s.proc p).pid = pid := by simpa using List.find?_some hfind
    exact hpid (hp.symm.trans (vacant_of_reachable hs p hunused))

theorem kill_hits_named_first : KillsNamed (userinit .default) 1 :=
  (kill_hits_named_iff .default .start 1).mpr (.inl (by decide))

/-- `kill(0)` right after boot returns 0 and marks the first free slot. -/
theorem kill_zero_marks_free_slot :
    (lifecycle .default).Reachable (fun _ _ ↦ True) (userinit .default) ∧
      kill (userinit .default) 0 = (0, (userinit .default).modify 1 killProc) ∧
      ((userinit .default).proc 1).state = .unused ∧
      ((userinit .default).proc 1).killed = false ∧ ¬KillsNamed (userinit .default) 0 := by
  have hfind : table.find? (fun q ↦ ((userinit .default).proc q).pid = 0) = some 1 := by
    decide +kernel
  have hslot : ((userinit .default).proc 1).state = .unused ∧
      ((userinit .default).proc 1).killed = false := by
    decide +kernel
  refine ⟨.start, ?_, hslot.1, hslot.2, fun h ↦ ?_⟩
  · rw [kill, hfind]
  · rcases killsNamed_iff_stops.mp h 1 hfind with hused | ⟨hkilled, -⟩
    · exact hused hslot.1
    · rw [hslot.2] at hkilled
      cases hkilled

end EnhancedXv6.Lifecycle
