import EnhancedXv6.Mlfq.Refinement

/-!
# Promotion

The aging loop of `usertrap` is meant to take a process that has waited for 48 ticks out of its queue
and to move it up a level.  Its inner loops walk a `struct proc *` through the process table where a
queue position was meant: the process is never removed from its queue, and when the last slot of the
array holds a stale pointer, entries of the process table are copied over their neighbours, the promoted
one first.
-/

namespace EnhancedXv6.Mlfq

open Kernel Buffer Fallible

variable {s s' t : State} {xs : Fin queueSize → List Slot} {c : Slot}

def Promotes (s : State) (c : Slot) : Prop :=
  (s.proc c).statusQueue = true ∧ (s.proc c).state = .runnable ∧ (s.proc c).waitTicks ≥ 48

def promote (pr : Proc) : Proc :=
  { pr with
    statusQueue := false
    priorityQueueNumber := if pr.priorityQueueNumber > 0 then pr.priorityQueueNumber - 1
      else pr.priorityQueueNumber
    waitTicks := 0 }

/-- Process `c` was promoted and nothing else happened: it left the queue of its level, in which the
others keep their order. -/
structure PromotedOnly (s : State) (xs : Fin queueSize → List Slot) (c : Slot) (s' : State) :
    Prop where
  removed : ∀ q : Fin queueSize, (s.proc c).priorityQueueNumber = q →
    Represents (s'.queue q) ((xs q).erase c)
  queues : ∀ q : Fin queueSize, (s.proc c).priorityQueueNumber ≠ q → s'.queue q = s.queue q
  promoted : s'.proc c = promote (s.proc c)
  others : ∀ i, i ≠ c → s'.proc i = s.proc i

/-! ## The queues -/

theorem agingCopy_queue {fuel newproc : ℕ} (hcopy : agingCopy c fuel newproc s = .ok t) :
    t.queue = s.queue := by
  induction fuel generalizing s newproc with
  | zero =>
    cases hcopy
    rfl
  | succ fuel ih =>
    obtain ⟨q, -, hrest⟩ := bind_eq_ok.mp hcopy
    obtain ⟨bound, -, hloop⟩ := bind_eq_ok.mp hrest
    cases bound with
    | none =>
      cases hloop
      rfl
    | some u =>
      dsimp only at hloop
      split at hloop
      · exact (ih hloop).trans rfl
      · cases hloop
        rfl

theorem agingEnd_tail (hend : agingEnd c t = .ok s') (q : Fin queueSize) :
    (s'.queue q).tail = (t.queue q).tail ∧ (s'.queue q).length = (t.queue q).length := by
  obtain ⟨q', -, hrest⟩ := bind_eq_ok.mp hend
  obtain ⟨a, -, hpure⟩ := bind_eq_ok.mp hrest
  cases hpure
  by_cases hq : q = q'
  · subst hq
    simp
  · simp [hq]

theorem agingStep_eq {q : Fin queueSize} (hc : Promotes s c)
    (hlevel : (s.proc c).priorityQueueNumber = q) :
    agingStep s c = agingWalk c (s.modify c fun pr ↦ { pr with statusQueue := false })
      (s.queue q).mlfqQueue[0] (s.queue q).mlfqQueue[63] >>= agingEnd c := by
  obtain ⟨hstatus, hrunnable, hwait⟩ := hc
  have hlevel' : ((s.modify c fun pr ↦ { pr with statusQueue := false }).proc c).priorityQueueNumber
      = q := by simpa using hlevel
  have hfront : readAt (s.queue q).mlfqQueue 0 = .ok (s.queue q).mlfqQueue[0] :=
    readAt_natCast _ (by decide)
  have hlast : readAt (s.queue q).mlfqQueue ((NPROC - 1 : ℕ) : ℤ) =
      .ok (s.queue q).mlfqQueue[63] := readAt_natCast _ (by decide)
  rw [agingStep, if_pos ⟨hstatus, hrunnable, hwait⟩]
  dsimp only
  rw [hlevel', queueIndex_val, ok_bind, State.modify_queue, hfront, hlast]
  rfl

theorem agingWalk_queue {front last : Option Slot} (hwalk : agingWalk c s front last = .ok t) :
    t.queue = s.queue := by
  cases front with
  | some f => exact agingCopy_queue hwalk
  | none =>
    cases last with
    | none =>
      cases hwalk
      rfl
    | some u =>
      simp only [agingWalk] at hwalk
      split at hwalk
      · cases hwalk
      · cases hwalk
        rfl

theorem agingStep_tail (hc : Promotes s c) (hlevel : (s.proc c).priorityQueueNumber < queueSize)
    (hstep : agingStep s c = .ok s') (q : Fin queueSize) :
    (s'.queue q).tail = (s.queue q).tail ∧ (s'.queue q).length = (s.queue q).length := by
  rw [agingStep_eq (q := ⟨_, hlevel⟩) hc rfl] at hstep
  obtain ⟨t, hwalk, hend⟩ := bind_eq_ok.mp hstep
  have hqueue : t.queue = s.queue := (agingWalk_queue hwalk).trans (State.modify_queue _ _ _)
  rw [← hqueue]
  exact agingEnd_tail hend q

theorem Listed.not_promotedOnly (hs : Listed s xs) (hc : Promotes s c)
    (hlevel : (s.proc c).priorityQueueNumber < queueSize) (hstep : agingStep s c = .ok s') :
    ¬ PromotedOnly s xs c s' := by
  intro honly
  have hmem : c ∈ xs ⟨_, hlevel⟩ := (hs.mem_iff c ⟨_, hlevel⟩).mpr ⟨hc.1, rfl⟩
  have htail := (honly.removed ⟨_, hlevel⟩ rfl).tail
  rw [(agingStep_tail hc hlevel hstep _).1, (hs.rep _).tail, List.length_erase_of_mem hmem] at htail
  have hpos := List.length_pos_of_mem hmem
  omega

/-- In coherent queues the body of the aging loop promotes a process and does nothing else only when
it promotes nobody: it never removes a process from its queue. -/
theorem promotedOnly_iff (hs : Listed s xs)
    (hlevel : (s.proc c).priorityQueueNumber < queueSize) :
    (Promotes s c → ∃ s', agingStep s c = .ok s' ∧ PromotedOnly s xs c s') ↔ ¬ Promotes s c := by
  constructor
  · intro heffect hc
    obtain ⟨s', hstep, honly⟩ := heffect hc
    exact hs.not_promotedOnly hc hlevel hstep honly
  · exact fun hnot hc ↦ absurd hc hnot

theorem promotedOnly_iff_aged :
    Promotes aged 0 ∧
      ((Promotes aged 0 → ∃ s', agingStep aged 0 = .ok s' ∧
        PromotedOnly aged (Function.update (fun _ ↦ []) 1 [0]) 0 s') ↔ ¬ Promotes aged 0) :=
  ⟨⟨rfl, rfl, by decide⟩, promotedOnly_iff listed_aged (by decide)⟩

set_option maxRecDepth 100000 in
/-- The process stays in queue 1, and its entry of the process table becomes a copy of the next
one. -/
theorem promotion_overwrites_process :
    Listed aged (Function.update (fun _ ↦ []) 1 [0]) ∧ Promotes aged 0 ∧
    ∃ s', agingStep aged 0 = .ok s' ∧ (s'.queue 1).tail = 1 ∧ (s'.queue 1).mlfqQueue[0] = some 0 ∧
      (aged.proc 0).pid = 1 ∧ (s'.proc 0).pid = 2 ∧
      ¬ PromotedOnly aged (Function.update (fun _ ↦ []) 1 [0]) 0 s' := by
  have hc : Promotes aged 0 := ⟨rfl, rfl, by decide⟩
  have hrun : (agingStep aged 0).toOption.map (fun s' ↦
      ((s'.queue 1).tail, (s'.queue 1).mlfqQueue[0], (s'.proc 0).pid)) =
        some (1, some 0, 2) := by decide +kernel
  obtain ⟨s', hs', hfields⟩ := Option.map_eq_some_iff.mp hrun
  have hstep : agingStep aged 0 = .ok s' := by
    cases hresult : agingStep aged 0 with
    | error f => simp [hresult, Except.toOption] at hs'
    | ok t => simpa [hresult, Except.toOption] using hs'
  simp only [Prod.mk.injEq] at hfields
  exact ⟨listed_aged, hc, s', hstep, hfields.1, hfields.2.1, rfl, hfields.2.2,
    listed_aged.not_promotedOnly hc (by decide) hstep⟩

end EnhancedXv6.Mlfq
