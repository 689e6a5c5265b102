import EnhancedXv6.ExitWait.Steps

/-!
# Parents

Every process but the first has a parent, and parents are alive.  `exit` gives the children away
before it ends the process, and no other process can make it a parent again.
-/

namespace EnhancedXv6.ExitWait

open Kernel Ownership Transition

variable {b : Build} {s s' : ExitState} {e : ExitEvent} {m : Move} {k k' : State} {p np pp : Slot}
  {pc : Slot → ProcPc} {pc' : ProcPc}

/-- How the processes of the table are related, with the program counters of their threads. -/
structure Family (k : State) (pc : Slot → ProcPc) : Prop where
  busy : ∀ p, pc p ≠ .out → stage (k.proc p).state = .live
  init : ∃ i, k.initproc = some i ∧ stage (k.proc i).state = .live
  exiting : ∀ p, (pc p).Exiting → k.initproc ≠ some p
  child : ∀ p np, (pc p).child = some np → stage (k.proc np).state = .used
  child_inj : ∀ p p' np, (pc p).child = some np → (pc p').child = some np → p = p'
  linked : ∀ p np, (pc p).linked = some np → (k.proc np).parent = some p
  raised : ∀ i, stage (k.proc i).state = .live ∨ stage (k.proc i).state = .zombie →
    k.initproc ≠ some i → (k.proc i).parent ≠ none
  home : ∀ i q, (k.proc i).parent = some q → stage (k.proc q).state = .live
  parted : ∀ p, Parted k p (pc p)

/-- What reparenting has achieved depends on the parents only. -/
theorem Parted.congr {c : ProcPc} (h : Parted k p c)
    (hparent : ∀ i, (k'.proc i).parent = some p → (k.proc i).parent = some p) :
    Parted k' p c := by
  cases c with
  | exitReparent status rest => exact fun i hi hp ↦ h i hi (hparent i hp)
  | exitInit status rest scan => exact fun i hi hp ↦ h i hi (hparent i hp)
  | exitParent status chan scan => exact fun i hp ↦ h i (hparent i hp)
  | exitLast status => exact fun i hp ↦ h i (hparent i hp)
  | _ => trivial

namespace Family

/-- A step that matters to the scheduler only. -/
theorem quiet (h : Family k pc) (honward : Onward k p (pc p) pc')
    (hsame : ∀ i, Same (k.proc i) (k'.proc i)) (hinit : k'.initproc = k.initproc) :
    Family k' (Function.update pc p pc') := by
  have hchild : ∀ i np, (Function.update pc p pc' i).child = some np →
      (pc i).child = some np := by
    intro i np hnp
    by_cases hi : i = p
    · subst hi
      exact honward.child np (by simpa using hnp)
    · simpa [hi] using hnp
  refine ⟨fun i hi ↦ ?_, ?_, fun i hi ↦ ?_, fun i np hnp ↦ ?_, fun i i' np hnp hnp' ↦ ?_,
    fun i np hnp ↦ ?_, fun i hi hne ↦ ?_, fun i q hq ↦ ?_, fun i ↦ ?_⟩
  · rw [(hsame i).stage]
    by_cases hip : i = p
    · subst hip
      rcases honward.busy (by simpa using hi) with hbusy | hrunning
      · exact h.busy i hbusy
      · rw [hrunning, stage]
    · exact h.busy i (by simpa [hip] using hi)
  · obtain ⟨i, hi, hlive⟩ := h.init
    exact ⟨i, hinit.trans hi, by rw [(hsame i).stage, hlive]⟩
  · rw [hinit]
    by_cases hip : i = p
    · subst hip
      exact (honward.exiting (by simpa using hi)).elim (h.exiting i) id
    · exact h.exiting i (by simpa [hip] using hi)
  · rw [(hsame np).stage]
    exact h.child i np (hchild i np hnp)
  · exact h.child_inj i i' np (hchild i np hnp) (hchild i' np hnp')
  · rw [(hsame np).parent]
    by_cases hip : i = p
    · subst hip
      exact h.linked i np (honward.linked np (by simpa using hnp))
    · exact h.linked i np (by simpa [hip] using hnp)
  · rw [(hsame i).parent]
    rw [(hsame i).stage] at hi
    exact h.raised i hi (hinit ▸ hne)
  · rw [(hsame q).stage]
    exact h.home i q ((hsame i).parent ▸ hq)
  · have hparted : Parted k i (Function.update pc p pc' i) := by
      by_cases hip : i = p
      · subst hip
        simpa using honward.parted (h.parted i)
      · simpa [hip] using h.parted i
    exact hparted.congr fun j hj ↦ (hsame j).parent ▸ hj

end Family

theorem ProcPc.child_of_linked {c : ProcPc} (h : c.linked = some np) : c.child = some np := by
  cases c <;> first | exact h | cases h

theorem parted_of_not_exiting {c : ProcPc} (h : ¬c.Exiting) : Parted k p c := by
  cases c <;> first | trivial | exact absurd trivial h

/-- What a step of `p` that changes slot `q` and moves `p` to `pc'` owes to the family. -/
structure Tends (k k' : State) (pc : Slot → ProcPc) (p q : Slot) (pc' : ProcPc) : Prop where
  others : ∀ i, i ≠ q → Same (k.proc i) (k'.proc i)
  initproc : k'.initproc = k.initproc
  busy : pc' ≠ .out → stage (k'.proc p).state = .live
  busy_slot : p ≠ q → pc q ≠ .out → stage (k'.proc q).state = .live
  init : k.initproc = some q → stage (k'.proc q).state = .live
  exiting : pc'.Exiting → k.initproc ≠ some p
  child : ∀ c, pc'.child = some c → stage (k'.proc c).state = .used ∧
    ∀ i, i ≠ p → (pc i).child ≠ some c
  child_slot : ∀ i, i ≠ p → (pc i).child = some q → stage (k'.proc q).state = .used
  linked : ∀ c, pc'.linked = some c → (k'.proc c).parent = some p
  linked_slot : ∀ i, i ≠ p → (pc i).linked = some q → (k'.proc q).parent = some i
  raised : stage (k'.proc q).state = .live ∨ stage (k'.proc q).state = .zombie →
    k.initproc ≠ some q → (k'.proc q).parent ≠ none
  home : ∀ r, (k'.proc q).parent = some r → stage (k'.proc r).state = .live
  home_slot : ∀ i, i ≠ q → (k.proc i).parent = some q → stage (k'.proc q).state = .live
  parted : Parted k' p pc'
  parted_slot : ∀ i, i ≠ p → (k'.proc q).parent = some i →
    (k.proc q).parent = some i ∨ ¬(pc i).Exiting

namespace Family

/-- A step that does for the family what it owes. -/
theorem tend {q : Slot} (h : Family k pc) (ht : Tends k k' pc p q pc') :
    Family k' (Function.update pc p pc') := by
  have hstage : ∀ i, i ≠ q → stage (k'.proc i).state = stage (k.proc i).state :=
    fun i hi ↦ (ht.others i hi).stage
  refine ⟨fun i hi ↦ ?_, ?_, fun i hi ↦ ?_, fun i c hc ↦ ?_, fun i i' c hc hc' ↦ ?_,
    fun i c hc ↦ ?_, fun i hi hne ↦ ?_, fun i r hr ↦ ?_, fun i ↦ ?_⟩
  · by_cases hip : i = p
    · subst hip
      exact ht.busy (by simpa using hi)
    · have hout : pc i ≠ .out := by simpa [hip] using hi
      by_cases hiq : i = q
      · subst hiq
        exact ht.busy_slot (Ne.symm hip) hout
      · rw [hstage i hiq]
        exact h.busy i hout
  · obtain ⟨i, hi, hlive⟩ := h.init
    refine ⟨i, ht.initproc.trans hi, ?_⟩
    by_cases hiq : i = q
    · subst hiq
      exact ht.init hi
    · rw [hstage i hiq, hlive]
  · rw [ht.initproc]
    by_cases hip : i = p
    · subst hip
      exact ht.exiting (by simpa using hi)
    · exact h.exiting i (by simpa [hip] using hi)
  · by_cases hip : i = p
    · subst hip
      exact (ht.child c (by simpa using hc)).1
    · have hc : (pc i).child = some c := by simpa [hip] using hc
      by_cases hcq : c = q
      · subst hcq
        exact ht.child_slot i hip hc
      · rw [hstage c hcq]
        exact h.child i c hc
  · by_cases hip : i = p <;> by_cases hip' : i' = p
    · rw [hip, hip']
    · exact absurd (by simpa [hip'] using hc') ((ht.child c (by simpa [hip] using hc)).2 i' hip')
    · exact absurd (by simpa [hip] using hc) ((ht.child c (by simpa [hip'] using hc')).2 i hip)
    · exact h.child_inj i i' c (by simpa [hip] using hc) (by simpa [hip'] using hc')
  · by_cases hip : i = p
    · subst hip
      exact ht.linked c (by simpa using hc)
    · have hc : (pc i).linked = some c := by simpa [hip] using hc
      by_cases hcq : c = q
      · subst hcq
        exact ht.linked_slot i hip hc
      · rw [(ht.others c hcq).parent]
        exact h.linked i c hc
  · rw [ht.initproc] at hne
    by_cases hiq : i = q
    · subst hiq
      exact ht.raised hi hne
    · rw [(ht.others i hiq).parent]
      exact h.raised i (by rwa [hstage i hiq] at hi) hne
  · by_cases hiq : i = q
    · subst hiq
      exact ht.home r hr
    · rw [(ht.others i hiq).parent] at hr
      by_cases hrq : r = q
      · subst hrq
        exact ht.home_slot i hiq hr
      · rw [hstage r hrq]
        exact h.home i r hr
  · by_cases hip : i = p
    · subst hip
      simpa using ht.parted
    · rw [Function.update_of_ne hip]
      by_cases hexiting : (pc i).Exiting
      · refine (h.parted i).congr fun j hj ↦ ?_
        by_cases hjq : j = q
        · subst hjq
          exact (ht.parted_slot i hip hj).resolve_right (absurd hexiting)
        · exact (ht.others j hjq).parent ▸ hj
      · exact parted_of_not_exiting hexiting

/-- A slot that `fork` takes belongs to nobody. -/
theorem ne_of_unused (h : Family k pc) (hunused : (k.proc np).state = .unused) :
    pc np = .out ∧ (∀ i, (pc i).child ≠ some np) ∧ (∀ i, (k.proc i).parent ≠ some np) ∧
      k.initproc ≠ some np := by
  have hstage : stage (k.proc np).state = .free := by rw [hunused, stage]
  refine ⟨?_, fun i hi ↦ ?_, fun i hi ↦ ?_, fun hinit ↦ ?_⟩
  · by_contra hout
    cases hstage.symm.trans (h.busy np hout)
  · cases hstage.symm.trans (h.child i np hi)
  · cases hstage.symm.trans (h.home i np hi)
  · obtain ⟨i, hi, hlive⟩ := h.init
    obtain rfl := Option.some.inj (hinit.symm.trans hi)
    cases hstage.symm.trans hlive

theorem alloc (h : Family k pc) (hrunning : (k.proc p).state = .running)
    (hunused : (k.proc np).state = .unused) :
    Family (forkAllocAt b k p np .ok) (Function.update pc p (.forkAllocated np)) := by
  obtain ⟨hout, hchild, hhome, hinit⟩ := h.ne_of_unused hunused
  have hp : p ≠ np := by
    rintro rfl
    simp [hrunning] at hunused
  have hstate : stage ((forkAllocAt b k p np .ok).proc np).state = .used := by
    rw [forkAllocAt_state, if_pos rfl, stage]
  have hparent : ((forkAllocAt b k p np .ok).proc np).parent = (k.proc np).parent := by
    rw [forkAllocAt_parent, if_pos rfl]
  refine h.tend (q := np) ⟨fun i hi ↦ ?_, forkAllocAt_initproc, fun _ ↦ ?_, fun _ h ↦ absurd hout h,
    fun h ↦ absurd h hinit, False.elim, fun c hc ↦ ?_, fun i _ h ↦ absurd h (hchild i), ?_,
    fun i _ hi ↦ absurd (ProcPc.child_of_linked hi) (hchild i), ?_, fun r hr ↦ ?_,
    fun i _ hi ↦ absurd hi (hhome i), trivial, fun i _ hi ↦ .inl (hparent ▸ hi)⟩
  · rw [forkAllocAt_proc_of_ne hi]
    exact .refl _
  · rw [forkAllocAt_proc_of_ne hp, hrunning, stage]
  · obtain rfl : np = c := by simpa [ProcPc.child] using hc
    exact ⟨hstate, fun i _ ↦ hchild i⟩
  · intro c hc
    cases hc
  · rw [hstate]
    simp
  · rw [hparent] at hr
    have hne : r ≠ np := fun hrnp ↦ hhome np (hrnp ▸ hr)
    rw [forkAllocAt_proc_of_ne hne]
    exact h.home np r hr

/-- A `fork` that fails gives the slot back. -/
theorem allocFails {outcome : AllocOutcome} (h : Family k pc) (hok : outcome ≠ .ok)
    (hunused : (k.proc np).state = .unused) :
    Family (forkAllocAt b k p np outcome) (Function.update pc p .out) := by
  obtain ⟨hout, hchild, hhome, hinit⟩ := h.ne_of_unused hunused
  have hstate : stage ((forkAllocAt b k p np outcome).proc np).state = .free := by
    rw [forkAllocAt_state, if_neg hok, stage]
  have hparent : ((forkAllocAt b k p np outcome).proc np).parent = none := by
    rw [forkAllocAt_parent, if_neg hok]
  refine h.tend (q := np) ⟨fun i hi ↦ ?_, forkAllocAt_initproc, fun h ↦ absurd rfl h,
    fun _ h ↦ absurd hout h, fun h ↦ absurd h hinit, False.elim, ?_,
    fun i _ h ↦ absurd h (hchild i), ?_,
    fun i _ hi ↦ absurd (ProcPc.child_of_linked hi) (hchild i), ?_, ?_,
    fun i _ hi ↦ absurd hi (hhome i), trivial, ?_⟩
  · rw [forkAllocAt_proc_of_ne hi]
    exact .refl _
  · intro c hc
    cases hc
  · intro c hc
    cases hc
  · rw [hstate]
    simp
  · rw [hparent]
    simp
  · rw [hparent]
    simp

theorem link (h : Family k pc) (hpc : pc p = .forkLocked np)
    (hrunning : (k.proc p).state = .running) :
    Family (k.modify np (setParent (some p))) (Function.update pc p (.forkLinked np)) := by
  have hmine : (pc p).child = some np := by rw [hpc, ProcPc.child]
  have hused := h.child p np hmine
  have hother : ∀ i, i ≠ p → (pc i).child ≠ some np :=
    fun i hi hchild ↦ hi (h.child_inj i p np hchild hmine)
  have hp : p ≠ np := by
    rintro rfl
    simp [hrunning, stage] at hused
  have hnew : (k.modify np (setParent (some p))).proc np = setParent (some p) (k.proc np) := by
    simp
  refine h.tend (q := np) ⟨fun i hi ↦ ?_, rfl, fun _ ↦ ?_, fun _ hout ↦ ?_, fun hinit ↦ ?_,
    False.elim, fun c hc ↦ ?_, fun i hi hc ↦ absurd hc (hother i hi), fun c hc ↦ ?_,
    fun i hi hc ↦ absurd (ProcPc.child_of_linked hc) (hother i hi), fun hstage ↦ ?_, fun r hr ↦ ?_,
    fun i _ hi ↦ ?_, trivial, fun i hi hparent ↦ ?_⟩
  · simpa [hi] using Same.refl (k.proc i)
  · simp [hp, hrunning, stage]
  · rw [hnew]
    exact h.busy np hout
  · obtain ⟨i, hi, hlive⟩ := h.init
    obtain rfl := Option.some.inj (hinit.symm.trans hi)
    rwa [hnew]
  · obtain rfl : np = c := by simpa [ProcPc.child] using hc
    rw [hnew]
    exact ⟨hused, hother⟩
  · obtain rfl : np = c := by simpa [ProcPc.linked] using hc
    rw [hnew]
    rfl
  · rw [hnew]
    simp [setParent]
  · rw [hnew] at hr
    obtain rfl := Option.some.inj hr
    simp [hp, hrunning, stage]
  · rw [hnew]
    exact h.home i np hi
  · rw [hnew] at hparent
    exact absurd (Option.some.inj hparent).symm hi

theorem publish (h : Family k pc) (hpc : pc p = .forkUnlocked np) :
    Family (ExitWait.publish k p np) (Function.update pc p .out) := by
  have hmine : (pc p).child = some np := by rw [hpc, ProcPc.child]
  have hother : ∀ i, i ≠ p → (pc i).child ≠ some np :=
    fun i hi hchild ↦ hi (h.child_inj i p np hchild hmine)
  have hparent : (k.proc np).parent = some p := h.linked p np (by rw [hpc, ProcPc.linked])
  have hnew : (ExitWait.publish k p np).proc np = setState .runnable (k.proc np) := by
    simp [ExitWait.publish]
  have hlive : stage ((ExitWait.publish k p np).proc np).state = .live := by
    rw [hnew]
    rfl
  have hothers : ∀ i, i ≠ np → (ExitWait.publish k p np).proc i = k.proc i := by
    intro i hi
    simp [ExitWait.publish, hi]
  refine h.tend (q := np) ⟨fun i hi ↦ ?_, rfl, fun h ↦ absurd rfl h, fun _ _ ↦ hlive,
    fun _ ↦ hlive, False.elim, ?_, fun i hi hc ↦ absurd hc (hother i hi), ?_,
    fun i hi hc ↦ absurd (ProcPc.child_of_linked hc) (hother i hi), fun _ _ ↦ ?_, fun r hr ↦ ?_,
    fun _ _ _ ↦ hlive, trivial, fun i _ hi ↦ .inl (by rwa [hnew] at hi)⟩
  · rw [hothers i hi]
    exact .refl _
  · intro c hc
    cases hc
  · intro c hc
    cases hc
  · simp [hnew, setState, hparent]
  · rw [hnew] at hr
    by_cases hrnp : r = np
    · rw [hrnp, hlive]
    · rw [hothers r hrnp]
      exact h.home np r hr

/-- `reparent` gives a child to the first process. -/
theorem adopt {status : Int32} {rest : List Slot} (h : Family k pc)
    (hpc : pc p = .exitReparent status (pp :: rest)) (hparent : (k.proc pp).parent = some p) :
    Family (k.modify pp (setParent k.initproc))
      (Function.update pc p (.exitInit status rest table)) := by
  have hexiting : k.initproc ≠ some p := h.exiting p (by rw [hpc]; trivial)
  have hstage : ∀ i, ((k.modify pp (setParent k.initproc)).proc i).state = (k.proc i).state := by
    intro i
    by_cases hi : i = pp <;> simp [hi, setParent]
  have hnew : ((k.modify pp (setParent k.initproc)).proc pp).parent = k.initproc := by
    simp [setParent]
  refine h.tend (q := pp) ⟨fun i hi ↦ ?_, rfl, fun _ ↦ ?_, fun _ hout ↦ ?_, fun hinit ↦ ?_,
    fun _ ↦ hexiting, ?_, fun i hi hc ↦ ?_, ?_, fun i hi hc ↦ ?_, fun _ _ ↦ ?_, fun r hr ↦ ?_,
    fun i _ hi ↦ ?_, fun j hj ↦ ?_, fun i hi hinit ↦ ?_⟩
  · simpa [hi] using Same.refl (k.proc i)
  · rw [hstage]
    exact h.busy p (by simp [hpc])
  · rw [hstage]
    exact h.busy pp hout
  · obtain ⟨i, hi, hlive⟩ := h.init
    obtain rfl := Option.some.inj (hinit.symm.trans hi)
    rwa [hstage]
  · intro c hc
    cases hc
  · rw [hstage]
    exact h.child i pp hc
  · intro c hc
    cases hc
  · exact absurd (Option.some.inj ((h.linked i pp hc).symm.trans hparent)) hi
  · obtain ⟨j, hj, -⟩ := h.init
    rw [hnew, hj]
    simp
  · obtain ⟨j, hj, hlive⟩ := h.init
    obtain rfl := Option.some.inj (hj.symm.trans (hnew.symm.trans hr))
    rwa [hstage]
  · rw [hstage]
    exact h.home i pp hi
  · have hparted := h.parted p
    rw [hpc] at hparted
    by_cases hjpp : j = pp
    · rwa [hjpp, hnew]
    · simpa [hjpp] using hparted j (by simp [hjpp, hj])
  · rw [hnew] at hinit
    exact .inr fun hi ↦ h.exiting i hi hinit

theorem die {status : Int32} {ticks : UInt32} (h : Family k pc) (hpc : pc p = .exitLast status) :
    Family (k.modify p (exitState status ticks)) (Function.update pc p .out) := by
  have hlive : stage (k.proc p).state = .live := h.busy p (by simp [hpc])
  have hexiting : k.initproc ≠ some p := h.exiting p (by rw [hpc]; trivial)
  have hchildless : ∀ i, (k.proc i).parent ≠ some p := by
    have hparted := h.parted p
    rwa [hpc] at hparted
  have hnew : (k.modify p (exitState status ticks)).proc p = exitState status ticks (k.proc p) := by
    simp
  refine h.tend (q := p) ⟨fun i hi ↦ ?_, rfl, fun h ↦ absurd rfl h, fun h ↦ absurd rfl h,
    fun hinit ↦ absurd hinit hexiting, False.elim, ?_, fun i _ hc ↦ ?_, ?_, fun i hi hc ↦ ?_,
    fun _ _ ↦ ?_, fun r hr ↦ ?_, fun i _ hi ↦ absurd hi (hchildless i), trivial,
    fun i _ hi ↦ .inl (by rwa [hnew] at hi)⟩
  · simpa [hi] using Same.refl (k.proc i)
  · intro c hc
    cases hc
  · cases hlive.symm.trans (h.child i p hc)
  · intro c hc
    cases hc
  · cases hlive.symm.trans (h.child i p (ProcPc.child_of_linked hc))
  · rw [hnew]
    exact h.raised p (.inl hlive) hexiting
  · rw [hnew] at hr
    have hne : r ≠ p := fun hrp ↦ hchildless p (hrp ▸ hr)
    simpa [hne] using h.home p r hr

theorem reap {x : Bool} (h : Family k pc) (hrunning : (k.proc p).state = .running)
    (hzombie : (k.proc pp).state = .zombie) :
    Family (ExitWait.reap b k p pp x false) (Function.update pc p .out) := by
  have hstage : stage (k.proc pp).state = .zombie := by rw [hzombie, stage]
  have hne : p ≠ pp := by
    rintro rfl
    simp [hrunning] at hzombie
  have hnew := reap_proc_child b k x hne
  have hparent : ((ExitWait.reap b k p pp x false).proc pp).parent = none := by
    rw [hnew]
    rfl
  have hinit : k.initproc ≠ some pp := by
    intro hinit
    obtain ⟨i, hi, hlive⟩ := h.init
    obtain rfl := Option.some.inj (hinit.symm.trans hi)
    cases hstage.symm.trans hlive
  refine h.tend (q := pp) ⟨fun i hi ↦ same_reap b k p x hi, reap_initproc b k p pp x false,
    fun h ↦ absurd rfl h, fun _ hout ↦ ?_, fun h ↦ absurd h hinit, False.elim, ?_, fun i _ hc ↦ ?_,
    ?_, fun i hi hc ↦ ?_, ?_, ?_, fun i _ hi ↦ ?_, trivial, ?_⟩
  · cases hstage.symm.trans (h.busy pp hout)
  · intro c hc
    cases hc
  · cases hstage.symm.trans (h.child i pp hc)
  · intro c hc
    cases hc
  · cases hstage.symm.trans (h.child i pp (ProcPc.child_of_linked hc))
  · rw [hnew]
    simp [freeproc, stage]
  · rw [hparent]
    simp
  · cases hstage.symm.trans (h.home i pp hi)
  · rw [hparent]
    simp

theorem does {note : Note} (h : Family k pc) (hdoes : Does b k p (pc p) m note) :
    Family m.kernel (Function.update pc p m.pc) := by
  generalize hpc : pc p = c at hdoes
  cases hdoes with
  | quiet honward hsame _ hinit => exact h.quiet (hpc ▸ honward) hsame hinit
  | alloc hrunning hunused => exact h.alloc hrunning hunused
  | allocFails hok hunused => exact h.allocFails hok hunused
  | link hrunning => exact h.link hpc hrunning
  | publish => exact h.publish hpc
  | adopt hparent => exact h.adopt hpc hparent
  | die => exact h.die hpc
  | reap hrunning _ hzombie => exact h.reap hrunning hzombie

end Family

theorem userinit_parent (b : Build) (i : Slot) : ((userinit b).proc i).parent = none := by
  simp only [userinit, allocproc, allocprocAt, findUnused_zeroed, reduceCtorEq, if_false]
  by_cases hi : i = 0
  · simp [allocprocReady, allocprocFound, zeroed, hi]
  · simp [zeroed, hi]

theorem userinit_initproc (b : Build) : (userinit b).initproc = some 0 := by
  simp only [userinit, allocproc, allocprocAt, findUnused_zeroed, reduceCtorEq, if_false]

theorem family_userinit (b : Build) : Family (userinit b) fun _ ↦ .out := by
  have hstage : ∀ i, stage ((userinit b).proc i).state = if i = 0 then .live else .free := by
    intro i
    rw [userinit_state]
    split <;> rfl
  refine ⟨fun p h ↦ absurd rfl h, ⟨0, userinit_initproc b, by simp [hstage]⟩,
    fun p h ↦ h.elim, fun p np h ↦ ?_, fun p p' np h ↦ ?_, fun p np h ↦ ?_, fun i hi hne ↦ ?_,
    fun i q h ↦ ?_, fun p ↦ trivial⟩
  · cases h
  · cases h
  · cases h
  · rw [userinit_initproc] at hne
    have hi0 : i ≠ 0 := fun h ↦ hne (by rw [h])
    simp [hstage, hi0] at hi
  · simp [userinit_parent] at h

end EnhancedXv6.ExitWait
