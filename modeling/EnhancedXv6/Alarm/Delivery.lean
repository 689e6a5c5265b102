import EnhancedXv6.Kernel.Syscall

/-!
# Delivery of an alarm when memory runs out

The alarm code of `usertrap` and `sys_sigreturn` statement by statement, on the pages that hold the
trapframes.  `kalloc` takes a page off the free list or returns 0, and the code copies the frame
without looking.  Read as a process with its frames, this is `Kernel.alarmTick` and
`Kernel.sysSigreturn`.
-/

namespace EnhancedXv6.Alarm

open Kernel Trap

/-! ## Pages -/

abbrev Page := UInt64

/-- The free list, and the pages read as `struct trapframe`. -/
structure Kmem where
  freelist : List Page
  frame : Page → Trapframe

/-- A page filled with one byte. -/
def filled (byte : UInt64) : Trapframe :=
  ⟨fun _ ↦ byte * 0x0101010101010101⟩

namespace Kmem

def kalloc (m : Kmem) : Option Page × Kmem :=
  match m.freelist with
  | [] => (none, m)
  | r :: next => (some r, ⟨next, Function.update m.frame r (filled 5)⟩)

def kfree (m : Kmem) (pa : Page) : Kmem :=
  ⟨pa :: m.freelist, Function.update m.frame pa (filled 1)⟩

/-- `memmove(dst, src, sizeof(struct trapframe))`; the kernel has nothing mapped at address 0. -/
def memmove (m : Kmem) (dst : Option Page) (src : Page) : Except Fault Kmem :=
  match dst with
  | none => .error .nullFrame
  | some pa => .ok { m with frame := Function.update m.frame pa (m.frame src) }

def setEpc (m : Kmem) (tf : Page) (epc : UInt64) : Kmem :=
  { m with frame := Function.update m.frame tf ((m.frame tf).setField .epc epc) }

end Kmem

/-! ## The code -/

/-- The fields of `struct proc` that the alarm code uses, with its pointers to frames. -/
structure Task where
  ticksOfAlarm : Int32
  currentTicks : Int32
  handlingAlarm : UInt64
  alarmStatus : Bool
  trapframe : Page
  trapframeAlarm : Option Page

def alarmCode (t : Task) (m : Kmem) : Except Fault (Task × Kmem) :=
  if t.ticksOfAlarm > 0 ∧ t.alarmStatus = false then
    let t := { t with currentTicks := t.currentTicks + 1 }
    if t.currentTicks ≥ t.ticksOfAlarm then do
      let t := { t with currentTicks := 0 }
      let (pa, m) := m.kalloc
      let t := { t with trapframeAlarm := pa }
      let m ← m.memmove t.trapframeAlarm t.trapframe
      let m := m.setEpc t.trapframe t.handlingAlarm
      pure ({ t with alarmStatus := true }, m)
    else pure (t, m)
  else pure (t, m)

/-- `sys_sigreturn()`, apart from the value it returns. -/
def sigreturn (t : Task) (m : Kmem) : Task × Kmem :=
  match t.trapframeAlarm with
  | none => (t, m)
  | some pa =>
    let m := { m with frame := Function.update m.frame t.trapframe (m.frame pa) }
    ({ t with trapframeAlarm := none, alarmStatus := false }, m.kfree pa)

variable {t : Task} {m : Kmem}

/-- An alarm is due: the handler is to be entered at this interrupt. -/
def Due (t : Task) : Prop :=
  t.ticksOfAlarm > 0 ∧ t.alarmStatus = false ∧ t.currentTicks + 1 ≥ t.ticksOfAlarm

/-- The memory after a delivery that got the page `pa`. -/
def delivered (t : Task) (m : Kmem) (pa : Page) (next : List Page) : Kmem :=
  ({ freelist := next, frame := Function.update m.frame pa (m.frame t.trapframe) } : Kmem).setEpc
    t.trapframe t.handlingAlarm

theorem alarmCode_cons (hdue : Due t) {pa : Page} {next : List Page}
    (hfree : m.freelist = pa :: next) (hpage : pa ≠ t.trapframe) :
    alarmCode t m = .ok ({ t with
      currentTicks := 0, trapframeAlarm := some pa, alarmStatus := true }, delivered t m pa next) := by
  obtain ⟨hset, hidle, hover⟩ := hdue
  have hkalloc : m.kalloc = (some pa, ⟨next, Function.update m.frame pa (filled 5)⟩) := by
    rw [Kmem.kalloc, hfree]
  simp only [alarmCode, hset, hidle, hover, hkalloc, and_self, if_true, Kmem.memmove,
    Function.update_of_ne hpage.symm, Function.update_idem]
  rfl

theorem alarmCode_nil (hdue : Due t) (hfree : m.freelist = []) :
    alarmCode t m = .error .nullFrame := by
  obtain ⟨hset, hidle, hover⟩ := hdue
  have hkalloc : m.kalloc = (none, m) := by rw [Kmem.kalloc, hfree]
  simp only [alarmCode, hset, hidle, hover, hkalloc, and_self, if_true, Kmem.memmove]
  rfl

/-! ## The same on processes -/

theorem delivered_frame {pa : Page} (next : List Page) (hpage : pa ≠ t.trapframe) :
    (delivered t m pa next).frame pa = m.frame t.trapframe ∧
      (delivered t m pa next).frame t.trapframe =
        (m.frame t.trapframe).setField .epc t.handlingAlarm := by
  simp [delivered, Kmem.setEpc, hpage, hpage.symm]

/-- A process with the alarm fields of the task, and with the frames that its pointers lead to. -/
def Task.proc (t : Task) (m : Kmem) (pr : Proc) : Proc :=
  { pr with
    ticksOfAlarm := t.ticksOfAlarm
    currentTicks := t.currentTicks
    handlingAlarm := t.handlingAlarm
    alarmStatus := t.alarmStatus
    trapframe := m.frame t.trapframe
    trapframeAlarm := t.trapframeAlarm.map m.frame }

/-- The alarm code on pages is the alarm code on the process. -/
theorem alarmCode_proc (hpage : t.trapframe ∉ m.freelist) (pr : Proc) :
    (alarmCode t m).map (fun r ↦ r.1.proc r.2 pr) =
      alarmTick (t.proc m pr) (decide (m.freelist ≠ [])) := by
  by_cases hset : t.ticksOfAlarm > 0 ∧ t.alarmStatus = false
  · by_cases hover : t.currentTicks + 1 ≥ t.ticksOfAlarm
    · cases hfree : m.freelist with
      | nil =>
        rw [alarmCode_nil ⟨hset.1, hset.2, hover⟩ hfree]
        simp [alarmTick, Task.proc, hset, hover, Except.map]
      | cons pa next =>
        have hne : pa ≠ t.trapframe := by
          rintro rfl
          exact hpage (hfree ▸ List.mem_cons_self)
        obtain ⟨hcopy, hepc⟩ := delivered_frame (m := m) next hne
        rw [alarmCode_cons ⟨hset.1, hset.2, hover⟩ hfree hne]
        simp [alarmTick, Task.proc, hset, hover, Except.map, hcopy, hepc]
    · simp [alarmCode, alarmTick, Task.proc, hset, hover, Except.map]
  · simp [alarmCode, alarmTick, Task.proc, hset, Except.map]

/-- And so is the return from a handler, whose frame is saved in another page. -/
theorem sigreturn_proc (hpage : t.trapframeAlarm ≠ some t.trapframe) (pr : Proc) :
    (sigreturn t m).1.proc (sigreturn t m).2 pr = (sysSigreturn (t.proc m pr)).2 := by
  cases hsaved : t.trapframeAlarm with
  | none => simp [sigreturn, sysSigreturn, Task.proc, hsaved]
  | some pa =>
    have hne : t.trapframe ≠ pa := fun h ↦ hpage (h ▸ hsaved)
    simp [sigreturn, sysSigreturn, Task.proc, hsaved, Kmem.kfree, hne]

/-! ## All or nothing -/

/-- The alarm was delivered: the frame of the interrupted program is saved in a page that was free,
the handler is entered, and `sigreturn` brings the frame back. -/
structure Delivered (t : Task) (m : Kmem) (t' : Task) (m' : Kmem) : Prop where
  saved : ∃ pa, t'.trapframeAlarm = some pa ∧ m.freelist = pa :: m'.freelist ∧
    pa ≠ t.trapframe ∧ m'.frame pa = m.frame t.trapframe ∧
    ∀ other, other ≠ pa → other ≠ t.trapframe → m'.frame other = m.frame other
  entered : t'.trapframe = t.trapframe ∧
    m'.frame t.trapframe = (m.frame t.trapframe).setField .epc t.handlingAlarm ∧
    t'.alarmStatus = true
  restored : (sigreturn t' m').1.alarmStatus = false ∧
    (sigreturn t' m').1.trapframeAlarm = none ∧ (sigreturn t' m').2.freelist = m.freelist ∧
    (sigreturn t' m').2.frame t.trapframe = m.frame t.trapframe

/-- The alarm was put off: frame, status and saved frame are as they were. -/
structure PutOff (t : Task) (m : Kmem) (t' : Task) (m' : Kmem) : Prop where
  trapframe : t'.trapframe = t.trapframe ∧ m'.frame = m.frame
  alarmStatus : t'.alarmStatus = t.alarmStatus
  trapframeAlarm : t'.trapframeAlarm = t.trapframeAlarm

/-- The alarm code writes through no null pointer, and delivers the alarm or puts it off. -/
def AllOrNothing (t : Task) (m : Kmem) : Prop :=
  ∃ t' m', alarmCode t m = .ok (t', m') ∧ (Delivered t m t' m' ∨ PutOff t m t' m')

theorem not_allOrNothing_nil (hdue : Due t) (hfree : m.freelist = []) : ¬ AllOrNothing t m := by
  rintro ⟨t', m', hrun, -⟩
  rw [alarmCode_nil hdue hfree] at hrun
  cases hrun

/-- The delivery of an alarm that is due is atomic if and only if the free list has a page. -/
theorem allOrNothing_iff (hdue : Due t) (hpage : t.trapframe ∉ m.freelist) :
    AllOrNothing t m ↔ m.freelist ≠ [] := by
  constructor
  · exact fun hatomic hfree ↦ not_allOrNothing_nil hdue hfree hatomic
  · intro hfree
    obtain ⟨pa, next, hcons⟩ := List.exists_cons_of_ne_nil hfree
    have hne : pa ≠ t.trapframe := by
      rintro rfl
      exact hpage (hcons ▸ List.mem_cons_self)
    obtain ⟨hcopy, hepc⟩ := delivered_frame (m := m) next hne
    refine ⟨_, _, alarmCode_cons hdue hcons hne, .inl ⟨⟨pa, rfl, hcons, hne, hcopy, ?_⟩,
      ⟨rfl, hepc, rfl⟩, rfl, rfl, hcons.symm, ?_⟩⟩
    · intro other hpa htrapframe
      simp [delivered, Kmem.setEpc, hpa, htrapframe]
    · simp [sigreturn, Kmem.kfree, hne.symm, hcopy]

def dueTask : Task :=
  { ticksOfAlarm := 2, currentTicks := 1, handlingAlarm := 0x100, alarmStatus := false,
    trapframe := 0x87f00000, trapframeAlarm := none }

theorem allOrNothing_iff_onePage :
    (Due dueTask ∧ dueTask.trapframe ∉ [(0x87e00000 : Page)]) ∧
      (AllOrNothing dueTask ⟨[0x87e00000], fun _ ↦ .zero⟩ ↔ [(0x87e00000 : Page)] ≠ []) :=
  ⟨⟨⟨by decide, rfl, by decide⟩, by decide⟩,
    allOrNothing_iff (m := ⟨[0x87e00000], fun _ ↦ .zero⟩) ⟨by decide, rfl, by decide⟩ (by decide)⟩

/-- With an empty free list the frame is copied to address 0. -/
theorem frame_copied_to_null :
    Due dueTask ∧ alarmCode dueTask ⟨[], fun _ ↦ .zero⟩ = .error .nullFrame ∧
      ¬ AllOrNothing dueTask ⟨[], fun _ ↦ .zero⟩ := by
  have hdue : Due dueTask := ⟨by decide, rfl, by decide⟩
  exact ⟨hdue, alarmCode_nil hdue rfl, not_allOrNothing_nil hdue rfl⟩

end EnhancedXv6.Alarm
