import EnhancedXv6.Kernel.Syscall
import EnhancedXv6.Lifecycle.Frames
import Mathlib.Data.UInt

/-!
# System-call counters

`syscall()` counts the calls of a process in `sysCounter`, `wait` adds the counters of the child it
finds, and `sys_getSysCount` adds those of the exited children that are still in the table.  A
history variable keeps what the counters should hold.  They do hold it, unless a `wait` that found
an exited child fails to store its status: the child's counters are then added and it stays.
-/

namespace EnhancedXv6.Lifecycle

open Kernel Transition

variable {b : Build} {s s' : State} {e : LifeEvent} {p np : Slot}

/-! ## What should be counted -/

structure Tally where
  /-- the calls each process has completed since its creation -/
  own : Slot → Fin 32 → ℕ
  /-- the counters that each exited process had at its exit -/
  atExit : Slot → Fin 32 → UInt64
  /-- for each process, the counters at their exit of the children whose pid `wait` returned -/
  reaped : Slot → List (Fin 32 → UInt64)

def Tally.record (r : Tally) (s : State) : LifeEvent → Tally
  | .complete p num =>
    { r with own := Function.update r.own p (Function.update (r.own p) num (r.own p num + 1)) }
  | .forkAlloc _ np _ =>
    { r with
      own := Function.update r.own np fun _ ↦ 0
      reaped := Function.update r.reaped np [] }
  | .exit p _ => { r with atExit := Function.update r.atExit p (s.proc p).sysCounter }
  | .wait p false =>
    match findZombie s p with
    | none => r
    | some pp => { r with reaped := Function.update r.reaped p (r.atExit pp :: r.reaped p) }
  | _ => r

/-- The calls with number `k` of process `p` itself and of the children it has reaped. -/
def Tally.counted (r : Tally) (p : Slot) (k : Fin 32) : UInt64 :=
  UInt64.ofNat (r.own p k) + ((r.reaped p).map fun counters ↦ counters k).sum

def tallied (b : Build) : System (State × Tally) LifeEvent :=
  (lifecycle b).withHistory ⟨fun _ _ ↦ 0, fun _ _ ↦ 0, fun _ ↦ []⟩ fun r s e _ ↦ r.record s e

/-- A `wait` whose `copyout` fails has not found an exited child. -/
def MergesOnce (o : State × Tally) : LifeEvent → Prop
  | .wait p true => findZombie o.1 p = none
  | _ => True

/-! ## The counters -/

theorem record_of_quiet (r : Tally) (hquiet : Quiet e = true) : r.record s e = r := by
  cases e <;> first | rfl | cases hquiet

structure TallyInv (s : State) (r : Tally) : Prop where
  forking : Forking s
  counters : ∀ p, (s.proc p).state ≠ .unused → ∀ k, (s.proc p).sysCounter k = r.counted p k
  atExit : ∀ p, (s.proc p).state = .zombie → r.atExit p = (s.proc p).sysCounter

variable {r : Tally}

theorem TallyInv.settled (hinv : TallyInv s r) (hforking : Forking s')
    (hsettled : ∀ i, Settled (s.proc i) (s'.proc i)) : TallyInv s' r where
  forking := hforking
  counters p hp k := by
    rw [(hsettled p).counters]
    exact hinv.counters p (fun h ↦ hp ((hsettled p).unused h)) k
  atExit p hp := by
    rw [(hsettled p).counters]
    exact hinv.atExit p ((hsettled p).zombie hp)

theorem counted_complete (num i : Fin 32) :
    (r.record s (.complete p num)).counted p i =
      (countCall num { s.proc p with sysCounter := r.counted p }).sysCounter i := by
  by_cases hi : i = num
  · subst hi
    simp only [Tally.counted, Tally.record, Function.update_self, countCall, if_true,
      UInt64.ofNat_add]
    ac_rfl
  · simp [Tally.counted, Tally.record, countCall, hi]

theorem counted_reap {pp : Slot} (hfind : findZombie s p = some pp) (k : Fin 32) :
    (r.record s (.wait p false)).counted p k = r.counted p k + r.atExit pp k := by
  simp only [Tally.counted, Tally.record, hfind, Function.update_self, List.map_cons, List.sum_cons]
  ac_rfl

/-- A step whose record is about slot `q` only. -/
theorem TallyInv.around {r' : Tally} (hinv : TallyInv s r) (q : Slot) (hforking : Forking s')
    (hothers : ∀ i, i ≠ q → Settled (s.proc i) (s'.proc i))
    (hrecord : ∀ i, i ≠ q → r'.counted i = r.counted i ∧ r'.atExit i = r.atExit i)
    (hcounters : (s'.proc q).state ≠ .unused → ∀ k, (s'.proc q).sysCounter k = r'.counted q k)
    (hatExit : (s'.proc q).state = .zombie → r'.atExit q = (s'.proc q).sysCounter) :
    TallyInv s' r' := by
  refine ⟨hforking, fun i hi k ↦ ?_, fun i hi ↦ ?_⟩ <;> by_cases hiq : i = q
  · subst hiq
    exact hcounters hi k
  · rw [(hothers i hiq).counters, (hrecord i hiq).1]
    exact hinv.counters i (fun h ↦ hi ((hothers i hiq).unused h)) k
  · subst hiq
    exact hatExit hi
  · rw [(hothers i hiq).counters, (hrecord i hiq).2]
    exact hinv.atExit i ((hothers i hiq).zombie hi)

theorem TallyInv.complete {num : Fin 32} (hinv : TallyInv s r)
    (hforking : Forking (s.modify p (countCall num))) (hrunning : (s.proc p).state = .running) :
    TallyInv (s.modify p (countCall num)) (r.record s (.complete p num)) := by
  refine hinv.around p hforking (fun i hi ↦ ?_) (fun i hi ↦ ?_) (fun _ k ↦ ?_) fun h ↦ ?_
  · simpa [hi] using Settled.refl (s.proc i)
  · exact ⟨by funext k; simp [Tally.counted, Tally.record, hi], rfl⟩
  · have hcounted := funext (hinv.counters p (by simp [hrunning]))
    rw [counted_complete, ← hcounted]
    simp
  · simp [countCall, hrunning] at h

theorem TallyInv.forkAlloc (hinv : TallyInv s r) (outcome : AllocOutcome)
    (hforking : Forking (forkAllocAt b s p np outcome)) :
    TallyInv (forkAllocAt b s p np outcome) (r.record s (.forkAlloc p np outcome)) := by
  refine hinv.around np hforking (fun i hi ↦ ?_) (fun i hi ↦ ?_) (fun _ k ↦ ?_) fun h ↦ ?_
  · rw [forkAllocAt_proc_of_ne hi]
    exact .refl _
  · exact ⟨by funext k; simp [Tally.counted, Tally.record, hi], rfl⟩
  · simp [forkAllocAt_sysCounter, Tally.counted, Tally.record]
  · rw [forkAllocAt_state] at h
    split_ifs at h

theorem TallyInv.forkPublish (hinv : TallyInv s r) (hforking : Forking (forkPublish s p)) :
    TallyInv (forkPublish s p) r := by
  cases hnp : s.forkChild p with
  | none => simpa [Kernel.forkPublish, hnp] using hinv
  | some np =>
    have hused := hinv.forking.child p np hnp
    refine hinv.around np hforking (fun i hi ↦ ?_) (fun i _ ↦ ⟨rfl, rfl⟩) (fun _ k ↦ ?_)
      fun h ↦ ?_
    · simpa [forkPublish_proc, hnp, Ne.symm hi] using Settled.refl (s.proc i)
    · simpa [forkPublish_proc, hnp] using hinv.counters np (by simp [hused]) k
    · simp [forkPublish_proc, hnp] at h

theorem TallyInv.exit {status : Int32} (hinv : TallyInv s r)
    (hforking : Forking (exitProc s p status)) (hrunning : (s.proc p).state = .running) :
    TallyInv (exitProc s p status) (r.record s (.exit p status)) := by
  obtain ⟨parent, hself⟩ := exitProc_self s p status
  refine hinv.around p hforking (fun i hi ↦ ?_) (fun i hi ↦ ⟨rfl, by simp [Tally.record, hi]⟩)
    (fun _ k ↦ ?_) fun _ ↦ ?_
  · exact (Untouched.of_rehomed (rehomed_exitProc s status hi)).toSettled
  · rw [hself]
    exact hinv.counters p (by simp [hrunning]) k
  · simp [hself, Tally.record, closeFiles]

theorem TallyInv.wait {copyoutFails : Bool} {x : Int32 × State} (hinv : TallyInv s r)
    (hforking : Forking x.2) (hrunning : (s.proc p).state = .running)
    (hmerges : MergesOnce (s, r) (.wait p copyoutFails))
    (hscan : wait b s p copyoutFails = some x) :
    TallyInv x.2 (r.record s (.wait p copyoutFails)) := by
  rcases wait_cases hscan with ⟨hfind, hx⟩ | ⟨pp, hfind, hx⟩
  · rw [hx]
    cases copyoutFails <;> simpa [Tally.record, hfind] using hinv
  · cases copyoutFails with
    | true => simp [MergesOnce, hfind] at hmerges
    | false =>
      have hzombie := (findZombie_spec hfind).2
      have hne : p ≠ pp := by
        rintro rfl
        simp [hrunning] at hzombie
      have hproc : ∀ i, x.2.proc i = if i = pp then freeproc b (s.proc pp) else
          if i = p then addCounters (s.proc pp).sysCounter (s.proc p) else s.proc i := by
        intro i
        rw [hx]
        by_cases hi : i = pp
        · simp [hi, hne.symm]
        · by_cases hip : i = p <;> simp [hi, hip, hne]
      refine hinv.around p hforking (fun i hi ↦ ?_) (fun i hi ↦ ?_) (fun _ k ↦ ?_) fun h ↦ ?_
      · rw [hproc]
        split_ifs with hipp
        · rw [hipp]
          exact (untouched_freeproc hzombie).toSettled
        · exact .refl _
      · exact ⟨by funext k; simp [Tally.counted, Tally.record, hfind, hi],
          by simp [Tally.record, hfind]⟩
      · rw [counted_reap hfind, hinv.atExit pp hzombie, ← hinv.counters p (by simp [hrunning]) k]
        simp [hproc, hne, addCounters]
      · simp [hproc, hne, addCounters, hrunning] at h

theorem TallyInv.next (hinv : TallyInv s r) (hmerges : MergesOnce (s, r) e)
    (hnext : (lifecycle b).next s e = some s') : TallyInv s' (r.record s e) := by
  have hforking := forking_next hinv.forking hnext
  by_cases hquiet : Quiet e = true
  · rw [record_of_quiet r hquiet]
    exact hinv.settled hforking fun i ↦ ((untouched_of_quiet hquiet hnext).1 i).toSettled
  obtain ⟨henabled, hperform⟩ := lifecycle_next.mp hnext
  cases e with
  | complete p num =>
    obtain rfl := Option.some.inj hperform
    exact hinv.complete hforking henabled.1
  | tick =>
    obtain rfl := Option.some.inj hperform
    exact hinv.settled hforking fun i ↦ .refl _
  | visit p =>
    obtain rfl := Option.some.inj hperform
    exact hinv.settled hforking (settled_visit b p)
  | forkAlloc p np outcome =>
    obtain rfl := Option.some.inj hperform
    exact hinv.forkAlloc outcome hforking
  | forkPublish p =>
    obtain rfl := Option.some.inj hperform
    exact hinv.forkPublish hforking
  | exit p status =>
    obtain rfl := Option.some.inj hperform
    exact hinv.exit hforking henabled.1.1
  | wait p copyoutFails =>
    obtain ⟨x, hscan, rfl⟩ := Option.map_eq_some_iff.mp hperform
    exact hinv.wait hforking henabled.1 hmerges hscan
  | _ => exact absurd rfl hquiet

theorem userinit_sysCounter (b : Build) (i : Slot) :
    ((userinit b).proc i).sysCounter = fun _ ↦ 0 := by
  simp only [userinit, allocproc, allocprocAt, findUnused_zeroed, reduceCtorEq, if_false]
  by_cases hi : i = 0
  · simp [allocprocReady, allocprocFound, hi]
  · simp [zeroed, hi]

theorem tallyInv_of_reachable {o : State × Tally} (ho : (tallied b).Reachable MergesOnce o) :
    TallyInv o.1 o.2 := by
  refine ho.invariant (fun o ↦ TallyInv o.1 o.2) ?_ fun o e o' hinv hmerges hnext ↦ ?_
  · refine ⟨forking_userinit b, fun i _ k ↦ ?_, fun i h ↦ ?_⟩
    · change ((userinit b).proc i).sysCounter k = _
      rw [userinit_sysCounter]
      rfl
    · change ((userinit b).proc i).state = _ at h
      rw [userinit_state] at h
      split_ifs at h
  · obtain ⟨hstep, hrecord⟩ := System.withHistory_next.mp hnext
    rw [hrecord]
    exact hinv.next hmerges hstep

/-! ## Totals -/

theorem zero_lt_counters : 0 < 32 := Nat.zero_lt_succ 31

/-- The index that `sys_getSysCount` finds for a mask: 0 if the mask is no power of 2. -/
def maskIndex (mask : Int32) : Fin 32 :=
  ((List.finRange 32).find? fun i ↦ mask = 1 <<< Int32.ofNat i.val).getD ⟨0, zero_lt_counters⟩

def addToTotal (total : Int32) (counter : UInt64) : Int32 :=
  truncateToInt (total.toInt64.toUInt64 + counter)

def countChild (s : State) (p : Slot) (index : Fin 32) (total : Int32) (child : Slot) : Int32 :=
  if (s.proc child).parent = some p ∧ (s.proc child).state = .zombie then
    addToTotal total ((s.proc child).sysCounter index)
  else total

def getSysCount (s : State) (p : Slot) (mask : Int32) : Int32 :=
  let index := maskIndex mask
  table.foldl (countChild s p index) (truncateToInt ((s.proc p).sysCounter index))

theorem truncateToInt_add (x y : UInt64) :
    truncateToInt (x + y) = truncateToInt x + truncateToInt y := by
  apply Int32.toBitVec_inj.mp
  simp [truncateToInt]

theorem addToTotal_eq (total : Int32) (counter : UInt64) :
    addToTotal total counter = total + truncateToInt counter := by
  have hself : truncateToInt total.toInt64.toUInt64 = total := by
    apply Int32.toBitVec_inj.mp
    ext i hi
    have hi' : i < 64 := by omega
    simp [truncateToInt, BitVec.getLsbD_eq_getElem, BitVec.getElem_signExtend, hi, hi']
  rw [addToTotal, truncateToInt_add, hself]

/-- A loop that does `c` at one element of the list does the same without that element, if `c` is
done first and commutes with the rest of the loop. -/
theorem foldl_eq_foldl_of_first {α ι : Type} [DecidableEq ι] {f g : α → ι → α} {c : α → α} {j : ι}
    (hf : ∀ a, f a j = c a) (hg : ∀ a, g a j = a) (hrest : ∀ a i, i ≠ j → g a i = f a i)
    (hcomm : ∀ a i, i ≠ j → f (c a) i = c (f a i)) {xs : List ι} (hxs : xs.Nodup) (hj : j ∈ xs)
    (a : α) : xs.foldl f a = xs.foldl g (c a) := by
  induction xs generalizing a with
  | nil => cases hj
  | cons x rest ih =>
    obtain ⟨hx, hrestnodup⟩ := List.nodup_cons.mp hxs
    by_cases hxj : x = j
    · subst hxj
      rw [List.foldl_cons, List.foldl_cons, hf, hg]
      apply List.foldl_ext
      intro a i hi
      exact (hrest a i fun h ↦ hx (h ▸ hi)).symm
    · have hj : j ∈ rest := by simpa [Ne.symm hxj] using hj
      rw [List.foldl_cons, List.foldl_cons, ih hrestnodup hj, hrest _ x hxj, hcomm a x hxj]

theorem addToTotal_comm (total : Int32) (x y : UInt64) :
    addToTotal (addToTotal total x) y = addToTotal (addToTotal total y) x := by
  simp only [addToTotal_eq]
  ac_rfl

theorem countChild_comm (k : Fin 32) (total : Int32) (x : UInt64) (i : Slot) :
    countChild s p k (addToTotal total x) i = addToTotal (countChild s p k total i) x := by
  unfold countChild
  split_ifs
  · exact addToTotal_comm total x _
  · rfl

/-- Reaping a child moves its counters from the loop of `sys_getSysCount` to those of the caller. -/
theorem getSysCount_reap {pp : Slot} {x : Int32 × State} (hrunning : (s.proc p).state = .running)
    (hfind : findZombie s p = some pp) (hscan : wait b s p false = some x) {mask : Int32}
    (hmask : maskIndex mask ≠ 3) :
    getSysCount (x.2.modify p (countCall 3)) p mask = getSysCount s p mask := by
  obtain ⟨hparent, hzombie⟩ := findZombie_spec hfind
  have hne : p ≠ pp := by
    rintro rfl
    simp [hrunning] at hzombie
  have hx : x.2 = (s.modify p (addCounters (s.proc pp).sysCounter)).modify pp (freeproc b) := by
    rcases wait_cases hscan with ⟨hnone, -⟩ | ⟨pp', hfind', hx⟩
    · cases hnone.symm.trans hfind
    · obtain rfl := Option.some.inj (hfind'.symm.trans hfind)
      simpa using hx
  simp only [getSysCount]
  generalize maskIndex mask = k at hmask ⊢
  have hstart : truncateToInt (((x.2.modify p (countCall 3)).proc p).sysCounter k) =
      addToTotal (truncateToInt ((s.proc p).sysCounter k)) ((s.proc pp).sysCounter k) := by
    rw [addToTotal_eq, ← truncateToInt_add]
    simp [hx, hne, addCounters, countCall, hmask]
  rw [hstart]
  symm
  apply foldl_eq_foldl_of_first (j := pp) (c := fun total ↦
    addToTotal total ((s.proc pp).sysCounter k))
  · intro total
    simp [countChild, hparent, hzombie]
  · intro total
    simp [countChild, hx, hne.symm, freeproc]
  · intro total i hi
    by_cases hip : i = p
    · simp [countChild, hx, hip, hne, addCounters, countCall, hrunning]
    · simp [countChild, hx, hi, hip]
  · intro total i _
    exact countChild_comm k total _ i
  · exact List.nodup_finRange NPROC
  · exact List.mem_finRange pp

/-- In every run in which no `wait` that finds an exited child fails to store its status, each counter
is the number of calls since the creation of the process plus the counters of the children reaped, and a
`wait` that reaps changes no total of `sys_getSysCount` but that of `wait`. -/
theorem counters_aggregated_once (b : Build) {o : State × Tally}
    (ho : (tallied b).Reachable MergesOnce o) :
    (∀ p, (o.1.proc p).state ≠ .unused → ∀ k, (o.1.proc p).sysCounter k = o.2.counted p k) ∧
    ∀ p pp x, Acts o.1 p → findZombie o.1 p = some pp → wait b o.1 p false = some x →
      ∀ mask, maskIndex mask ≠ 3 →
        getSysCount (x.2.modify p (countCall 3)) p mask = getSysCount o.1 p mask :=
  ⟨(tallyInv_of_reachable ho).counters, fun _ _ _ hacts hfind hscan _ hmask ↦
    getSysCount_reap hacts.1 hfind hscan hmask⟩

instance (o : State × Tally) : (e : LifeEvent) → Decidable (MergesOnce o e)
  | .wait p true => inferInstanceAs (Decidable (findZombie o.1 p = none))
  | .wait _ false => inferInstanceAs (Decidable True)
  | .move _ _ | .requeue _ _ _ _ | .tick | .visit _ | .complete _ _ | .setFile _ _ _
  | .forkAlloc _ _ _ | .forkPublish _ | .exit _ _ | .waitx _ _ | .kill _ | .settickets _ _ =>
    inferInstanceAs (Decidable True)

set_option maxRecDepth 100000 in
theorem counters_aggregated_once_reaped :
    ∃ o, ((tallied .default).Reachable MergesOnce o ∧ (o.1.proc 0).sysCounter 11 = 1 ∧
        (o.2.reaped 0).length = 1) ∧
      (∀ p, (o.1.proc p).state ≠ .unused → ∀ k, (o.1.proc p).sysCounter k = o.2.counted p k) ∧
      ∀ p pp x, Acts o.1 p → findZombie o.1 p = some pp → wait .default o.1 p false = some x →
        ∀ mask, maskIndex mask ≠ 3 →
          getSysCount (x.2.modify p (countCall 3)) p mask = getSysCount o.1 p mask := by
  obtain ⟨o, ho, hcounter, hreaped⟩ := (tallied .default).exists_reachable MergesOnce
    (fun o ↦ (o.1.proc 0).sysCounter 11 = 1 ∧ (o.2.reaped 0).length = 1)
    (childCalls ++ [LifeEvent.wait 0 false]) (by decide +kernel)
  exact ⟨o, ⟨ho, hcounter, hreaped⟩, counters_aggregated_once .default ho⟩

set_option maxRecDepth 100000 in
/-- A `wait` that fails to store the status has added the counters of a child it did not return. -/
theorem failed_wait_counts_child :
    ∃ o, (tallied .default).Reachable (fun _ _ ↦ True) o ∧
      ∃ p k, (o.1.proc p).state ≠ .unused ∧ (o.1.proc p).sysCounter k ≠ o.2.counted p k := by
  obtain ⟨o, ho, hstate, hcounter⟩ := (tallied .default).exists_reachable (fun _ _ ↦ True)
    (fun o ↦ (o.1.proc 0).state ≠ .unused ∧ (o.1.proc 0).sysCounter 11 ≠ o.2.counted 0 11)
    (childCalls ++ [LifeEvent.wait 0 true]) (by decide +kernel)
  exact ⟨o, ho, 0, 11, hstate, hcounter⟩

end EnhancedXv6.Lifecycle
