import EnhancedXv6.Mlfq.Membership
import Mathlib.Data.Finset.Card
import Mathlib.Data.List.TakeWhile

/-!
# The scheduler pass as list operations

A pass shifts whole arrays: `pop` moves all 64 slots down and leaves the last one stale, and the
push at the front moves the live part up again.  On the lists that the queues hold, the pass appends
the waiting processes in table order, cuts the processes that are not `RUNNABLE` off the front of
the first list that is not empty, and dispatches the head of what is left.
-/

namespace EnhancedXv6.Mlfq

open Kernel Fallible

variable {s t u : State} {xs : Fin queueSize → List Slot} {p : Slot} {h : Hart}

/-- What a pass does to the lists, and the process it dispatches. -/
def listPass (s : State) (xs : Fin queueSize → List Slot) :
    (Fin queueSize → List Slot) × Option Slot :=
  let ys := scanned s xs
  match firstQueue ys with
  | none => (ys, none)
  | some q =>
    let live := (ys q).dropWhile fun p ↦ (s.proc p).state ≠ .runnable
    (Function.update ys q live, live.head?)

/-- The queues hold the lists `xs`, which agree with `status_queue` and the levels. -/
structure Listed (s : State) (xs : Fin queueSize → List Slot) : Prop extends Matches s xs where
  rep : Rep s xs
  level : ∀ p, Waiting s p → (s.proc p).priorityQueueNumber < queueSize

def contenders (s : State) : Finset Slot :=
  {p | (s.proc p).state = .runnable ∨ (s.proc p).statusQueue = true}

/-! ## The pass succeeds -/

theorem Listed.length_lt (hs : Listed s xs) (hfew : (contenders s).card < NPROC)
    (q : Fin queueSize) : (scanned s xs q).length < NPROC := by
  have hsub : (scanned s xs q).toFinset ⊆ contenders s := by
    intro i hi
    rw [contenders, Finset.mem_filter]
    refine ⟨Finset.mem_univ i, ?_⟩
    rcases (hs.mem_scanned_iff.mp (List.mem_toFinset.mp hi)).1 with hstatus | hwaiting
    · exact .inr hstatus
    · exact .inl hwaiting.1
  calc
    (scanned s xs q).length = (scanned s xs q).toFinset.card :=
      (List.toFinset_card_of_nodup (hs.nodup_scanned q)).symm
    _ ≤ (contenders s).card := Finset.card_le_card hsub
    _ < NPROC := hfew

theorem Listed.pass_exists (hs : Listed s xs) (hfew : (contenders s).card < NPROC) (h : Hart) :
    ∃ s', pass s h = .ok s' := by
  refine Mlfq.pass_exists hs.rep hs.level (fun q ↦ (hs.length_lt hfew q).le) ?_
  intro q dead p rest hsplit hp
  have hmem : p ∈ scanned s xs q := by simp [hsplit]
  refine ⟨q, (hs.mem_scanned_iff.mp hmem).2, ?_⟩
  have hlt := hs.length_lt hfew q
  rw [hsplit, List.length_append, List.length_cons] at hlt
  rw [Function.update_self]
  omega

/-! ## What it does -/

def finish (t : State) (h : Hart) : Option Slot → State
  | none => t
  | some p => dispatch t h p

theorem listPass_exhausted {q : Fin queueSize} (hq : firstQueue (scanned s xs) = some q)
    (hdead : ∀ p ∈ scanned s xs q, (s.proc p).state ≠ .runnable) :
    listPass s xs = (Function.update (scanned s xs) q [], none) := by
  have hnil : (scanned s xs q).dropWhile (fun p ↦ (s.proc p).state ≠ .runnable) = [] := by
    rw [List.dropWhile_eq_nil_iff]
    exact fun i hi ↦ decide_eq_true (hdead i hi)
  simp only [listPass, hq, hnil, List.head?_nil]

theorem listPass_found {q : Fin queueSize} {dead rest : List Slot}
    (hq : firstQueue (scanned s xs) = some q) (hsplit : scanned s xs q = dead ++ p :: rest)
    (hdead : ∀ i ∈ dead, (s.proc i).state ≠ .runnable) (hp : (s.proc p).state = .runnable) :
    listPass s xs = (Function.update (scanned s xs) q (p :: rest), some p) := by
  have hdrop : (scanned s xs q).dropWhile (fun p ↦ (s.proc p).state ≠ .runnable) = p :: rest := by
    rw [hsplit, List.dropWhile_append_of_pos fun i hi ↦ decide_eq_true (hdead i hi),
      List.dropWhile_cons_of_neg (by simpa using hp)]
  simp only [listPass, hq, hdrop, List.head?_cons]

/-- A pass that succeeded did to the queues what it does to the lists. -/
theorem Listed.passed (hs : Listed s xs) {s' : State} (hpass : Passed s xs h s') :
    ∃ t, s' = finish t h (listPass s xs).2 ∧ Frame s t ∧ Rep t (listPass s xs).1 ∧
      Matches t (listPass s xs).1 := by
  cases hpass with
  | idle hempty hrep hframe hstatus =>
    have hlists : listPass s xs = (scanned s xs, none) := by
      simp only [listPass, firstQueue_eq_none.mpr hempty]
    rw [hlists]
    refine ⟨s', rfl, hframe, hrep, fun i q ↦ ?_, hs.nodup_scanned⟩
    rw [hs.mem_scanned_iff, hstatus i, hframe.level i]
  | exhausted hq hdead hrep hframe hstatus =>
    rw [listPass_exhausted hq hdead]
    exact ⟨s', rfl, hframe, hrep, hs.toMatches.exhausted hframe hstatus⟩
  | @dispatched q level dead rest p u hq hsplit hdead hp hlevel hrep hframe hstatus =>
    obtain rfl := hs.toMatches.level_eq hsplit hlevel
    rw [putBack_self] at hrep
    rw [listPass_found hq hsplit hdead hp]
    exact ⟨u, rfl, hframe, hrep, hs.toMatches.found hframe hsplit hstatus⟩

/-- The process that a pass dispatches stands at the front of its queue. -/
theorem Listed.front (hs : Listed s xs) (hp : (listPass s xs).2 = some p) :
    ∃ (q : Fin queueSize) (rest : List Slot),
      (s.proc p).priorityQueueNumber = q.val ∧ (listPass s xs).1 q = p :: rest := by
  unfold listPass at hp ⊢
  dsimp only at hp ⊢
  cases hq : firstQueue (scanned s xs) with
  | none => simp [hq] at hp
  | some q =>
    simp only [hq] at hp ⊢
    obtain ⟨rest, hlive⟩ := List.head?_eq_some_iff.mp hp
    have hmem : p ∈ scanned s xs q :=
      (List.dropWhile_suffix _).subset (hlive ▸ List.mem_cons_self)
    exact ⟨q, rest, (hs.mem_scanned_iff.mp hmem).2, by rw [Function.update_self, hlive]⟩

theorem rep_finish (hrep : Rep t xs) (current : Option Slot) : Rep (finish t h current) xs := by
  cases current with
  | none => exact hrep
  | some p => exact hrep.congr rfl

theorem matches_finish (hm : Matches t xs) (current : Option Slot) :
    Matches (finish t h current) xs := by
  cases current with
  | none => exact hm
  | some p => exact hm.of_kept (kept_dispatch t h p)

theorem level_finish (current : Option Slot) (i : Slot) :
    ((finish t h current).proc i).priorityQueueNumber = (t.proc i).priorityQueueNumber := by
  cases current with
  | none => rfl
  | some p => exact (kept_dispatch t h p i).level

/-- The end of the time slice of a process at the front of its queue removes this process. -/
theorem expire_front {q : Fin queueSize} {rest : List Slot} (hrep : Rep u xs) (hm : Matches u xs)
    (hlevel : (u.proc p).priorityQueueNumber = q.val) (hq : xs q = p :: rest)
    (hslice : (u.proc p).startTime ≥ (u.queue q).priorityQueueTicks) :
    ∃ v, expire u p = .ok v ∧ Rep v (Function.update xs q rest) ∧
      Matches v (Function.update xs q rest) ∧ Demoted p u v := by
  obtain ⟨v, hexpire, hexpired⟩ := expire_spec hrep hlevel
  refine ⟨v, hexpire, ?_⟩
  cases hexpired with
  | unexpired hleft => exact absurd hslice hleft
  | empty _ hnil => simp [hq] at hnil
  | popped _ hcons hrep' hdemoted hstatus =>
    obtain ⟨rfl, rfl⟩ := List.cons.inj (hq.symm.trans hcons)
    exact ⟨hrep', hm.demoted hlevel hq hdemoted fun i ↦ by simpa using hstatus i, hdemoted⟩

/-- While a process runs, the queues, the levels and `status_queue` stay as they are. -/
structure SameStanding (s u : State) : Prop where
  queue : u.queue = s.queue
  proc : ∀ i, (u.proc i).statusQueue = (s.proc i).statusQueue ∧
    (u.proc i).priorityQueueNumber = (s.proc i).priorityQueueNumber

/-- From every state with coherent queues and fewer than `NPROC` processes `RUNNABLE` or queued, a pass
does what `listPass` does to the lists, dispatches the process it names, and leaves the queues coherent;
the end of its time slice removes that process from its queue and nothing else. -/
theorem pass_refines_listPass (hs : Listed s xs) (hfew : (contenders s).card < NPROC) (h : Hart) :
    ∃ t s', pass s h = .ok s' ∧ s' = finish t h (listPass s xs).2 ∧ Frame s t ∧
      Rep s' (listPass s xs).1 ∧ Matches s' (listPass s xs).1 ∧
      ∀ p, (listPass s xs).2 = some p → ∃ (q : Fin queueSize) (rest : List Slot),
        (listPass s xs).1 q = p :: rest ∧ ∀ u, SameStanding s' u →
          (u.proc p).startTime ≥ (u.queue q).priorityQueueTicks →
          ∃ v, expire u p = .ok v ∧ Rep v (Function.update (listPass s xs).1 q rest) ∧
            Matches v (Function.update (listPass s xs).1 q rest) ∧ Demoted p u v := by
  obtain ⟨s', hpass⟩ := hs.pass_exists hfew h
  obtain ⟨t, hfinish, hframe, hrep, hm⟩ := hs.passed (pass_ok hs.rep hpass).1
  have hrep' : Rep s' (listPass s xs).1 := hfinish ▸ rep_finish hrep _
  have hm' : Matches s' (listPass s xs).1 := hfinish ▸ matches_finish hm _
  refine ⟨t, s', hpass, hfinish, hframe, hrep', hm', fun p hp ↦ ?_⟩
  obtain ⟨q, rest, hlevel, hq⟩ := hs.front hp
  refine ⟨q, rest, hq, fun u hu hslice ↦ ?_⟩
  have hlevel' : (u.proc p).priorityQueueNumber = q.val := by
    rw [(hu.proc p).2, hfinish, level_finish, hframe.level p, hlevel]
  exact expire_front (hrep'.congr hu.queue) (hm'.congr fun i ↦ .inl (hu.proc i)) hlevel' hq hslice

/-- Process 0 has waited for 48 ticks at the front of queue 1, whose last slot still holds a pointer
to slot 2. -/
def aged : State :=
  { zeroed with
    proc := fun p ↦
      match p.val with
      | 0 => { state := .runnable, pid := 1, priorityQueueNumber := 1, statusQueue := true,
               waitTicks := 48 }
      | 1 => { state := .sleeping, pid := 2 }
      | 2 => { state := .sleeping, pid := 3 }
      | _ => {}
    queue := fun q ↦
      if q = 1 then
        { zeroed.queue 1 with
          tail := 1
          length := 1
          mlfqQueue := ((Vector.replicate NPROC none).set 0 (some 0)).set 63 (some 2) }
      else zeroed.queue q }

theorem listed_aged : Listed aged (Function.update (fun _ ↦ []) 1 [0]) where
  mem_iff := by decide +kernel
  nodup := by decide +kernel
  rep := by
    intro q
    by_cases hq : q = 1
    · subst hq
      refine ⟨rfl, rfl, fun i hi ↦ ?_⟩
      obtain rfl : i = 0 := by simpa using hi
      rfl
    · have hqueue : aged.queue q = zeroed.queue q := if_neg hq
      rw [Function.update_of_ne hq, hqueue]
      exact ⟨rfl, rfl, Buffer.Holds.nil _⟩
  level := by decide +kernel

theorem pass_refines_listPass_aged :
    (contenders aged).card < NPROC ∧ (listPass aged (Function.update (fun _ ↦ []) 1 [0])).2 = some 0 ∧
      ∃ s', pass aged 0 = .ok s' ∧
        Rep s' (listPass aged (Function.update (fun _ ↦ []) 1 [0])).1 := by
  have hfew : (contenders aged).card < NPROC := by decide +kernel
  obtain ⟨t, s', hpass, -, -, hrep, -⟩ := pass_refines_listPass listed_aged hfew 0
  exact ⟨hfew, by decide +kernel, s', hpass, hrep⟩

end EnhancedXv6.Mlfq
