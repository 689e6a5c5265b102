import EnhancedXv6.Console.Model

/-!
# The console as a line editor

An abstract line editor has a list of committed characters and a line that is being edited.  Readers
take committed characters one after the other.  The three indices of `cons` represent it: the
committed characters are those between `r` and `w`, the line is what is between `w` and `e`.  Every
step of the code is an action of the editor, with the same effect for the readers.
-/

namespace EnhancedXv6.Console

open RingBuffer Transition

variable {P : Type} [DecidableEq P]

/-! ## The editor -/

/-- A line editor; `reads` has the reads that have not returned: the size and what they have got. -/
structure Editor (P : Type) where
  committed : List UInt8
  line : List UInt8
  reads : P → Option (ℤ × List UInt8)

inductive Action (P : Type)
  | input (ch : UInt8)
  | read (p : P) (n : ℤ)
  /-- a read goes on by one character -/
  | take (p : P)
  /-- a read is given up -/
  | abort (p : P)

namespace Editor

variable (d : Editor P) (p : P)

def finish (k : ℕ) : Editor P × List (Out P) :=
  ({ d with reads := Function.update d.reads p none }, [.returned p k])

/-- A character is added to the line, which a newline, `^D` or a full buffer commits. -/
def add (ch : UInt8) : Editor P :=
  let line := d.line ++ [ch]
  if ch = newline ∨ ch = ctrl 'D' ∨ d.committed.length + line.length = INPUT_BUF_SIZE then
    { d with committed := d.committed ++ line, line := [] }
  else { d with line := line }

def input (ch : UInt8) : Editor P :=
  if ch = 0 ∨ ch = ctrl 'P' then d
  else if ch = ctrl 'U' then { d with line := [] }
  else if ch = ctrl 'H' ∨ ch = delete then { d with line := d.line.dropLast }
  else if d.committed.length + d.line.length < INPUT_BUF_SIZE then
    d.add (if ch = carriageReturn then newline else ch)
  else d

omit [DecidableEq P] in
theorem reads_add (ch : UInt8) : (d.add ch).reads = d.reads := by
  simp only [add]
  split_ifs <;> rfl

omit [DecidableEq P] in
theorem reads_input (ch : UInt8) : (d.input ch).reads = d.reads := by
  unfold input
  split_ifs <;> first | rfl | exact d.reads_add _

/-- A read of `n` bytes that has got `got` takes a character.  A `^D` ends it, and is used up if the
read has got nothing. -/
def take (n : ℤ) (got : List UInt8) : Editor P × List (Out P) :=
  if got.length < n then
    match d.committed with
    | [] => (d, [])
    | ch :: rest =>
      if ch = ctrl 'D' then
        if got = [] then ({ d with committed := rest } : Editor P).finish p 0
        else d.finish p got.length
      else if ch = newline then
        let done := ({ d with committed := rest } : Editor P).finish p (got.length + 1)
        (done.1, .byte p ch :: done.2)
      else
        ({ d with committed := rest
                  reads := Function.update d.reads p (some (n, got ++ [ch])) }, [.byte p ch])
  else d.finish p got.length

def act : Action P → Editor P × List (Out P)
  | .input ch => (d.input ch, [])
  | .read p n => ({ d with reads := Function.update d.reads p (some (n, [])) }, [])
  | .take p =>
    match d.reads p with
    | none => (d, [])
    | some (n, got) => d.take p n got
  | .abort p => ({ d with reads := Function.update d.reads p none }, [.failed p])

def run (actions : List (Action P)) : Editor P × List (Out P) :=
  actions.foldl (fun o a ↦ ((o.1.act a).1, o.2 ++ (o.1.act a).2)) (⟨[], [], fun _ ↦ none⟩, [])

theorem run_append_singleton (actions : List (Action P)) (a : Action P) :
    run (actions ++ [a]) =
      (((run actions).1.act a).1, (run actions).2 ++ ((run actions).1.act a).2) := by
  simp [run]

end Editor

/-! ## Actions of the code -/

/-- The action of an event, or `none` if it concerns the lock and the sleepers only. -/
def action (s : ConsState P) : ConsEvent P → Option (Action P)
  | .intr ch => some (.input ch)
  | .read p n => some (.read p n)
  | .kill _ => none
  | .advance p =>
    match s.pc p with
    | .loop n got =>
      if got.length < n ∧ s.cons.r = s.cons.w ∧ s.killed p = true then some (.abort p)
      else some (.take p)
    | _ => none

/-- What an observer writes down: the actions and what the readers get. -/
structure Record (P : Type) where
  actions : List (Action P) := []
  outs : List (Out P) := []

def console (P : Type) [DecidableEq P] (buf : ℕ → UInt8) (count : BitVec 32) :
    System (ConsState P × Record P) (ConsEvent P) where
  start := (quiet P buf count, {})
  next o e := (step o.1 e).map fun m ↦
    (m.1, { actions := o.2.actions ++ (action o.1 e).toList, outs := o.2.outs ++ m.2 })

def Pc.read : Pc → Option (ℤ × List UInt8)
  | .out => none
  | .enter n got | .loop n got | .asleep n got => some (n, got)

/-! ## The buffer -/

/-- The buffer shows the committed characters `q` and the line `l`. -/
structure Shows (c : Cons) (q l : List UInt8) : Prop where
  w : c.w = after c.r q.length
  e : c.e = after c.w l.length
  size : q.length + l.length ≤ INPUT_BUF_SIZE
  committed : window INPUT_BUF_SIZE c.buf c.r q.length = q
  line : window INPUT_BUF_SIZE c.buf c.w l.length = l
  /-- a newline is committed at once -/
  unfinished : newline ∉ l

namespace Shows

variable {c : Cons} {q l : List UInt8} {ch : UInt8}

theorem size_dvd : INPUT_BUF_SIZE ∣ 2 ^ 32 := by decide

theorem e_after_r (h : Shows c q l) : c.e = after c.r (q.length + l.length) := by
  rw [h.e, h.w, after_after]

theorem e_sub_r (h : Shows c q l) : (c.e - c.r).toNat = q.length + l.length := by
  have hsize := h.size
  rw [h.e_after_r]
  refine toNat_after_sub c.r ?_
  simp only [INPUT_BUF_SIZE] at hsize
  omega

theorem e_sub_w (h : Shows c q l) : (c.e - c.w).toNat = l.length := by
  have hsize := h.size
  rw [h.e]
  refine toNat_after_sub c.w ?_
  simp only [INPUT_BUF_SIZE] at hsize
  omega

theorem e_eq_w (h : Shows c q l) : c.e = c.w ↔ l = [] := by
  constructor
  · intro heq
    have hlength := h.e_sub_w
    rw [heq, BitVec.sub_self] at hlength
    exact List.eq_nil_of_length_eq_zero hlength.symm
  · rintro rfl
    rw [h.e]
    exact after_zero c.w

theorem r_eq_w (h : Shows c q l) : c.r = c.w ↔ q = [] := by
  constructor
  · intro heq
    have hlength : (c.w - c.r).toNat = q.length := by
      have hsize := h.size
      rw [h.w]
      refine toNat_after_sub c.r ?_
      simp only [INPUT_BUF_SIZE] at hsize
      omega
    rw [heq, BitVec.sub_self] at hlength
    exact List.eq_nil_of_length_eq_zero hlength.symm
  · rintro rfl
    rw [h.w]
    exact (after_zero c.r).symm

theorem last (h : Shows c q (l ++ [ch])) :
    c.buf (cell INPUT_BUF_SIZE (c.e - 1)) = ch ∧ Shows { c with e := c.e - 1 } q l := by
  have hline := h.line
  have hsize := h.size
  have hlast := h.e
  rw [List.length_append, List.length_singleton] at hline hsize hlast
  rw [window_succ_last] at hline
  obtain ⟨hfront, hback⟩ := List.append_inj' hline rfl
  have he : c.e - 1 = after c.w l.length := by rw [hlast, after_succ_sub_one]
  refine ⟨by rw [he]; exact List.singleton_inj.mp hback, h.w, he, by omega, h.committed, hfront, ?_⟩
  exact fun hmem ↦ h.unfinished (List.mem_append_left _ hmem)

theorem backspace (h : Shows c q l) : Shows (Console.backspace c) q l.dropLast := by
  rw [Console.backspace]
  split_ifs with hedit
  · rcases List.eq_nil_or_concat l with rfl | ⟨front, ch, rfl⟩
    · exact absurd (h.e_eq_w.mpr rfl) hedit
    · rw [List.concat_eq_append, List.dropLast_concat]
      exact (List.concat_eq_append ▸ h : Shows c q (front ++ [ch])).last.2
  · obtain rfl := h.e_eq_w.mp (not_not.mp hedit)
    exact h

theorem killLine (h : Shows c q l) : Shows (Console.killLine l.length c) q [] := by
  induction l using List.reverseRecOn generalizing c with
  | nil => exact h
  | append_singleton front ch ih =>
    obtain ⟨hch, hfront⟩ := h.last
    have hedit : c.e ≠ c.w := fun heq ↦ by simpa using h.e_eq_w.mp heq
    have hnewline : ch ≠ newline := by
      rintro rfl
      exact h.unfinished (List.mem_append_right _ List.mem_cons_self)
    rw [List.length_append, List.length_singleton, Console.killLine, hch,
      if_pos ⟨hedit, hnewline⟩]
    exact ih hfront

theorem push (h : Shows c q l) (hsize : q.length + l.length < INPUT_BUF_SIZE) (ch : UInt8) :
    let c' := { c with buf := Function.update c.buf (cell INPUT_BUF_SIZE c.e) ch, e := c.e + 1 }
    c'.e = after c'.w (l.length + 1) ∧ window INPUT_BUF_SIZE c'.buf c'.r q.length = q ∧
      window INPUT_BUF_SIZE c'.buf c'.w (l.length + 1) = l ++ [ch] := by
  have hr := h.e_after_r
  have hw := h.e
  refine ⟨?_, ?_, ?_⟩
  · show c.e + 1 = _
    rw [after_succ, ← hw]
  · show window _ (Function.update c.buf _ ch) c.r _ = q
    rw [hr, window_update size_dvd (by omega) hsize]
    exact h.committed
  · show window _ (Function.update c.buf _ ch) c.w _ = _
    rw [hw, window_push size_dvd (by omega), h.line]

omit [DecidableEq P] in
theorem add {d : Editor P} (h : Shows c d.committed d.line)
    (hsize : d.committed.length + d.line.length < INPUT_BUF_SIZE) (ch : UInt8) :
    Shows (store c ch).1 (d.add ch).committed (d.add ch).line := by
  obtain ⟨he, hcommitted, hline⟩ := h.push hsize ch
  have hlength : (d.line ++ [ch]).length = d.line.length + 1 := by simp
  have hfull : (c.e + 1 - c.r).toNat = d.committed.length + (d.line ++ [ch]).length := by
    rw [h.e_after_r, ← after_succ, hlength, Nat.add_assoc]
    refine toNat_after_sub c.r ?_
    simp only [INPUT_BUF_SIZE] at hsize
    omega
  simp only [store, hfull, Editor.add]
  split_ifs with hcommit
  · refine ⟨?_, (after_zero _).symm, by simp; omega, ?_, rfl, List.not_mem_nil⟩
    · show c.e + 1 = after c.r _
      rw [List.length_append, hlength, h.e_after_r, ← after_succ, Nat.add_assoc]
    · show window _ _ c.r _ = _
      rw [List.length_append, window_add, hcommitted, ← h.w, hlength, hline]
  · have hsize' : d.committed.length + (d.line ++ [ch]).length ≤ INPUT_BUF_SIZE := by omega
    refine ⟨h.w, hlength ▸ he, hsize', hcommitted, hlength ▸ hline, ?_⟩
    rw [List.mem_append, List.mem_singleton]
    rintro (hmem | rfl)
    · exact h.unfinished hmem
    · exact hcommit (.inl rfl)

theorem pop (h : Shows c (ch :: q) l) :
    c.buf (cell INPUT_BUF_SIZE c.r) = ch ∧ Shows { c with r := c.r + 1 } q l := by
  have hcommitted := h.committed
  have hsize := h.size
  rw [List.length_cons, window_succ, List.cons.injEq] at hcommitted
  refine ⟨hcommitted.1, ?_, h.e, by simp at hsize; omega, hcommitted.2, h.line, h.unfinished⟩
  show c.w = after (c.r + 1) q.length
  rw [after_add_one, h.w]
  rfl

end Shows

/-! ## The simulation -/

structure Represents (s : ConsState P) (d : Editor P) : Prop where
  buffer : Shows s.cons d.committed d.line
  reads : ∀ p, d.reads p = (s.pc p).read

namespace Represents

variable {s : ConsState P} {d : Editor P} {p : P}

omit [DecidableEq P] in
theorem input (h : Shows s.cons d.committed d.line) (ch : UInt8) :
    Shows (consoleintr s.cons ch).1 (d.input ch).committed (d.input ch).line := by
  unfold consoleintr Editor.input
  by_cases hP : ch = ctrl 'P'
  · simpa only [hP, or_true, if_true] using h
  by_cases hU : ch = ctrl 'U'
  · have hnull : ctrl 'U' ≠ 0 := by decide
    have hne : ctrl 'U' ≠ ctrl 'P' := by decide
    simp only [hU, hnull, hne, or_false, if_true, if_false, h.e_sub_w]
    exact h.killLine
  by_cases hH : ch = ctrl 'H' ∨ ch = delete
  · have hnull : ch ≠ 0 := by
      rintro rfl
      revert hH
      decide
    simp only [hP, hU, hH, hnull, or_false, if_true, if_false]
    exact h.backspace
  by_cases hnull : ch = 0
  · simp only [hP, hU, hH, if_false]
    simpa only [hnull, true_or, if_true, ne_eq, not_true_eq_false, false_and, if_false] using h
  simp only [hP, hU, hH, hnull, or_false, if_false, ne_eq, not_false_eq_true, true_and, h.e_sub_r]
  split_ifs with hroom
  · exact h.add hroom _
  · exact h.add hroom _
  · exact h

/-- What one step of the code means for the editor. -/
def Follows (d : Editor P) (m : ConsState P × List (Out P)) : Option (Action P) → Prop
  | none => Represents m.1 d ∧ m.2 = []
  | some a => Represents m.1 (d.act a).1 ∧ m.2 = (d.act a).2

/-- A process goes on in its read, or comes to its end. -/
theorem update_reads (h : Represents s d) (p : P) (pc : Pc) (q : P) :
    Function.update d.reads p pc.read q = (Function.update s.pc p pc q).read := by
  by_cases hq : q = p
  · simp [hq]
  · simpa [hq] using h.reads q

/-- A step that stays in the same read. -/
theorem same_reads (h : Represents s d) {pc : Pc} (hpc : pc.read = (s.pc p).read) (q : P) :
    d.reads q = (Function.update s.pc p pc q).read := by
  rw [← h.update_reads p pc q, hpc, ← h.reads p, Function.update_eq_self]

theorem readByte {n : ℤ} {got rest : List UInt8} {ch : UInt8} (h : Represents s d)
    (hcommitted : d.committed = ch :: rest) (hmore : got.length < n) :
    Represents (Console.readByte (s.setRead (s.cons.r + 1)) p n got ch).1 (d.take p n got).1 ∧
      (Console.readByte (s.setRead (s.cons.r + 1)) p n got ch).2 = (d.take p n got).2 := by
  have hpop := (hcommitted ▸ h.buffer : Shows s.cons (ch :: rest) d.line).pop.2
  unfold Console.readByte Editor.take
  rw [if_pos hmore, hcommitted]
  dsimp only
  split_ifs with heof hnone hnewline
  · exact ⟨⟨hpop, h.update_reads p .out⟩, rfl⟩
  · refine ⟨⟨?_, h.update_reads p .out⟩, rfl⟩
    -- the read index has gone one step on and one step back
    have hback : s.cons.r + 1 - 1 = s.cons.r := BitVec.add_sub_cancel _ _
    show Shows { s.cons with r := s.cons.r + 1 - 1 } d.committed d.line
    rw [hback]
    exact h.buffer
  · exact ⟨⟨hpop, h.update_reads p .out⟩, rfl⟩
  · exact ⟨⟨hpop, h.update_reads p (.loop n (got ++ [ch]))⟩, rfl⟩

theorem readRound {n : ℤ} {got : List UInt8} (h : Represents s d) (hpc : s.pc p = .loop n got) :
    Follows d (Console.readRound s p n got) (action s (.advance p)) := by
  have hread : d.reads p = some (n, got) := by rw [h.reads p, hpc]; rfl
  have htake : d.act (.take p) = d.take p n got := by simp only [Editor.act, hread]
  simp only [action, hpc]
  unfold Console.readRound
  by_cases hmore : got.length < n
  · by_cases hempty : s.cons.r = s.cons.w
    · by_cases hkilled : s.killed p = true
      · rw [if_pos hmore, if_pos hempty, if_pos hkilled, if_pos ⟨hmore, hempty, hkilled⟩]
        exact ⟨⟨h.buffer, h.update_reads p .out⟩, rfl⟩
      · rw [if_pos hmore, if_pos hempty, if_neg hkilled, if_neg fun hall ↦ hkilled hall.2.2]
        have hnothing : d.take p n got = (d, []) := by
          rw [Editor.take, if_pos hmore, h.buffer.r_eq_w.mp hempty]
        show Represents _ (d.act (.take p)).1 ∧ _ = (d.act (.take p)).2
        rw [htake, hnothing]
        exact ⟨⟨h.buffer, h.same_reads (by rw [hpc]; rfl)⟩, rfl⟩
    · rw [if_pos hmore, if_neg hempty, if_neg fun hall ↦ hempty hall.2.1]
      obtain ⟨ch, rest, hcommitted⟩ : ∃ ch rest, d.committed = ch :: rest :=
        List.exists_cons_of_ne_nil fun hnil ↦ hempty (h.buffer.r_eq_w.mpr hnil)
      have hch := (hcommitted ▸ h.buffer : Shows s.cons (ch :: rest) d.line).pop.1
      show Represents _ (d.act (.take p)).1 ∧ _ = (d.act (.take p)).2
      rw [htake, hch]
      exact h.readByte hcommitted hmore
  · rw [if_neg hmore, if_neg fun hall ↦ hmore hall.1]
    show Represents _ (d.act (.take p)).1 ∧ _ = (d.act (.take p)).2
    rw [htake, Editor.take, if_neg hmore]
    exact ⟨⟨h.buffer, h.update_reads p .out⟩, rfl⟩

theorem step {e : ConsEvent P} {m : ConsState P × List (Out P)} (h : Represents s d)
    (hstep : Console.step s e = some m) : Follows d m (action s e) := by
  have hwake : ∀ pc : Pc, pc.wake.read = pc.read := by
    intro pc
    cases pc <;> rfl
  cases e with
  | intr ch =>
    simp only [Console.step, Option.ite_none_right_eq_some, Option.some_inj] at hstep
    obtain ⟨-, rfl⟩ := hstep
    refine ⟨⟨?_, fun p ↦ ?_⟩, rfl⟩
    · cases (consoleintr s.cons ch).2 <;> exact input h.buffer ch
    · show (d.input ch).reads p = _
      rw [d.reads_input, h.reads p]
      cases (consoleintr s.cons ch).2
      · rfl
      · exact (hwake _).symm
  | read p n =>
    simp only [Console.step, Option.ite_none_right_eq_some, Option.some_inj] at hstep
    obtain ⟨-, rfl⟩ := hstep
    exact ⟨⟨h.buffer, h.update_reads p (.enter n [])⟩, rfl⟩
  | kill p =>
    obtain rfl := Option.some_inj.mp hstep
    exact ⟨⟨h.buffer, h.same_reads (hwake _)⟩, rfl⟩
  | advance p =>
    simp only [Console.step] at hstep
    cases hpc : s.pc p with
    | out | asleep n got => simp [hpc] at hstep
    | enter n got =>
      simp only [hpc, Option.ite_none_right_eq_some, Option.some_inj] at hstep
      obtain ⟨-, rfl⟩ := hstep
      simp only [action, hpc]
      exact ⟨⟨h.buffer, h.same_reads (by rw [hpc]; rfl)⟩, rfl⟩
    | loop n got =>
      simp only [hpc, Option.some_inj] at hstep
      exact hstep ▸ h.readRound hpc

end Represents

/-- The indices stay in order and the readers get what the line editor gives them, whatever the
indices are at the start. -/
theorem console_is_line_editor {buf : ℕ → UInt8} {count : BitVec 32} {o : ConsState P × Record P}
    (ho : (console P buf count).Reachable (fun _ _ ↦ True) o) :
    (o.1.cons.e - o.1.cons.w).toNat ≤ (o.1.cons.e - o.1.cons.r).toNat ∧
      (o.1.cons.e - o.1.cons.r).toNat ≤ INPUT_BUF_SIZE ∧
      o.2.outs = (Editor.run o.2.actions).2 := by
  have hinv : Represents o.1 (Editor.run o.2.actions).1 ∧
      o.2.outs = (Editor.run o.2.actions).2 := by
    refine ho.invariant (fun o ↦ Represents o.1 (Editor.run o.2.actions).1 ∧
      o.2.outs = (Editor.run o.2.actions).2) ⟨⟨?_, fun _ ↦ rfl⟩, rfl⟩ ?_
    · exact ⟨(after_zero _).symm, (after_zero _).symm, Nat.zero_le _, rfl, rfl, List.not_mem_nil⟩
    · rintro o e o' ⟨hrep, houts⟩ - hnext
      obtain ⟨m, hstep, rfl⟩ := Option.map_eq_some_iff.mp hnext
      have hfollows := hrep.step hstep
      cases haction : action o.1 e with
      | none =>
        rw [haction] at hfollows
        simp only [Option.toList_none, List.append_nil, hfollows.2]
        exact ⟨hfollows.1, houts⟩
      | some a =>
        rw [haction] at hfollows
        simp only [Option.toList_some, Editor.run_append_singleton]
        exact ⟨hfollows.1, by rw [houts, hfollows.2]⟩
  obtain ⟨hrep, houts⟩ := hinv
  rw [hrep.buffer.e_sub_w, hrep.buffer.e_sub_r]
  exact ⟨Nat.le_add_left _ _, hrep.buffer.size, houts⟩

/-- `ab`, backspace, `c`, `^D` are typed while the indices wrap around: a read gets `ac`, and the
next one nothing. -/
theorem console_is_line_editor_eof :
    ∃ o, (console Unit (fun _ ↦ 0) (BitVec.ofNat 32 (2 ^ 32 - 2))).Reachable (fun _ _ ↦ True) o ∧
      o.2.outs = [.byte () 97, .byte () 99, .returned () 2, .returned () 0] ∧
      (o.1.cons.e - o.1.cons.w).toNat ≤ (o.1.cons.e - o.1.cons.r).toNat ∧
      (o.1.cons.e - o.1.cons.r).toNat ≤ INPUT_BUF_SIZE ∧
      o.2.outs = (Editor.run o.2.actions).2 := by
  obtain ⟨o, ho, houts⟩ :=
    (console Unit (fun _ ↦ 0) (BitVec.ofNat 32 (2 ^ 32 - 2))).exists_reachable (fun _ _ ↦ True)
      (fun o ↦ o.2.outs = [.byte () 97, .byte () 99, .returned () 2, .returned () 0])
      [.intr 97, .intr 98, .intr (ctrl 'H'), .intr 99, .intr (ctrl 'D'),
        .read () 5, .advance (), .advance (), .advance (), .advance (),
        .read () 5, .advance (), .advance ()] (by decide +kernel)
  exact ⟨o, ho, houts, console_is_line_editor ho⟩

end EnhancedXv6.Console
