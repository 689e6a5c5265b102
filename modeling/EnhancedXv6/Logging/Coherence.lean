import EnhancedXv6.Logging.Books
import EnhancedXv6.Transition.Fallible

/-!
# Cache and log as one array of blocks

The bookkeeping of the cache is an invariant of the machine.  During a commit the pinned blocks are
those that `install_trans` has still to write; each of them has been copied to the log before its turn
comes, and no operation changes it in between.
-/

namespace EnhancedXv6.Logging

open Kernel Storage Transition

/-! ## The program of a commit -/

def Instr.installs : Instr → Option BlockNo
  | .copy b _ true => some b
  | _ => none

def toInstall (todo : List Instr) : List BlockNo := todo.filterMap Instr.installs

def CacheState.pins (s : CacheState) : List BlockNo :=
  match s.committer with
  | none => s.log.lh
  | some (_, todo) => toInstall todo

/-- How the rest of a commit is laid out. -/
structure Planned (log : Log) (todo : List Instr) : Prop where
  install : ∀ b src, .copy b src true ∈ todo → ¬ InLog log b ∧ b ≠ log.start ∧ src ≠ log.start
  record : ∀ dst src, .copy dst src false ∈ todo → InLog log dst ∧ ¬ InLog log src
  paired : ∀ dst src b, .copy dst src false ∈ todo → .copy b dst true ∈ todo → b = src
  ordered : todo.Pairwise fun x y ↦ x.installs ≠ none → ∀ dst src, y ≠ .copy dst src false
  header : ∀ start lh, .head start lh ∈ todo → start = log.start
  distinct : (toInstall todo).Nodup

/-- Every block that is still to be installed is in the log, or still to be copied there. -/
def Copied (flat : Disk) (todo : List Instr) : Prop :=
  ∀ b src, .copy b src true ∈ todo → .copy src b false ∈ todo ∨ flat src = flat b

variable {log : Log} {instr : Instr} {todo : List Instr} {flat : Disk} {start : BlockNo}
  {tail : ℕ} {lh : List BlockNo}

theorem Planned.of_cons (h : Planned log (instr :: todo)) : Planned log todo := by
  have hmem := fun {x : Instr} (hx : x ∈ todo) ↦ List.mem_cons_of_mem instr hx
  refine ⟨fun b src hx ↦ h.install b src (hmem hx), fun dst src hx ↦ h.record dst src (hmem hx),
    fun dst src b hx hy ↦ h.paired dst src b (hmem hx) (hmem hy), h.ordered.of_cons,
    fun start lh hx ↦ h.header start lh (hmem hx), ?_⟩
  exact h.distinct.sublist ((List.sublist_cons_self instr todo).filterMap Instr.installs)

/-- The blocks of the log from `tail` on, with their places. -/
theorem exists_logBlock_cons {x y b : BlockNo} {c : Prop} :
    (c ∧ x = logBlock start tail ∧ y = b ∨
      c ∧ ∃ i, ∃ h : i < lh.length, x = logBlock start (tail + 1 + i) ∧ y = lh[i]) ↔
    c ∧ ∃ i, ∃ h : i < (b :: lh).length, x = logBlock start (tail + i) ∧ y = (b :: lh)[i] := by
  constructor
  · rintro (⟨hc, rfl, rfl⟩ | ⟨hc, i, hi, rfl, rfl⟩)
    · exact ⟨hc, 0, by simp, rfl, rfl⟩
    · exact ⟨hc, i + 1, by simpa using hi, by rw [Nat.add_right_comm, Nat.add_assoc], rfl⟩
  · rintro ⟨hc, i, hi, rfl, rfl⟩
    cases i with
    | zero => exact .inl ⟨hc, rfl, rfl⟩
    | succ i =>
      exact .inr ⟨hc, i, by simpa using hi, by rw [Nat.add_right_comm, Nat.add_assoc], rfl⟩

theorem mem_writeLog {dst src : BlockNo} {unpin : Bool} :
    .copy dst src unpin ∈ writeLog start tail lh ↔
      unpin = false ∧ ∃ i, ∃ h : i < lh.length, dst = logBlock start (tail + i) ∧ src = lh[i] := by
  induction lh generalizing tail with
  | nil => simp [writeLog]
  | cons b rest ih =>
    rw [← exists_logBlock_cons, writeLog]
    simp [ih, and_assoc, and_comm]

theorem mem_installTrans {dst src : BlockNo} {unpin : Bool} :
    .copy dst src unpin ∈ installTrans start false tail lh ↔
      unpin = true ∧ ∃ i, ∃ h : i < lh.length, src = logBlock start (tail + i) ∧ dst = lh[i] := by
  induction lh generalizing tail with
  | nil => simp [installTrans]
  | cons b rest ih =>
    rw [← exists_logBlock_cons, installTrans]
    simp [ih, and_comm, and_left_comm]

theorem mem_commit {dst src : BlockNo} {unpin : Bool} :
    .copy dst src unpin ∈ commit log ↔ ∃ i, ∃ h : i < log.lh.length,
      unpin = false ∧ dst = logBlock log.start i ∧ src = log.lh[i] ∨
      unpin = true ∧ src = logBlock log.start i ∧ dst = log.lh[i] := by
  by_cases hlen : log.lh.length > 0
  · rw [commit, if_pos hlen]
    simp only [List.mem_append, mem_writeLog, mem_installTrans, writeHead, List.mem_cons,
      reduceCtorEq, List.not_mem_nil, false_or, or_false, Nat.zero_add]
    constructor
    · rintro (⟨rfl, i, hi, rfl, rfl⟩ | ⟨rfl, i, hi, rfl, rfl⟩)
      · exact ⟨i, hi, .inl ⟨rfl, rfl, rfl⟩⟩
      · exact ⟨i, hi, .inr ⟨rfl, rfl, rfl⟩⟩
    · rintro ⟨i, hi, ⟨rfl, rfl, rfl⟩ | ⟨rfl, rfl, rfl⟩⟩
      · exact .inl ⟨rfl, i, hi, rfl, rfl⟩
      · exact .inr ⟨rfl, i, hi, rfl, rfl⟩
  · rw [commit, if_neg hlen]
    refine iff_of_false (by simp) ?_
    rintro ⟨i, hi, -⟩
    omega

theorem toInstall_writeLog : toInstall (writeLog start tail lh) = [] := by
  induction lh generalizing tail with
  | nil => rfl
  | cons b rest ih => simpa [toInstall, writeLog, Instr.installs, List.filterMap_cons] using ih

theorem toInstall_installTrans : toInstall (installTrans start false tail lh) = lh := by
  induction lh generalizing tail with
  | nil => rfl
  | cons b rest ih => simpa [toInstall, installTrans, Instr.installs, List.filterMap_cons] using ih

theorem toInstall_commit (log : Log) : toInstall (commit log) = log.lh := by
  by_cases hlen : log.lh.length > 0
  · have hlog : toInstall (writeLog log.start 0 log.lh) = [] := toInstall_writeLog
    have hinstall : toInstall (installTrans log.start false 0 log.lh) = log.lh :=
      toInstall_installTrans
    rw [toInstall] at hlog hinstall
    rw [commit, if_pos hlen, toInstall]
    simp [List.filterMap_append, List.filterMap_cons, hlog, hinstall, writeHead, Instr.installs]
  · rw [commit, if_neg hlen, List.eq_nil_of_length_eq_zero (by omega : log.lh.length = 0)]
    rfl

theorem head_notMem_writeLog {start' : BlockNo} {lh' : List BlockNo} :
    .head start' lh' ∉ writeLog start tail lh := by
  induction lh generalizing tail with
  | nil => simp [writeLog]
  | cons b rest ih => simpa [writeLog] using ih

theorem head_notMem_installTrans {start' : BlockNo} {lh' : List BlockNo} :
    .head start' lh' ∉ installTrans start false tail lh := by
  induction lh generalizing tail with
  | nil => simp [installTrans]
  | cons b rest ih => simpa [installTrans] using ih

/-- The copies to the log come before the header, the installations after it. -/
theorem pairwise_commit (log : Log) :
    (commit log).Pairwise fun x y ↦ x.installs ≠ none → ∀ dst src, y ≠ .copy dst src false := by
  have hbefore : ∀ x ∈ writeLog log.start 0 log.lh, x.installs = none :=
    List.filterMap_eq_nil_iff.mp toInstall_writeLog
  have hafter : ∀ y ∈ writeHead log.start log.lh ++ (installTrans log.start false 0 log.lh ++
      (.clear :: writeHead log.start [])), ∀ dst src, y ≠ .copy dst src false := by
    rintro y hy dst src rfl
    simp [writeHead, mem_installTrans] at hy
  unfold commit
  split_ifs
  · refine List.pairwise_append.mpr ⟨?_, ?_, fun x hx y hy hinstalls ↦ absurd (hbefore x hx) hinstalls⟩
    · exact List.pairwise_of_forall_mem_list fun x hx y _ hinstalls ↦ absurd (hbefore x hx) hinstalls
    · exact List.pairwise_of_forall_mem_list fun x _ y hy _ ↦ hafter y hy
  · exact .nil

theorem planned_commit (hlog : log.lh = [] ∨ Loggable log) : Planned log (commit log) := by
  have hloggable : ∀ {i}, i < log.lh.length → Loggable log := by
    intro i hi
    refine hlog.resolve_left fun hnil ↦ ?_
    simp [hnil] at hi
  refine ⟨fun b src hx ↦ ?_, fun dst src hx ↦ ?_, fun dst src b hx hy ↦ ?_, ?_, fun start lh hx ↦ ?_,
    ?_⟩
  · obtain ⟨i, hi, ⟨hfalse, -⟩ | ⟨-, rfl, rfl⟩⟩ := mem_commit.mp hx
    · simp at hfalse
    · have h := hloggable hi
      have hout := h.outside _ (List.getElem_mem hi)
      refine ⟨hout, fun heq ↦ hout (heq ▸ inLog_start h), ?_⟩
      exact logBlock_ne_start (Nat.lt_of_lt_of_le hi h.capacity)
  · obtain ⟨i, hi, ⟨-, rfl, rfl⟩ | ⟨hfalse, -⟩⟩ := mem_commit.mp hx
    · have h := hloggable hi
      exact ⟨inLog_logBlock h hi, h.outside _ (List.getElem_mem hi)⟩
    · simp at hfalse
  · obtain ⟨i, hi, ⟨-, rfl, rfl⟩ | ⟨hfalse, -⟩⟩ := mem_commit.mp hx
    · obtain ⟨j, hj, ⟨hfalse, -⟩ | ⟨-, hsame, rfl⟩⟩ := mem_commit.mp hy
      · simp at hfalse
      · have h := hloggable hi
        have hij := logBlock_inj (Nat.lt_of_lt_of_le hi h.capacity)
          (Nat.lt_of_lt_of_le hj h.capacity) hsame
        subst hij
        rfl
    · simp at hfalse
  · exact pairwise_commit log
  · unfold commit at hx
    split_ifs at hx
    · simp only [List.mem_append, head_notMem_writeLog, head_notMem_installTrans, writeHead,
        List.mem_cons, reduceCtorEq, Instr.head.injEq, List.not_mem_nil, false_or, or_false] at hx
      rcases hx with ⟨rfl, -⟩ | ⟨rfl, -⟩
      all_goals rfl
    · simp at hx
  · rw [toInstall_commit]
    rcases hlog with hnil | h
    · rw [hnil]
      exact List.nodup_nil
    · exact h.distinct

/-! ## The invariant -/

/-- What holds while a process commits. -/
structure Committing (s : CacheState) (flat : Disk) (todo : List Instr) : Prop where
  alone : s.log.outstanding = 0
  committing : s.log.committing = true
  planned : Planned s.log todo
  copied : Copied flat todo
  cleared : .clear ∈ todo ∨ s.log.lh = []

structure CacheInv (s : CacheState) (flat : Disk) : Prop where
  books : Books s.cache s.pins s.pc
  contents : Contents s.cache s.disk flat s.pins
  outstanding : s.log.outstanding = ∑ p, if s.inOp p then 1 else 0
  quiet : s.committer = none → s.log.committing = false ∧ (s.log.lh = [] ∨ Loggable s.log)
  commit : ∀ p todo, s.committer = some (p, todo) → Committing s flat todo

variable {s s' : CacheState} {p : Slot} {i j : BufId} {b : BlockNo}

namespace CacheInv

/-- Buffer operations that leave the log and the commit alone. -/
theorem of_cache (h : CacheInv s flat) {cache : Cache} {pc : Slot → BioPc}
    (hbooks : Books cache s.pins pc) (hcontents : Contents cache s.disk flat s.pins) :
    CacheInv { s with cache := cache, pc := pc } flat :=
  ⟨hbooks, hcontents, h.outstanding, h.quiet, fun p todo hc ↦
    let ⟨halone, hcommitting, hplanned, hcopied, hcleared⟩ := h.commit p todo hc
    ⟨halone, hcommitting, hplanned, hcopied, hcleared⟩⟩

/-- A process in an operation keeps the log from being committed. -/
theorem committer_eq_none (h : CacheInv s flat) (hp : s.inOp p = true) : s.committer = none := by
  cases hc : s.committer with
  | none => rfl
  | some x =>
    have hsum : ∑ q, (if s.inOp q then 1 else 0) = 0 :=
      h.outstanding.symm.trans (h.commit x.1 x.2 hc).alone
    have hzero := Finset.sum_eq_zero_iff.mp hsum p (Finset.mem_univ p)
    simp [hp] at hzero

theorem bread (h : CacheInv s flat) (hpc : s.pc p = .ready) (hbread : s.bread p b = some s') :
    CacheInv s' flat := by
  simp only [CacheState.bread, Option.map_eq_some_iff] at hbread
  obtain ⟨⟨i, cache⟩, hget, rfl⟩ := hbread
  unfold bget at hget
  cases hfound : s.cache.lru.find? fun i ↦ (s.cache.buf i).blockno = some b with
  | some j =>
    have hj : (s.cache.buf j).blockno = some b := by simpa using List.find?_some hfound
    rw [hfound] at hget
    obtain ⟨rfl, rfl⟩ := Prod.mk.inj (Option.some.inj hget)
    refine h.of_cache (h.books.found hpc hj) ?_
    exact h.contents.modify _ (fun _ ↦ rfl) (fun _ ↦ rfl) (fun _ ↦ rfl)
  | none =>
    have hnot : ∀ j, (s.cache.buf j).blockno ≠ some b := by
      intro j
      have hj := List.find?_eq_none.mp hfound j (h.books.listed j)
      simpa using hj
    rw [hfound] at hget
    cases hfree : s.cache.lru.reverse.find? fun i ↦ (s.cache.buf i).refcnt = 0 with
    | none => simp [hfree] at hget
    | some j =>
      have hzero : (s.cache.buf j).refcnt = 0 := by simpa using List.find?_some hfree
      simp only [hfree, Option.some.injEq, Prod.mk.injEq] at hget
      obtain ⟨rfl, rfl⟩ := hget
      have hunpinned : b ∉ s.pins := by
        intro hmem
        obtain ⟨k, hk, -⟩ := h.contents.pinned b hmem
        exact hnot k hk
      refine h.of_cache (h.books.recycle hpc hzero hnot hunpinned) ?_
      exact h.contents.recycle (h.books.unneeded hzero).2.2

theorem brelse (h : CacheInv s flat) (hpc : s.pc p = .ready) (hbrelse : s.brelse p i = some s') :
    CacheInv s' flat := by
  simp only [CacheState.brelse, Option.ite_none_right_eq_some, Option.some.injEq] at hbrelse
  obtain ⟨hheld, rfl⟩ := hbrelse
  refine h.of_cache (h.books.release hpc hheld) ?_
  exact h.contents.modify _ (fun _ ↦ rfl) (fun _ ↦ rfl) (fun _ ↦ rfl)

theorem advance (h : CacheInv s flat) (hadvance : s.advance p = some s') : CacheInv s' flat := by
  unfold CacheState.advance at hadvance
  cases hpc : s.pc p with
  | ready => simp [hpc] at hadvance
  | getting i b =>
    simp only [hpc, Option.ite_none_right_eq_some, Option.some.injEq] at hadvance
    obtain ⟨hfree, rfl⟩ := hadvance
    refine h.of_cache (h.books.lock hpc hfree) ?_
    exact h.contents.modify _ (fun _ ↦ rfl) (fun _ ↦ rfl) (fun _ ↦ rfl)
  | locked i b =>
    simp only [hpc, Option.some.injEq] at hadvance
    subst hadvance
    refine h.of_cache (h.books.fill hpc (s.disk b)) ?_
    exact h.contents.fill h.books (h.books.locked p i b hpc).1
  | leaving i =>
    simp only [hpc, Option.some.injEq] at hadvance
    subst hadvance
    refine h.of_cache (h.books.put hpc) ?_
    have hcontents := h.contents.modify (f := Buf.unref) i (fun _ ↦ rfl) (fun _ ↦ rfl)
      (fun _ ↦ rfl)
    simp only [bput]
    split_ifs
    · exact ⟨hcontents.content, hcontents.disk, hcontents.pinned⟩
    · exact hcontents

/-- The contents of a buffer that a process has read and locked. -/
theorem data_eq (h : CacheInv s flat) (hpc : s.pc p ≠ .locked i b)
    (hheld : (s.cache.buf i).holder = some p) (hb : (s.cache.buf i).blockno = some b) :
    (s.cache.buf i).data = flat b := by
  refine h.contents.content i b (h.books.filled p i hheld fun b' hb' ↦ ?_) hb
  obtain ⟨hblock, -⟩ := h.books.locked p i b' hb'
  obtain rfl : b = b' := Option.some.inj (hb.symm.trans hblock)
  exact hpc hb'

theorem beginOp (h : CacheInv s flat) (hp : s.inOp p = false) (hbegin : s.beginOp p = some s') :
    CacheInv s' flat := by
  simp only [CacheState.beginOp, Option.map_eq_some_iff] at hbegin
  obtain ⟨log, hlog, rfl⟩ := hbegin
  unfold Logging.beginOp at hlog
  split_ifs at hlog with hcommitting hfull
  obtain rfl := Option.some.inj hlog
  have hsum := Arith.sum_update_add (fun x : Bool ↦ if x then 1 else 0) s.inOp p true
  refine ⟨h.books, h.contents, ?_, fun hc ↦ ?_, fun q todo hc ↦ ?_⟩
  · simp only [hp, Bool.false_eq_true, if_false, if_true, Nat.add_zero] at hsum
    rw [hsum, h.outstanding]
  · obtain ⟨hquiet, hlh⟩ := h.quiet hc
    exact ⟨hquiet, hlh.imp_right fun hl ↦ ⟨hl.distinct, hl.outside, hl.fits, hl.capacity⟩⟩
  · exact absurd (h.commit q todo hc).committing hcommitting

theorem endOp (h : CacheInv s flat) (hp : s.inOp p = true) (hend : s.endOp p = some s') :
    CacheInv s' flat := by
  have hnone := h.committer_eq_none hp
  obtain ⟨hquiet, hlh⟩ := h.quiet hnone
  have hpins : s.pins = s.log.lh := by rw [CacheState.pins, hnone]
  simp only [CacheState.endOp, Option.map_eq_some_iff, Fallible.toOption_eq_some] at hend
  obtain ⟨⟨doCommit, log⟩, hlog, rfl⟩ := hend
  have hsum := Arith.sum_update_add (fun x : Bool ↦ if x then 1 else 0) s.inOp p false
  simp only [hp, Bool.false_eq_true, if_false, if_true, Nat.add_zero] at hsum
  have houtstanding := h.outstanding
  simp only [Logging.endOp, hquiet, Bool.false_eq_true, if_false] at hlog
  split_ifs at hlog with hzero
  · obtain ⟨rfl, rfl⟩ := Prod.mk.inj (Except.ok.inj hlog)
    have hbooks := h.books
    have hcontents := h.contents
    rw [hpins] at hbooks hcontents
    refine ⟨?_, ?_, by dsimp only; omega, fun hc ↦ (by simp at hc), fun q todo hc ↦ ?_⟩
    · simpa [CacheState.pins, toInstall_commit] using hbooks
    · simpa [CacheState.pins, toInstall_commit] using hcontents
    · simp only [if_true, Option.some.injEq, Prod.mk.injEq] at hc
      obtain ⟨rfl, rfl⟩ := hc
      refine ⟨hzero, rfl, planned_commit ?_, fun b src hx ↦ .inl ?_, ?_⟩
      · exact hlh.imp_right fun hl ↦ ⟨hl.distinct, hl.outside, hl.fits, hl.capacity⟩
      · obtain ⟨i, hi, ⟨hfalse, -⟩ | ⟨-, rfl, rfl⟩⟩ := mem_commit.mp hx
        · simp at hfalse
        · exact mem_commit.mpr ⟨i, hi, .inl ⟨rfl, rfl, rfl⟩⟩
      · exact clear_mem_commit _
  · obtain ⟨rfl, rfl⟩ := Prod.mk.inj (Except.ok.inj hlog)
    refine ⟨h.books, h.contents, by dsimp only; omega, fun _ ↦ ⟨rfl, ?_⟩, fun q todo hc ↦ ?_⟩
    · exact hlh.imp_right fun hl ↦ ⟨hl.distinct, hl.outside, hl.fits, hl.capacity⟩
    · simp [hnone] at hc

theorem update {data : Block} (h : CacheInv s flat) (hp : s.inOp p = true) (hpc : s.pc p = .ready)
    (hspares : ∀ b, (s.cache.buf i).blockno = some b → ¬ InLog s.log b)
    (hupdate : s.update p i data = some s') :
    ∃ b, (s.cache.buf i).blockno = some b ∧ CacheInv s' (Function.update flat b data) := by
  have hnone := h.committer_eq_none hp
  obtain ⟨hquiet, hlh⟩ := h.quiet hnone
  have hpins : s.pins = s.log.lh := by rw [CacheState.pins, hnone]
  simp only [CacheState.update, Option.ite_none_right_eq_some, Option.bind_eq_some_iff,
    Option.map_eq_some_iff, Fallible.toOption_eq_some] at hupdate
  obtain ⟨hheld, b, hb, ⟨pinned, log⟩, hwrite, rfl⟩ := hupdate
  refine ⟨b, hb, ?_⟩
  have hvalid : (s.cache.buf i).valid = true := h.books.filled p i hheld (by simp [hpc])
  have hbooks := h.books.setData hpc i data
  unfold logWrite at hwrite
  split_ifs at hwrite with hfull hout hmem
  · -- the block is in the log already
    obtain ⟨rfl, rfl⟩ := Prod.mk.inj (Except.ok.inj hwrite)
    have hcontents : Contents (s.cache.modify i (Buf.setData data)) s.disk
        (Function.update flat b data) s.pins := by
      refine h.contents.setData h.books hb hvalid data (fun _ ↦ .inl) fun b' hb' ↦ ?_
      rw [Function.update_of_ne (by rintro rfl; exact hb' (hpins ▸ hmem)), h.contents.disk b' hb']
    refine ⟨hbooks, hcontents, h.outstanding, h.quiet, fun q todo hc ↦ ?_⟩
    simp [hnone] at hc
  · obtain ⟨rfl, rfl⟩ := Prod.mk.inj (Except.ok.inj hwrite)
    have hcontents : Contents (s.cache.modify i (Buf.setData data)) s.disk
        (Function.update flat b data) (s.log.lh ++ [b]) := by
      refine h.contents.setData h.books hb hvalid data (fun b' hb' ↦ ?_) fun b' hb' ↦ ?_
      · rw [hpins]
        simpa using hb'
      · rw [List.mem_append, not_or, List.mem_singleton] at hb'
        rw [Function.update_of_ne hb'.2, h.contents.disk b' (hpins ▸ hb'.1)]
    rw [hpins] at hbooks
    have hbooks' := hbooks.pin (i := i) (b := b) hpc (by simpa [Buf.setData] using hb) hmem
    have hcontents' := hcontents.modify (f := Buf.ref) i (fun _ ↦ rfl) (fun _ ↦ rfl) (fun _ ↦ rfl)
    refine ⟨?_, ?_, h.outstanding, fun _ ↦ ⟨hquiet, .inr ?_⟩, fun q todo hc ↦ ?_⟩
    · simpa [CacheState.pins, hnone] using hbooks'
    · simpa [CacheState.pins, hnone] using hcontents'
    · exact loggable_append hlh hmem (hspares b hb) hfull
    · simp [hnone] at hc

theorem heldBuf_eq_some (hi : s.heldBuf p b = some i) :
    (s.cache.buf i).blockno = some b ∧ (s.cache.buf i).holder = some p := by
  simpa using List.find?_some hi

/-- What is left of a commit after an operation that copies nothing. -/
theorem copied_of_cons (h : Copied flat (instr :: todo))
    (hinstr : ∀ dst src unpin, instr ≠ .copy dst src unpin) : Copied flat todo := by
  intro b src hx
  rcases h b src (List.mem_cons_of_mem _ hx) with hy | hy
  · exact .inl ((List.mem_cons.mp hy).resolve_left fun heq ↦ hinstr _ _ _ heq.symm)
  · exact .inr hy

theorem toInstall_cons (h : instr.installs = none) : toInstall (instr :: todo) = toInstall todo := by
  rw [toInstall, toInstall, List.filterMap_cons_none h]

/-- A commit goes on to its next operation, when this one is a buffer operation. -/
theorem pop (h : CacheInv s flat) (hc : s.committer = some (p, instr :: todo))
    (hinstr : ∀ dst src unpin, instr ≠ .copy dst src unpin) (hclear : instr ≠ .clear) :
    CacheInv { s with committer := some (p, todo) } flat := by
  obtain ⟨halone, hcommitting, hplanned, hcopied, hcleared⟩ := h.commit p _ hc
  have hinstalls : instr.installs = none := by
    cases instr with
    | copy dst src unpin => exact absurd rfl (hinstr dst src unpin)
    | _ => rfl
  have hpins : s.pins = toInstall todo := by
    simp only [CacheState.pins, hc]
    exact toInstall_cons hinstalls
  have hbooks := h.books
  have hcontents := h.contents
  rw [hpins] at hbooks hcontents
  refine ⟨hbooks, hcontents, h.outstanding, fun hnone ↦ (by simp at hnone), fun q todo' hc' ↦ ?_⟩
  obtain ⟨rfl, rfl⟩ := Prod.mk.inj (Option.some.inj hc')
  refine ⟨halone, hcommitting, hplanned.of_cons, copied_of_cons hcopied hinstr, ?_⟩
  refine hcleared.imp_left fun hmem ↦ ?_
  exact (List.mem_cons.mp hmem).resolve_left hclear.symm

theorem pins_of_commit (hc : s.committer = some (p, todo)) : s.pins = toInstall todo := by
  rw [CacheState.pins, hc]

/-- A write of `commit` to a block of the log. -/
theorem write (h : CacheInv s flat) (hc : s.committer = some (p, instr :: todo))
    (hpc : s.pc p = .ready) (hi : s.heldBuf p b = some i) (v : Block)
    (hinstalls : instr.installs = none) (hclear : instr ≠ .clear)
    (hcopied : Copied (Function.update flat b v) todo) :
    CacheInv ({ s with committer := some (p, todo) }.write i b v) (Function.update flat b v) := by
  obtain ⟨halone, hcommitting, hplanned, -, hcleared⟩ := h.commit p _ hc
  obtain ⟨hblock, hheld⟩ := heldBuf_eq_some hi
  have hpins : s.pins = toInstall todo := (pins_of_commit hc).trans (toInstall_cons hinstalls)
  have hvalid := h.books.filled p i hheld (by simp [hpc])
  have hbooks := h.books.setData hpc i v
  have hcontents : Contents (s.cache.modify i (Buf.setData v)) (Function.update s.disk b v)
      (Function.update flat b v) s.pins := by
    refine h.contents.setData h.books hblock hvalid v (fun _ ↦ .inl) fun b' hb' ↦ ?_
    by_cases hbb : b' = b
    · rw [hbb, Function.update_self, Function.update_self]
    · rw [Function.update_of_ne hbb, Function.update_of_ne hbb, h.contents.disk b' hb']
  rw [hpins] at hbooks hcontents
  refine ⟨hbooks, hcontents, h.outstanding, fun hnone ↦ (by simp [CacheState.write] at hnone),
    fun q todo' hc' ↦ ?_⟩
  obtain ⟨rfl, rfl⟩ := Prod.mk.inj (Option.some.inj hc')
  refine ⟨halone, hcommitting, hplanned.of_cons, hcopied, hcleared.imp_left fun hmem ↦ ?_⟩
  exact (List.mem_cons.mp hmem).resolve_left hclear.symm

/-- `write_log` copies a block to the log. -/
theorem record {dst src : BlockNo} (h : CacheInv s flat)
    (hc : s.committer = some (p, .copy dst src false :: todo)) (hpc : s.pc p = .ready)
    (hi : s.heldBuf p dst = some i) (hj : s.heldBuf p src = some j) :
    CacheInv ({ s with committer := some (p, todo) }.write i dst (s.cache.buf j).data)
      (Function.update flat dst (s.cache.buf j).data) := by
  obtain ⟨-, -, hplanned, hcopied, -⟩ := h.commit p _ hc
  obtain ⟨hin, -⟩ := hplanned.record dst src List.mem_cons_self
  obtain ⟨hjblock, hjheld⟩ := heldBuf_eq_some hj
  have hdata : (s.cache.buf j).data = flat src := h.data_eq (by simp [hpc]) hjheld hjblock
  refine h.write hc hpc hi _ rfl (by simp) ?_
  intro b l hx
  have hmem := List.mem_cons_of_mem (Instr.copy dst src false) hx
  obtain ⟨hbout, -⟩ := hplanned.install b l hmem
  have hbdst : b ≠ dst := fun heq ↦ hbout (heq ▸ hin)
  by_cases hl : l = dst
  · right
    obtain rfl := hplanned.paired dst src b List.mem_cons_self (hl ▸ hmem)
    rw [hl, Function.update_self, Function.update_of_ne hbdst, hdata]
  · rcases hcopied b l hmem with hy | hy
    · refine .inl ((List.mem_cons.mp hy).resolve_left fun heq ↦ hl ?_)
      exact (Instr.copy.inj heq).1
    · right
      rw [Function.update_of_ne hl, Function.update_of_ne hbdst, hy]

/-- `write_head` -/
theorem head {start : BlockNo} {lh : List BlockNo} (h : CacheInv s flat)
    (hc : s.committer = some (p, .head start lh :: todo)) (hpc : s.pc p = .ready)
    (hi : s.heldBuf p start = some i) (v : Block) :
    CacheInv ({ s with committer := some (p, todo) }.write i start v)
      (Function.update flat start v) := by
  obtain ⟨-, -, hplanned, hcopied, -⟩ := h.commit p _ hc
  obtain rfl := hplanned.header start lh List.mem_cons_self
  refine h.write hc hpc hi v rfl (by simp) ?_
  intro b l hx
  obtain ⟨-, hb, hl⟩ := hplanned.of_cons.install b l hx
  rw [Function.update_of_ne hl, Function.update_of_ne hb]
  exact copied_of_cons hcopied (by simp) b l hx

/-- `install_trans` writes a block to its home, which holds nothing new, and unpins it. -/
theorem install {dst src : BlockNo} (h : CacheInv s flat)
    (hc : s.committer = some (p, .copy dst src true :: todo)) (hpc : s.pc p = .ready)
    (hi : s.heldBuf p dst = some i) (hj : s.heldBuf p src = some j) :
    CacheInv { ({ s with committer := some (p, todo) }.write i dst (s.cache.buf j).data) with
      cache := (s.cache.modify i (Buf.setData (s.cache.buf j).data)).modify i Buf.unref } flat := by
  obtain ⟨halone, hcommitting, hplanned, hcopied, hcleared⟩ := h.commit p _ hc
  obtain ⟨hjblock, hjheld⟩ := heldBuf_eq_some hj
  obtain ⟨hiblock, hiheld⟩ := heldBuf_eq_some hi
  have hpins : s.pins = dst :: toInstall todo := pins_of_commit hc
  have hnotMem : dst ∉ toInstall todo := (List.nodup_cons.mp hplanned.distinct).1
  -- the copies to the log are over
  have hsame : flat src = flat dst := by
    refine (hcopied dst src List.mem_cons_self).resolve_left fun hy ↦ ?_
    have hrest := (List.mem_cons.mp hy).resolve_left (by simp)
    exact (List.pairwise_cons.mp hplanned.ordered).1 _ hrest (by simp [Instr.installs]) src dst rfl
  have hdata : (s.cache.buf j).data = flat dst :=
    (h.data_eq (by simp [hpc]) hjheld hjblock).trans hsame
  have hbooks := h.books.setData hpc i (s.cache.buf j).data
  rw [hpins] at hbooks
  have hbooks' := hbooks.unpin (i := i) hpc (by simpa [Buf.setData] using hiblock) hnotMem
  have hcontents : Contents (s.cache.modify i (Buf.setData (s.cache.buf j).data))
      (Function.update s.disk dst (s.cache.buf j).data) flat (toInstall todo) := by
    have hvalid := h.books.filled p i hiheld (by simp [hpc])
    have hflat : Function.update flat dst (s.cache.buf j).data = flat := by
      rw [hdata, Function.update_eq_self]
    rw [← hflat]
    refine h.contents.setData h.books hiblock hvalid _ (fun b hb ↦ .inl ?_) fun b hb ↦ ?_
    · rw [hpins]
      exact List.mem_cons_of_mem _ hb
    · by_cases hbdst : b = dst
      · rw [hbdst, Function.update_self, Function.update_self]
      · rw [Function.update_of_ne hbdst, Function.update_of_ne hbdst, h.contents.disk b]
        rw [hpins]
        exact fun hmem ↦ (List.mem_cons.mp hmem).elim hbdst hb
  have hcontents' := hcontents.modify (f := Buf.unref) i (fun _ ↦ rfl) (fun _ ↦ rfl) (fun _ ↦ rfl)
  refine ⟨hbooks', hcontents', h.outstanding, fun hnone ↦ (by simp [CacheState.write] at hnone),
    fun q todo' hc' ↦ ?_⟩
  obtain ⟨rfl, rfl⟩ := Prod.mk.inj (Option.some.inj hc')
  refine ⟨halone, hcommitting, hplanned.of_cons, fun b l hx ↦ ?_, hcleared.imp_left fun hmem ↦ ?_⟩
  · rcases hcopied b l (List.mem_cons_of_mem _ hx) with hy | hy
    · exact .inl ((List.mem_cons.mp hy).resolve_left (by simp))
    · exact .inr hy
  · exact (List.mem_cons.mp hmem).resolve_left (by simp)

theorem clear (h : CacheInv s flat) (hc : s.committer = some (p, .clear :: todo)) :
    CacheInv { s with committer := some (p, todo), log := { s.log with lh := [] } } flat := by
  obtain ⟨halone, hcommitting, hplanned, hcopied, -⟩ := h.commit p _ hc
  have hpins : s.pins = toInstall todo := (pins_of_commit hc).trans (toInstall_cons rfl)
  have hbooks := h.books
  have hcontents := h.contents
  rw [hpins] at hbooks hcontents
  refine ⟨hbooks, hcontents, h.outstanding, fun hnone ↦ (by simp at hnone), fun q todo' hc' ↦ ?_⟩
  obtain ⟨rfl, rfl⟩ := Prod.mk.inj (Option.some.inj hc')
  have hrest := hplanned.of_cons
  exact ⟨halone, hcommitting,
    ⟨hrest.install, hrest.record, hrest.paired, hrest.ordered, hrest.header, hrest.distinct⟩,
    copied_of_cons hcopied (by simp), .inr rfl⟩

theorem finish (h : CacheInv s flat) (hc : s.committer = some (p, [])) :
    CacheInv { s with log := { s.log with committing := false }, committer := none } flat := by
  obtain ⟨-, -, -, -, hcleared⟩ := h.commit p _ hc
  have hlh : s.log.lh = [] := hcleared.resolve_left (by simp)
  have hpins : s.pins = s.log.lh := (pins_of_commit hc).trans hlh.symm
  have hbooks := h.books
  have hcontents := h.contents
  rw [hpins] at hbooks hcontents
  exact ⟨hbooks, hcontents, h.outstanding, fun _ ↦ ⟨rfl, .inl hlh⟩, fun q todo' hc' ↦ by simp at hc'⟩

theorem commitStep (h : CacheInv s flat) (hstep : s.commitStep = some s') :
    CacheInv s' (recordChange flat s .commit) := by
  simp only [CacheState.commitStep, Option.bind_eq_some_iff, Option.ite_none_right_eq_some] at hstep
  obtain ⟨⟨p, todo⟩, hc, hpc, hstep⟩ := hstep
  generalize hrecord : recordChange flat s .commit = changed
  simp only [recordChange, changeOf, hc, Option.bind_some] at hrecord
  cases todo with
  | nil =>
    obtain rfl := Option.some.inj hstep
    rw [← hrecord]
    exact h.finish hc
  | cons instr rest =>
    cases instr with
    | bread b =>
      rw [← hrecord]
      exact (h.pop hc (by simp) (by simp)).bread hpc hstep
    | brelse b =>
      rw [← hrecord]
      simp only [CacheState.runInstr, Option.bind_eq_some_iff] at hstep
      obtain ⟨i, -, hstep⟩ := hstep
      exact (h.pop hc (by simp) (by simp)).brelse hpc hstep
    | clear =>
      rw [← hrecord]
      obtain rfl := Option.some.inj hstep
      exact h.clear hc
    | head start lh =>
      simp only [CacheState.runInstr, Option.map_eq_some_iff] at hstep
      obtain ⟨i, hi, rfl⟩ := hstep
      have hi' : s.heldBuf p start = some i := hi
      simp only [hi', Option.map_some] at hrecord
      rw [← hrecord]
      exact h.head hc hpc hi _
    | copy dst src unpin =>
      simp only [CacheState.runInstr, Option.bind_eq_some_iff, Option.map_eq_some_iff] at hstep
      obtain ⟨i, hi, j, hj, rfl⟩ := hstep
      have hj' : s.heldBuf p src = some j := hj
      cases unpin with
      | false =>
        simp only [hj', Option.map_some] at hrecord
        rw [← hrecord]
        exact h.record hc hpc hi hj
      | true =>
        rw [← hrecord]
        exact h.install hc hpc hi hj

theorem next {size : ℕ} {disk : Disk} {e : CacheEvent} (h : CacheInv s flat)
    (hspares : SparesLog (s, flat) e) (hnext : (bufferCache start size disk).next s e = some s') :
    CacheInv s' (recordChange flat s e) := by
  cases e with
  | beginOp p =>
    simp only [bufferCache, Option.ite_none_right_eq_some] at hnext
    exact h.beginOp hnext.1.2 hnext.2
  | endOp p =>
    simp only [bufferCache, Option.ite_none_right_eq_some] at hnext
    exact h.endOp hnext.1.2 hnext.2
  | bread p b =>
    simp only [bufferCache, Option.ite_none_right_eq_some] at hnext
    exact h.bread hnext.1.1 hnext.2
  | advance p => exact h.advance hnext
  | update p i data =>
    simp only [bufferCache, Option.ite_none_right_eq_some] at hnext
    obtain ⟨b, hb, hinv⟩ := h.update hnext.1.2 hnext.1.1.1 hspares hnext.2
    simpa only [recordChange, changeOf, hb, Option.map_some] using hinv
  | brelse p i =>
    simp only [bufferCache, Option.ite_none_right_eq_some] at hnext
    exact h.brelse hnext.1.1 hnext.2
  | commit => exact h.commitStep hnext

end CacheInv

theorem cacheInv_start (start : BlockNo) (size : ℕ) (disk : Disk) :
    CacheInv (bufferCache start size disk).start disk := by
  refine ⟨⟨fun i ↦ ?_, fun i j b hi ↦ ?_, fun i ↦ ?_, fun p i b hp ↦ ?_, fun p i b hp ↦ ?_,
    fun p i hp ↦ ?_⟩, ⟨fun i b hi ↦ ?_, fun _ _ ↦ rfl, fun b hb ↦ ?_⟩, ?_, fun _ ↦ ⟨rfl, .inl rfl⟩,
    fun p todo hc ↦ ?_⟩
  · simp [bufferCache, binit]
  · simp [bufferCache, binit] at hi
  · simp [bufferCache, binit, Buf.held, BioPc.stake, pinCount]
  · simp [bufferCache] at hp
  · simp [bufferCache] at hp
  · simp [bufferCache, binit] at hp
  · simp [bufferCache, binit] at hi
  · simp [bufferCache, CacheState.pins] at hb
  · simp [bufferCache]
  · simp [bufferCache] at hc

/-- In every run on every disk, in which operations change no block of the log: a buffer that `bread`
has returned for block `b` holds what the last change of `b` has left. -/
theorem bread_returns_last_change {start : BlockNo} {size : ℕ} {disk : Disk}
    {o : CacheState × Disk} (ho : (observedCache start size disk).Reachable SparesLog o) {p : Slot}
    {i : BufId} {b : BlockNo} (hreturned : Returned o.1 p i b) :
    (o.1.cache.buf i).data = o.2 b := by
  have hinv : CacheInv o.1 o.2 := by
    refine ho.invariant (fun o ↦ CacheInv o.1 o.2) (cacheInv_start start size disk) ?_
    intro o e o' h hspares hnext
    obtain ⟨hstep, hrecord⟩ := System.withHistory_next.mp hnext
    rw [hrecord]
    exact h.next hspares hstep
  exact hinv.data_eq hreturned.2.2 hreturned.1 hreturned.2.1

instance (log : Log) (b : BlockNo) : Decidable (InLog log b) :=
  inferInstanceAs (Decidable (∃ i < log.size, b = log.start + UInt32.ofNat i))

instance (o : CacheState × Disk) : (e : CacheEvent) → Decidable (SparesLog o e)
  | .update _ i _ =>
    match h : (o.1.cache.buf i).blockno with
    | none => isTrue fun b hb ↦ by simp [h] at hb
    | some b => decidable_of_iff (¬ InLog o.1.log b)
        ⟨fun hout b' hb' ↦ by rwa [← Option.some.inj (h.symm.trans hb')], fun hout ↦ hout b h⟩
  | .beginOp _ | .endOp _ | .bread _ _ | .advance _ | .brelse _ _ | .commit =>
    inferInstanceAs (Decidable True)

instance (s : CacheState) (p : Slot) (i : BufId) (b : BlockNo) : Decidable (Returned s p i b) :=
  inferInstanceAs (Decidable (_ ∧ _ ∧ _))

def commitEvents (p : Slot) : List Instr → List CacheEvent
  | [] => [.commit]
  | .bread _ :: rest => .commit :: .advance p :: .advance p :: commitEvents p rest
  | .brelse _ :: rest => .commit :: .advance p :: commitEvents p rest
  | _ :: rest => .commit :: commitEvents p rest

/-- Process 0 changes block 40 and commits, then process 1 reads the block. -/
def changeAndCommit : List CacheEvent :=
  [CacheEvent.beginOp 0, .bread 0 40, .advance 0, .advance 0, .update 0 0 fun _ ↦ 7, .brelse 0 0,
    .advance 0, .endOp 0] ++ (commitEvents 0 (commit ⟨2, 30, 0, true, [40]⟩) ++
      [CacheEvent.bread 1 40, .advance 1, .advance 1])

set_option maxRecDepth 100000 in
theorem bread_returns_last_change_committed :
    ∃ o, (observedCache 2 30 fun _ _ ↦ 0).Reachable SparesLog o ∧ o.1.committer = none ∧
      o.1.disk 40 0 = 7 ∧ Returned o.1 1 0 40 ∧ (o.1.cache.buf 0).data = o.2 40 := by
  obtain ⟨o, ho, hdone, hdisk, hreturned⟩ := (observedCache 2 30 fun _ _ ↦ 0).exists_reachable
    SparesLog (fun o ↦ o.1.committer = none ∧ o.1.disk 40 0 = 7 ∧ Returned o.1 1 0 40)
    changeAndCommit (by decide +kernel)
  exact ⟨o, ho, hdone, hdisk, hreturned, bread_returns_last_change ho hreturned⟩

/-- In every such run a block is in one buffer at most, the reference count of a buffer is the number
of processes that use it and of pins, and only blocks that are pinned differ from those on the disk. -/
theorem cache_accounts {start : BlockNo} {size : ℕ} {disk : Disk} {o : CacheState × Disk}
    (ho : (observedCache start size disk).Reachable SparesLog o) :
    (∀ i j b, (o.1.cache.buf i).blockno = some b → (o.1.cache.buf j).blockno = some b → i = j) ∧
      (∀ i, (o.1.cache.buf i).refcnt = ∑ p, (o.1.pc p).stake i + (o.1.cache.buf i).held +
        pinCount o.1.pins (o.1.cache.buf i).blockno) ∧ ∀ b ∉ o.1.pins, o.1.disk b = o.2 b := by
  have hinv : CacheInv o.1 o.2 := by
    refine ho.invariant (fun o ↦ CacheInv o.1 o.2) (cacheInv_start start size disk) ?_
    intro o e o' h hspares hnext
    obtain ⟨hstep, hrecord⟩ := System.withHistory_next.mp hnext
    exact hrecord ▸ h.next hspares hstep
  exact ⟨hinv.books.unique, hinv.books.count, hinv.contents.disk⟩

theorem cache_accounts_pinned : ∃ o, (observedCache 2 30 fun _ _ ↦ 0).Reachable SparesLog o ∧
    o.1.disk 40 0 ≠ o.2 40 0 ∧ 40 ∈ o.1.pins := by
  obtain ⟨o, ho, hdisk⟩ := (observedCache 2 30 fun _ _ ↦ 0).exists_reachable SparesLog
    (fun o ↦ o.1.disk 40 0 ≠ o.2 40 0)
    [.beginOp 0, .bread 0 40, .advance 0, .advance 0, .update 0 0 fun _ ↦ 7] (by decide +kernel)
  exact ⟨o, ho, hdisk, by_contra fun h ↦ hdisk (congrFun ((cache_accounts ho).2.2 40 h) 0)⟩

end EnhancedXv6.Logging
