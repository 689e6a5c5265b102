import EnhancedXv6.Logging.Model

/-!
# Crashes during commit and recovery

The writes that `commit` and `recover_from_log` issue, and what a machine finds on the disk that
stopped after some of them.  Once the header of a commit is on the disk, the writes that are left are
those that recovery would issue; a recovery that is interrupted leaves a disk from which recovery
issues the same writes again.
-/

namespace EnhancedXv6.Logging

open Storage

def Instr.writes (m : Disk) : Instr → List (BlockNo × Block)
  | .copy dst src _ => [(dst, m src)]
  | .head start lh => [(start, putHeader lh (m start))]
  | .bread _ | .brelse _ | .clear => []

/-- The disk writes of a program that runs alone. -/
def writesOf : List Instr → Disk → List (BlockNo × Block)
  | [], _ => []
  | i :: rest, m => i.writes m ++ writesOf rest (applyWrites m (i.writes m))

def commitWrites (log : Log) (cache : Disk) : List (BlockNo × Block) := writesOf (commit log) cache

def recoverWrites (start : BlockNo) (disk : Disk) : List (BlockNo × Block) :=
  writesOf (recoverFromLog start disk) disk

/-- The disk after `recover_from_log` was stopped after `n` of its writes. -/
def crashedRecovery (start : BlockNo) (disk : Disk) (n : ℕ) : Disk :=
  applyWrites disk ((recoverWrites start disk).take n)

def recovered (start : BlockNo) (disk : Disk) : Disk :=
  applyWrites disk (recoverWrites start disk)

theorem writesOf_append (p q : List Instr) (m : Disk) :
    writesOf (p ++ q) m = writesOf p m ++ writesOf q (applyWrites m (writesOf p m)) := by
  induction p generalizing m with
  | nil => rfl
  | cons i p ih =>
    rw [List.cons_append, writesOf, ih, writesOf, applyWrites_append, List.append_assoc]

/-! ## What the loops write -/

def logWrites (start : BlockNo) (new : Disk) : ℕ → List BlockNo → List (BlockNo × Block)
  | _, [] => []
  | tail, b :: rest => (logBlock start tail, new b) :: logWrites start new (tail + 1) rest

def homeWrites (new : Disk) (lh : List BlockNo) : List (BlockNo × Block) :=
  lh.map fun b ↦ (b, new b)

/-- The blocks of the log from entry `tail` on hold the new contents of `lh`. -/
def Holds (start : BlockNo) (new m : Disk) (tail : ℕ) (lh : List BlockNo) : Prop :=
  ∀ w ∈ logWrites start new tail lh, m w.1 = w.2

variable {start : BlockNo} {old new m m' d : Disk} {tail n : ℕ} {lh : List BlockNo}

theorem map_fst_logWrites (start : BlockNo) (new : Disk) (tail : ℕ) (lh : List BlockNo) :
    (logWrites start new tail lh).map Prod.fst =
      (List.range' tail lh.length).map (logBlock start) := by
  induction lh generalizing tail with
  | nil => rfl
  | cons b rest ih => simp [logWrites, ih, List.range'_succ]

theorem length_logWrites (start : BlockNo) (new : Disk) (tail : ℕ) (lh : List BlockNo) :
    (logWrites start new tail lh).length = lh.length := by
  simpa using congrArg List.length (map_fst_logWrites start new tail lh)

theorem map_fst_homeWrites (new : Disk) (lh : List BlockNo) :
    (homeWrites new lh).map Prod.fst = lh := by
  simp [homeWrites, Function.comp_def]

theorem mem_logWrites {w : BlockNo × Block} (hw : w ∈ logWrites start new tail lh) :
    ∃ i, tail ≤ i ∧ i < tail + lh.length ∧ w.1 = logBlock start i := by
  have hfst : w.1 ∈ (logWrites start new tail lh).map Prod.fst := List.mem_map_of_mem hw
  rw [map_fst_logWrites, List.mem_map] at hfst
  obtain ⟨i, hi, hlog⟩ := hfst
  rw [List.mem_range'_1] at hi
  exact ⟨i, hi.1, hi.2, hlog.symm⟩

theorem Holds.congr (h : Holds start new m tail lh)
    (hsame : ∀ i < tail + lh.length, m' (logBlock start i) = m (logBlock start i)) :
    Holds start new m' tail lh := by
  intro w hw
  obtain ⟨i, -, hlt, hlog⟩ := mem_logWrites hw
  rw [hlog, hsame i hlt, ← hlog]
  exact h w hw

theorem holds_applyWrites (hlen : tail + lh.length ≤ LOGSIZE) (m : Disk) :
    Holds start new (applyWrites m (logWrites start new tail lh)) tail lh := by
  intro w hw
  refine applyWrites_of_mem ?_ hw
  rw [map_fst_logWrites]
  refine List.Nodup.map_on (fun i hi j hj hij ↦ ?_) List.nodup_range'
  rw [List.mem_range'_1] at hi hj
  exact logBlock_inj (by omega) (by omega) hij

theorem writesOf_writeLog (hdisjoint : ∀ b ∈ lh, ∀ i < tail + lh.length, b ≠ logBlock start i)
    (hnew : ∀ b ∈ lh, m b = new b) :
    writesOf (writeLog start tail lh) m = logWrites start new tail lh := by
  induction lh generalizing tail m with
  | nil => rfl
  | cons b rest ih =>
    rw [List.length_cons] at hdisjoint
    have hrest : writesOf (writeLog start (tail + 1) rest)
        (Function.update m (logBlock start tail) (new b)) = logWrites start new (tail + 1) rest := by
      refine ih (fun b' hb' i hi ↦ hdisjoint b' (List.mem_cons_of_mem _ hb') i (by omega)) ?_
      intro b' hb'
      have hmem := List.mem_cons_of_mem b hb'
      rw [Function.update_of_ne (hdisjoint b' hmem tail (by omega)), hnew b' hmem]
    have hb : m b = new b := hnew b List.mem_cons_self
    simp [writeLog, writesOf, Instr.writes, logWrites, hb, hrest]

theorem writesOf_installTrans ( recovering : Bool)
    (hdisjoint : ∀ b ∈ lh, ∀ i < tail + lh.length, b ≠ logBlock start i)
    (hholds : Holds start new m tail lh) :
    writesOf (installTrans start recovering tail lh) m = homeWrites new lh := by
  induction lh generalizing tail m with
  | nil => rfl
  | cons b rest ih =>
    rw [List.length_cons] at hdisjoint
    have hb : m (logBlock start tail) = new b := hholds _ List.mem_cons_self
    have hrest : writesOf (installTrans start recovering (tail + 1) rest)
        (Function.update m b (new b)) = homeWrites new rest := by
      refine ih (fun b' hb' i hi ↦ hdisjoint b' (List.mem_cons_of_mem _ hb') i (by omega)) ?_
      have htail : Holds start new m (tail + 1) rest :=
        fun w hw ↦ hholds w (List.mem_cons_of_mem _ hw)
      refine htail.congr fun i hi ↦ Function.update_of_ne ?_ _ _
      exact (hdisjoint b List.mem_cons_self i (by omega)).symm
    simp [installTrans, writesOf, Instr.writes, homeWrites, hb, hrest]

/-! ## Disks after a crash -/

structure Clean (log : Log) (c d : Disk) : Prop where
  header : headerCount (d log.start) = 0
  contents : ∀ b, ¬ InLog log b → d b = c b

/-- A log with the new contents of its blocks, whatever the blocks themselves hold. -/
structure Committed (log : Log) (old new d : Disk) : Prop where
  header : headerBlocks (d log.start) = log.lh
  holds : Holds log.start new d 0 log.lh
  others : ∀ b, b ∉ log.lh → ¬ InLog log b → d b = old b

/-- The disk with all blocks of the transaction at their new contents. -/
def installed (log : Log) (old new : Disk) : Disk := fun b ↦ if b ∈ log.lh then new b else old b

variable {log : Log} {c : Disk}

theorem Clean.recoverWrites_eq (hclean : Clean log c d) :
    recoverWrites log.start d = [(log.start, putHeader [] (d log.start))] := by
  rw [recoverWrites, recoverFromLog, headerBlocks_of_count hclean.header]
  rfl

theorem Committed.recoverWrites_eq (hlog : Loggable log) (hd : Committed log old new d) :
    recoverWrites log.start d =
      homeWrites new log.lh ++ [(log.start, putHeader [] (d log.start))] := by
  have hinstall := writesOf_installTrans true hlog.ne_logBlock hd.holds
  have hstart : log.start ∉ (homeWrites new log.lh).map Prod.fst := by
    rw [map_fst_homeWrites]
    exact fun h ↦ hlog.outside _ h (inLog_start hlog)
  have hheader := applyWrites_of_notMem (s := d) hstart
  rw [recoverWrites, recoverFromLog, hd.header, writesOf_append, writesOf_append]
  simp [writesOf, Instr.writes, writeHead, hinstall, hheader]

theorem Clean.erase (hclean : Clean log c d) (hlog : Loggable log) (data : Block) :
    Clean log c (Function.update d log.start (putHeader [] data)) := by
  refine ⟨?_, fun b hb ↦ ?_⟩
  · rw [Function.update_self]
    exact headerCount_putHeader (Nat.zero_le _) data
  · have hne : b ≠ log.start := fun h ↦ hb (h ▸ inLog_start hlog)
    rw [Function.update_of_ne hne, hclean.contents b hb]

theorem Clean.crashedRecovery (hclean : Clean log c d) (hlog : Loggable log) (n : ℕ) :
    Clean log c (crashedRecovery log.start d n) := by
  rw [Logging.crashedRecovery, hclean.recoverWrites_eq]
  cases n with
  | zero => exact hclean
  | succ n =>
    rw [List.take_succ_cons, List.take_nil, applyWrites_cons, applyWrites_nil]
    exact hclean.erase hlog _

theorem Clean.recovered (hclean : Clean log c d) (hlog : Loggable log) :
    Clean log c (recovered log.start d) := by
  rw [Logging.recovered, hclean.recoverWrites_eq]
  exact hclean.erase hlog _

/-- Any part of the writes to the home blocks leaves the log as it is. -/
theorem Committed.homeWrites (hlog : Loggable log) (hd : Committed log old new d) (n : ℕ) :
    Committed log old new (applyWrites d ((Logging.homeWrites new log.lh).take n)) := by
  have hkeys : ∀ b, b ∉ log.lh → b ∉ ((Logging.homeWrites new log.lh).take n).map Prod.fst := by
    intro b hb hmem
    refine hb ?_
    have hsub := List.map_subset Prod.fst (List.take_subset n (Logging.homeWrites new log.lh)) hmem
    rwa [map_fst_homeWrites] at hsub
  have hsame : ∀ b, b ∉ log.lh →
      applyWrites d ((Logging.homeWrites new log.lh).take n) b = d b :=
    fun b hb ↦ applyWrites_of_notMem (hkeys b hb)
  refine ⟨?_, hd.holds.congr fun i hi ↦ hsame _ fun h ↦ ?_, fun b hb hout ↦ ?_⟩
  · rw [hsame _ fun h ↦ hlog.outside _ h (inLog_start hlog), hd.header]
  · exact hlog.ne_logBlock _ h i hi rfl
  · rw [hsame b hb, hd.others b hb hout]

/-- All of them, and the empty header. -/
theorem Committed.install (hlog : Loggable log) (hd : Committed log old new d) (data : Block) :
    Clean log (installed log old new)
      (applyWrites d (Logging.homeWrites new log.lh ++ [(log.start, putHeader [] data)])) := by
  rw [applyWrites_append, applyWrites_cons, applyWrites_nil]
  refine ⟨?_, fun b hb ↦ ?_⟩
  · rw [Function.update_self]
    exact headerCount_putHeader (Nat.zero_le _) data
  · have hne : b ≠ log.start := fun h ↦ hb (h ▸ inLog_start hlog)
    rw [Function.update_of_ne hne, installed]
    by_cases hmem : b ∈ log.lh
    · rw [if_pos hmem]
      refine applyWrites_of_mem ?_ (List.mem_map_of_mem hmem)
      rw [map_fst_homeWrites]
      exact hlog.distinct
    · rw [if_neg hmem, applyWrites_of_notMem (by rwa [map_fst_homeWrites]), hd.others b hmem hb]

theorem Committed.recovered (hlog : Loggable log) (hd : Committed log old new d) :
    Clean log (installed log old new) (recovered log.start d) := by
  rw [Logging.recovered, hd.recoverWrites_eq hlog]
  exact hd.install hlog _

theorem Committed.crashedRecovery (hlog : Loggable log) (hd : Committed log old new d) (n : ℕ) :
    Committed log old new (crashedRecovery log.start d n) ∨
      Clean log (installed log old new) (crashedRecovery log.start d n) := by
  rw [Logging.crashedRecovery, hd.recoverWrites_eq hlog]
  rcases Nat.lt_or_ge log.lh.length n with hn | hn
  · right
    rw [List.take_of_length_le (by simp [Logging.homeWrites]; omega)]
    exact hd.install hlog _
  · left
    rw [List.take_append_of_le_length (by simpa [Logging.homeWrites] using hn)]
    exact hd.homeWrites hlog n

/-- A disk on which recovery, however often it is interrupted, will end with the contents `c`. -/
def Leads (log : Log) (old new c d : Disk) : Prop :=
  Clean log c d ∨ (Committed log old new d ∧ c = installed log old new)

theorem Leads.crashedRecovery (hlog : Loggable log) (hd : Leads log old new c d) (n : ℕ) :
    Leads log old new c (crashedRecovery log.start d n) := by
  rcases hd with hclean | ⟨hcommitted, rfl⟩
  · exact .inl (hclean.crashedRecovery hlog n)
  · rcases hcommitted.crashedRecovery hlog n with hd | hd
    · exact .inr ⟨hd, rfl⟩
    · exact .inl hd

theorem Leads.recovered (hlog : Loggable log) (hd : Leads log old new c d) :
    Clean log c (recovered log.start d) := by
  rcases hd with hclean | ⟨hcommitted, rfl⟩
  · exact hclean.recovered hlog
  · exact hcommitted.recovered hlog

/-- The disk after recoveries that were stopped after `ns` of their writes. -/
def crashedRecoveries (start : BlockNo) (disk : Disk) (ns : List ℕ) : Disk :=
  ns.foldl (Logging.crashedRecovery start) disk

theorem Leads.crashedRecoveries (hlog : Loggable log) (hd : Leads log old new c d) (ns : List ℕ) :
    Leads log old new c (crashedRecoveries log.start d ns) := by
  induction ns generalizing d with
  | nil => exact hd
  | cons n ns ih => exact ih (hd.crashedRecovery hlog n)

/-! ## Crashes during commit -/

def atHeader (log : Log) (disk cache : Disk) : Disk :=
  applyWrites disk (logWrites log.start cache 0 log.lh ++
    [(log.start, putHeader log.lh (cache log.start))])

theorem start_notMem_logWrites (hlog : Loggable log) (cache : Disk) :
    log.start ∉ (logWrites log.start cache 0 log.lh).map Prod.fst := by
  rw [map_fst_logWrites, List.mem_map]
  rintro ⟨i, hi, heq⟩
  rw [List.mem_range'_1, Nat.zero_add] at hi
  exact logBlock_ne_start (Nat.lt_of_lt_of_le hi.2 hlog.capacity) heq

theorem committed_atHeader (hlog : Loggable log) (disk cache : Disk) :
    Committed log disk cache (atHeader log disk cache) := by
  have hstart := start_notMem_logWrites hlog cache
  rw [atHeader, applyWrites_append, applyWrites_cons, applyWrites_nil]
  refine ⟨?_, ?_, fun b hb hout ↦ ?_⟩
  · rw [Function.update_self]
    exact headerBlocks_putHeader hlog.capacity _
  · refine (holds_applyWrites (by simpa using hlog.capacity) disk).congr fun i hi ↦ ?_
    rw [Nat.zero_add] at hi
    exact Function.update_of_ne (logBlock_ne_start (Nat.lt_of_lt_of_le hi hlog.capacity)) _ _
  · have hne : b ≠ log.start := fun h ↦ hout (h ▸ inLog_start hlog)
    rw [Function.update_of_ne hne, applyWrites_of_notMem]
    rw [map_fst_logWrites, List.mem_map]
    rintro ⟨i, hi, rfl⟩
    rw [List.mem_range'_1, Nat.zero_add] at hi
    exact hout (inLog_logBlock hlog hi.2)

theorem atHeader_start (log : Log) (disk cache : Disk) :
    atHeader log disk cache log.start = putHeader log.lh (cache log.start) := by
  rw [atHeader, applyWrites_append, applyWrites_cons, applyWrites_nil, Function.update_self]

/-- After the header, `commit` issues what recovery would. -/
theorem commitWrites_eq (hlog : Loggable log) (hne : log.lh ≠ []) (disk cache : Disk) :
    commitWrites log cache = logWrites log.start cache 0 log.lh ++
      ((log.start, putHeader log.lh (cache log.start)) ::
        recoverWrites log.start (atHeader log disk cache)) := by
  have hwriteLog := writesOf_writeLog (m := cache) hlog.ne_logBlock fun _ _ ↦ rfl
  have hcache := applyWrites_of_notMem (s := cache) (start_notMem_logWrites hlog cache)
  have hinstall := writesOf_installTrans false hlog.ne_logBlock
    (committed_atHeader hlog cache cache).holds
  have hheader : applyWrites (atHeader log cache cache) (homeWrites cache log.lh) log.start =
      putHeader log.lh (cache log.start) := by
    rw [applyWrites_of_notMem, atHeader_start]
    rw [map_fst_homeWrites]
    exact fun h ↦ hlog.outside _ h (inLog_start hlog)
  have hbuffers : Function.update (applyWrites cache (logWrites log.start cache 0 log.lh)) log.start
      (putHeader log.lh (cache log.start)) = atHeader log cache cache := by
    rw [atHeader, applyWrites_append]
    rfl
  rw [(committed_atHeader hlog disk cache).recoverWrites_eq hlog, atHeader_start, commitWrites,
    commit, if_pos (List.length_pos_of_ne_nil hne), writesOf_append, hwriteLog]
  simp [writesOf, writesOf_append, Instr.writes, writeHead, hcache, hbuffers, hinstall, hheader]

theorem clean_of_logWrites (hlog : Loggable log) (disk cache : Disk)
    (hempty : headerCount (disk log.start) = 0) (n : ℕ) :
    Clean log disk (applyWrites disk ((logWrites log.start cache 0 log.lh).take n)) := by
  have hkeys : ∀ b, b ∉ (logWrites log.start cache 0 log.lh).map Prod.fst →
      applyWrites disk ((logWrites log.start cache 0 log.lh).take n) b = disk b := by
    intro b hb
    exact applyWrites_of_notMem fun h ↦ hb (List.map_subset _ (List.take_subset _ _) h)
  refine ⟨?_, fun b hb ↦ hkeys b ?_⟩
  · rw [hkeys _ (start_notMem_logWrites hlog cache), hempty]
  · rw [map_fst_logWrites, List.mem_map]
    rintro ⟨i, hi, rfl⟩
    rw [List.mem_range'_1, Nat.zero_add] at hi
    exact hb (inLog_logBlock hlog hi.2)

theorem leads_of_commit (hlog : Loggable log) (disk cache : Disk)
    (hempty : headerCount (disk log.start) = 0) (n : ℕ) :
    Leads log disk cache (if log.lh.length < n then installed log disk cache else disk)
      (applyWrites disk ((commitWrites log cache).take n)) := by
  by_cases hne : log.lh = []
  · have hinstalled : installed log disk cache = disk := by
      funext b
      simp [installed, hne]
    have hnothing : commitWrites log cache = [] := by
      rw [commitWrites, commit, if_neg (by simp [hne])]
      rfl
    rw [hnothing, List.take_nil, hinstalled, ite_self]
    exact .inl ⟨hempty, fun _ _ ↦ rfl⟩
  have hlength := length_logWrites log.start cache 0 log.lh
  rw [commitWrites_eq hlog hne disk cache]
  rcases Nat.lt_or_ge log.lh.length n with hn | hn
  · -- the header is on the disk: the rest is an interrupted recovery
    obtain ⟨k, rfl⟩ : ∃ k, n = log.lh.length + (k + 1) := ⟨n - log.lh.length - 1, by omega⟩
    have htake : applyWrites disk ((logWrites log.start cache 0 log.lh ++
        (log.start, putHeader log.lh (cache log.start)) ::
          recoverWrites log.start (atHeader log disk cache)).take (log.lh.length + (k + 1))) =
        crashedRecovery log.start (atHeader log disk cache) k := by
      rw [← hlength, List.take_length_add_append, List.take_succ_cons, List.append_cons,
        applyWrites_append]
      rfl
    rw [if_pos hn, htake]
    exact Leads.crashedRecovery hlog (.inr ⟨committed_atHeader hlog disk cache, rfl⟩) k
  · rw [if_neg (by omega), List.take_append_of_le_length (by omega)]
    exact .inl (clean_of_logWrites hlog disk cache hempty n)

/-- The header write of a commit is among the first `n` of its writes. -/
def HeaderWritten (log : Log) (cache : Disk) (n : ℕ) : Prop :=
  log.start ∈ ((commitWrites log cache).take n).map Prod.fst

instance (log : Log) (cache : Disk) (n : ℕ) : Decidable (HeaderWritten log cache n) :=
  inferInstanceAs (Decidable (_ ∈ _))

theorem headerWritten_iff (hlog : Loggable log) (hne : log.lh ≠ []) (cache : Disk) (n : ℕ) :
    HeaderWritten log cache n ↔ log.lh.length < n := by
  have hstart := start_notMem_logWrites hlog cache
  rw [HeaderWritten, commitWrites_eq hlog hne cache cache]
  rcases Nat.lt_or_ge log.lh.length n with hn | hn
  · obtain ⟨k, rfl⟩ : ∃ k, n = log.lh.length + (k + 1) := ⟨n - log.lh.length - 1, by omega⟩
    rw [← length_logWrites log.start cache 0 log.lh, List.take_length_add_append,
      List.take_succ_cons]
    simp
  · rw [List.take_append_of_le_length (by rwa [length_logWrites])]
    refine iff_of_false (fun h ↦ hstart ?_) (by omega)
    exact List.map_subset _ (List.take_subset _ _) h

/-- Wherever the writes of `commit` and of any number of recoveries stop, the recovery that completes
leaves an empty log, the blocks of the transaction all new if the header had been written and all old if
not, and no other block outside the log changed. -/
theorem commit_atomic (log : Log) (hlog : Loggable log) (disk cache : Disk)
    (hempty : headerCount (disk log.start) = 0) (n : ℕ) (ns : List ℕ) :
    let stopped := applyWrites disk ((commitWrites log cache).take n)
    let final := recovered log.start (crashedRecoveries log.start stopped ns)
    (∀ b ∈ log.lh, final b = if HeaderWritten log cache n then cache b else disk b) ∧
    (∀ b, b ∉ log.lh → ¬ InLog log b → final b = disk b) ∧
    headerCount (final log.start) = 0 := by
  have hclean := ((leads_of_commit hlog disk cache hempty n).crashedRecoveries hlog ns).recovered
    hlog
  refine ⟨fun b hb ↦ ?_, fun b hb hout ↦ ?_, hclean.header⟩
  · have hwritten := headerWritten_iff hlog (List.ne_nil_of_mem hb) cache n
    rw [hclean.contents b (hlog.outside b hb)]
    by_cases hn : log.lh.length < n
    · rw [if_pos hn, if_pos (hwritten.mpr hn), installed, if_pos hb]
    · rw [if_neg hn, if_neg (mt hwritten.mp hn)]
  · rw [hclean.contents b hout]
    split_ifs
    · rw [installed, if_neg hb]
    · rfl

/-- A transaction on two blocks of an empty disk that stops right after its header, and a recovery
that stops after one write. -/
theorem commit_atomic_two_blocks :
    let log : Log := ⟨2, 30, 0, true, [40, 41]⟩
    let disk : Disk := fun _ _ ↦ 0
    let cache : Disk := fun b _ ↦ b.toUInt8
    let final := recovered 2 (crashedRecoveries 2 (applyWrites disk ((commitWrites log cache).take 3))
      [1])
    (∀ b ∈ [(40 : BlockNo), 41], final b = cache b) ∧ headerCount (final 2) = 0 := by
  intro log disk cache final
  have hlog : Loggable log := by
    refine ⟨by decide, ?_, by decide, by decide⟩
    rw [List.forall_mem_cons, List.forall_mem_singleton]
    unfold InLog
    decide +kernel
  obtain ⟨hhome, -, hheader⟩ := commit_atomic log hlog disk cache (by decide) 3 [1]
  have hwritten : HeaderWritten log cache 3 := (headerWritten_iff hlog (by decide) cache 3).mpr
    (by decide)
  exact ⟨fun b hb ↦ (hhome b hb).trans (if_pos hwritten), hheader⟩

end EnhancedXv6.Logging
