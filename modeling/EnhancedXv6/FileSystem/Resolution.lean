import EnhancedXv6.FileSystem.Directory
import EnhancedXv6.FileSystem.Logged
import EnhancedXv6.Memory.Files
import Mathlib.Algebra.Order.Ring.Nat
import Mathlib.Tactic.Common

/-!
# Path resolution

What a path means on a disk, and that `namei` and `nameiparent` compute it.  The lookup itself only
reads, but the `iput` of a directory that has lost its last link frees it on the way.  Freeing leaves
the contents of all blocks alone, and `ilock` does not return for an inode that was freed, so that what
the lookup reads is what the disk held before it.
-/

namespace EnhancedXv6.FileSystem

open Hoare Hoare.Program Kernel Storage

/-! ## What a path means -/

def child (v : Volume) (name : Name) (x : ℕ) : Option ℕ :=
  if (v.inode x).type = T_DIR then ((v.inode x).node v.block).lookup name else none

def resolve (v : Volume) : List Name → ℕ → Option ℕ
  | [], x => some x
  | name :: rest, x => (child v name x).bind (resolve v rest)

/-- What the loop of `namex` is to arrive at, with the name in the buffer. -/
def outcome (v : Volume) (parent : Bool) : List Name → Name → ℕ → Option (ℕ × Name)
  | [], name, x => if parent = true then none else some (x, name)
  | name :: rest, _, x =>
    if (v.inode x).type ≠ T_DIR then none
    else if parent = true ∧ rest = [] then some (x, name)
    else (child v name x).bind (outcome v parent rest name)

variable {v : Volume}

theorem resolve_append (names names' : List Name) (x : ℕ) :
    resolve v (names ++ names') x = (resolve v names x).bind (resolve v names') := by
  induction names generalizing x with
  | nil => rfl
  | cons name rest ih =>
    rw [List.cons_append, resolve, resolve, Option.bind_assoc]
    exact congrArg (Option.bind _) (funext ih)

theorem outcome_false (names : List Name) (name : Name) (x : ℕ) :
    (outcome v false names name x).map Prod.fst = resolve v names x := by
  induction names generalizing name x with
  | nil => simp [outcome, resolve]
  | cons n rest ih =>
    rw [outcome, resolve]
    by_cases htype : (v.inode x).type = T_DIR
    · simp [htype, Option.map_bind, ih]
    · simp [htype, child]

theorem outcome_true (names : List Name) (name : Name) (x : ℕ) :
    outcome v true names name x =
      names.getLast?.bind fun last ↦ (resolve v names.dropLast x).bind fun d ↦
        if (v.inode d).type = T_DIR then some (d, last) else none := by
  induction names generalizing name x with
  | nil => rfl
  | cons n rest ih =>
    rw [outcome]
    cases rest with
    | nil => simp [resolve]
    | cons m rest =>
      rw [List.getLast?_cons_cons, List.dropLast_cons_cons, resolve]
      by_cases htype : (v.inode x).type = T_DIR
      · simp only [htype, ne_eq, not_true, if_false, reduceCtorEq, and_false, Option.bind_assoc]
        cases child v n x with
        | none => simp
        | some y => simp only [Option.bind_some, ih]
      · simp [htype, child]

/-- There is a last name and the names before it lead to a directory. -/
theorem outcome_true_eq_some {names : List Name} {name last : Name} {x d : ℕ} :
    outcome v true names name x = some (d, last) ↔
      names.getLast? = some last ∧ resolve v names.dropLast x = some d ∧
        (v.inode d).type = T_DIR := by
  rw [outcome_true]
  simp only [Option.bind_eq_some_iff, Option.ite_none_right_eq_some, Option.some.injEq,
    Prod.mk.injEq]
  constructor
  · rintro ⟨_, hlast, _, hresolve, htype, rfl, rfl⟩
    exact ⟨hlast, hresolve, htype⟩
  · rintro ⟨hlast, hresolve, htype⟩
    exact ⟨last, hlast, d, hresolve, htype, rfl, rfl⟩

theorem bind_outcome_true {start : Option ℕ} {names : List Name} {name last : Name} {d : ℕ} :
    start.bind (outcome v true names name) = some (d, last) ↔
      names.getLast? = some last ∧ start.bind (resolve v names.dropLast) = some d ∧
        (v.inode d).type = T_DIR := by
  cases start with
  | none => simp
  | some x => exact outcome_true_eq_some

theorem resolve_of_getLast {names : List Name} {last : Name} (h : names.getLast? = some last)
    (x : ℕ) : resolve v names x = (resolve v names.dropLast x).bind (child v last) := by
  obtain ⟨init, rfl⟩ := List.getLast?_eq_some_iff.mp h
  have hone : resolve v [last] = child v last := by
    funext y
    simp [resolve]
  rw [resolve_append, List.dropLast_concat, hone]

/-! ## The invariant of a lookup -/

def State.refs (s : State) (ip : Ino) : ℤ := (s.itable ip).ref

def State.inums (s : State) (ip : Ino) : ℕ := (s.itable ip).inum

/-- One reference to the inode that is returned. -/
def gain (r : Option Ino) (ip : Ino) : ℤ := if r = some ip then 1 else 0

/-- The blocks of directories are there. -/
def Volume.DirsMapped (v : Volume) : Prop :=
  ∀ x, (v.inode x).type = T_DIR → ∀ bn, bn * BSIZE < (v.inode x).size →
    fileBlock v.block (v.inode x) bn ≠ 0

/-- A state between system calls: entries in use that are valid agree with the disk, the working
directories are in use, and directories have no holes. -/
structure State.Settled (s : State) : Prop where
  copies : ∀ ip, 0 < s.refs ip → (s.itable ip).valid = true →
    (s.itable ip).din = s.volume.inode (s.inums ip)
  cwd : ∀ p ip, s.cwd p = some ip → 0 < s.refs ip
  mapped : s.volume.DirsMapped

/-- During a lookup that began on the disk `v`: inodes have been freed but not changed otherwise.  If it
began with nothing locked, only the inode `held` is. -/
structure Follows (v : Volume) (free : Prop) (held : Option Ino) (s : State) : Prop where
  block : s.volume.block = v.block
  inode : ∀ x, s.volume.inode x = v.inode x ∨ (s.volume.inode x).type = 0
  copies : ∀ ip, 0 < s.refs ip → (s.itable ip).valid = true →
    (s.itable ip).din = v.inode (s.inums ip)
  locked : free → ∀ ip, (s.itable ip).locked = true → held = some ip

/-- If a lookup began with nothing locked, only a panic ends it early. -/
def Ends (free : Prop) (e : Stop) : Prop := free → e ≠ .sleepsForever ∧ e ≠ .nullPointer

variable {free : Prop} {held : Option Ino}

theorem State.Settled.follows {s : State} (hs : s.Settled)
    (hfree : free → ∀ ip, (s.itable ip).locked = false) : Follows s.volume free none s :=
  ⟨rfl, fun _ ↦ .inl rfl, hs.copies, fun h ip hlocked ↦ by simp [hfree h] at hlocked⟩

section Entries

variable {s : State} {ip : Ino} {e : Inode}

@[simp] theorem State.setInode_volume : (s.setInode ip e).volume = s.volume := rfl

@[simp] theorem State.refs_setInode :
    (s.setInode ip e).refs = Function.update s.refs ip e.ref :=
  Function.comp_update Inode.ref s.itable ip e

@[simp] theorem State.inums_setInode :
    (s.setInode ip e).inums = Function.update s.inums ip e.inum :=
  Function.comp_update Inode.inum s.itable ip e

@[simp] theorem add_gain_none (refs : Ino → ℤ) : refs + gain none = refs := by
  funext y
  simp [gain]

theorem update_add_one {refs : Ino → ℤ} {a : ℤ} (ha : a = refs ip + 1) :
    Function.update refs ip a = refs + gain (some ip) := by
  funext y
  by_cases hy : y = ip
  · subst hy
    simp [gain, ha]
  · simp [gain, hy, Ne.symm hy]

theorem Follows.setInode {held' : Option Ino} (h : Follows v free held s)
    (he : 0 < e.ref → e.valid = true → e.din = v.inode e.inum)
    (hip : free → e.locked = true → held' = some ip)
    (hother : ∀ y, y ≠ ip → held = some y → held' = some y) :
    Follows v free held' (s.setInode ip e) where
  block := h.block
  inode := h.inode
  copies := by
    intro y
    by_cases hy : y = ip
    · subst hy
      simpa [State.refs, State.inums] using he
    · simpa [State.refs, State.inums, State.setInode, hy] using h.copies y
  locked := by
    intro hfree y hlocked
    by_cases hy : y = ip
    · subst hy
      exact hip hfree (by simpa using hlocked)
    · exact hother y hy (h.locked hfree y (by simpa [State.setInode, hy] using hlocked))

/-- An entry changes that stays as locked as it was. -/
theorem Follows.setEntry (h : Follows v free held s)
    (he : 0 < e.ref → e.valid = true → e.din = v.inode e.inum)
    (hlocked : e.locked = (s.itable ip).locked) : Follows v free held (s.setInode ip e) :=
  h.setInode he (fun hfree htrue ↦ h.locked hfree ip (hlocked ▸ htrue)) fun _ _ hheld ↦ hheld

end Entries

theorem wp_check {σ : Type} {c : Prop} [Decidable c] {e : Stop} {Q : Unit → σ → Prop} {s : σ}
    (he : e ≠ .sleepsForever ∧ e ≠ .nullPointer) (h : ¬ c → Q () s) :
    (when c (stop e)).wp Q (Ends free) s :=
  wp_when (fun _ _ ↦ he) h

theorem wp_unlocked {s : State} {ip : Ino} {Q : Unit → State → Prop} (h : Follows v free none s)
    (hQ : Q () s) :
    (when ((s.itable ip).locked = true) (stop .sleepsForever)).wp Q (Ends free) s :=
  wp_when (fun hlocked hfree ↦ nomatch h.locked hfree ip hlocked) fun _ ↦ hQ

/-! ## Inodes -/

section Functions

variable {s : State} {sb : Superblock} {ip dp : Ino} {name : Name} {x : ℕ}

theorem iget_spec (h : Follows v free held s) (dev x : ℕ) :
    (iget dev x).wp
      (fun ip s' ↦ Follows v free held s' ∧ s'.refs = s.refs + gain (some ip) ∧ s'.inums ip = x ∧
        0 ≤ s.refs ip)
      (Ends free) s := by
  simp only [iget, wp_bind, wp_get]
  cases hfind : s.findInode dev x with
  | some ip =>
    have huse : 0 < s.refs ip ∧ (s.itable ip).dev = dev ∧ s.inums ip = x := by
      simpa [State.refs, State.inums] using List.find?_some hfind
    simp only [wp_bind, wp_modify, wp_pure]
    refine ⟨h.setEntry (fun _ hvalid ↦ h.copies ip huse.1 hvalid) rfl, ?_, ?_, huse.1.le⟩
    · rw [State.refs_setInode]
      exact update_add_one rfl
    · simpa [State.inums] using huse.2.2
  | none =>
    cases hempty : s.findEmpty with
    | some ip =>
      have hzero : s.refs ip = 0 := by simpa [State.refs] using List.find?_some hempty
      simp only [wp_bind, wp_modify, wp_pure]
      refine ⟨h.setEntry (fun _ hvalid ↦ absurd hvalid Bool.false_ne_true) rfl, ?_, ?_, hzero.ge⟩
      · rw [State.refs_setInode]
        exact update_add_one (by simp [hzero])
      · simp
    | none => exact wp_stop.mpr fun _ ↦ by decide

/-- After `ilock` the copy in memory is that of the disk before the lookup. -/
theorem ilock_spec (h : Follows v free none s) (ip : Ino) :
    (ilock ip).wp
      (fun _ s' ↦ Follows v free (some ip) s' ∧ s'.refs = s.refs ∧ s'.inums = s.inums ∧
        (s'.itable ip).din = v.inode (s.inums ip))
      (Ends free) s := by
  simp only [ilock, acquiresleep, wp_bind, wp_get, wp_modify]
  refine wp_check (by decide) fun href ↦ ?_
  refine wp_unlocked h ?_
  have huse : 0 < s.refs ip := by
    simp only [State.refs]
    omega
  have hlock : Follows v free (some ip) (s.setInode ip { s.itable ip with locked := true }) :=
    h.setInode (fun _ ↦ h.copies ip huse) (fun _ _ ↦ rfl) (by simp)
  refine wp_when (fun _ ↦ ?_) fun hvalid ↦ ?_
  · simp only [loadInode, wp_bind, wp_get, wp_modify, State.setInode_self]
    refine wp_check (by decide) fun htype ↦ ?_
    have hdisk : s.volume.inode (s.inums ip) = v.inode (s.inums ip) :=
      (h.inode _).resolve_right (by simpa [State.inums] using htype)
    refine ⟨hlock.setEntry (fun _ _ ↦ hdisk) (by simp), ?_, ?_, by simpa [State.inums] using hdisk⟩
    · simp [State.refs]
    · simp [State.inums]
  · have hcopy := h.copies ip huse (by simpa using hvalid)
    refine ⟨hlock, ?_, ?_, ?_⟩
    · exact State.refs_setInode.trans (Function.update_eq_self ip s.refs)
    · exact State.inums_setInode.trans (Function.update_eq_self ip s.inums)
    · simpa using hcopy

theorem iunlock_spec (h : Follows v free (some ip) s) :
    (iunlock ip).wp
      (fun _ s' ↦ Follows v free none s' ∧ s'.refs = s.refs ∧ s'.inums = s.inums ∧
        (s'.itable ip).din = (s.itable ip).din)
      (Ends free) s := by
  simp only [iunlock, wp_bind, wp_get, wp_modify]
  refine wp_check (by decide) fun _ ↦ ⟨?_, ?_, ?_, by simp⟩
  · exact h.setInode (h.copies ip) (by simp) fun y hy hheld ↦ absurd (Option.some.inj hheld).symm hy
  · exact State.refs_setInode.trans (Function.update_eq_self ip s.refs)
  · exact State.inums_setInode.trans (Function.update_eq_self ip s.inums)

/-- Freeing keeps contents and inodes. -/
theorem bfree_spec {w : Volume} (b : ℕ) :
    (bfree b).wp (fun _ w' ↦ w'.block = w.block ∧ w'.inode = w.inode) (Ends free) w := by
  simp only [bfree, logWrite, wp_bind, wp_get, wp_modify]
  refine wp_check (by decide) fun _ ↦ ?_
  exact wp_check (by decide) fun _ ↦ ⟨rfl, rfl⟩

theorem bfreeAll_spec {w : Volume} (blocks : List ℕ) :
    (bfreeAll blocks).wp (fun _ w' ↦ w'.block = w.block ∧ w'.inode = w.inode) (Ends free) w := by
  induction blocks generalizing w with
  | nil => exact ⟨rfl, rfl⟩
  | cons b rest ih =>
    rw [bfreeAll]
    refine wp_seq (wp_when (fun _ ↦ bfree_spec b) fun _ ↦ ⟨rfl, rfl⟩) fun _ w₁ h₁ ↦ ?_
    refine wp_mono ih fun _ w₂ h₂ ↦ ?_
    exact ⟨h₂.1.trans h₁.1, h₂.2.trans h₁.2⟩

theorem iupdate_spec {w : Volume} (inum : ℕ) (din : Dinode) :
    (iupdate inum din).wp (fun _ w' ↦ w' = w.setInode inum din) (Ends free) w := by
  simp only [iupdate, logWrite, wp_bind, wp_get, wp_modify]
  exact wp_check (by decide) fun _ ↦ rfl

theorem itrunc_spec {w : Volume} (inum : ℕ) (din : Dinode) :
    (itrunc inum din).wp
      (fun _ w' ↦ w'.block = w.block ∧ ∀ y, y ≠ inum → w'.inode y = w.inode y)
      (Ends free) w := by
  rw [itrunc]
  refine wp_seq (bfreeAll_spec _) fun _ w₁ h₁ ↦ ?_
  have hindirect : (when (din.addrs NDIRECT ≠ 0) (bfreeIndirect (din.addrs NDIRECT))).wp
      (fun _ w' ↦ w'.block = w.block ∧ w'.inode = w.inode) (Ends free) w₁ := by
    refine wp_when (fun _ ↦ ?_) fun _ ↦ h₁
    simp only [bfreeIndirect, wp_bind, wp_get]
    refine wp_mono (bfreeAll_spec _) fun _ w₂ h₂ ↦ ?_
    refine wp_mono (bfree_spec _) fun _ w₃ h₃ ↦ ?_
    exact ⟨(h₃.1.trans h₂.1).trans h₁.1, (h₃.2.trans h₂.2).trans h₁.2⟩
  refine wp_seq hindirect fun _ w₂ h₂ ↦ ?_
  refine wp_seq (iupdate_spec _ _) fun _ w₃ h₃ ↦ ?_
  subst h₃
  refine wp_pure.mpr ⟨h₂.1, fun y hy ↦ ?_⟩
  rw [Volume.setInode_inode, Function.update_of_ne hy, h₂.2]

/-- The entry that is freed is not valid any more. -/
theorem ifree_spec (h : Follows v free none s) (ip : Ino) :
    (ifree ip).wp (fun _ s' ↦ Follows v free none s' ∧ s'.refs = s.refs ∧ s'.inums = s.inums)
      (Ends free) s := by
  simp only [ifree, acquiresleep, onInode, onVolume, wp_bind, wp_get, wp_modify, wp_on, wp_pure]
  refine wp_unlocked h ?_
  refine wp_mono (itrunc_spec _ _) fun din w₁ h₁ ↦ ?_
  refine wp_mono (iupdate_spec _ _) fun _ w₂ h₂ ↦ ?_
  subst h₂
  refine ⟨⟨h₁.1.trans h.block, fun y ↦ ?_, fun y ↦ ?_, fun hfree y ↦ ?_⟩, ?_, ?_⟩
  · by_cases hy : y = s.inums ip
    · right
      simp [State.setInode, hy, State.inums]
    · have hinode := h₁.2 y (by simpa [State.setInode, State.inums] using hy)
      have hkeep := h.inode y
      simp_all [State.setInode, State.inums]
  · by_cases hy : y = ip
    · subst hy
      simp
    · simpa [State.refs, State.inums, State.setInode, hy] using h.copies y
  · by_cases hy : y = ip
    · subst hy
      simp
    · simpa [State.setInode, hy] using h.locked hfree y
  · funext y
    by_cases hy : y = ip <;> simp [State.refs, State.setInode, hy]
  · funext y
    by_cases hy : y = ip <;> simp [State.inums, State.setInode, hy]

theorem iput_spec (h : Follows v free none s) (ip : Ino) :
    (iput ip).wp
      (fun _ s' ↦ Follows v free none s' ∧ s'.refs + gain (some ip) = s.refs ∧
        s'.inums = s.inums)
      (Ends free) s := by
  simp only [iput, wp_bind, wp_get, wp_modify]
  refine wp_mono (Q := fun _ s₁ ↦ Follows v free none s₁ ∧ s₁.refs = s.refs ∧
    s₁.inums = s.inums) ?_ ?_
  · exact wp_when (fun _ ↦ ifree_spec h ip) fun _ ↦ ⟨h, rfl, rfl⟩
  · rintro _ s₁ ⟨h₁, hrefs, hinums⟩
    refine ⟨h₁.setEntry (fun hpos hvalid ↦ ?_) rfl, ?_, ?_⟩
    · have hpos' : 0 < s₁.refs ip := by
        simp only [State.refs]
        dsimp only at hpos
        omega
      exact h₁.copies ip hpos' hvalid
    · rw [State.refs_setInode, ← update_add_one (by simp; rfl), Function.update_idem, ← hrefs]
      simp [State.refs]
    · exact State.inums_setInode.trans ((Function.update_eq_self ip s₁.inums).trans hinums)

theorem iunlockput_spec (h : Follows v free (some ip) s) :
    (iunlockput ip).wp
      (fun _ s' ↦ Follows v free none s' ∧ s'.refs + gain (some ip) = s.refs ∧
        s'.inums = s.inums)
      (Ends free) s := by
  refine wp_seq (iunlock_spec h) ?_
  rintro _ s₁ ⟨h₁, hrefs, hinums, _⟩
  rw [← hrefs, ← hinums]
  exact iput_spec h₁ ip

/-! ### The counts of `Memory` -/

def SameCounts (s : State) (m : Memory.Shared) : Prop := ∀ ip, s.refs ip = m.iref ip

theorem SameCounts.idup {s' : State} {m : Memory.Shared} {ip' : Ino} (h : SameCounts s m)
    (hrun : idup ip s = .ok (ip', s')) (choices : ℕ → Bool) :
    ∃ m', (Memory.idup ip).run choices m = some ((), m') ∧ SameCounts s' m' := by
  cases hrun
  refine ⟨_, rfl, fun y ↦ ?_⟩
  by_cases hy : y = ip
  · subst hy
    simpa [State.refs] using h y
  · simpa [State.refs, State.setInode, hy] using h y

/-- `iput` may free the inode on the disk; the count is one less in any case. -/
theorem SameCounts.iput {s' : State} {m : Memory.Shared} (hs : s.Settled) (h : SameCounts s m)
    (hused : 0 < m.iref ip) (hrun : iput ip s = .ok ((), s')) (choices : ℕ → Bool) :
    ∃ m', (Memory.iput ip).run choices m = some ((), m') ∧ SameCounts s' m' := by
  have hfollows : Follows s.volume False none s := hs.follows False.elim
  obtain ⟨-, hrefs, -⟩ := wp_ok (iput_spec hfollows ip) hrun
  refine ⟨_, rfl, fun y ↦ ?_⟩
  have hcount := congrFun hrefs y
  rw [Pi.add_apply, h y] at hcount
  by_cases hy : y = ip
  · subst hy
    simp only [gain, if_true] at hcount
    simp only [Function.update_self]
    omega
  · simpa [gain, hy, Ne.symm hy] using hcount

/-! ## Directories -/

/-- One entry; the read of a part of an entry is short. -/
theorem readDirent_spec {k : ℕ} {panic : Stop} (hpanic : Ends free panic)
    (hmapped : ∀ bn, bn * BSIZE < (s.itable dp).din.size →
      fileBlock s.volume.block (s.itable dp).din bn ≠ 0)
    (hk : DIRENT * k < (s.itable dp).din.size) :
    (readDirent sb dp (DIRENT * k) panic).wp
      (fun de s' ↦ de = ((s.itable dp).din.node s.volume.block).dirent k ∧ s' = s)
      (Ends free) s := by
  have hsize : (s.itable dp).din.size ≤ MAXFILE * BSIZE := by
    by_contra hlarge
    exact hmapped MAXFILE (by omega) (by simp [fileBlock, MAXFILE])
  by_cases hwhole : DIRENT * (k + 1) ≤ (s.itable dp).din.size
  · refine wp_of_run (readDirent_of_mapped _ hwhole ?_ (hmapped _ ?_)) ⟨rfl, rfl⟩
    · simp only [DIRENT, MAXFILE, NDIRECT, NINDIRECT, BSIZE] at hwhole hsize ⊢
      omega
    · simp only [DIRENT, BSIZE] at hwhole ⊢
      omega
  · have hread : readi sb (s.itable dp).din (DIRENT * k) DIRENT (fun _ ↦ true) s.volume =
        .ok ((some ((List.range (min DIRENT ((s.itable dp).din.size - DIRENT * k))).map fun i ↦
          fileByte s.volume.block (s.itable dp).din (DIRENT * k + i)), (s.itable dp).din),
          s.volume) := by
      refine readi_of_mapped hk.le ?_ fun i hi ↦ hmapped _ ?_
      · simp only [DIRENT, MAXFILE, NDIRECT, NINDIRECT, BSIZE] at hk hsize ⊢
        omega
      · simp only [DIRENT, BSIZE] at hi ⊢
        omega
    have hstop : readDirent sb dp (DIRENT * k) panic s = .error panic := by
      rw [readDirent, run_bind (onInode_of_run hread)]
      simp only [Option.getD_some, List.length_map, List.length_range]
      rw [if_neg (by simp only [DIRENT] at hwhole ⊢; omega)]
      rfl
    rw [wp, hstop]
    exact hpanic

/-- A lookup in a directory gives the inode and a reference to it. -/
structure Found (v : Volume) (free : Prop) (held : Option Ino) (s : State) (target : Option ℕ)
    (r : Option (Ino × ℕ)) (s' : State) : Prop where
  follows : Follows v free held s'
  refs : s'.refs = s.refs + gain (r.map Prod.fst)
  inum : r.map (fun q ↦ s'.inums q.1) = target
  used : ∀ q ∈ r, 0 ≤ s.refs q.1

theorem findDirent_spec (h : Follows v free held s)
    (hmapped : ∀ bn, bn * BSIZE < (s.itable dp).din.size →
      fileBlock s.volume.block (s.itable dp).din bn ≠ 0)
    {ks : List ℕ} (hks : ∀ k ∈ ks, DIRENT * k < (s.itable dp).din.size) :
    (findDirent sb dp name (ks.map (DIRENT * ·))).wp
      (Found v free held s ((ks.find? fun k ↦
          ((s.itable dp).din.node s.volume.block).Matches k name).map fun k ↦
        (((s.itable dp).din.node s.volume.block).dirent k).inum))
      (Ends free) s := by
  induction ks with
  | nil => exact ⟨h, by simp, rfl, by simp⟩
  | cons k ks ih =>
    rw [List.map_cons, findDirent]
    refine wp_seq (readDirent_spec (fun _ ↦ by decide) hmapped (hks k List.mem_cons_self)) ?_
    rintro de s₁ ⟨hde, hs⟩
    subst hde
    subst s₁
    refine wp_ite (fun hmatch ↦ ?_) fun hno ↦ ?_
    · simp only [wp_bind, wp_get, wp_pure]
      refine wp_mono (iget_spec h _ _) ?_
      rintro ip s' ⟨h', hrefs, hinum, hused⟩
      refine ⟨h', hrefs, ?_, by simpa using hused⟩
      have hfirst : ((s.itable dp).din.node s.volume.block).Matches k name := hmatch
      rw [List.find?_cons_of_pos (by simpa using hfirst)]
      simpa using hinum
    · have hother : ¬ ((s.itable dp).din.node s.volume.block).Matches k name := hno
      rw [List.find?_cons_of_neg (by simpa using hother)]
      exact ih fun k' hk' ↦ hks k' (List.mem_cons_of_mem _ hk')

theorem dirlookup_spec (hv : v.DirsMapped) (h : Follows v free held s)
    (hdin : (s.itable dp).din = v.inode x) :
    (dirlookup sb dp name).wp (Found v free held s (child v name x)) (Ends free) s := by
  simp only [dirlookup, wp_bind, wp_get]
  refine wp_check (by decide) fun htype ↦ ?_
  have hdir : (v.inode x).type = T_DIR := by simpa [hdin] using htype
  have hmapped := hv x hdir
  rw [← h.block, ← hdin] at hmapped
  rw [child, if_pos hdir, ← h.block, ← hdin]
  refine findDirent_spec h hmapped fun k hk ↦ ?_
  have := List.mem_range.mp hk
  simp only [DIRENT] at this ⊢
  omega

/-! ## The loop -/

variable {path : List UInt8} {parent : Bool} {p : Slot}

/-- Where a lookup has arrived.  The parent directory is loaded and can be searched. -/
structure Arrived (v : Volume) (free : Prop) (parent : Bool) (target : Option (ℕ × Name))
    (r : Option (Ino × Name)) (s' : State) : Prop where
  follows : Follows v free none s'
  target : r.map (fun q ↦ (s'.inums q.1, q.2)) = target
  loaded : parent = true → ∀ q ∈ r, (s'.itable q.1).din = v.inode (s'.inums q.1)

theorem Arrived.none (h : Follows v free none s) : Arrived v free parent none none s :=
  ⟨h, rfl, by simp⟩

-- Each turn hands the reference to `ip` on to the next inode, or gives it back.
theorem namexLoop_spec {fuel : ℕ} (hv : v.DirsMapped) (h : Follows v free none s)
    (hip : 0 < s.refs ip) (hfuel : path.length < fuel) :
    (namexLoop sb parent fuel path name ip).wp
      (fun r s' ↦
        Arrived v free parent (outcome v parent (components path) name (s.inums ip)) r s' ∧
        s'.refs + gain (some ip) = s.refs + gain (r.map Prod.fst))
      (Ends free) s := by
  induction fuel generalizing s path name ip with
  | zero => omega
  | succ fuel ih =>
    rw [namexLoop, components_eq]
    cases hskip : skipelem path with
    | none =>
      refine wp_ite (fun hparent ↦ ?_) fun hparent ↦ ?_
      · refine wp_seq (iput_spec h ip) ?_
        rintro _ s₁ ⟨h₁, hrefs, _⟩
        refine wp_pure.mpr ⟨?_, by simp [hrefs]⟩
        simpa [outcome, hparent] using Arrived.none h₁
      · exact wp_pure.mpr ⟨⟨h, by simp [outcome, hparent], fun hp ↦ absurd hp hparent⟩, rfl⟩
    | some elem =>
      obtain ⟨elem, rest⟩ := elem
      have hshorter := skipelem_length hskip
      refine wp_seq (ilock_spec h ip) ?_
      rintro _ s₁ ⟨h₁, hrefs₁, hinums₁, hdin⟩
      simp only [wp_bind, wp_get, outcome, hdin]
      refine wp_ite (fun htype ↦ ?_) fun htype ↦ wp_ite (fun hlast ↦ ?_) fun hlast ↦ ?_
      · refine wp_seq (iunlockput_spec h₁) ?_
        rintro _ s₂ ⟨h₂, hrefs₂, _⟩
        refine wp_pure.mpr ⟨?_, ?_⟩
        · rw [if_pos htype]
          exact Arrived.none h₂
        · simp [hrefs₂, hrefs₁]
      · refine wp_seq (iunlock_spec h₁) ?_
        rintro _ s₂ ⟨h₂, hrefs₂, hinums₂, hdin₂⟩
        refine wp_pure.mpr ⟨?_, ?_⟩
        · rw [if_neg htype, if_pos ⟨hlast.1, (skipelem_rest hskip).mp hlast.2⟩]
          refine ⟨h₂, by simp [hinums₂, hinums₁], fun _ q hq ↦ ?_⟩
          obtain rfl : (ip, elem) = q := by simpa using hq
          rw [hdin₂, hdin, hinums₂, hinums₁]
        · simp [hrefs₂, hrefs₁]
      · rw [if_neg htype, if_neg fun hend ↦ hlast ⟨hend.1, (skipelem_rest hskip).mpr hend.2⟩]
        refine wp_seq (dirlookup_spec hv h₁ hdin) fun next s₂ hfound ↦ ?_
        cases next with
        | none =>
          refine wp_seq (iunlockput_spec hfound.follows) ?_
          rintro _ s₃ ⟨h₃, hrefs₃, _⟩
          refine wp_pure.mpr ⟨?_, ?_⟩
          · rw [← hfound.inum]
            exact Arrived.none h₃
          · have hrefs₂ := hfound.refs
            simp_all
        | some next =>
          refine wp_seq (iunlockput_spec hfound.follows) ?_
          rintro _ s₃ ⟨h₃, hrefs₃, hinums₃⟩
          have hrefs : s₃.refs + gain (some ip) = s.refs + gain (some next.1) := by
            rw [hrefs₃, hfound.refs, hrefs₁]
            rfl
          have hnext : 0 < s₃.refs next.1 := by
            have hat := congrFun hrefs next.1
            have hused := hfound.used next rfl
            rw [hrefs₁] at hused
            simp only [Pi.add_apply, gain, if_true] at hat
            split_ifs at hat with hsame
            · cases hsame
              omega
            · omega
          refine wp_mono (ih h₃ hnext (by omega)) ?_
          rintro r s' ⟨harrived, hrefs'⟩
          refine ⟨?_, ?_⟩
          · rw [← hfound.inum, ← hinums₃]
            exact harrived
          · have hsum : s'.refs + gain (some ip) + gain (some next.1) =
                s.refs + gain (r.map Prod.fst) + gain (some next.1) := by
              rw [add_right_comm, hrefs', add_right_comm, hrefs, add_right_comm]
            exact add_right_cancel hsum

def startInum (s : State) (p : Slot) (path : List UInt8) : Option ℕ :=
  if path.head? = some slash then some ROOTINO else (s.cwd p).map s.inums

/-- No inode is locked and there is one to start from. -/
def State.Ready (s : State) (p : Slot) (path : List UInt8) : Prop :=
  (∀ ip, (s.itable ip).locked = false) ∧ (startInum s p path).isSome

theorem startInode_spec (hs : s.Settled) :
    (startInode p path).wp
      (fun ip s' ↦ Follows s.volume (s.Ready p path) none s' ∧ s'.refs = s.refs + gain (some ip) ∧
        startInum s p path = some (s'.inums ip) ∧ 0 < s'.refs ip)
      (Ends (s.Ready p path)) s := by
  have hfollows : Follows s.volume (s.Ready p path) none s := hs.follows And.left
  simp only [startInode, wp_bind, wp_get]
  refine wp_ite (fun hslash ↦ ?_) fun hslash ↦ ?_
  · refine wp_mono (iget_spec hfollows _ _) ?_
    rintro ip s' ⟨h', hrefs, hinum, hused⟩
    refine ⟨h', hrefs, by rw [startInum, if_pos hslash, hinum], ?_⟩
    rw [hrefs]
    simp only [Pi.add_apply, gain, if_true]
    omega
  · have hstart : startInum s p path = (s.cwd p).map s.inums := if_neg hslash
    cases hcwd : s.cwd p with
    | none => exact wp_stop.mpr fun h ↦ absurd h.2 (by simp [hstart, hcwd])
    | some ip =>
      have huse := hs.cwd p ip hcwd
      simp only [idup, wp_bind, wp_modify, wp_pure]
      refine ⟨hfollows.setEntry (fun _ hvalid ↦ hs.copies ip huse hvalid) rfl, ?_, ?_, ?_⟩
      · exact State.refs_setInode.trans (update_add_one rfl)
      · simp [hstart, hcwd, State.inums]
      · simp only [State.refs_setInode, Function.update_self]
        simp only [State.refs] at huse
        omega

theorem namex_spec (hs : s.Settled) :
    (namex sb p path parent).wp
      (fun r s' ↦
        Arrived s.volume (s.Ready p path) parent
          ((startInum s p path).bind (outcome s.volume parent (components path) [])) r s' ∧
        s'.refs = s.refs + gain (r.map Prod.fst))
      (Ends (s.Ready p path)) s := by
  rw [namex]
  refine wp_seq (startInode_spec hs) ?_
  rintro ip s₁ ⟨h₁, hrefs₁, hinum, hpos⟩
  refine wp_mono (namexLoop_spec hs.mapped h₁ hpos (Nat.lt_succ_self _)) ?_
  rintro r s' ⟨harrived, hrefs⟩
  refine ⟨?_, ?_⟩
  · rw [hinum]
    exact harrived
  · rw [hrefs₁, add_right_comm] at hrefs
    exact add_right_cancel hrefs

end Functions

/-- `namei` gives the inode that the components of the path lead to, `nameiparent` the directory before
the last one, in which `dirlookup` finds what `namei` finds.  One reference is gained, to the inode
returned.  If no inode is locked and there is a directory to start from, only a panic stops the two. -/
theorem path_resolution (sb : Superblock) {s : State} (hs : s.Settled) (p : Slot)
    (path : List UInt8) :
    (∀ fuel, path.length < fuel → elements fuel path = components path) ∧
    (∀ r s', namei sb p path s = .ok (r, s') →
      r.map s'.inums = (startInum s p path).bind (resolve s.volume (components path)) ∧
      s'.refs = s.refs + gain r) ∧
    (∀ r s', nameiparent sb p path s = .ok (r, s') →
      (r.isSome ↔ components path ≠ [] ∧
        ∃ d, (startInum s p path).bind (resolve s.volume (components path).dropLast) = some d ∧
          (s.volume.inode d).type = T_DIR) ∧
      (∀ dp name, r = some (dp, name) →
        (components path).getLast? = some name ∧
        (startInum s p path).bind (resolve s.volume (components path).dropLast) =
          some (s'.inums dp) ∧
        ∀ found s'', dirlookup sb dp name s' = .ok (found, s'') →
          (found.map fun q ↦ s''.inums q.1) =
            (startInum s p path).bind (resolve s.volume (components path))) ∧
      s'.refs = s.refs + gain (r.map Prod.fst)) ∧
    ((∀ ip, (s.itable ip).locked = false) → (startInum s p path).isSome →
      ∀ e, namei sb p path s = .error e ∨ nameiparent sb p path s = .error e →
        e ≠ .sleepsForever ∧ e ≠ .nullPointer) := by
  refine ⟨fun fuel hfuel ↦ elements_eq_components hfuel, fun r s' hrun ↦ ?_, fun r s' hrun ↦ ?_,
    fun hfree hstart e hrun ↦ ?_⟩
  · simp only [namei, bind] at hrun
    cases hname : namex sb p path false s with
    | error e =>
      rw [hname] at hrun
      cases hrun
    | ok found =>
      rw [hname] at hrun
      cases hrun
      obtain ⟨harrived, hrefs⟩ := wp_ok (namex_spec hs) hname
      have hfst := congrArg (Option.map Prod.fst) harrived.target
      simp only [Option.map_map, Option.map_bind, Function.comp_def, outcome_false] at hfst
      exact ⟨by simpa [Function.comp_def] using hfst, hrefs⟩
  · obtain ⟨harrived, hrefs⟩ := wp_ok (namex_spec hs) hrun
    have harrives : ∀ dp name, r = some (dp, name) →
        (startInum s p path).bind (outcome s.volume true (components path) []) =
          some (s'.inums dp, name) := by
      intro dp name hr
      rw [← harrived.target, hr]
      rfl
    refine ⟨⟨fun hsome ↦ ?_, ?_⟩, fun dp name hr ↦ ?_, hrefs⟩
    · obtain ⟨⟨dp, name⟩, hr⟩ := Option.isSome_iff_exists.mp hsome
      obtain ⟨hlast, hd, htype⟩ := bind_outcome_true.mp (harrives dp name hr)
      exact ⟨fun hnil ↦ by simp [hnil] at hlast, _, hd, htype⟩
    · rintro ⟨hne, d, hd, htype⟩
      have hlast := List.getLast?_eq_some_getLast hne
      have hmap := harrived.target.trans (bind_outcome_true.mpr ⟨hlast, hd, htype⟩)
      exact Option.isSome_map.symm.trans (congrArg Option.isSome hmap)
    · obtain ⟨hlast, hd, -⟩ := bind_outcome_true.mp (harrives dp name hr)
      refine ⟨hlast, hd, fun found s'' hfound ↦ ?_⟩
      have hdin := harrived.loaded rfl (dp, name) hr
      have hlookup := wp_ok (dirlookup_spec hs.mapped harrived.follows hdin) hfound
      calc (found.map fun q ↦ s''.inums q.1)
          = child s.volume name (s'.inums dp) := hlookup.inum
        _ = ((startInum s p path).bind (resolve s.volume (components path).dropLast)).bind
              (child s.volume name) := by rw [hd]; rfl
        _ = (startInum s p path).bind (resolve s.volume (components path)) := by
          rw [Option.bind_assoc]
          exact congrArg (Option.bind _) (funext fun x ↦ (resolve_of_getLast hlast x).symm)
  · rcases hrun with hrun | hrun
    · have hnamei : (namei sb p path).wp (fun _ _ ↦ True) (Ends (s.Ready p path)) s :=
        wp_seq (namex_spec hs) fun _ _ _ ↦ trivial
      exact wp_error hnamei hrun ⟨hfree, hstart⟩
    · exact wp_error (namex_spec hs) hrun ⟨hfree, hstart⟩

/-- A disk with a root directory whose only entry is the file `a`. -/
def oneFile : State where
  volume :=
    { inode := fun x ↦
        if x = ROOTINO then
          { newInode T_DIR with nlink := 1, size := DIRENT, addrs := fun k ↦ if k = 0 then 46 else 0 }
        else if x = 2 then { newInode T_FILE with nlink := 1 }
        else newInode 0
      used := fun _ ↦ true
      block := fun b i ↦ if b = 46 then Dirent.encode ⟨2, [97]⟩ i else 0
      inOp := true }
  itable := fun _ ↦
    { dev := 0, inum := 0, ref := 0, locked := false, valid := false, din := newInode 0 }
  ftable := fun _ ↦
    { type := .none, ref := 0, readable := false, writable := false, ip := none, off := 0, major := 0 }
  ofile := fun _ ↦ none
  cwd := fun _ ↦ none

theorem settled_oneFile : oneFile.Settled where
  copies := fun ip hpos ↦ absurd hpos (by simp [State.refs, oneFile])
  cwd := fun p ip hcwd ↦ by simp [oneFile] at hcwd
  mapped := by
    intro x htype bn hbn
    by_cases hx : x = ROOTINO
    · obtain rfl : bn = 0 := by
        simp only [oneFile, if_pos hx, DIRENT, BSIZE] at hbn
        omega
      simp [oneFile, hx, fileBlock]
    · exfalso
      revert htype
      by_cases hx' : x = 2 <;> simp only [oneFile, hx, hx', newInode, if_true, if_false] <;> decide

/-- The path `//a/`. -/
theorem path_resolution_oneFile :
    ∃ s', namei Logged.mkfsLayout.toSuperblock 0 [slash, slash, 97, slash] oneFile =
        .ok (some 1, s') ∧
      s'.inums 1 = 2 ∧ s'.refs = oneFile.refs + gain (some 1) := by
  have hresult : (namei Logged.mkfsLayout.toSuperblock 0 [slash, slash, 97, slash]
      oneFile).toOption.map Prod.fst = some (some 1) := by
    decide +kernel
  have hpath : (startInum oneFile 0 [slash, slash, 97, slash]).bind
      (resolve oneFile.volume (components [slash, slash, 97, slash])) = some 2 := by
    decide +kernel
  cases hrun : namei Logged.mkfsLayout.toSuperblock 0 [slash, slash, 97, slash] oneFile with
  | error e => simp [hrun, Except.toOption] at hresult
  | ok r =>
    obtain ⟨r, s'⟩ := r
    obtain rfl : r = some 1 := by simpa [hrun, Except.toOption] using hresult
    have hnamei := (path_resolution Logged.mkfsLayout.toSuperblock settled_oneFile 0 _).2.1 _ _ hrun
    exact ⟨s', rfl, Option.some.inj (hnamei.1.trans hpath), hnamei.2⟩

end EnhancedXv6.FileSystem
