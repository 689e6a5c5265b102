import EnhancedXv6.FileSystem.Contents
import EnhancedXv6.FileSystem.Inodes
import EnhancedXv6.Hoare.Program
import EnhancedXv6.Storage.Bits
import Mathlib.Data.Finset.Card

/-!
# What a write passes to the log

`writei` and what it calls once more, now with the numbers of the blocks that go to `log_write`: the
block of the free map and the cleared block in `balloc`, the indirect block in `bmap`, the data blocks in
`writei` and the block of the inode in `iupdate`.  The record is kept beside the volume.
The last part counts the blocks of one transaction of `filewrite`.
-/

namespace EnhancedXv6.FileSystem

open Hoare Hoare.Program Storage

/-- The superblock with the places of inodes and free map. -/
structure Layout extends Superblock where
  inodestart : ℕ
  bmapstart : ℕ

namespace Logged

/-- The volume as the buffer cache shows it, with the record of the log. -/
structure Cached where
  volume : Volume
  /-- the blocks passed to `log_write`, in that order -/
  logged : List ℕ

abbrev Log (α : Type) := Program Cached Stop α

def change (f : Volume → Volume) : Log Unit := modify fun s ↦ { s with volume := f s.volume }

def logWrite (b : ℕ) : Log Unit := do
  let s ← get
  when (s.volume.inOp = false) (stop .logWriteOutsideOfTrans)
  modify fun s ↦ { s with logged := s.logged ++ [b] }

/-- A change of a buffer that is passed to `log_write`. -/
def changeLogged (f : Volume → Volume) (b : ℕ) : Log Unit := do
  change f
  logWrite b

variable (sb : Layout)

def bblock (b : ℕ) : ℕ := b / BPB + sb.bmapstart

def iblock (inum : ℕ) : ℕ := inum / IPB + sb.inodestart

def bzero (b : ℕ) : Log Unit := changeLogged (fun v ↦ v.setBlock b zeroBlock) b

def balloc : Log ℕ := do
  let s ← get
  match firstFree sb.toSuperblock s.volume with
  | some b => do
    changeLogged (fun v ↦ v.setUsed b true) (bblock sb b)
    bzero b
    pure b
  | none => pure 0

def loadAddr (ip : Dinode) (i : ℕ) : Log (ℕ × Dinode) :=
  if ip.addrs i ≠ 0 then pure (ip.addrs i, ip)
  else do
    let addr ← balloc sb
    if addr = 0 then pure (0, ip) else pure (addr, ip.setAddr i addr)

def loadEntry (ind j : ℕ) : Log ℕ := do
  let s ← get
  if (s.volume.block ind).word j ≠ 0 then pure ((s.volume.block ind).word j)
  else do
    let addr ← balloc sb
    if addr = 0 then pure 0
    else do
      change fun v ↦ v.setBlock ind ((v.block ind).setWord j addr)
      logWrite ind
      pure addr

def bmap (ip : Dinode) (bn : ℕ) : Log (ℕ × Dinode) :=
  if bn < NDIRECT then loadAddr sb ip bn
  else if bn - NDIRECT < NINDIRECT then do
    let r ← loadAddr sb ip NDIRECT
    if r.1 = 0 then pure r
    else do
      let addr ← loadEntry sb r.1 (bn - NDIRECT)
      pure (addr, r.2)
  else stop .bmapOutOfRange

def iupdate (inum : ℕ) (ip : Dinode) : Log Unit :=
  changeLogged (fun v ↦ v.setInode inum ip) (iblock sb inum)

/-- The loop of `writei`.  What a `copyin` that fails has copied stays in the buffer. -/
def writeLoop (src : ℕ → Option UInt8) : List (ℕ × ℕ) → Dinode → ℕ → Log (ℕ × Dinode)
  | [], ip, tot => pure (tot, ip)
  | (off, m) :: rest, ip, tot => do
    let r ← bmap sb ip (off / BSIZE)
    if r.1 = 0 then pure (tot, r.2)
    else do
      let k := mappedBytes src tot m
      change fun v ↦ v.setBlock r.1 (copyInto src tot (off % BSIZE) k (v.block r.1))
      if k < m then pure (tot, r.2)
      else do
        logWrite r.1
        writeLoop src rest r.2 (tot + m)

def writei (inum : ℕ) (ip : Dinode) (off n : ℕ) (src : ℕ → Option UInt8) :
    Log (Option ℕ × Dinode) :=
  if off > ip.size ∨ off + n ≥ 2 ^ 32 then pure (none, ip)
  else if off + n > MAXFILE * BSIZE then pure (none, ip)
  else do
    let r ← writeLoop sb src (pieces n off n) ip 0
    let ip := if off + r.1 > r.2.size then { r.2 with size := off + r.1 } else r.2
    iupdate sb inum ip
    pure (some r.1, ip)

/-- One transaction of `filewrite` on the inode it has locked. -/
def writePiece (inum : ℕ) (ip : Dinode) (off n : ℕ) (src : ℕ → Option UInt8) :
    Log (Option ℕ × Dinode) := do
  change fun v ↦ { v with inOp := true }
  let r ← writei sb inum ip off n src
  change fun v ↦ { v with inOp := false }
  pure r

/-! ## Without the record

Seen without the record, `balloc`, `bmap` and `iupdate` are the functions on the volume, also where
`log_write` panics. -/

section Erasure

variable {sb} {s : Cached} {v : Volume} {f : Volume → Volume} {b inum bn : ℕ} {ip : Dinode}

theorem run_logWrite (h : s.volume.inOp = true) :
    logWrite b s = .ok ((), { s with logged := s.logged ++ [b] }) := by
  rw [logWrite, run_bind rfl, run_bind]
  · rfl
  · rw [when, if_neg (by simp [h])]
    rfl

theorem logWrite_outside (h : s.volume.inOp = false) :
    logWrite b s = .error .logWriteOutsideOfTrans := by
  rw [logWrite, run_bind rfl, when, if_pos h]
  rfl

theorem run_logWrite_volume (h : v.inOp = true) : FileSystem.logWrite v = .ok ((), v) := by
  rw [FileSystem.logWrite, run_bind rfl, when, if_neg (by simp [h])]
  rfl

theorem logWrite_volume_outside (h : v.inOp = false) :
    FileSystem.logWrite v = .error .logWriteOutsideOfTrans := by
  rw [FileSystem.logWrite, run_bind rfl, when, if_pos h]
  rfl

theorem logWrite_erases : ErasesAt Cached.volume (logWrite b) FileSystem.logWrite s := by
  cases hin : s.volume.inOp with
  | false => exact .of_stop (logWrite_outside hin) (logWrite_volume_outside hin)
  | true => exact .of_run (run_logWrite hin) (run_logWrite_volume hin)

theorem run_changeLogged (hin : (f s.volume).inOp = true) :
    changeLogged f b s = .ok ((), { s with volume := f s.volume, logged := s.logged ++ [b] }) := by
  rw [changeLogged, run_bind rfl]
  exact run_logWrite hin

theorem changeLogged_outside (hin : (f s.volume).inOp = false) :
    changeLogged f b s = .error .logWriteOutsideOfTrans := by
  rw [changeLogged, run_bind rfl]
  exact logWrite_outside hin

/-- The test of `log_write` may come before or after the change of the buffer. -/
theorem changeLogged_erases (hin : (f s.volume).inOp = s.volume.inOp) :
    ErasesAt Cached.volume (changeLogged f b) (FileSystem.logWrite >>= fun _ ↦ modify f) s := by
  cases hop : s.volume.inOp with
  | false =>
    refine .of_stop (changeLogged_outside (hin.trans hop)) ?_
    simp only [bind, logWrite_volume_outside hop]
  | true =>
    refine .of_run (run_changeLogged (hin.trans hop)) ?_
    rw [run_bind (run_logWrite_volume hop)]
    rfl

theorem balloc_erases : ErasesAt Cached.volume (balloc sb) (FileSystem.balloc sb.toSuperblock) s := by
  refine .get ?_
  cases firstFree sb.toSuperblock s.volume with
  | none => exact .pure _
  | some b =>
    cases hop : s.volume.inOp with
    | false =>
      have hstop : changeLogged (fun v ↦ v.setUsed b true) (bblock sb b) s = .error _ :=
        changeLogged_outside hop
      refine .of_stop (e := .logWriteOutsideOfTrans) ?_ ?_
      · simp only [bind, hstop]
      · simp only [bind, logWrite_volume_outside hop]
    | true =>
      refine .of_run ((run_bind (run_changeLogged hop)).trans
        (run_bind (run_changeLogged hop))) ?_
      exact run_bind (run_logWrite_volume hop)

theorem loadAddr_erases {i : ℕ} :
    ErasesAt Cached.volume (loadAddr sb ip i) (FileSystem.loadAddr sb.toSuperblock ip i) s :=
  .ite (fun _ ↦ .pure _) fun _ ↦
    .bind balloc_erases fun _ _ ↦ .ite (fun _ ↦ .pure _) fun _ ↦ .pure _

theorem loadEntry_erases {ind j : ℕ} :
    ErasesAt Cached.volume (loadEntry sb ind j) (FileSystem.loadEntry sb.toSuperblock ind j) s := by
  refine .get (.ite (fun _ ↦ .pure _) fun _ ↦ .bind balloc_erases fun _ _ ↦ ?_)
  refine .ite (fun _ ↦ .pure _) fun _ ↦ .bind (.modify rfl) fun _ _ ↦ ?_
  exact .bind logWrite_erases fun _ _ ↦ .pure _

theorem bmap_erases :
    ErasesAt Cached.volume (bmap sb ip bn) (FileSystem.bmap sb.toSuperblock ip bn) s := by
  refine .ite (fun _ ↦ loadAddr_erases) fun _ ↦ .ite (fun _ ↦ ?_) fun _ ↦ .stop _
  refine .bind loadAddr_erases fun r _ ↦ .ite (fun _ ↦ .pure _) fun _ ↦ ?_
  exact .bind loadEntry_erases fun _ _ ↦ .pure _

theorem iupdate_erases :
    ErasesAt Cached.volume (iupdate sb inum ip) (FileSystem.iupdate inum ip) s :=
  changeLogged_erases rfl

end Erasure

/-! ## Which blocks are logged -/

/-- From `s` to `s'` only blocks of `S` went to the log, inside or outside a transaction as before. -/
structure LogsIn (S : Finset ℕ) (s s' : Cached) : Prop where
  logged : ∃ new, s'.logged = s.logged ++ new ∧ new.toFinset ⊆ S
  inOp : s'.volume.inOp = s.volume.inOp

namespace LogsIn

variable {S S' : Finset ℕ} {s s' s'' : Cached}

theorem refl (S : Finset ℕ) (s : Cached) : LogsIn S s s :=
  ⟨⟨[], (List.append_nil _).symm, by simp⟩, rfl⟩

theorem mono (h : LogsIn S s s') (hsub : S ⊆ S') : LogsIn S' s s' := by
  obtain ⟨new, hnew, hin⟩ := h.logged
  exact ⟨⟨new, hnew, hin.trans hsub⟩, h.inOp⟩

theorem trans (h : LogsIn S s s') (h' : LogsIn S s' s'') : LogsIn S s s'' := by
  obtain ⟨new, hnew, hin⟩ := h.logged
  obtain ⟨new', hnew', hin'⟩ := h'.logged
  refine ⟨⟨new ++ new', by rw [hnew', hnew, List.append_assoc], ?_⟩, h'.inOp.trans h.inOp⟩
  rw [List.toFinset_append]
  exact Finset.union_subset hin hin'

/-- One block more, whatever happened to the buffers. -/
theorem block {b : ℕ} (hb : b ∈ S) (hlogged : s'.logged = s.logged ++ [b])
    (hop : s'.volume.inOp = s.volume.inOp) : LogsIn S s s' := by
  refine ⟨⟨[b], hlogged, ?_⟩, hop⟩
  rw [List.toFinset_cons, List.toFinset_nil]
  exact Finset.singleton_subset_iff.mpr hb

end LogsIn

section Count

variable {sb} {s : Cached} {b inum bn : ℕ} {ip : Dinode} {E : Stop → Prop}

theorem wp_logWrite {Q : Unit → Cached → Prop} (hin : s.volume.inOp = true)
    (h : Q () { s with logged := s.logged ++ [b] }) : (logWrite b).wp Q E s :=
  wp_of_run (run_logWrite hin) h

theorem wp_changeLogged {f : Volume → Volume} {Q : Unit → Cached → Prop}
    (hin : (f s.volume).inOp = true)
    (h : Q () { s with volume := f s.volume, logged := s.logged ++ [b] }) :
    (changeLogged f b).wp Q E s :=
  wp_of_run (run_changeLogged hin) h

/-- `balloc` logs the first block of the free map and the block that it takes. -/
theorem balloc_logs (hsize : sb.size ≤ BPB) (hin : s.volume.inOp = true) :
    (balloc sb).wp (fun b s' ↦ LogsIn {sb.bmapstart, b} s s') E s := by
  refine wp_bind.mpr (wp_get.mpr ?_)
  cases hfirst : firstFree sb.toSuperblock s.volume with
  | none => exact .refl _ _
  | some b =>
    have hb : b < sb.size := List.mem_range.mp (List.mem_of_find?_eq_some hfirst)
    have hblock : bblock sb b = sb.bmapstart := by
      rw [bblock, Nat.div_eq_of_lt (Nat.lt_of_lt_of_le hb hsize), Nat.zero_add]
    refine wp_bind.mpr (wp_changeLogged hin (wp_bind.mpr (wp_changeLogged hin ?_)))
    refine ⟨⟨[bblock sb b, b], by simp, ?_⟩, rfl⟩
    simp [hblock]

def pointer (ip : Dinode) : Finset ℕ := ({ip.addrs NDIRECT} : Finset ℕ).erase 0

theorem pointer_subset {ip ip' : Dinode}
    (h : ip.addrs NDIRECT ≠ 0 → ip'.addrs NDIRECT = ip.addrs NDIRECT) : pointer ip ⊆ pointer ip' := by
  intro b hb
  obtain ⟨hb0, hb⟩ := Finset.mem_erase.mp hb
  rw [Finset.mem_singleton] at hb
  refine Finset.mem_erase.mpr ⟨hb0, Finset.mem_singleton.mpr ?_⟩
  rw [hb] at hb0 ⊢
  exact (h hb0).symm

theorem loadAddr_logs {i : ℕ} (hsize : sb.size ≤ BPB) (hin : s.volume.inOp = true) :
    (loadAddr sb ip i).wp
      (fun r s' ↦ LogsIn {sb.bmapstart, r.1} s s' ∧ r.1 = r.2.addrs i ∧
        ∀ j, ip.addrs j ≠ 0 → r.2.addrs j = ip.addrs j) E s := by
  refine wp_ite (fun _ ↦ ⟨.refl _ _, rfl, fun _ _ ↦ rfl⟩) fun h0 ↦ ?_
  rw [not_not] at h0
  refine wp_seq (balloc_logs hsize hin) fun addr s' hlogs ↦ wp_ite (fun haddr ↦ ?_) fun _ ↦ ?_
  · exact ⟨haddr ▸ hlogs, h0.symm, fun _ _ ↦ rfl⟩
  · refine ⟨hlogs, by simp [Dinode.setAddr], fun j hj ↦ ?_⟩
    have hji : j ≠ i := fun hji ↦ hj (hji ▸ h0)
    simp [Dinode.setAddr, hji]

theorem loadEntry_logs {ind j : ℕ} (hsize : sb.size ≤ BPB) (hin : s.volume.inOp = true) :
    (loadEntry sb ind j).wp (fun addr s' ↦ LogsIn {sb.bmapstart, addr, ind} s s') E s := by
  refine wp_bind.mpr (wp_get.mpr (wp_ite (fun _ ↦ .refl _ _) fun _ ↦ ?_))
  refine wp_seq (balloc_logs hsize hin) fun addr s' hlogs ↦ ?_
  have hsub : ({sb.bmapstart, addr} : Finset ℕ) ⊆ {sb.bmapstart, addr, ind} := by
    intro b hb
    simp only [Finset.mem_insert, Finset.mem_singleton] at hb ⊢
    exact hb.imp_right .inl
  refine wp_ite (fun haddr ↦ haddr ▸ hlogs.mono hsub) fun _ ↦ ?_
  refine wp_bind.mpr (wp_modify.mpr (wp_bind.mpr (wp_logWrite (hlogs.inOp.trans hin) ?_)))
  exact (hlogs.mono hsub).trans (.block (b := ind) (by simp) rfl rfl)

/-- `bmap` logs a block of the free map, the block of the file and perhaps the indirect block. -/
theorem bmap_logs (hsize : sb.size ≤ BPB) (hin : s.volume.inOp = true) (hbn : bn < MAXFILE) :
    (bmap sb ip bn).wp
      (fun r s' ↦ LogsIn (insert sb.bmapstart (insert r.1 (pointer r.2))) s s' ∧
        (ip.addrs NDIRECT ≠ 0 → r.2.addrs NDIRECT = ip.addrs NDIRECT)) E s := by
  have hshort : ∀ a (ip : Dinode), ({sb.bmapstart, a} : Finset ℕ) ⊆
      insert sb.bmapstart (insert a (pointer ip)) := by
    intro a ip b hb
    simp only [Finset.mem_insert, Finset.mem_singleton] at hb ⊢
    exact hb.imp_right .inl
  refine wp_ite (fun _ ↦ ?_) fun hdirect ↦ wp_ite (fun _ ↦ ?_) fun hrange ↦ ?_
  · refine wp_mono (loadAddr_logs hsize hin) fun r s' ⟨hlogs, _, hkeep⟩ ↦ ?_
    exact ⟨hlogs.mono (hshort _ _), hkeep NDIRECT⟩
  · refine wp_seq (loadAddr_logs hsize hin) fun r s' ⟨hlogs, hr, hkeep⟩ ↦ ?_
    refine wp_ite (fun h0 ↦ ⟨hlogs.mono (hshort _ _), hkeep NDIRECT⟩) fun h0 ↦ ?_
    refine wp_seq (loadEntry_logs hsize (hlogs.inOp.trans hin)) fun addr s'' hentry ↦ ?_
    have hpointer : r.1 ∈ pointer r.2 := by simp [pointer, ← hr, h0]
    refine ⟨(hlogs.mono ?_).trans (hentry.mono ?_), hkeep NDIRECT⟩
    all_goals
      intro b hb
      simp only [Finset.mem_insert, Finset.mem_singleton] at hb ⊢
    · rcases hb with rfl | rfl
      · exact .inl rfl
      · exact .inr (.inr hpointer)
    · rcases hb with rfl | rfl | rfl
      · exact .inl rfl
      · exact .inr (.inl rfl)
      · exact .inr (.inr hpointer)
  · simp only [MAXFILE, NDIRECT, NINDIRECT] at hbn hdirect hrange
    omega

/-- The loop logs one block for each piece, the first block of the map and the indirect block. -/
theorem writeLoop_logs {src : ℕ → Option UInt8} {l : List (ℕ × ℕ)} {tot : ℕ}
    (hsize : sb.size ≤ BPB) (hin : s.volume.inOp = true) (hl : ∀ q ∈ l, q.1 / BSIZE < MAXFILE) :
    (writeLoop sb src l ip tot).wp
      (fun r s' ↦ (ip.addrs NDIRECT ≠ 0 → r.2.addrs NDIRECT = ip.addrs NDIRECT) ∧
        ∃ D : Finset ℕ, D.card ≤ l.length ∧ LogsIn (insert sb.bmapstart (pointer r.2 ∪ D)) s s')
      E s := by
  induction l generalizing ip tot s with
  | nil => exact ⟨fun _ ↦ rfl, ∅, Nat.zero_le _, .refl _ _⟩
  | cons q l ih =>
    refine wp_seq (bmap_logs hsize hin (hl q List.mem_cons_self)) fun r s₁ ⟨hlogs, hkeep⟩ ↦ ?_
    have hfirst : LogsIn (insert sb.bmapstart (pointer r.2 ∪ {r.1})) s s₁ := by
      refine hlogs.mono fun b hb ↦ ?_
      simp only [Finset.mem_insert, Finset.mem_union, Finset.mem_singleton] at hb ⊢
      exact hb.imp_right Or.symm
    have hcut : ({r.1} : Finset ℕ).card ≤ (q :: l).length := by
      rw [Finset.card_singleton]
      exact Nat.succ_le_succ (Nat.zero_le _)
    refine wp_ite (fun _ ↦ ⟨hkeep, {r.1}, hcut, hfirst⟩) fun _ ↦ ?_
    refine wp_bind.mpr (wp_modify.mpr (wp_ite (fun _ ↦ ?_) fun _ ↦ ?_))
    · exact ⟨hkeep, {r.1}, hcut, ⟨hfirst.logged, hfirst.inOp⟩⟩
    · refine wp_bind.mpr (wp_logWrite (hlogs.inOp.trans hin) ?_)
      refine wp_mono (ih (hlogs.inOp.trans hin) fun q' hq' ↦ hl q' (List.mem_cons_of_mem _ hq'))
        fun r' s' ⟨hkeep', D, hD, hrest⟩ ↦ ?_
      refine ⟨fun h0 ↦ ?_, insert r.1 D, ?_, ?_⟩
      · have hsame := hkeep h0
        rw [hkeep' (hsame.symm ▸ h0), hsame]
      · exact (Finset.card_insert_le _ _).trans (Nat.succ_le_succ hD)
      · have hpointer := pointer_subset hkeep'
        refine (hfirst.mono fun b hb ↦ ?_).trans (LogsIn.trans ?_ (hrest.mono fun b hb ↦ ?_))
        · simp only [Finset.mem_insert, Finset.mem_union, Finset.mem_singleton] at hb ⊢
          rcases hb with hb | hb | hb
          · exact .inl hb
          · exact .inr (.inl (hpointer hb))
          · exact .inr (.inr (.inl hb))
        · exact .block (b := r.1) (by simp) rfl rfl
        · simp only [Finset.mem_insert, Finset.mem_union] at hb ⊢
          exact hb.imp_right fun hb ↦ hb.imp_right .inr

theorem pieces_zero (fuel off : ℕ) : pieces fuel off 0 = [] := by
  cases fuel <;> rfl

/-- A range of bytes has a piece in each block that it touches. -/
theorem length_pieces_le (fuel off n : ℕ) :
    (pieces fuel off n).length ≤ (off % BSIZE + n + (BSIZE - 1)) / BSIZE := by
  induction fuel generalizing off n with
  | zero => exact Nat.zero_le _
  | succ fuel ih =>
    rw [pieces]
    by_cases hn : n = 0
    · rw [if_pos hn]
      exact Nat.zero_le _
    · rw [if_neg hn]
      by_cases hlast : n ≤ BSIZE - off % BSIZE
      · simp only [Nat.min_eq_left hlast, Nat.sub_self, pieces_zero, List.length_singleton]
        simp only [BSIZE]
        omega
      · have hmin : min n (BSIZE - off % BSIZE) = BSIZE - off % BSIZE := by omega
        have hrest := ih (off + (BSIZE - off % BSIZE)) (n - (BSIZE - off % BSIZE))
        simp only [hmin, List.length_cons]
        simp only [BSIZE] at hrest hlast ⊢
        omega

/-- `writei` logs a block for each piece, the map, the indirect block and the inode. -/
theorem writei_logs {off n : ℕ} {src : ℕ → Option UInt8} (hsize : sb.size ≤ BPB)
    (hin : s.volume.inOp = true) :
    (writei sb inum ip off n src).wp
      (fun _ s' ↦ ∃ S : Finset ℕ, S.card ≤ (pieces n off n).length + 3 ∧ LogsIn S s s') E s := by
  refine wp_ite (fun _ ↦ ⟨∅, Nat.zero_le _, .refl _ _⟩) fun _ ↦ ?_
  refine wp_ite (fun _ ↦ ⟨∅, Nat.zero_le _, .refl _ _⟩) fun hmax ↦ ?_
  have hrange : ∀ q ∈ pieces n off n, q.1 / BSIZE < MAXFILE := by
    intro q hq
    have hlt := (mem_pieces hq).2
    exact Nat.div_lt_of_lt_mul (by rw [Nat.mul_comm]; omega)
  refine wp_seq (writeLoop_logs hsize hin hrange) fun r s₁ ⟨_, D, hD, hlogs⟩ ↦ ?_
  refine wp_bind.mpr (wp_changeLogged (hlogs.inOp.trans hin) ?_)
  refine ⟨insert (iblock sb inum) (insert sb.bmapstart (pointer r.2 ∪ D)), ?_, ?_⟩
  · have hpointer : (pointer r.2).card ≤ 1 :=
      (Finset.card_le_card (Finset.erase_subset _ _)).trans (Finset.card_singleton _).le
    have hinode := Finset.card_insert_le (iblock sb inum) (insert sb.bmapstart (pointer r.2 ∪ D))
    have hmap := Finset.card_insert_le sb.bmapstart (pointer r.2 ∪ D)
    have hunion := Finset.card_union_le (pointer r.2) D
    omega
  · refine (hlogs.mono (Finset.subset_insert _ _)).trans (.block ?_ rfl rfl)
    exact Finset.mem_insert_self _ _

/-- On a disk whose free map is one block, every transaction of `filewrite`, for any inode, offset and
source, passes at most `MAXOPBLOCKS` different blocks to `log_write`. -/
theorem write_transaction_fits_log (sb : Layout) (hsize : sb.size ≤ BPB) (s : Cached) (inum : ℕ)
    (ip : Dinode) (off n : ℕ) (hn : n ≤ maxWrite) (src : ℕ → Option UInt8) :
    ∃ r s' new, writePiece sb inum ip off n src s = .ok (r, s') ∧ s'.logged = s.logged ++ new ∧
      new.toFinset.card ≤ MAXOPBLOCKS := by
  have hspec : (writePiece sb inum ip off n src).wp
      (fun _ s' ↦ ∃ new, s'.logged = s.logged ++ new ∧ new.toFinset.card ≤ MAXOPBLOCKS)
      (fun _ ↦ False) s := by
    refine wp_bind.mpr (wp_modify.mpr (wp_seq (writei_logs hsize rfl) fun r s' ⟨S, hS, hlogs⟩ ↦ ?_))
    obtain ⟨new, hnew, hin⟩ := hlogs.logged
    refine wp_bind.mpr (wp_modify.mpr ⟨new, hnew, ?_⟩)
    have hcard := Finset.card_le_card hin
    have hpieces := length_pieces_le n off n
    simp only [maxWrite, BSIZE, MAXOPBLOCKS] at hn hpieces ⊢
    omega
  cases hrun : writePiece sb inum ip off n src s with
  | error e => exact absurd (wp_error hspec hrun) id
  | ok r =>
    obtain ⟨new, hnew, hcard⟩ := wp_ok hspec hrun
    exact ⟨r.1, r.2, new, rfl, hnew, hcard⟩

def mkfsLayout : Layout where
  size := 2000
  nblocks := 1954
  ninodes := 200
  nblocks_lt := by decide
  size_lt := by decide
  ninodes_le := by decide
  inodestart := 32
  bmapstart := 45

/-- A file that ends in the middle of its last direct block, without an indirect block. -/
def directFile : Dinode :=
  { newInode T_FILE with size := 11777, addrs := fun i ↦ if i < NDIRECT then 46 + i else 0 }

def directDisk : Cached where
  volume :=
    { inode := fun inum ↦ if inum = 2 then directFile else newInode 0
      used := fun b ↦ b < 58
      block := fun _ ↦ zeroBlock
      inOp := false }
  logged := []

theorem write_transaction_fits_log_indirect :
    ∃ r s' new, writePiece mkfsLayout 2 directFile 11777 3072 (fun _ ↦ some 120) directDisk =
        .ok (r, s') ∧
      s'.logged = directDisk.logged ++ new ∧ new.toFinset.card ≤ MAXOPBLOCKS :=
  write_transaction_fits_log mkfsLayout (by decide) directDisk 2 directFile 11777 3072 (by decide) _

end Count

end Logged

end EnhancedXv6.FileSystem
