import EnhancedXv6.FileSystem.Directory
import EnhancedXv6.Mkfs.Append

/-!
# The files in the image

What `main` writes before it fixes the root directory: the tree of the volume is the root directory with
`.`, `..` and one entry for each file, and the files themselves.
-/

namespace EnhancedXv6.Mkfs

open Hoare Hoare.Program Storage FileSystem

variable {st : State} {inum : ℕ} {type : Int16}

def nodeOf (type : Int16) (bytes : List UInt8) : Node where
  type := type
  major := 0
  minor := 0
  nlink := 1
  size := bytes.length
  data := fun i ↦ bytes.getD i 0

theorem write_nodeOf (bytes p : List UInt8) :
    (nodeOf type bytes).write (nodeOf type bytes).size p.length (fun j ↦ p.getD j 0) =
      nodeOf type (bytes ++ p) := by
  have hsize : (nodeOf type bytes).size = bytes.length := rfl
  rw [hsize]
  ext1
  · rfl
  · rfl
  · rfl
  · rfl
  · simp only [Node.write, nodeOf, List.length_append]
    omega
  · funext i
    simp only [Node.write, nodeOf, List.getD_eq_getElem?_getD]
    by_cases hi : i < bytes.length
    · rw [if_neg (by omega), List.getElem?_append_left hi]
    · rw [List.getElem?_append_right (by omega)]
      by_cases hp : i < bytes.length + p.length
      · rw [if_pos (by omega)]
      · rw [if_neg (by omega), List.getElem?_eq_none (by omega), List.getElem?_eq_none (by omega)]

theorem slotsFor_zero : slotsFor 0 = 0 := by decide

/-! ## ialloc -/

theorem ialloc_run (type : Int16) (hinv : Inv st) (hroom : st.freeinode < NINODES) (hpos : 1 ≤ st.freeinode)
    (htype : type ≠ 0) :
    ∃ st', ialloc type st = .ok (st.freeinode, st') ∧ Inv st' ∧
      st'.freeinode = st.freeinode + 1 ∧ st'.freeblock = st.freeblock ∧
      st'.volume.tree = Function.update st.volume.tree st.freeinode (some (nodeOf type [])) := by
  set din : Dinode := { zeroDinode with type := type, nlink := 1 } with hdin
  set st₁ : State := { st with freeinode := st.freeinode + 1 } with hst₁
  have hfits : Fits din := ⟨Nat.two_pow_pos 32, fun _ _ ↦ Nat.two_pow_pos 32, fun _ _ ↦ rfl⟩
  have hvolume : (st₁.putInode st.freeinode din).volume = st.volume.setInode st.freeinode din :=
    volume_putInode hroom hfits
  have hfree : (st.volume.inode st.freeinode).type = 0 := by
    by_contra hne
    exact Nat.lt_irrefl _ ((hinv.inodes _).mp hne).2
  have hclean : Clean st₁ := ⟨hinv.clean.super, hinv.clean.tail, hinv.clean.low⟩
  refine ⟨st₁.putInode st.freeinode din, ?_, ⟨?_, ?_, fun x hx ↦ ?_, fun x ↦ ?_⟩, rfl, rfl, ?_⟩
  · rw [ialloc, run_bind rfl, run_bind rfl, run_bind (winode_run hroom)]
    rfl
  · exact hclean.putInode hroom
  · rw [hvolume]
    exact hinv.sound.setInode_empty (fun c ↦ Volume.slot_of_free hfree c) rfl rfl
  · rw [hvolume] at hx ⊢
    by_cases hxi : x = st.freeinode
    · subst hxi
      intro c
      have hzero : (st.volume.setInode st.freeinode din).slot (st.freeinode, c) = 0 := by
        simp [Volume.slot, slotAddr, fileBlock, hdin, zeroDinode]
      rw [hzero, Volume.setInode_inode, Function.update_self]
      rw [show din.size = 0 from rfl, slotsFor_zero]
      exact iff_of_false (fun h ↦ h rfl) (Nat.not_lt_zero c)
    · rw [Volume.setInode_inode, Function.update_of_ne hxi] at hx ⊢
      intro c
      rw [slot_setInode_of_ne hxi]
      exact hinv.filled x hx c
  · rw [hvolume, Volume.setInode_inode, Function.update_apply]
    by_cases hxi : x = st.freeinode
    · rw [if_pos hxi, hxi]
      exact iff_of_true htype ⟨hpos, Nat.lt_succ_self _⟩
    · rw [if_neg hxi, hinv.inodes x]
      simp only [State.putInode, hst₁]
      omega
  · rw [hvolume, Volume.tree_setInode (show din.type ≠ 0 from htype)]
    congr 2

/-! ## Files -/

def rootBytes (files : List File) : List UInt8 :=
  direntBytes ROOTINO dot ++ direntBytes ROOTINO dotdot ++
    (files.zipIdx 2).flatMap fun f ↦ direntBytes f.2 f.1.shortname

def treeOf (files : List File) : Tree := fun x ↦
  if x = ROOTINO then some (nodeOf T_DIR (rootBytes files))
  else if 2 ≤ x then (files[x - 2]?).map fun f ↦ nodeOf T_FILE f.contents
  else none

def fileBlocks (files : List File) : ℕ := (files.map fun f ↦ slotsFor f.contents.length).sum

def blocksUsed (files : List File) : ℕ :=
  slotsFor (DIRENT * (files.length + 2)) + fileBlocks files

theorem length_direntBytes (inum : ℕ) (name : Name) : (direntBytes inum name).length = DIRENT := by
  simp [direntBytes]

theorem rootBytes_concat (files : List File) (f : File) :
    rootBytes (files ++ [f]) =
      rootBytes files ++ direntBytes (files.length + 2) f.shortname := by
  simp [rootBytes, List.zipIdx_append, Nat.add_comm]

theorem length_rootBytes (files : List File) :
    (rootBytes files).length = DIRENT * (files.length + 2) := by
  induction files using List.reverseRecOn with
  | nil => simp [rootBytes, length_direntBytes, DIRENT]
  | append_singleton files f ih =>
    rw [rootBytes_concat, List.length_append, ih, length_direntBytes, List.length_append,
      List.length_singleton]
    simp only [DIRENT]
    omega

theorem fileBlocks_concat (files : List File) (f : File) :
    fileBlocks (files ++ [f]) = fileBlocks files + slotsFor f.contents.length := by
  simp [fileBlocks]

theorem treeOf_concat (files : List File) (f : File) :
    Function.update (Function.update (Function.update (treeOf files) (files.length + 2)
      (some (nodeOf T_FILE []))) ROOTINO (some (nodeOf T_DIR (rootBytes (files ++ [f])))))
      (files.length + 2) (some (nodeOf T_FILE f.contents)) = treeOf (files ++ [f]) := by
  funext x
  by_cases hnew : x = files.length + 2
  · subst hnew
    rw [Function.update_self, treeOf, if_neg (by simp only [ROOTINO]; omega), if_pos (by omega),
      Nat.add_sub_cancel, List.getElem?_concat_length, Option.map_some]
  · rw [Function.update_of_ne hnew]
    by_cases hroot : x = ROOTINO
    · rw [hroot, Function.update_self, treeOf, if_pos rfl]
    · rw [Function.update_of_ne hroot, Function.update_of_ne hnew, treeOf, treeOf, if_neg hroot,
        if_neg hroot]
      by_cases hx : 2 ≤ x
      · rw [if_pos hx, if_pos hx]
        by_cases hlt : x - 2 < files.length
        · rw [List.getElem?_append_left hlt]
        · rw [List.getElem?_eq_none (by omega), List.getElem?_eq_none]
          rw [List.length_append, List.length_singleton]
          omega
      · rw [if_neg hx, if_neg hx]

/-- The state of `main` after some of the files. -/
structure Holds (files : List File) (st : State) : Prop where
  inv : Inv st
  tree : st.volume.tree = treeOf files
  freeinode : st.freeinode = files.length + 2
  freeblock : st.freeblock = nmeta + blocksUsed files

theorem appendReads_run {bytes : List UInt8} {reads : List (List UInt8)} (hinv : Inv st)
    (hnode : st.volume.tree inum = some (nodeOf type bytes)) (hreads : [] ∉ reads)
    (hmax : (bytes ++ reads.flatten).length ≤ MAXFILE * BSIZE)
    (hroom : st.freeblock + slotsFor (bytes ++ reads.flatten).length ≤
      FSSIZE + slotsFor bytes.length) :
    ∃ st', appendReads inum reads st = .ok ((), st') ∧ Inv st' ∧ st'.freeinode = st.freeinode ∧
      st'.freeblock + slotsFor bytes.length =
        st.freeblock + slotsFor (bytes ++ reads.flatten).length ∧
      st'.volume.tree = Function.update st.volume.tree inum
        (some (nodeOf type (bytes ++ reads.flatten))) := by
  induction reads generalizing st bytes with
  | nil =>
    rw [List.flatten_nil, List.append_nil]
    refine ⟨st, rfl, hinv, rfl, rfl, ?_⟩
    rw [← hnode, Function.update_eq_self]
  | cons buf reads ih =>
    rw [List.mem_cons, not_or] at hreads
    rw [List.flatten_cons, ← List.append_assoc] at hmax hroom ⊢
    have hsize : (nodeOf type bytes).size = bytes.length := rfl
    have hle : (bytes ++ buf).length ≤ (bytes ++ buf ++ reads.flatten).length := by
      simp only [List.length_append]
      omega
    have hmono := slotsFor_mono hle
    have hlen : bytes.length + buf.length = (bytes ++ buf).length := List.length_append.symm
    obtain ⟨st₁, hrun, hinv₁, hfreeinode, hfree, htree⟩ := iappend_run (p := buf) hinv hnode
      (by rw [hsize]; omega) (by rw [hsize, hlen]; omega)
    rw [write_nodeOf] at htree
    rw [hsize, hlen] at hfree
    obtain ⟨st', hrun', hinv', hfreeinode', hfree', htree'⟩ := ih hinv₁
      (by rw [htree, Function.update_self]) hreads.2 hmax (by omega)
    refine ⟨st', ?_, hinv', hfreeinode'.trans hfreeinode, by omega, ?_⟩
    · rw [appendReads, if_neg (Ne.symm hreads.1), run_bind hrun]
      exact hrun'
    · rw [htree', htree, Function.update_idem]

/-- One round of the loop of `main` over its files. -/
theorem addFile_run {done : List File} {f : File} (hst : Holds done st)
    (hslash : slash ∉ basename f.path) (hreads : [] ∉ f.reads)
    (hcount : done.length + 2 < NINODES) (hmax : f.contents.length ≤ MAXFILE * BSIZE)
    (hroom : nmeta + blocksUsed (done ++ [f]) ≤ FSSIZE) :
    ∃ st', addFile f st = .ok ((), st') ∧ Holds (done ++ [f]) st' := by
  have hblocks : blocksUsed (done ++ [f]) = slotsFor (DIRENT * (done.length + 3)) +
      (fileBlocks done + slotsFor f.contents.length) := by
    rw [blocksUsed, fileBlocks_concat, List.length_append, List.length_singleton]
  rw [hblocks] at hroom
  have hfree := hst.freeblock
  rw [blocksUsed] at hfree
  have hmono : slotsFor (DIRENT * (done.length + 2)) ≤ slotsFor (DIRENT * (done.length + 3)) :=
    slotsFor_mono (Nat.mul_le_mul_left _ (Nat.le_succ _))
  -- the inode
  obtain ⟨st₁, hrun₁, hinv₁, hfreeinode₁, hfree₁, htree₁⟩ := ialloc_run T_FILE hst.inv
    (hst.freeinode ▸ hcount) (by rw [hst.freeinode]; omega) (by decide)
  rw [hst.freeinode] at hrun₁ htree₁
  -- the entry of the root directory
  have hroot : st₁.volume.tree ROOTINO = some (nodeOf T_DIR (rootBytes done)) := by
    rw [htree₁, Function.update_of_ne (by simp only [ROOTINO]; omega), hst.tree, treeOf, if_pos rfl]
  have hsize : (nodeOf T_DIR (rootBytes done)).size = DIRENT * (done.length + 2) :=
    length_rootBytes done
  have hentry : DIRENT * (done.length + 2) + (direntBytes (done.length + 2) f.shortname).length =
      DIRENT * (done.length + 3) := by
    rw [length_direntBytes]
    simp only [DIRENT]
    omega
  obtain ⟨st₂, hrun₂, hinv₂, hfreeinode₂, hfree₂, htree₂⟩ :=
    iappend_run (p := direntBytes (done.length + 2) f.shortname) hinv₁ hroot
      (by
        rw [hsize, hentry]
        simp only [DIRENT, NINODES, BSIZE, MAXFILE, NDIRECT, NINDIRECT] at hcount ⊢
        omega)
      (by rw [hsize, hentry]; omega)
  rw [write_nodeOf, ← rootBytes_concat] at htree₂
  rw [hsize, hentry] at hfree₂
  -- the contents
  have hnode : st₂.volume.tree (done.length + 2) = some (nodeOf T_FILE []) := by
    rw [htree₂, Function.update_of_ne (by simp only [ROOTINO]; omega), htree₁, Function.update_self]
  have hempty : slotsFor ([] : List UInt8).length = 0 := slotsFor_zero
  obtain ⟨st₃, hrun₃, hinv₃, hfreeinode₃, hfree₃, htree₃⟩ := appendReads_run hinv₂ hnode hreads
    (by rwa [List.nil_append])
    (by
      rw [List.nil_append, hempty]
      change _ + slotsFor f.contents.length ≤ _
      omega)
  rw [List.nil_append, hempty] at hfree₃
  refine ⟨st₃, ?_, hinv₃, ?_, ?_, ?_⟩
  · rw [addFile, when, if_neg hslash, run_bind rfl, run_bind hrun₁, run_bind hrun₂]
    exact hrun₃
  · rw [htree₃, htree₂, htree₁, hst.tree, List.nil_append]
    exact treeOf_concat done f
  · rw [hfreeinode₃, hfreeinode₂, hfreeinode₁, hst.freeinode, List.length_append,
      List.length_singleton]
  · rw [hblocks]
    change st₃.freeblock + 0 = st₂.freeblock + slotsFor f.contents.length at hfree₃
    omega

end EnhancedXv6.Mkfs
