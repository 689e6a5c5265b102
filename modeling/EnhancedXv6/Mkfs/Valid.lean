import EnhancedXv6.FileSystem.Resolution
import EnhancedXv6.Mkfs.Main
import Mathlib.Data.List.GetD

/-!
# Is the image a file system of the kernel?

The kernel takes for granted that every block of a file below its size has an address, that no block
is used twice, that the free map marks what is used, and that a directory starts with `.` and `..`.
What `main` writes is so except for one case: it rounds the size of the root directory up to the next
multiple of the block size even if it is one already.  Then the last block of the directory has no
address.
-/

namespace EnhancedXv6.Mkfs

open Hoare Hoare.Program Storage FileSystem

variable {st : State} {image : Image} {files : List File}

/-- What the kernel relies on when it finds the image on its disk. -/
structure Valid (image : Image) : Prop where
  mapped : ∀ x bn, ((mount image).inode x).type ≠ 0 → bn * BSIZE < ((mount image).inode x).size →
    fileBlock (mount image).block ((mount image).inode x) bn ≠ 0
  once : ∀ i j, (mount image).slot i ≠ 0 → (mount image).slot i = (mount image).slot j → i = j
  marked : ∀ b < FSSIZE, (mount image).used b = true ↔ b < nmeta ∨ ∃ i, (mount image).slot i = b
  dots : (((mount image).inode ROOTINO).node (mount image).block).dirent 0 =
      ⟨ROOTINO, strncpy dot DIRSIZ⟩ ∧
    (((mount image).inode ROOTINO).node (mount image).block).dirent 1 =
      ⟨ROOTINO, strncpy dotdot DIRSIZ⟩

/-- Before the first process has a working directory, a valid image is a disk to look up paths on. -/
theorem Valid.settled {s : FileSystem.State} (h : Valid image) (hvolume : s.volume = mount image)
    (hrefs : ∀ ip, s.refs ip = 0) (hcwd : ∀ p, s.cwd p = none) : s.Settled where
  copies := fun ip hpos ↦ by simp [hrefs] at hpos
  cwd := fun p ip hip ↦ by simp [hcwd] at hip
  mapped := by
    rw [hvolume]
    exact fun x hdir bn hbn ↦ h.mapped x bn (by rw [hdir]; decide) hbn

/-! ## The entries of the root directory -/

/-- The entries that `main` appends to the root directory. -/
def rootEntries (files : List File) : List Dirent :=
  ⟨ROOTINO, strncpy dot DIRSIZ⟩ :: ⟨ROOTINO, strncpy dotdot DIRSIZ⟩ ::
    (files.zipIdx 2).map fun f ↦ ⟨f.2, strncpy f.1.shortname DIRSIZ⟩

theorem getD_flatMap {α β : Type} {f : α → List β} {n : ℕ} (hf : ∀ a, (f a).length = n) (d : β)
    {k i : ℕ} (hi : i < n) {l : List α} (hk : k < l.length) :
    (l.flatMap f).getD (n * k + i) d = (f l[k]).getD i d := by
  induction l generalizing k with
  | nil => cases hk
  | cons a l ih =>
    rw [List.flatMap_cons]
    cases k with
    | zero =>
      rw [Nat.mul_zero, Nat.zero_add, List.getD_append _ _ _ _ (by rw [hf]; exact hi)]
      rfl
    | succ k =>
      have hle : (f a).length ≤ n * (k + 1) + i := by
        rw [hf, Nat.mul_succ]
        omega
      have hsub : n * (k + 1) + i - n = n * k + i := by
        rw [Nat.mul_succ]
        omega
      rw [List.getD_append_right _ _ _ _ hle, hf, hsub]
      exact ih (Nat.lt_of_succ_lt_succ hk)

theorem rootBytes_eq (files : List File) :
    rootBytes files = (rootEntries files).flatMap fun de ↦ (List.range DIRENT).map de.encode := by
  simp [rootBytes, rootEntries, direntBytes, List.flatMap_map]

theorem length_rootEntries (files : List File) : (rootEntries files).length = files.length + 2 := by
  simp [rootEntries]

theorem rootEntries_fields {de : Dirent} (hcount : files.length ≤ NINODES - 2)
    (hde : de ∈ rootEntries files) : de.inum < 2 ^ 16 ∧ de.name.length = DIRSIZ := by
  simp only [rootEntries, List.mem_cons, List.mem_map] at hde
  rcases hde with rfl | rfl | ⟨f, hf, rfl⟩
  · exact ⟨by decide, length_strncpy _ _⟩
  · exact ⟨by decide, length_strncpy _ _⟩
  · have hlt := List.snd_lt_of_mem_zipIdx hf
    refine ⟨?_, length_strncpy _ _⟩
    simp only [NINODES] at hcount
    dsimp only
    omega

/-! ## The image of `main` -/

section Finished

variable (hst : Holds files st) (hcount : files.length ≤ NINODES - 2)
include hst hcount

theorem slot_finished : (mount (finished st).image).slot = st.volume.slot := by
  obtain ⟨hinode, hblock, -⟩ := mount_finished hst hcount
  funext i
  rw [Volume.slot, Volume.slot, hinode, hblock, Volume.setInode_inode]
  by_cases hi : i.1 = ROOTINO
  · rw [hi, Function.update_self]
    rfl
  · rw [Function.update_of_ne hi]

theorem dirent_finished {k : ℕ} (hk : k < (rootEntries files).length) :
    (((mount (finished st).image).inode ROOTINO).node (mount (finished st).image).block).dirent k =
      (rootEntries files)[k] := by
  obtain ⟨hinode, hblock, -⟩ := mount_finished hst hcount
  obtain ⟨-, hsize, hbytes⟩ := hst.root
  have hlen := length_rootEntries files
  have hroot : (mount (finished st).image).inode ROOTINO = rootInode st := by
    rw [hinode, Volume.setInode_inode, Function.update_self]
  obtain ⟨hinum, hname⟩ := rootEntries_fields hcount (List.getElem_mem hk)
  rw [hroot, hblock]
  refine Eq.trans (Dirent.decode_congr fun i hi ↦ ?_) (Dirent.decode_encode hinum hname)
  have hlt : DIRENT * k + i < DIRENT * (files.length + 2) := by
    simp only [DIRENT] at hi ⊢
    omega
  have hround : DIRENT * k + i < (rootInode st).size := by
    simp only [rootInode, hsize, DIRENT, BSIZE] at hlt ⊢
    omega
  have hdata : ((rootInode st).node st.volume.block).data (DIRENT * k + i) =
      fileByte st.volume.block (st.volume.inode ROOTINO) (DIRENT * k + i) := if_pos hround
  rw [hdata, hbytes _ hlt, rootBytes_eq, getD_flatMap (by simp) 0 hi hk]
  simp only [List.getD_eq_getElem?_getD, List.getElem?_map, List.getElem?_range hi]
  rfl

/-- A block of a file has an address if and only if `main` appended to it. -/
theorem fileBlock_finished {x : ℕ} (hx : (st.volume.inode x).type ≠ 0) (bn : ℕ) :
    fileBlock (mount (finished st).image).block ((mount (finished st).image).inode x) bn ≠ 0 ↔
      bn * BSIZE < (st.volume.inode x).size := by
  obtain ⟨hinode, -, -⟩ := mount_finished hst hcount
  have htype : ((mount (finished st).image).inode x).type ≠ 0 := by
    rw [hinode, Volume.setInode_inode]
    by_cases hroot : x = ROOTINO
    · rw [hroot] at hx ⊢
      rw [Function.update_self]
      exact hx
    · rwa [Function.update_of_ne hroot]
  have hslot : (mount (finished st).image).slot (x, slotIndex bn) =
      fileBlock (mount (finished st).image).block ((mount (finished st).image).inode x) bn := by
    rw [Volume.slot, if_neg htype, slotAddr_slotIndex]
  rw [← hslot, slot_finished hst hcount, hst.inv.filled x hx]
  unfold slotIndex slotsFor dataBlocks
  simp only [NDIRECT, BSIZE]
  split_ifs <;> omega

/-- All blocks of all files have an address, unless the entries fill the last block of the root
directory. -/
theorem mapped_finished_iff :
    (∀ x bn, ((mount (finished st).image).inode x).type ≠ 0 →
      bn * BSIZE < ((mount (finished st).image).inode x).size →
      fileBlock (mount (finished st).image).block ((mount (finished st).image).inode x) bn ≠ 0) ↔
      ¬ 64 ∣ files.length + 2 := by
  obtain ⟨hinode, -, -⟩ := mount_finished hst hcount
  obtain ⟨hdir, hsize, -⟩ := hst.root
  have hroot : (mount (finished st).image).inode ROOTINO = rootInode st := by
    rw [hinode, Volume.setInode_inode, Function.update_self]
  have htype : (st.volume.inode ROOTINO).type ≠ 0 := by
    rw [hdir]
    decide
  constructor
  · intro hmapped hdvd
    -- the block that the rounded size adds
    have hlast := hmapped ROOTINO ((st.volume.inode ROOTINO).size / BSIZE)
      (by rw [hroot]; exact htype) (by
        rw [hroot]
        simp only [rootInode, BSIZE]
        omega)
    rw [fileBlock_finished hst hcount htype, hsize] at hlast
    simp only [DIRENT, BSIZE] at hlast
    omega
  · intro hdvd x bn hx hbn
    by_cases hxr : x = ROOTINO
    · subst hxr
      rw [fileBlock_finished hst hcount htype, hsize]
      rw [hroot] at hbn
      simp only [rootInode, hsize, DIRENT, BSIZE] at hbn ⊢
      omega
    · have heq : (mount (finished st).image).inode x = st.volume.inode x := by
        rw [hinode, Volume.setInode_inode, Function.update_of_ne hxr]
      rw [heq] at hx hbn
      exact (fileBlock_finished hst hcount hx bn).mpr hbn

theorem marked_finished (b : ℕ) (hb : b < FSSIZE) :
    (mount (finished st).image).used b = true ↔
      b < nmeta ∨ ∃ i, (mount (finished st).image).slot i = b := by
  obtain ⟨-, -, hused⟩ := mount_finished hst hcount
  have hbooks := hst.inv.sound.owned
  have hmeta : layout.size - layout.nblocks = nmeta := by decide
  rw [hused b hb, slot_finished hst hcount]
  constructor
  · intro hmarked
    by_cases hlow : b < nmeta
    · exact .inl hlow
    · refine .inr (hbooks.assigned.owned b ⟨?_, hb⟩ hmarked)
      rw [hmeta]
      omega
  · rintro (hlow | ⟨i, rfl⟩)
    · exact hbooks.reserved b (by rw [hmeta]; exact hlow)
    · by_cases hzero : st.volume.slot i = 0
      · rw [hzero]
        exact hbooks.reserved 0 (by decide)
      · exact hbooks.assigned.marked i hzero

theorem valid_finished_iff : Valid (finished st).image ↔ ¬ 64 ∣ files.length + 2 := by
  rw [← mapped_finished_iff hst hcount]
  refine ⟨Valid.mapped, fun hmapped ↦ ⟨hmapped, ?_, marked_finished hst hcount, ?_⟩⟩
  · rw [slot_finished hst hcount]
    exact hst.inv.sound.owned.assigned.injective
  · have hlen := length_rootEntries files
    have hzero := dirent_finished hst hcount (k := 0) (by omega)
    have hone := dirent_finished hst hcount (k := 1) (by omega)
    exact ⟨hzero, hone⟩

end Finished

/-- `mkfs` writes a valid file system if and only if the entries of the root directory, with those
for `.` and `..`, do not fill its last block. -/
theorem main_valid_iff (hinput : Input files) (image : Image) :
    ∃ st, main files (start image) = .ok ((), st) ∧
      (Valid st.image ↔ ¬ 64 ∣ files.length + 2) := by
  obtain ⟨st, hst, hrun⟩ := main_run hinput image
  exact ⟨finished st, hrun, valid_finished_iff hst hinput.count⟩

def catFile : File :=
  ⟨[95, 99, 97, 116], [[127, 69]]⟩

theorem main_valid_iff_catFile :
    ∃ st, main [catFile] (start fun _ ↦ zeroBlock) = .ok ((), st) ∧ Valid st.image := by
  have hinput : Input [catFile] :=
    ⟨by decide, by decide, by decide, by decide, by decide, by decide⟩
  obtain ⟨st, hrun, hvalid⟩ := main_valid_iff hinput fun _ ↦ zeroBlock
  exact ⟨st, hrun, hvalid.mpr (by decide)⟩

def emptyFiles : List File :=
  (List.range 62).map fun i ↦ ⟨[UInt8.ofNat (97 + i)], []⟩

/-- With 62 files the entries fill one block, and the second block of the root directory has no
address. -/
theorem full_root_invalid :
    Input emptyFiles ∧ ∃ st, main emptyFiles (start fun _ ↦ zeroBlock) = .ok ((), st) ∧
      ¬ Valid st.image := by
  have hinput : Input emptyFiles :=
    ⟨by decide, by decide, by decide, by decide, by decide, by decide⟩
  obtain ⟨st, hst, hrun⟩ := main_run hinput fun _ ↦ zeroBlock
  refine ⟨hinput, finished st, hrun, ?_⟩
  rw [valid_finished_iff hst hinput.count]
  decide

end EnhancedXv6.Mkfs
