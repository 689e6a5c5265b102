import EnhancedXv6.FileSystem.Contents
import EnhancedXv6.Mkfs.Valid

/-!
# What the kernel reads from the image

`dirlookup` on the root directory finds the name of every file, and `readi` of its inode gives back
what was read from the file.  The entries for `.` and `..` come first, so that a file of one of these
names is not found.
-/

namespace EnhancedXv6.Mkfs

open Hoare Hoare.Program Storage FileSystem

variable {st : State} {image : Image} {files : List File} {s : FileSystem.State} {dp : Ino}
  {sb : Superblock} {name : Name}

/-! ## `dirlookup` -/

/-- The loop of `dirlookup` ends at the first entry that matches. -/
theorem findDirent_of_run {before rest : List ℕ} {off : ℕ} {de : Dirent}
    (hbefore : ∀ o ∈ before, ∃ e, readDirent sb dp o .dirlookupRead s = .ok (e, s) ∧
      ¬ (e.inum ≠ 0 ∧ namecmp name e.name = 0))
    (hread : readDirent sb dp off .dirlookupRead s = .ok (de, s))
    (hde : de.inum ≠ 0 ∧ namecmp name de.name = 0) :
    findDirent sb dp name (before ++ off :: rest) s = (do
      let ip ← iget (s.itable dp).dev de.inum
      pure (some (ip, off)) : Fs (Option (Ino × ℕ))) s := by
  induction before with
  | nil =>
    rw [List.nil_append, findDirent, run_bind hread, if_pos hde, run_bind rfl]
  | cons o before ih =>
    obtain ⟨⟨e, hrun, hno⟩, hrest⟩ := List.forall_mem_cons.mp hbefore
    rw [List.cons_append, findDirent, run_bind hrun, if_neg hno]
    exact ih hrest

/-! ## Names -/

theorem cstr_eq_self {n : ℕ} {t : Name} (hlen : t.length ≤ n) (hzero : 0 ∉ t) : cstr n t = t := by
  induction n generalizing t with
  | zero =>
    rw [List.eq_nil_of_length_eq_zero (Nat.le_zero.mp hlen)]
    rfl
  | succ n ih =>
    cases t with
    | nil => rfl
    | cons a t =>
      rw [List.mem_cons, not_or] at hzero
      rw [cstr, List.headD_cons, if_neg (Ne.symm hzero.1), List.tail_cons,
        ih (Nat.le_of_succ_le_succ hlen) hzero.2]

theorem shortname_subset (f : File) : f.shortname ⊆ f.path := by
  unfold File.shortname skipUnderscore basename
  intro c hc
  split at hc <;> split at hc
  · exact List.mem_of_mem_drop (List.mem_of_mem_tail hc)
  · exact List.mem_of_mem_drop hc
  · exact List.mem_of_mem_tail hc
  · exact hc

/-- `namecmp` compares the names of the files. -/
theorem Input.key_shortname (hinput : Input files) {f : File} (hf : f ∈ files) :
    key f.shortname = f.shortname := by
  obtain ⟨-, hzero, hlen⟩ := hinput.names f hf
  exact cstr_eq_self hlen fun h ↦ hzero (shortname_subset f h)

/-- The entry of file `i`, and the entries before it. -/
theorem rootEntries_matches {i : ℕ} (hinput : Input files) (hi : i < files.length)
    (hdots : files[i].shortname ≠ dot ∧ files[i].shortname ≠ dotdot) {k : ℕ}
    (hk : k < (rootEntries files).length) (hle : k ≤ i + 2) :
    ((rootEntries files)[k].inum ≠ 0 ∧ namecmp files[i].shortname (rootEntries files)[k].name = 0) ↔
      k = i + 2 := by
  have hkey := hinput.key_shortname (List.getElem_mem hi)
  rw [namecmp_eq_zero, hkey]
  match k with
  | 0 =>
    refine iff_of_false (fun h ↦ hdots.1 (h.2.trans ?_)) (by omega)
    rfl
  | 1 =>
    refine iff_of_false (fun h ↦ hdots.2 (h.2.trans ?_)) (by omega)
    rfl
  | k + 2 =>
    have hk' : k < files.length := by
      rw [length_rootEntries] at hk
      omega
    have hentry : (rootEntries files)[k + 2] =
        ⟨2 + k, strncpy files[k].shortname DIRSIZ⟩ := by
      simp [rootEntries]
    have hkey' := hinput.key_shortname (List.getElem_mem hk')
    rw [hentry, key_strncpy, hkey']
    constructor
    · rintro ⟨-, hname⟩
      have hinj := List.nodup_iff_injective_get.mp hinput.distinct
      have heq := @hinj ⟨i, by simpa using hi⟩ ⟨k, by simpa using hk'⟩ (by simpa using hname)
      have hik : i = k := Fin.mk.inj heq
      omega
    · intro heq
      obtain rfl : k = i := by omega
      exact ⟨by dsimp only; omega, rfl⟩

/-! ## The kernel on the image -/

section Finished

variable (hst : Holds files st) (hinput : Input files)
include hst hinput

/-- `dirlookup` on the root directory ends at the first of the entries with this name. -/
theorem dirlookup_finished {k : ℕ} (hk : k < (rootEntries files).length)
    (hmatch : (rootEntries files)[k].inum ≠ 0 ∧ namecmp name (rootEntries files)[k].name = 0)
    (hbefore : ∀ j (hj : j < k), ¬ ((rootEntries files)[j].inum ≠ 0 ∧
      namecmp name (rootEntries files)[j].name = 0))
    (hvolume : s.volume = mount (finished st).image)
    (hdin : (s.itable dp).din = (mount (finished st).image).inode ROOTINO) :
    dirlookup sb dp name s = (do
      let ip ← iget (s.itable dp).dev (rootEntries files)[k].inum
      pure (some (ip, DIRENT * k)) : Fs (Option (Ino × ℕ))) s := by
  have hcount := hinput.count
  obtain ⟨hinode, -, -⟩ := mount_finished hst hcount
  obtain ⟨hdir, hsize, -⟩ := hst.root
  have hlen := length_rootEntries files
  have hroot : (s.itable dp).din = rootInode st := by
    rw [hdin, hinode, Volume.setInode_inode, Function.update_self]
  have hbig : DIRENT * (files.length + 2) ≤ (rootInode st).size := by
    simp only [rootInode, hsize, DIRENT, BSIZE]
    omega
  -- reading an entry
  have hread : ∀ j (hj : j < (rootEntries files).length),
      readDirent sb dp (DIRENT * j) .dirlookupRead s = .ok ((rootEntries files)[j], s) := by
    intro j hj
    rw [readDirent_of_mapped, hvolume, hdin, dirent_finished hst hcount hj]
    · rw [hroot]
      simp only [DIRENT] at hbig ⊢
      omega
    · simp only [DIRENT, NINODES] at hcount ⊢
      omega
    · rw [hvolume, hdin, fileBlock_finished hst hcount (by rw [hdir]; decide), hsize]
      simp only [DIRENT, BSIZE]
      omega
  obtain ⟨rest, hoffsets⟩ : ∃ rest, direntOffsets (rootInode st).size =
      (List.range k).map (DIRENT * ·) ++ DIRENT * k :: rest := by
    obtain ⟨r, hr⟩ : ∃ r, ((rootInode st).size + DIRENT - 1) / DIRENT = k + (r + 1) :=
      ⟨((rootInode st).size + DIRENT - 1) / DIRENT - (k + 1), by
        simp only [DIRENT] at hbig ⊢
        omega⟩
    have hrange : List.range (r + 1) = 0 :: (List.range r).map Nat.succ := List.range_succ_eq_map
    rw [direntOffsets, hr, List.range_add, hrange, List.map_append]
    exact ⟨_, rfl⟩
  have htype : ¬ (s.itable dp).din.type ≠ T_DIR := by
    rw [hroot]
    exact fun hne ↦ hne hdir
  rw [dirlookup, run_bind rfl, when, if_neg htype, run_bind rfl, hroot, hoffsets,
    findDirent_of_run (fun o ho ↦ ?_) (hread k hk) hmatch]
  obtain ⟨j, hj, rfl⟩ := List.mem_map.mp ho
  have hjk := List.mem_range.mp hj
  exact ⟨_, hread j (by omega), hbefore j hjk⟩

theorem inode_finished {i : ℕ} (hi : i < files.length) :
    (mount (finished st).image).inode (i + 2) = st.volume.inode (i + 2) ∧
      (st.volume.inode (i + 2)).type = T_FILE ∧
      (st.volume.inode (i + 2)).size = files[i].contents.length ∧
      ∀ j < files[i].contents.length,
        fileByte st.volume.block (st.volume.inode (i + 2)) j = files[i].contents.getD j 0 := by
  obtain ⟨hinode, -, -⟩ := mount_finished hst hinput.count
  have hne : i + 2 ≠ ROOTINO := by
    simp only [ROOTINO]
    omega
  have htree : treeOf files (i + 2) = some (nodeOf T_FILE files[i].contents) := by
    rw [treeOf, if_neg hne, if_pos (by omega), Nat.add_sub_cancel, List.getElem?_eq_getElem hi]
    rfl
  refine ⟨?_, hst.inode htree⟩
  rw [hinode, Volume.setInode_inode, Function.update_of_ne hne]

theorem readi_finished {i n : ℕ} (hi : i < files.length) (hn : files[i].contents.length ≤ n)
    (hlarge : n < 2 ^ 32) :
    readi sb ((mount (finished st).image).inode (i + 2)) 0 n (fun _ ↦ true)
        (mount (finished st).image) =
      .ok ((some files[i].contents, (mount (finished st).image).inode (i + 2)),
        mount (finished st).image) := by
  obtain ⟨-, hblock, -⟩ := mount_finished hst hinput.count
  obtain ⟨hsame, htype, hsize, hbytes⟩ := inode_finished hst hinput hi
  have hmapped := fileBlock_finished hst hinput.count (x := i + 2) (by rw [htype]; decide)
  rw [hsame] at hmapped ⊢
  have hmin : min n ((st.volume.inode (i + 2)).size - 0) = files[i].contents.length := by
    rw [hsize]
    omega
  rw [readi_of_mapped (Nat.zero_le _) (by omega) fun j hj ↦ ?_, hmin]
  · refine congrArg (fun bytes ↦ Except.ok ((some bytes, _), _)) ?_
    apply List.ext_getElem
    · simp
    · intro j hj hj'
      rw [List.getElem_map, List.getElem_range, Nat.zero_add, hblock, hbytes j hj']
      exact List.getD_eq_getElem _ _ hj'
  · rw [hmin] at hj
    rw [Nat.zero_add, hmapped, hsize]
    simp only [BSIZE]
    omega

end Finished

/-- What `mkfs` writes the kernel reads: on the image, `dirlookup` on the root directory comes to the
inode of every file by its name, unless this is `.` or `..`, and `readi` of the whole inode returns
the bytes of the file. -/
theorem main_read_back (hinput : Input files)
    (hdots : ∀ f ∈ files, f.shortname ≠ dot ∧ f.shortname ≠ dotdot) (image : Image) :
    ∃ st, main files (start image) = .ok ((), st) ∧ ∀ i (hi : i < files.length),
      (∀ (s : FileSystem.State) (dp : Ino), s.volume = mount st.image →
        (s.itable dp).din = (mount st.image).inode ROOTINO →
        dirlookup layout dp files[i].shortname s = (do
          let ip ← iget (s.itable dp).dev (i + 2)
          pure (some (ip, DIRENT * (i + 2))) : Fs (Option (Ino × ℕ))) s) ∧
      ((mount st.image).inode (i + 2)).size = files[i].contents.length ∧
      ∀ n, files[i].contents.length ≤ n → n < 2 ^ 32 →
        readi layout ((mount st.image).inode (i + 2)) 0 n (fun _ ↦ true) (mount st.image) =
          .ok ((some files[i].contents, (mount st.image).inode (i + 2)), mount st.image) := by
  obtain ⟨st, hst, hrun⟩ := main_run hinput image
  refine ⟨finished st, hrun, fun i hi ↦ ⟨fun s dp hvolume hdin ↦ ?_, ?_, fun n hn hlarge ↦ ?_⟩⟩
  · have hlen := length_rootEntries files
    have hmatches := fun k hk hle ↦ rootEntries_matches hinput hi (hdots _ (List.getElem_mem hi))
      (k := k) hk hle
    have hentry : (rootEntries files)[i + 2].inum = i + 2 := by
      simp [rootEntries, Nat.add_comm]
    rw [dirlookup_finished hst hinput (by omega) ((hmatches (i + 2) (by omega) le_rfl).mpr rfl)
      (fun j hj hmatch ↦ hj.ne ((hmatches j (by omega) hj.le).mp hmatch)) hvolume hdin, hentry]
  · obtain ⟨hsame, -, hsize, -⟩ := inode_finished hst hinput hi
    rw [hsame, hsize]
  · exact readi_finished hst hinput hi hn hlarge

theorem main_read_back_catFile :
    ∃ st, main [catFile] (start fun _ ↦ zeroBlock) = .ok ((), st) ∧
      readi layout ((mount st.image).inode 2) 0 BSIZE (fun _ ↦ true) (mount st.image) =
        .ok ((some [127, 69], (mount st.image).inode 2), mount st.image) := by
  have hinput : Input [catFile] :=
    ⟨by decide, by decide, by decide, by decide, by decide, by decide⟩
  obtain ⟨st, hrun, hfiles⟩ := main_read_back hinput (by decide) fun _ ↦ zeroBlock
  obtain ⟨-, -, hread⟩ := hfiles 0 (by decide)
  exact ⟨st, hrun, hread BSIZE (by decide) (by decide)⟩

def dotFile : File :=
  ⟨[95, 46], []⟩

/-- A kernel with this volume and nothing in its tables; the copy of every inode is that of the root
directory. -/
def bareKernel (volume : Volume) : FileSystem.State where
  volume := volume
  itable := fun _ ↦ ⟨ROOTDEV, ROOTINO, 0, false, true, volume.inode ROOTINO⟩
  ftable := fun _ ↦ ⟨.none, 0, false, false, none, 0, 0⟩
  ofile := fun _ ↦ none
  cwd := fun _ ↦ none

/-- The file `_.` gets the name `.`, for which `dirlookup` finds the root directory. -/
theorem dot_file_hidden :
    Input [dotFile] ∧ ∃ st, main [dotFile] (start fun _ ↦ zeroBlock) = .ok ((), st) ∧
      ∃ ip s, dirlookup layout 1 dotFile.shortname (bareKernel (mount st.image)) =
        .ok (some (ip, 0), s) ∧ (s.itable ip).inum = ROOTINO := by
  have hinput : Input [dotFile] :=
    ⟨by decide, by decide, by decide, by decide, by decide, by decide⟩
  obtain ⟨st, hst, hrun⟩ := main_run hinput fun _ ↦ zeroBlock
  refine ⟨hinput, finished st, hrun, ?_⟩
  rw [dirlookup_finished hst hinput (k := 0) (by decide) (by decide) (fun j hj ↦ by omega) rfl rfl]
  exact ⟨0, _, rfl, rfl⟩

end EnhancedXv6.Mkfs
