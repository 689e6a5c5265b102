import EnhancedXv6.Mkfs.Files

/-!
# The finished image

`main` as a whole: the start, the loop over the files, the size of the root directory and the free map.
The kernel finds on the image what `main` has put there.  The root directory has a block without an
address if its entries fill their last block, and only then.
-/

namespace EnhancedXv6.Mkfs

open Hoare Hoare.Program Storage FileSystem

variable {st : State} {image : Image} {files : List File}

/-! ## The start -/

theorem clearSectors_run (n : ℕ) :
    clearSectors n st =
      .ok ((), { st with image := fun b ↦ if b < n then zeroBlock else st.image b }) := by
  induction n with
  | zero => rfl
  | succ n ih =>
    rw [clearSectors, run_bind ih]
    change Except.ok ((), { st with
      image := Function.update (fun b ↦ if b < n then zeroBlock else st.image b) n zeroBlock }) = _
    congr 3
    funext b
    rw [Function.update_apply]
    by_cases hb : b = n
    · rw [if_pos hb, if_pos (by omega)]
    · rw [if_neg hb]
      exact if_congr (by omega) rfl rfl

def cleared (image : Image) : State where
  image := Function.update (fun b ↦ if b < FSSIZE then zeroBlock else image b) 1 superblock
  freeinode := 1
  freeblock := nmeta

theorem cleared_image {b : ℕ} (hb : b < FSSIZE) (h1 : b ≠ 1) : (cleared image).image b = zeroBlock := by
  rw [cleared]
  simp only [Function.update_of_ne h1, if_pos hb]

theorem cleared_type (x : ℕ) : ((cleared image).volume.inode x).type = 0 := by
  simp only [State.volume]
  split_ifs with hx
  · have hblock : (cleared image).image (iblock x) = zeroBlock := by
      obtain ⟨hlow, hhigh⟩ := iblock_lt hx
      have hstart : 1 < inodestart := by decide
      have hend : bmapstart < FSSIZE := by decide
      exact cleared_image (by omega) (by omega)
    rw [hblock]
    rfl
  · rfl

theorem cleared_slot (i : ℕ × ℕ) : (cleared image).volume.slot i = 0 :=
  Volume.slot_of_free (cleared_type i.1) i.2

theorem cleared_inv (image : Image) : Inv (cleared image) := by
  have hmeta : layout.size - layout.nblocks = nmeta := by decide
  refine ⟨⟨rfl, fun b hb hlt ↦ ?_, Nat.le_refl _⟩, ⟨⟨⟨?_, ?_, ?_, ?_, ?_⟩, ?_⟩, ?_⟩,
    ?_, ?_⟩
  · have hlow : nmeta ≤ b := hb
    have hstart : 1 < nmeta := by decide
    exact cleared_image hlt (by omega)
  · exact zero_notMem_dataBlocks layout
  · exact fun i _ hi ↦ absurd (cleared_slot i) hi
  · exact fun i hi ↦ absurd (cleared_slot i) hi
  · exact fun i hi ↦ absurd (cleared_slot i) hi
  · intro b hb hused
    have hlow : nmeta ≤ b := hmeta ▸ hb.1
    have hlt : b < nmeta := of_decide_eq_true hused
    omega
  · intro b hb
    rw [hmeta] at hb
    exact decide_eq_true hb
  · exact fun x hx ↦ absurd (cleared_type x) hx
  · exact fun x hx ↦ absurd (cleared_type x) hx
  · intro x
    refine iff_of_false (fun hx ↦ hx (cleared_type x)) fun ⟨hlow, hhigh⟩ ↦ ?_
    have hone : (cleared image).freeinode = 1 := rfl
    omega

/-- The root directory with its first two entries. -/
theorem root_run (image : Image) :
    ∃ st₁ st₂ st₃, ialloc T_DIR (cleared image) = .ok (ROOTINO, st₁) ∧
      iappend ROOTINO (direntBytes ROOTINO dot) st₁ = .ok ((), st₂) ∧
      iappend ROOTINO (direntBytes ROOTINO dotdot) st₂ = .ok ((), st₃) ∧ Holds [] st₃ := by
  obtain ⟨st₁, hrun₁, hinv₁, hfreeinode₁, hfree₁, htree₁⟩ := ialloc_run T_DIR (cleared_inv image)
    (show 1 < NINODES by decide) (Nat.le_refl 1) (by decide)
  have hroot₁ : st₁.volume.tree ROOTINO = some (nodeOf T_DIR []) := by
    rw [htree₁]
    exact Function.update_self ..
  have hstart : (cleared image).freeblock = nmeta := rfl
  rw [hstart] at hfree₁
  obtain ⟨st₂, hrun₂, hinv₂, hfreeinode₂, hfree₂, htree₂⟩ :=
    iappend_run (p := direntBytes ROOTINO dot) hinv₁ hroot₁ (by decide) (by rw [hfree₁]; decide)
  rw [write_nodeOf, List.nil_append] at htree₂
  have hroot₂ : st₂.volume.tree ROOTINO = some (nodeOf T_DIR (direntBytes ROOTINO dot)) := by
    rw [htree₂, Function.update_self]
  have hfree₂' : st₂.freeblock = nmeta + 1 := by
    have h0 : slotsFor (nodeOf T_DIR []).size = 0 := by decide
    have h1 : slotsFor ((nodeOf T_DIR []).size + (direntBytes ROOTINO dot).length) = 1 := by decide
    omega
  obtain ⟨st₃, hrun₃, hinv₃, hfreeinode₃, hfree₃, htree₃⟩ :=
    iappend_run (p := direntBytes ROOTINO dotdot) hinv₂ hroot₂ (by decide) (by rw [hfree₂']; decide)
  rw [write_nodeOf] at htree₃
  refine ⟨st₁, st₂, st₃, hrun₁, hrun₂, hrun₃, hinv₃, ?_, ?_, ?_⟩
  · rw [htree₃, htree₂, htree₁]
    funext x
    by_cases hx : x = ROOTINO
    · subst hx
      rw [Function.update_self, treeOf, if_pos rfl]
      rfl
    · rw [Function.update_of_ne hx, Function.update_of_ne hx, treeOf, if_neg hx]
      have hnone : (cleared image).volume.tree x = none := if_pos (cleared_type x)
      have hupdate := Function.update_of_ne hx (some (nodeOf T_DIR [])) (cleared image).volume.tree
      refine hupdate.trans (hnone.trans ?_)
      split_ifs <;> rfl
  · rw [hfreeinode₃, hfreeinode₂, hfreeinode₁]
    rfl
  · have h1 : slotsFor (nodeOf T_DIR (direntBytes ROOTINO dot)).size = 1 := by decide
    have h2 : slotsFor ((nodeOf T_DIR (direntBytes ROOTINO dot)).size +
        (direntBytes ROOTINO dotdot).length) = 1 := by decide
    have hused : blocksUsed [] = 1 := by decide
    omega

/-! ## All files -/

/-- Files that `mkfs` can put on a disk: names of at most `DIRSIZ` characters, all different, and not
too many or too large. -/
structure Input (files : List File) : Prop where
  count : files.length ≤ NINODES - 2
  names : ∀ f ∈ files, slash ∉ basename f.path ∧ 0 ∉ f.path ∧ f.shortname.length ≤ DIRSIZ
  distinct : (files.map File.shortname).Nodup
  reads : ∀ f ∈ files, [] ∉ f.reads
  sizes : ∀ f ∈ files, f.contents.length ≤ MAXFILE * BSIZE
  fits : nmeta + blocksUsed files ≤ FSSIZE

theorem blocksUsed_mono (done rest : List File) : blocksUsed done ≤ blocksUsed (done ++ rest) := by
  have hroot : slotsFor (DIRENT * (done.length + 2)) ≤
      slotsFor (DIRENT * ((done ++ rest).length + 2)) :=
    slotsFor_mono (Nat.mul_le_mul_left _ (by rw [List.length_append]; omega))
  have hfiles : fileBlocks (done ++ rest) = fileBlocks done + fileBlocks rest := by
    simp [fileBlocks]
  rw [blocksUsed, blocksUsed]
  omega

theorem addFiles_run {done : List File} (hst : Holds done st) (hinput : Input (done ++ files)) :
    ∃ st', addFiles files st = .ok ((), st') ∧ Holds (done ++ files) st' := by
  induction files generalizing st done with
  | nil =>
    rw [List.append_nil]
    exact ⟨st, rfl, hst⟩
  | cons f files ih =>
    have hmem : f ∈ done ++ f :: files := by simp
    have happend : done ++ f :: files = done ++ [f] ++ files := by simp
    have hcount := hinput.count
    rw [List.length_append, List.length_cons] at hcount
    have hroom := hinput.fits
    rw [happend] at hroom hinput ⊢
    have hmono := blocksUsed_mono (done ++ [f]) files
    obtain ⟨st₁, hrun, hst₁⟩ := addFile_run hst (hinput.names f (happend ▸ hmem)).1
      (hinput.reads f (happend ▸ hmem)) (by simp only [NINODES] at hcount ⊢; omega)
      (hinput.sizes f (happend ▸ hmem)) (by omega)
    obtain ⟨st', hrun', hst'⟩ := ih hst₁ hinput
    refine ⟨st', ?_, hst'⟩
    rw [addFiles, run_bind hrun]
    exact hrun'

/-! ## The free map -/

theorem bit_setBit (buf : Block) (i b : ℕ) :
    bit (setBit buf i) b = (bit buf b || decide (b = i)) := by
  have hpow : (UInt8.ofNat (2 ^ (i % 8))).toNat = 2 ^ (i % 8) := by
    rw [UInt8.toNat_ofNat']
    apply Nat.mod_eq_of_lt
    exact Nat.pow_lt_pow_right (by decide) (Nat.mod_lt i (by decide))
  rw [bit, bit, setBit, Function.update_apply]
  by_cases hbyte : b / 8 = i / 8
  · rw [if_pos hbyte, UInt8.toNat_or, Nat.testBit_or, hpow, Nat.testBit_two_pow, hbyte]
    congr 1
    simp only [decide_eq_decide]
    omega
  · have hne : b ≠ i := fun heq ↦ hbyte (congrArg (· / 8) heq)
    rw [if_neg hbyte, decide_eq_false hne, Bool.or_false]

/-- The free map marks the blocks below `used`. -/
theorem bit_bitmap (used b : ℕ) :
    bit ((List.range used).foldl setBit zeroBlock) b = decide (b < used) := by
  induction used with
  | zero => simp [bit, zeroBlock]
  | succ used ih =>
    rw [List.range_succ, List.foldl_append, List.foldl_cons, List.foldl_nil, bit_setBit, ih,
      ← Bool.decide_or, decide_eq_decide]
    omega

/-! ## The end -/

def rootInode (st : State) : Dinode :=
  { st.volume.inode ROOTINO with size := ((st.volume.inode ROOTINO).size / BSIZE + 1) * BSIZE }

def finished (st : State) : State :=
  (st.putInode ROOTINO (rootInode st)).putSector bmapstart
    ((List.range st.freeblock).foldl setBit zeroBlock)

theorem main_run (hinput : Input files) (image : Image) :
    ∃ st, Holds files st ∧ main files (start image) = .ok ((), finished st) := by
  obtain ⟨st₁, st₂, st₃, hrun₁, hrun₂, hrun₃, hst₃⟩ := root_run image
  obtain ⟨st, hrun, hst⟩ := addFiles_run hst₃ hinput
  rw [List.nil_append] at hst
  refine ⟨st, hst, ?_⟩
  have hroot : ROOTINO < NINODES := by decide
  have hfix : fixRoot st = .ok ((), st.putInode ROOTINO (rootInode st)) := by
    rw [fixRoot, run_bind (rinode_run hroot)]
    exact winode_run hroot
  have hused : st.freeblock < BSIZE * 8 := by
    have hfits := hinput.fits
    rw [← hst.freeblock] at hfits
    exact Nat.lt_of_le_of_lt hfits (by decide)
  rw [main, run_bind (clearSectors_run FSSIZE), run_bind (show wsect 1 superblock _ =
    .ok ((), cleared image) from rfl), run_bind hrun₁, when, if_neg (fun hne ↦ hne rfl), run_bind rfl,
    run_bind hrun₂, run_bind hrun₃, run_bind hrun, run_bind hfix, run_bind rfl, balloc,
    if_pos (show (st.putInode ROOTINO (rootInode st)).freeblock < BSIZE * 8 from hused)]
  rfl

/-! ## The kernel's view -/

theorem superblock_words :
    superblock.word 1 = FSSIZE ∧ superblock.word 2 = nblocks ∧ superblock.word 3 = NINODES ∧
      superblock.word 6 = inodestart ∧ superblock.word 7 = bmapstart := by
  decide

theorem Holds.inode {x : ℕ} {type : Int16} {bytes : List UInt8} (hst : Holds files st)
    (hx : treeOf files x = some (nodeOf type bytes)) :
    (st.volume.inode x).type = type ∧ (st.volume.inode x).size = bytes.length ∧
      ∀ i < bytes.length, fileByte st.volume.block (st.volume.inode x) i = bytes.getD i 0 := by
  rw [← hst.tree, Volume.tree] at hx
  split_ifs at hx with h0
  have hnode := Option.some.inj hx
  have hsize : (st.volume.inode x).size = bytes.length := congrArg Node.size hnode
  refine ⟨congrArg Node.type hnode, hsize, fun i hi ↦ ?_⟩
  have hdata := congrFun (congrArg Node.data hnode) i
  simpa [Dinode.node, nodeOf, hsize, hi] using hdata

theorem Holds.root (hst : Holds files st) :
    (st.volume.inode ROOTINO).type = T_DIR ∧
      (st.volume.inode ROOTINO).size = DIRENT * (files.length + 2) ∧
      ∀ i < DIRENT * (files.length + 2),
        fileByte st.volume.block (st.volume.inode ROOTINO) i = (rootBytes files).getD i 0 := by
  have hroot := hst.inode (show treeOf files ROOTINO = some _ from if_pos rfl)
  rwa [length_rootBytes] at hroot

/-- What the kernel finds on the image is what `main` kept in memory. -/
theorem mount_finished (hst : Holds files st) (hcount : files.length ≤ NINODES - 2) :
    (mount (finished st).image).inode = (st.volume.setInode ROOTINO (rootInode st)).inode ∧
      (mount (finished st).image).block = st.volume.block ∧
      ∀ b < FSSIZE, (mount (finished st).image).used b = st.volume.used b := by
  have hroot : ROOTINO < NINODES := by decide
  obtain ⟨hsize, hblocks, hinodes, hinodestart, hbmapstart⟩ := superblock_words
  have hsuper : (finished st).image 1 = superblock := by
    have hclean : Clean (st.putInode ROOTINO (rootInode st)) := hst.inv.clean.putInode hroot
    have hne : (1 : ℕ) ≠ bmapstart := by decide
    rw [← hclean.super]
    simp only [finished, State.putSector, Function.update_of_ne hne]
  have hother : ∀ b, b ≠ bmapstart →
      (finished st).image b = (st.putInode ROOTINO (rootInode st)).image b := fun b hb ↦
    Function.update_of_ne hb _ _
  have hfits : Fits (rootInode st) := by
    have hfits := fits_inode st ROOTINO
    refine ⟨?_, hfits.addrs, hfits.others⟩
    have hlen := hst.root.2.1
    simp only [rootInode, hlen, DIRENT, BSIZE, NINODES] at hcount ⊢
    omega
  have hvolume : (st.putInode ROOTINO (rootInode st)).volume =
      st.volume.setInode ROOTINO (rootInode st) := volume_putInode hroot hfits
  refine ⟨?_, ?_, fun b hb ↦ ?_⟩
  · rw [← hvolume]
    funext x
    simp only [mount, hsuper, hinodes, hinodestart, State.volume]
    by_cases hx : x < NINODES
    · rw [if_pos hx, if_pos hx, Nat.add_comm, ← iblock, hother _ (iblock_lt hx).2.ne]
    · rw [if_neg hx, if_neg hx]
  · have hblock : (st.putInode ROOTINO (rootInode st)).volume.block = st.volume.block := by
      rw [hvolume]
      rfl
    rw [← hblock]
    funext b
    simp only [mount, hsuper, hsize, hblocks, State.volume]
    have hmeta : FSSIZE - nblocks = nmeta := by decide
    rw [hmeta]
    by_cases hb : b < nmeta
    · rw [if_pos hb, if_pos hb]
    · have hend : bmapstart < nmeta := by decide
      rw [if_neg hb, if_neg hb, hother b (by omega)]
  · have hsmall : b < BPB := hb.trans (by decide)
    simp only [mount, hsuper, hbmapstart, Nat.div_eq_of_lt hsmall, Nat.mod_eq_of_lt hsmall,
      Nat.add_zero]
    have hmap : (finished st).image bmapstart =
        (List.range st.freeblock).foldl setBit zeroBlock := by
      simp only [finished, State.putSector, Function.update_self]
    rw [hmap, bit_bitmap]
    rfl

end EnhancedXv6.Mkfs
