import EnhancedXv6.FileSystem.Volume
import EnhancedXv6.Storage.Allocation

/-!
# Which blocks belong to which inode

The numbers in `addrs[]` and in the indirect block of an inode are its slots: 0 to 11 the direct
blocks, 12 the indirect block, 13 and up the entries of the indirect block.  `Owned` says that slots and
free map agree, `NoHoles` that the blocks below the size of an inode are there.  The tree of a volume is
what it shows of the inodes: their fields and contents, whatever blocks these are in.
-/

namespace EnhancedXv6.FileSystem

open Storage

@[ext] structure Node where
  type : Int16
  major : Int16
  minor : Int16
  nlink : Int16
  size : ℕ
  data : ℕ → UInt8

/-- `len` bytes of `src` written at offset `off`. -/
def Node.write (n : Node) (off len : ℕ) (src : ℕ → UInt8) : Node :=
  { n with
    size := max n.size (off + len)
    data := fun i ↦ if off ≤ i ∧ i < off + len then src (i - off) else n.data i }

abbrev Tree := ℕ → Option Node

def fileBlock (block : ℕ → Block) (ip : Dinode) (bn : ℕ) : ℕ :=
  if bn < NDIRECT then ip.addrs bn
  else if bn < MAXFILE ∧ ip.addrs NDIRECT ≠ 0 then (block (ip.addrs NDIRECT)).word (bn - NDIRECT)
  else 0

def fileByte (block : ℕ → Block) (ip : Dinode) (i : ℕ) : UInt8 :=
  if fileBlock block ip (i / BSIZE) = 0 then 0 else block (fileBlock block ip (i / BSIZE)) (i % BSIZE)

def Dinode.node (block : ℕ → Block) (ip : Dinode) : Node :=
  { type := ip.type
    major := ip.major
    minor := ip.minor
    nlink := ip.nlink
    size := ip.size
    data := fun i ↦ if i < ip.size then fileByte block ip i else 0 }

def Volume.tree (v : Volume) : Tree := fun inum ↦
  if (v.inode inum).type = 0 then none else some ((v.inode inum).node v.block)

/-! ## Slots -/

def slotAddr (block : ℕ → Block) (ip : Dinode) (k : ℕ) : ℕ :=
  if k ≤ NDIRECT then ip.addrs k else fileBlock block ip (k - 1)

def Volume.slot (v : Volume) (i : ℕ × ℕ) : ℕ :=
  if (v.inode i.1).type = 0 then 0 else slotAddr v.block (v.inode i.1) i.2

def Superblock.dataBlocks (sb : Superblock) : Set ℕ := { b | sb.size - sb.nblocks ≤ b ∧ b < sb.size }

/-- The free map agrees with a table of slots; what is not a data block is not free. -/
structure Books (sb : Superblock) (slot : ℕ × ℕ → ℕ) (used : ℕ → Bool) : Prop where
  assigned : Assigned sb.dataBlocks slot used
  reserved : ∀ b < sb.size - sb.nblocks, used b = true

/-- Every data block that is marked used is in one slot, and every other slot is 0. -/
abbrev Volume.Owned (sb : Superblock) (v : Volume) : Prop := Books sb v.slot v.used

def Mapped (block : ℕ → Block) (ip : Dinode) (size : ℕ) : Prop :=
  ∀ bn, bn * BSIZE < size → bn < MAXFILE → fileBlock block ip bn ≠ 0

def Volume.NoHoles (v : Volume) : Prop :=
  ∀ inum, (v.inode inum).type ≠ 0 → Mapped v.block (v.inode inum) (v.inode inum).size

structure Volume.Sound (sb : Superblock) (v : Volume) : Prop where
  owned : v.Owned sb
  noHoles : v.NoHoles

theorem zero_notMem_dataBlocks (sb : Superblock) : 0 ∉ sb.dataBlocks := by
  have := sb.nblocks_lt
  rintro ⟨h, -⟩
  omega

def slotIndex (bn : ℕ) : ℕ := if bn < NDIRECT then bn else bn + 1

theorem slotIndex_ne (bn : ℕ) : slotIndex bn ≠ NDIRECT := by
  unfold slotIndex
  simp only [NDIRECT]
  split_ifs <;> omega

theorem slotIndex_injective : Function.Injective slotIndex := by
  intro m n h
  unfold slotIndex at h
  simp only [NDIRECT] at h
  split_ifs at h <;> omega

theorem slotAddr_slotIndex (block : ℕ → Block) (ip : Dinode) (bn : ℕ) :
    slotAddr block ip (slotIndex bn) = fileBlock block ip bn := by
  unfold slotAddr slotIndex
  by_cases h : bn < NDIRECT
  · rw [if_pos h, if_pos h.le, fileBlock, if_pos h]
  · have hgt : ¬ bn + 1 ≤ NDIRECT := by
      simp only [NDIRECT] at h ⊢
      omega
    rw [if_neg h, if_neg hgt, Nat.add_sub_cancel]

variable {sb : Superblock} {v : Volume} {x inum b k bn : ℕ} {ip : Dinode} {data : Block}

theorem Volume.slot_of_used (hx : (v.inode x).type ≠ 0) (k : ℕ) :
    v.slot (x, k) = slotAddr v.block (v.inode x) k := if_neg hx

theorem Volume.slot_of_free (hx : (v.inode x).type = 0) (k : ℕ) : v.slot (x, k) = 0 := if_pos hx

theorem Volume.slot_slotIndex (hx : (v.inode x).type ≠ 0) (bn : ℕ) :
    v.slot (x, slotIndex bn) = fileBlock v.block (v.inode x) bn := by
  rw [Volume.slot_of_used hx, slotAddr_slotIndex]

theorem Volume.slot_pointer (hx : (v.inode x).type ≠ 0) :
    v.slot (x, NDIRECT) = (v.inode x).addrs NDIRECT := by
  rw [Volume.slot_of_used hx, slotAddr, if_pos (Nat.le_refl _)]

@[simp] theorem zeroBlock_word (j : ℕ) : zeroBlock.word j = 0 := rfl

theorem slotAddr_congr {block block' : ℕ → Block}
    (h : ip.addrs NDIRECT ≠ 0 → block' (ip.addrs NDIRECT) = block (ip.addrs NDIRECT)) (k : ℕ) :
    slotAddr block' ip k = slotAddr block ip k := by
  unfold slotAddr fileBlock
  by_cases hpointer : ip.addrs NDIRECT = 0
  · simp [hpointer]
  · rw [h hpointer]

theorem fileBlock_congr {block block' : ℕ → Block}
    (h : ip.addrs NDIRECT ≠ 0 → block' (ip.addrs NDIRECT) = block (ip.addrs NDIRECT)) (bn : ℕ) :
    fileBlock block' ip bn = fileBlock block ip bn := by
  rw [← slotAddr_slotIndex, slotAddr_congr h, slotAddr_slotIndex]

/-- A change of a block that is no indirect block leaves the slots alone. -/
theorem Volume.slot_setBlock
    (h : ∀ x, (v.inode x).type ≠ 0 → (v.inode x).addrs NDIRECT ≠ 0 →
      (v.inode x).addrs NDIRECT ≠ b) :
    (v.setBlock b data).slot = v.slot := by
  funext ⟨x, k⟩
  by_cases hx : (v.inode x).type = 0
  · rw [Volume.slot_of_free hx, Volume.slot_of_free (v := v.setBlock b data) hx]
  · rw [Volume.slot_of_used hx, Volume.slot_of_used (v := v.setBlock b data) hx]
    exact slotAddr_congr (fun hpointer ↦ Function.update_of_ne (h x hx hpointer) _ _) k

/-! ## Changes that keep the books -/

/-- The tree is determined by the fields of the inodes and the blocks below their sizes. -/
theorem Volume.tree_congr {v' : Volume}
    (hinode : ∀ x, v'.inode x = { v.inode x with addrs := (v'.inode x).addrs })
    (hblocks : ∀ x, (v.inode x).type ≠ 0 → ∀ bn, bn * BSIZE < (v.inode x).size →
      fileBlock v'.block (v'.inode x) bn = fileBlock v.block (v.inode x) bn ∧
      (fileBlock v.block (v.inode x) bn ≠ 0 →
        v'.block (fileBlock v.block (v.inode x) bn) = v.block (fileBlock v.block (v.inode x) bn))) :
    v'.tree = v.tree := by
  funext x
  unfold Volume.tree
  have htype : (v'.inode x).type = (v.inode x).type := by rw [hinode x]
  have hsize : (v'.inode x).size = (v.inode x).size := by rw [hinode x]
  rw [htype]
  by_cases hx : (v.inode x).type = 0
  · simp [hx]
  · rw [if_neg hx, if_neg hx]
    congr 1
    have hbytes : ∀ i < (v.inode x).size,
        fileByte v'.block (v'.inode x) i = fileByte v.block (v.inode x) i := by
      intro i hi
      have hbn : i / BSIZE * BSIZE < (v.inode x).size :=
        Nat.lt_of_le_of_lt (Nat.div_mul_le_self i BSIZE) hi
      obtain ⟨haddr, hcontents⟩ := hblocks x hx (i / BSIZE) hbn
      unfold fileByte
      rw [haddr]
      split_ifs with h0
      · rfl
      · rw [hcontents h0]
    unfold Dinode.node
    rw [hinode x]
    congr 1
    funext i
    split_ifs with hi
    · rw [← hinode x]
      exact hbytes i hi
    · rfl

structure Taken (v v' : Volume) (i : ℕ × ℕ) (b : ℕ) : Prop where
  inode : ∀ x, v'.inode x = { v.inode x with addrs := (v'.inode x).addrs }
  slot : v'.slot = Function.update v.slot i b
  used : v'.used = Function.update v.used b true
  block : ∀ x, (v.inode x).type ≠ 0 → ∀ bn, fileBlock v.block (v.inode x) bn ≠ 0 →
    v'.block (fileBlock v.block (v.inode x) bn) = v.block (fileBlock v.block (v.inode x) bn)

theorem Taken.fileBlock_eq {v' : Volume} {i : ℕ × ℕ} (h : Taken v v' i b) (hi : v.slot i = 0)
    (hx : (v.inode x).type ≠ 0) (hbn : fileBlock v.block (v.inode x) bn ≠ 0) :
    fileBlock v'.block (v'.inode x) bn = fileBlock v.block (v.inode x) bn := by
  have hx' : (v'.inode x).type ≠ 0 := by rwa [h.inode x]
  rw [← Volume.slot_slotIndex hx] at hbn ⊢
  rw [← Volume.slot_slotIndex hx', h.slot, Function.update_of_ne]
  rintro rfl
  exact hbn hi

theorem Taken.sound {v' : Volume} {i : ℕ × ℕ} (h : Taken v v' i b) (hv : v.Sound sb)
    (hi : v.slot i = 0) (hb : b ∈ sb.dataBlocks) (hfree : v.used b = false) :
    v'.Sound sb ∧ v'.tree = v.tree := by
  have htype : ∀ x, (v'.inode x).type = (v.inode x).type := fun x ↦ by rw [h.inode x]
  refine ⟨⟨⟨?_, fun c hc ↦ ?_⟩, fun x hx bn hbn hmax ↦ ?_⟩, ?_⟩
  · rw [h.slot, h.used]
    exact hv.owned.assigned.take hi hb hfree
  · rw [h.used]
    by_cases hcb : c = b
    · simp [hcb]
    · rw [Function.update_of_ne hcb]
      exact hv.owned.reserved c hc
  · rw [htype] at hx
    have hsize : (v'.inode x).size = (v.inode x).size := by rw [h.inode x]
    rw [hsize] at hbn
    have hne := hv.noHoles x hx bn hbn hmax
    rwa [h.fileBlock_eq hi hx hne]
  · refine Volume.tree_congr h.inode fun x hx bn hbn ↦ ?_
    by_cases hmax : bn < MAXFILE
    · have hne := hv.noHoles x hx bn hbn hmax
      exact ⟨h.fileBlock_eq hi hx hne, h.block x hx bn⟩
    · have hdirect : ¬ bn < NDIRECT := by
        simp only [MAXFILE, NDIRECT, NINDIRECT] at hmax ⊢
        omega
      simp [fileBlock, hmax, hdirect]

section Owned

variable (hv : v.Owned sb)

include hv

/-- The blocks of files are no indirect blocks. -/
theorem Volume.Owned.fileBlock_ne_pointer (hx : (v.inode x).type ≠ 0)
    (hbn : fileBlock v.block (v.inode x) bn ≠ 0) {y : ℕ} (hy : (v.inode y).type ≠ 0) :
    (v.inode y).addrs NDIRECT ≠ fileBlock v.block (v.inode x) bn := by
  intro h
  rw [← Volume.slot_slotIndex hx] at hbn h
  rw [← Volume.slot_pointer hy] at h
  have hsame := hv.assigned.injective _ _ hbn h.symm
  exact slotIndex_ne bn (congrArg Prod.snd hsame)

theorem Volume.Owned.pointer_ne_free (hb : b ∈ sb.dataBlocks) (hfree : v.used b = false)
    (hx : (v.inode x).type ≠ 0) : (v.inode x).addrs NDIRECT ≠ b := by
  rw [← Volume.slot_pointer hx]
  exact hv.assigned.ne_of_free hb hfree _

theorem Volume.Owned.fileBlock_ne_free (hb : b ∈ sb.dataBlocks) (hfree : v.used b = false)
    (hx : (v.inode x).type ≠ 0) (bn : ℕ) : fileBlock v.block (v.inode x) bn ≠ b := by
  rw [← Volume.slot_slotIndex hx]
  exact hv.assigned.ne_of_free hb hfree _

/-- A free block is put into `addrs[]`. -/
theorem Volume.Owned.takeAddr (hb : b ∈ sb.dataBlocks) (hfree : v.used b = false)
    (hx : (v.inode x).type ≠ 0) (hk : k ≤ NDIRECT) (h0 : (v.inode x).addrs k = 0) :
    Taken v (((v.setUsed b true).setBlock b zeroBlock).setInode x ((v.inode x).setAddr k b))
      (x, k) b := by
  have hslots : ∀ y, (v.inode y).type ≠ 0 → ∀ c,
      slotAddr (Function.update v.block b zeroBlock) (v.inode y) c =
        slotAddr v.block (v.inode y) c := fun y hy c ↦
    slotAddr_congr (fun _ ↦ Function.update_of_ne (hv.pointer_ne_free hb hfree hy) _ _) c
  have hslot : ∀ c, slotAddr (Function.update v.block b zeroBlock) ((v.inode x).setAddr k b) c =
      if c = k then b else slotAddr v.block (v.inode x) c := by
    intro c
    rw [← hslots x hx]
    by_cases hck : c = k
    · simp [slotAddr, Dinode.setAddr, hck, hk]
    · rw [if_neg hck]
      by_cases hcn : c ≤ NDIRECT
      · simp [slotAddr, Dinode.setAddr, hck, hcn]
      · have hdirect : ¬ c - 1 < NDIRECT := by
          simp only [NDIRECT] at hcn ⊢
          omega
        by_cases hkn : NDIRECT = k
        · -- the new indirect block has no entries
          subst hkn
          simp [slotAddr, fileBlock, Dinode.setAddr, hcn, hdirect, h0]
        · simp [slotAddr, fileBlock, Dinode.setAddr, hcn, hdirect, hkn]
  refine ⟨fun y ↦ ?_, ?_, rfl, fun y hy bn _ ↦ ?_⟩
  · by_cases hy : y = x
    · simp [Dinode.setAddr, hy]
    · simp [hy]
  · funext ⟨y, c⟩
    by_cases hy : y = x
    · subst hy
      have htype : (((v.setUsed b true).setBlock b zeroBlock).setInode y
          ((v.inode y).setAddr k b)).slot (y, c) =
          slotAddr (Function.update v.block b zeroBlock) ((v.inode y).setAddr k b) c := by
        rw [Volume.slot_of_used] <;> simp [Dinode.setAddr, hx]
      rw [htype, hslot, Function.update_apply]
      simp [Volume.slot_of_used hx]
    · by_cases hty : (v.inode y).type = 0
      · simp [Volume.slot, hy, hty]
      · simp [Volume.slot, hy, hty, hslots y hty c]
  · exact Function.update_of_ne (hv.fileBlock_ne_free hb hfree hy bn) _ _

/-- A free block is put into the indirect block. -/
theorem Volume.Owned.takeEntry {ind j : ℕ} (hb : b ∈ sb.dataBlocks) (hfree : v.used b = false)
    (hx : (v.inode x).type ≠ 0) (hind : (v.inode x).addrs NDIRECT = ind) (hind0 : ind ≠ 0)
    (hj : j < NINDIRECT) :
    Taken v (((v.setUsed b true).setBlock b zeroBlock).setBlock ind ((v.block ind).setWord j b))
      (x, slotIndex (NDIRECT + j)) b := by
  have hne : ind ≠ b := hind ▸ hv.pointer_ne_free hb hfree hx
  have hothers : ∀ y, (v.inode y).type ≠ 0 → y ≠ x → (v.inode y).addrs NDIRECT ≠ ind := by
    intro y hy hyx hy'
    rw [← Volume.slot_pointer hy] at hy'
    rw [← Volume.slot_pointer hx] at hind
    have hsame := hv.assigned.injective (y, NDIRECT) (x, NDIRECT) (hy' ▸ hind0)
      (hy'.trans hind.symm)
    exact hyx (congrArg Prod.fst hsame)
  have hindex : slotIndex (NDIRECT + j) = NDIRECT + j + 1 := if_neg (by simp)
  have hslot : ∀ c, slotAddr (Function.update (Function.update v.block b zeroBlock) ind
      ((v.block ind).setWord j b)) (v.inode x) c =
      if c = slotIndex (NDIRECT + j) then b else slotAddr v.block (v.inode x) c := by
    intro c
    have hword : b % 2 ^ 32 = b := by
      have := sb.size_lt
      exact Nat.mod_eq_of_lt (by have := hb.2; omega)
    rw [hindex]
    simp only [slotAddr, fileBlock, hind, Function.update_self, NDIRECT, MAXFILE, NINDIRECT] at hj ⊢
    by_cases hc : c ≤ 12
    · rw [if_pos hc, if_pos hc, if_neg (by omega)]
    · have hdirect : ¬ c - 1 < 12 := by omega
      simp only [if_neg hc, if_neg hdirect]
      by_cases hcj : c = 12 + j + 1
      · have hmax : c - 1 < 12 + 256 := by omega
        rw [if_pos ⟨hmax, hind0⟩, if_pos hcj, show c - 1 - 12 = j by omega,
          Block.word_setWord_self, hword]
      · rw [if_neg hcj, Block.word_setWord_of_ne (by omega)]
  refine ⟨fun y ↦ rfl, ?_, rfl, fun y hy bn hbn ↦ ?_⟩
  · funext ⟨y, c⟩
    by_cases hy : (v.inode y).type = 0
    · have hyx : (y, c) ≠ (x, slotIndex (NDIRECT + j)) := by
        rintro h
        obtain rfl : y = x := congrArg Prod.fst h
        exact hx hy
      rw [Function.update_of_ne hyx, Volume.slot_of_free hy, Volume.slot_of_free]
      exact hy
    · rw [Volume.slot_of_used (v := ((v.setUsed b true).setBlock b zeroBlock).setBlock ind _) hy]
      by_cases hyx : y = x
      · subst hyx
        refine (hslot c).trans ?_
        rw [Function.update_apply, Volume.slot_of_used hx]
        simp
      · have hpair : (y, c) ≠ (x, slotIndex (NDIRECT + j)) := fun h ↦ hyx (congrArg Prod.fst h)
        rw [Function.update_of_ne hpair, Volume.slot_of_used hy]
        refine slotAddr_congr (fun _ ↦ ?_) c
        refine (Function.update_of_ne (hothers y hy hyx) _ _).trans ?_
        exact Function.update_of_ne (hv.pointer_ne_free hb hfree hy) _ _
  · have hnepointer := hv.fileBlock_ne_pointer hy hbn hx
    rw [Volume.setBlock_block, Function.update_of_ne (hind ▸ hnepointer).symm]
    exact Function.update_of_ne (hv.fileBlock_ne_free hb hfree hy bn) _ _

end Owned

/-! ## Contents -/

/-- A write to a block of a file changes that block of the file and nothing else. -/
structure Written (v v' : Volume) (x bn : ℕ) (data : Block) : Prop where
  inode : v'.inode = v.inode
  others : ∀ y, y ≠ x → v'.tree y = v.tree y
  block : ∀ bn', fileBlock v'.block (v.inode x) bn' = fileBlock v.block (v.inode x) bn'
  byte : ∀ i, fileByte v'.block (v.inode x) i =
    if i / BSIZE = bn then data (i % BSIZE) else fileByte v.block (v.inode x) i

/-- A write to a data block changes one block of one file. -/
theorem Volume.Sound.write (hv : v.Sound sb) (hx : (v.inode x).type ≠ 0)
    (hbn : fileBlock v.block (v.inode x) bn ≠ 0) (data : Block) :
    (v.setBlock (fileBlock v.block (v.inode x) bn) data).Sound sb ∧
      Written v (v.setBlock (fileBlock v.block (v.inode x) bn) data) x bn data := by
  set b := fileBlock v.block (v.inode x) bn with hb
  have hpointer : ∀ y, (v.inode y).type ≠ 0 → (v.inode y).addrs NDIRECT ≠ b := fun y hy ↦
    hv.owned.fileBlock_ne_pointer hx hbn hy
  have hblock : ∀ y, (v.inode y).type ≠ 0 → ∀ bn',
      fileBlock (v.setBlock b data).block (v.inode y) bn' = fileBlock v.block (v.inode y) bn' :=
    fun y hy bn' ↦ fileBlock_congr (fun _ ↦ Function.update_of_ne (hpointer y hy) _ _) bn'
  have hdiff : ∀ y, (v.inode y).type ≠ 0 → ∀ bn', (y, bn') ≠ (x, bn) →
      fileBlock v.block (v.inode y) bn' ≠ b := by
    intro y hy bn' hne heq
    rw [hb, ← Volume.slot_slotIndex hx, ← Volume.slot_slotIndex hy] at heq
    rw [hb, ← Volume.slot_slotIndex hx] at hbn
    have hsame := hv.owned.assigned.injective _ _ (heq ▸ hbn) heq
    have hy' : y = x := congrArg Prod.fst hsame
    have hbn' : bn' = bn := slotIndex_injective (congrArg Prod.snd hsame)
    exact hne (by rw [hy', hbn'])
  have hbyte : ∀ y, (v.inode y).type ≠ 0 → ∀ i, (y, i / BSIZE) ≠ (x, bn) →
      fileByte (v.setBlock b data).block (v.inode y) i = fileByte v.block (v.inode y) i := by
    intro y hy i hne
    unfold fileByte
    rw [hblock y hy, Volume.setBlock_block, Function.update_of_ne (hdiff y hy _ hne)]
  refine ⟨⟨⟨?_, hv.owned.reserved⟩, fun y hy bn' hlt hmax ↦ ?_⟩, rfl, fun y hyx ↦ ?_, hblock x hx,
    fun i ↦ ?_⟩
  · rw [Volume.slot_setBlock fun y hy _ ↦ hpointer y hy]
    exact hv.owned.assigned
  · rw [Volume.setBlock_inode, hblock y hy]
    exact hv.noHoles y hy bn' hlt hmax
  · by_cases hy : (v.inode y).type = 0
    · rw [Volume.tree, Volume.tree, Volume.setBlock_inode, if_pos hy, if_pos hy]
    · rw [Volume.tree, Volume.tree, Volume.setBlock_inode, if_neg hy, if_neg hy]
      have hsame : ∀ i, fileByte (v.setBlock b data).block (v.inode y) i =
          fileByte v.block (v.inode y) i := fun i ↦
        hbyte y hy i fun h ↦ hyx (congrArg Prod.fst h)
      simp only [Dinode.node, hsame]
  · by_cases hi : i / BSIZE = bn
    · rw [if_pos hi, fileByte, hblock x hx, hi, if_neg hbn, ← hb, Volume.setBlock_block,
        Function.update_self]
    · rw [if_neg hi]
      exact hbyte x hx i fun h ↦ hi (congrArg Prod.snd h)

/-- An inode whose blocks stay the same. -/
theorem Volume.Sound.setInode (hv : v.Sound sb) (hx : (v.inode x).type ≠ 0) (hip : ip.type ≠ 0)
    (haddrs : ip.addrs = (v.inode x).addrs) (hmapped : Mapped v.block ip ip.size) :
    (v.setInode x ip).Sound sb := by
  have hslot : (v.setInode x ip).slot = v.slot := by
    funext ⟨y, c⟩
    by_cases hy : y = x
    · subst hy
      rw [Volume.slot_of_used hx, Volume.slot_of_used (by simpa using hip)]
      simp [slotAddr, fileBlock, haddrs]
    · simp [Volume.slot, hy]
  refine ⟨⟨?_, hv.owned.reserved⟩, fun y hy ↦ ?_⟩
  · rw [hslot]
    exact hv.owned.assigned
  · by_cases hyx : y = x
    · subst hyx
      simpa using hmapped
    · simp only [Volume.setInode_inode, Function.update_of_ne hyx] at hy ⊢
      exact hv.noHoles y hy

theorem Mapped.congr {block : ℕ → Block} {ip' : Dinode} {size : ℕ} (h : Mapped block ip size)
    (haddrs : ip'.addrs = ip.addrs) : Mapped block ip' size := by
  intro bn hbn hmax
  have := h bn hbn hmax
  simpa [fileBlock, haddrs] using this

/-- An inode without blocks, before and after. -/
theorem Volume.Sound.setInode_empty (hv : v.Sound sb) (hslots : ∀ c, v.slot (x, c) = 0)
    (hip : ip.addrs = fun _ ↦ 0) (hsize : ip.size = 0) : (v.setInode x ip).Sound sb := by
  have hslot : (v.setInode x ip).slot = v.slot := by
    funext ⟨y, c⟩
    by_cases hy : y = x
    · subst hy
      rw [hslots]
      simp [Volume.slot, slotAddr, fileBlock, hip]
    · simp [Volume.slot, hy]
  refine ⟨⟨?_, hv.owned.reserved⟩, fun y hy ↦ ?_⟩
  · rw [hslot]
    exact hv.owned.assigned
  · by_cases hyx : y = x
    · intro bn hbn
      simp [hyx, hsize] at hbn
    · simp only [Volume.setInode_inode, Function.update_of_ne hyx] at hy ⊢
      exact hv.noHoles y hy

theorem Volume.tree_setInode (hip : ip.type ≠ 0) :
    (v.setInode x ip).tree = Function.update v.tree x (some (ip.node v.block)) := by
  funext y
  by_cases hy : y = x
  · simp [Volume.tree, hy, hip]
  · simp [Volume.tree, hy]

end EnhancedXv6.FileSystem
