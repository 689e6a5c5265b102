import EnhancedXv6.FileSystem.Contents
import EnhancedXv6.Mkfs.Model

/-!
# The image while mkfs writes it

`State.volume` is the volume that the image stands for before the free map is written: the blocks below
`freeblock` are in use.  Writing an inode or a block of the image is writing it in this volume, and
taking the next block is what `balloc` of the kernel does.
-/

namespace EnhancedXv6.Mkfs

open Hoare Hoare.Program Storage FileSystem

/-! ## Inodes in a block -/

/-- What fits into `struct dinode`. -/
structure Fits (din : Dinode) : Prop where
  size : din.size < 2 ^ 32
  addrs : ∀ k ≤ NDIRECT, din.addrs k < 2 ^ 32
  others : ∀ k, NDIRECT < k → din.addrs k = 0

variable {b : Block} {i j : ℕ} {din : Dinode}

theorem word_putDinode_self (hj : j < 16) :
    (putDinode b i din).word (16 * i + j) = dinodeWord din j % 2 ^ 32 := by
  rw [← Block.word_setWord_self b (16 * i + j)]
  apply Block.word_congr
  intro c hc
  rw [putDinode, Block.setWord, if_pos (by omega), if_pos (by omega),
    show (4 * (16 * i + j) + c) % 64 / 4 = j by omega]

theorem word_putDinode_of_ne {m : ℕ} (hm : m / 16 ≠ i) : (putDinode b i din).word m = b.word m := by
  apply Block.word_congr
  intro c hc
  rw [putDinode, if_neg (by omega)]

theorem getDinode_putDinode_of_ne (hij : j ≠ i) : getDinode (putDinode b i din) j = getDinode b j := by
  have hword : ∀ c < 16, (putDinode b i din).word (16 * j + c) = b.word (16 * j + c) := fun c hc ↦
    word_putDinode_of_ne (by omega)
  have h0 := hword 0 (by decide)
  rw [Nat.add_zero] at h0
  rw [getDinode, getDinode, h0, hword 1 (by decide), hword 2 (by decide)]
  congr 1
  funext k
  split_ifs with hk
  · have hk' : k < 13 := by
      simp only [NDIRECT] at hk
      omega
    rw [Nat.add_assoc, hword (3 + k) (by omega)]
  · rfl

theorem ofNat_pair (lo hi : UInt16) :
    UInt16.ofNat ((lo.toNat + 2 ^ 16 * hi.toNat) % 2 ^ 32) = lo ∧
      UInt16.ofNat ((lo.toNat + 2 ^ 16 * hi.toNat) % 2 ^ 32 / 2 ^ 16) = hi := by
  have hlo := lo.toNat_lt
  have hhi := hi.toNat_lt
  constructor
  · apply UInt16.toNat_inj.mp
    rw [UInt16.toNat_ofNat']
    omega
  · apply UInt16.toNat_inj.mp
    rw [UInt16.toNat_ofNat']
    omega

theorem getDinode_putDinode_self (hdin : Fits din) : getDinode (putDinode b i din) i = din := by
  have hword : ∀ c < 16, (putDinode b i din).word (16 * i + c) = dinodeWord din c % 2 ^ 32 :=
    fun c hc ↦ word_putDinode_self hc
  have h0 := hword 0 (by decide)
  rw [Nat.add_zero] at h0
  obtain ⟨htype, hmajor⟩ := ofNat_pair din.type.toUInt16 din.major.toUInt16
  obtain ⟨hminor, hnlink⟩ := ofNat_pair din.minor.toUInt16 din.nlink.toUInt16
  have haddrs : (fun k ↦ if k ≤ NDIRECT then (putDinode b i din).word (16 * i + 3 + k) else 0) =
      din.addrs := by
    funext k
    split_ifs with hk
    · have hk' : k < 13 := by
        simp only [NDIRECT] at hk
        omega
      rw [Nat.add_assoc, hword (3 + k) (by omega), Nat.add_comm 3 k, dinodeWord,
        Nat.mod_eq_of_lt (hdin.addrs k hk)]
    · exact (hdin.others k (by omega)).symm
  rw [getDinode, haddrs, h0, hword 1 (by decide), hword 2 (by decide)]
  simp only [dinodeWord, htype, hmajor, hminor, hnlink, Nat.mod_eq_of_lt hdin.size]
  rfl

/-! ## The volume -/

def State.volume (st : State) : Volume where
  inode inum :=
    if inum < NINODES then getDinode (st.image (iblock inum)) (inum % IPB) else zeroDinode
  used b := decide (b < st.freeblock)
  block b := if b < nmeta then zeroBlock else st.image b
  inOp := true

def State.putInode (st : State) (inum : ℕ) (din : Dinode) : State :=
  { st with
    image := Function.update st.image (iblock inum)
      (putDinode (st.image (iblock inum)) (inum % IPB) din) }

def State.putSector (st : State) (sec : ℕ) (buf : Block) : State :=
  { st with image := Function.update st.image sec buf }

def State.take (st : State) : State := { st with freeblock := st.freeblock + 1 }

variable {st : State} {inum sec : ℕ} {buf : Block}

theorem iblock_lt (hinum : inum < NINODES) : inodestart ≤ iblock inum ∧ iblock inum < bmapstart := by
  simp only [iblock, NINODES, IPB, inodestart, bmapstart, nlog, LOGSIZE, ninodeblocks] at hinum ⊢
  omega

theorem rsect_run (hsec : sec < FSSIZE) : rsect sec st = .ok (st.image sec, st) := by
  change (if sec < FSSIZE then (pure (st.image sec) : Mk Block) else stop .read) st = _
  rw [if_pos hsec]
  rfl

theorem winode_run (hinum : inum < NINODES) : winode inum din st = .ok ((), st.putInode inum din) := by
  have hsec : iblock inum < FSSIZE := (iblock_lt hinum).2.trans (by decide)
  rw [winode, run_bind (rsect_run hsec)]
  rfl

theorem rinode_run (hinum : inum < NINODES) : rinode inum st = .ok (st.volume.inode inum, st) := by
  have hsec : iblock inum < FSSIZE := (iblock_lt hinum).2.trans (by decide)
  rw [rinode, run_bind (rsect_run hsec), State.volume]
  simp only [if_pos hinum]
  rfl

theorem volume_putInode (hinum : inum < NINODES) (hdin : Fits din) :
    (st.putInode inum din).volume = st.volume.setInode inum din := by
  have hinode : ∀ x < NINODES, getDinode ((st.putInode inum din).image (iblock x)) (x % IPB) =
      if x = inum then din else getDinode (st.image (iblock x)) (x % IPB) := by
    intro x hx
    simp only [State.putInode]
    by_cases hblock : iblock x = iblock inum
    · rw [hblock, Function.update_self]
      by_cases hxi : x = inum
      · rw [if_pos hxi, hxi, getDinode_putDinode_self hdin]
      · rw [if_neg hxi]
        apply getDinode_putDinode_of_ne
        simp only [iblock, IPB] at hblock ⊢
        omega
    · have hxi : x ≠ inum := fun hxi ↦ hblock (congrArg iblock hxi)
      rw [Function.update_of_ne hblock, if_neg hxi]
  have hblock : ∀ b, nmeta ≤ b → (st.putInode inum din).image b = st.image b := by
    intro b hb
    apply Function.update_of_ne
    have hlt := (iblock_lt hinum).2
    have hmeta : bmapstart < nmeta := by decide
    omega
  simp only [State.volume, Volume.setInode]
  congr 1
  · funext x
    rw [Function.update_apply]
    by_cases hx : x < NINODES
    · rw [if_pos hx, hinode x hx, if_pos hx]
    · rw [if_neg hx, if_neg hx, if_neg (by omega)]
  · funext b
    by_cases hb : b < nmeta
    · rw [if_pos hb, if_pos hb]
    · rw [if_neg hb, if_neg hb, hblock b (by omega)]

theorem volume_putSector (hsec : nmeta ≤ sec) :
    (st.putSector sec buf).volume = st.volume.setBlock sec buf := by
  have hinode : ∀ x < NINODES, (st.putSector sec buf).image (iblock x) = st.image (iblock x) := by
    intro x hx
    apply Function.update_of_ne
    have hlt := (iblock_lt hx).2
    have hmeta : bmapstart < nmeta := by decide
    omega
  simp only [State.volume, Volume.setBlock]
  congr 1
  · funext x
    by_cases hx : x < NINODES
    · rw [if_pos hx, if_pos hx, hinode x hx]
    · rw [if_neg hx, if_neg hx]
  · funext b
    by_cases hb : b = sec
    · subst hb
      rw [Function.update_self, if_neg (by omega)]
      exact Function.update_self ..
    · rw [Function.update_of_ne hb]
      exact if_congr Iff.rfl rfl (Function.update_of_ne hb _ _)

theorem volume_block (hsec : nmeta ≤ sec) : st.volume.block sec = st.image sec :=
  if_neg (Nat.not_lt.mpr hsec)

/-! ## Free blocks -/

/-- The blocks from `freeblock` on have not been written to. -/
structure Clean (st : State) : Prop where
  super : st.image 1 = superblock
  tail : ∀ b, st.freeblock ≤ b → b < FSSIZE → st.image b = zeroBlock
  low : nmeta ≤ st.freeblock

theorem Clean.putInode (hclean : Clean st) (hinum : inum < NINODES) : Clean (st.putInode inum din) := by
  obtain ⟨hlow, hhigh⟩ := iblock_lt hinum
  have hsuper : 1 ≠ iblock inum := by
    have hstart : 1 < inodestart := by decide
    omega
  refine ⟨?_, fun b hb hlt ↦ ?_, hclean.low⟩
  · simp only [State.putInode, Function.update_of_ne hsuper]
    exact hclean.super
  · have hne : b ≠ iblock inum := by
      have hend : bmapstart < nmeta := by decide
      have hfree : nmeta ≤ b := hclean.low.trans hb
      omega
    simp only [State.putInode, Function.update_of_ne hne]
    exact hclean.tail b hb hlt

theorem Clean.putSector (hclean : Clean st) (hlow : nmeta ≤ sec) (hhigh : sec < st.freeblock) :
    Clean (st.putSector sec buf) := by
  have hsuper : 1 ≠ sec := by
    have hstart : 1 < nmeta := by decide
    omega
  refine ⟨?_, fun b hb hlt ↦ ?_, hclean.low⟩
  · rw [← hclean.super]
    exact Function.update_of_ne hsuper _ _
  · have hne : b ≠ sec := by
      have hfree : st.freeblock ≤ b := hb
      omega
    rw [← hclean.tail b hb hlt]
    exact Function.update_of_ne hne _ _

theorem Clean.take (hclean : Clean st) : Clean st.take := by
  refine ⟨hclean.super, fun b hb hlt ↦ hclean.tail b ?_ hlt, ?_⟩
  · exact (Nat.le_succ _).trans hb
  · exact hclean.low.trans (Nat.le_succ _)

/-- `freeblock++` allocates a block as the kernel does. -/
theorem volume_take (hclean : Clean st) (hroom : st.freeblock < FSSIZE) :
    st.take.volume = (st.volume.setUsed st.freeblock true).setBlock st.freeblock zeroBlock := by
  simp only [State.volume, Volume.setBlock, Volume.setUsed]
  congr 1
  · funext b
    rw [Function.update_apply]
    by_cases hb : b = st.freeblock
    · rw [if_pos hb, hb]
      exact decide_eq_true (Nat.lt_succ_self _)
    · rw [if_neg hb]
      exact decide_eq_decide.mpr (by simp only [State.take]; omega)
  · funext b
    by_cases hb : b = st.freeblock
    · subst hb
      rw [Function.update_self, show st.take.image = st.image from rfl,
        hclean.tail _ (Nat.le_refl _) hroom]
      exact ite_self _
    · rw [Function.update_of_ne hb]
      rfl

theorem freeblock_mem (hclean : Clean st) (hroom : st.freeblock < FSSIZE) :
    st.freeblock ∈ layout.dataBlocks := by
  refine ⟨?_, hroom⟩
  have hmeta : layout.size - layout.nblocks = nmeta := by decide
  exact hmeta ▸ hclean.low

theorem used_freeblock (st : State) : st.volume.used st.freeblock = false :=
  decide_eq_false (Nat.lt_irrefl _)

end EnhancedXv6.Mkfs
