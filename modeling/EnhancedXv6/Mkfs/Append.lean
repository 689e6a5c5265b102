import EnhancedXv6.Mkfs.Image

/-!
# Appending to a file

`iappend` fills the slots of an inode in order, so that a file of a given size has its blocks in the
first `slotsFor size` of them.  What it takes, the kernel finds: the contents of the inode grow by what
was appended, and nothing else changes.
-/

namespace EnhancedXv6.Mkfs

open Hoare Hoare.Program Storage FileSystem

def dataBlocks (size : ℕ) : ℕ := (size + BSIZE - 1) / BSIZE

def slotsFor (size : ℕ) : ℕ :=
  if dataBlocks size ≤ NDIRECT then dataBlocks size else dataBlocks size + 1

def Filled (v : Volume) (x n : ℕ) : Prop := ∀ c, v.slot (x, c) ≠ 0 ↔ c < n

structure Grown (inum : ℕ) (st : State) (din : Dinode) (st' : State) (din' : Dinode) : Prop where
  clean : Clean st'
  sound : (st'.volume.setInode inum din').Sound layout
  tree : (st'.volume.setInode inum din').tree = (st.volume.setInode inum din).tree
  fields : din' = { din with addrs := din'.addrs }
  inode : st'.volume.inode = st.volume.inode
  freeinode : st'.freeinode = st.freeinode
  slots : ∀ y, y ≠ inum → ∀ c, st'.volume.slot (y, c) = st.volume.slot (y, c)
  blocks : ∀ bn, fileBlock st.volume.block din bn ≠ 0 →
    fileBlock st'.volume.block din' bn = fileBlock st.volume.block din bn ∧
      st'.volume.block (fileBlock st.volume.block din bn) =
        st.volume.block (fileBlock st.volume.block din bn)
  high : (∀ k, NDIRECT < k → din.addrs k = 0) → ∀ k, NDIRECT < k → din'.addrs k = 0

variable {st st' st'' : State} {inum k m ind j : ℕ} {din din' din'' : Dinode}

theorem slot_setInode_of_ne {v : Volume} {y : ℕ} (hy : y ≠ inum) (c : ℕ) :
    (v.setInode inum din).slot (y, c) = v.slot (y, c) := by
  simp [Volume.slot, hy]

namespace Grown

theorem refl (hclean : Clean st) (hsound : (st.volume.setInode inum din).Sound layout) :
    Grown inum st din st din :=
  ⟨hclean, hsound, rfl, rfl, rfl, rfl, fun _ _ _ ↦ rfl, fun _ _ ↦ ⟨rfl, rfl⟩, id⟩

theorem trans (h : Grown inum st din st' din') (h' : Grown inum st' din' st'' din'') :
    Grown inum st din st'' din'' := by
  refine ⟨h'.clean, h'.sound, h'.tree.trans h.tree, ?_, h'.inode.trans h.inode,
    h'.freeinode.trans h.freeinode, fun y hy c ↦ (h'.slots y hy c).trans (h.slots y hy c),
    fun bn hbn ↦ ?_, fun hhigh ↦ h'.high (h.high hhigh)⟩
  · rw [h'.fields, h.fields]
  · obtain ⟨heq, hblock⟩ := h.blocks bn hbn
    obtain ⟨heq', hblock'⟩ := h'.blocks bn (heq.symm ▸ hbn)
    rw [heq] at heq' hblock'
    exact ⟨heq', hblock'.trans hblock⟩

theorem of_taken {c : ℕ} (hclean : Clean st) (hclean' : Clean st') (hroom : st.freeblock < FSSIZE)
    (hsound : (st.volume.setInode inum din).Sound layout) (htype : din.type ≠ 0)
    (htaken : Taken (st.volume.setInode inum din) (st'.volume.setInode inum din') (inum, c)
      st.freeblock)
    (hslot : (st.volume.setInode inum din).slot (inum, c) = 0)
    (hinode : st'.volume.inode = st.volume.inode) (hfreeinode : st'.freeinode = st.freeinode)
    (hhigh : (∀ k, NDIRECT < k → din.addrs k = 0) → ∀ k, NDIRECT < k → din'.addrs k = 0) :
    Grown inum st din st' din' := by
  have hself : ∀ (st : State) (din : Dinode), (st.volume.setInode inum din).inode inum = din :=
    fun _ _ ↦ Function.update_self ..
  have hused : ((st.volume.setInode inum din).inode inum).type ≠ 0 := by rwa [hself]
  obtain ⟨hsound', htree⟩ := htaken.sound hsound hslot (freeblock_mem hclean hroom)
    (used_freeblock st)
  refine ⟨hclean', hsound', htree, ?_, hinode, hfreeinode, fun y hy c' ↦ ?_, fun bn hbn ↦ ⟨?_, ?_⟩,
    hhigh⟩
  · have hfields := htaken.inode inum
    rwa [hself, hself] at hfields
  · have hslots := congrFun htaken.slot (y, c')
    rw [Function.update_of_ne fun heq ↦ hy (congrArg Prod.fst heq)] at hslots
    rwa [slot_setInode_of_ne hy, slot_setInode_of_ne hy] at hslots
  · have hmapped : fileBlock (st.volume.setInode inum din).block
        ((st.volume.setInode inum din).inode inum) bn ≠ 0 := by
      rwa [hself, Volume.setInode_block]
    have hblock := htaken.fileBlock_eq hslot hused hmapped
    rwa [hself, hself, Volume.setInode_block, Volume.setInode_block] at hblock
  · have hblock := htaken.block inum hused bn (by rwa [hself, Volume.setInode_block])
    rwa [hself, Volume.setInode_block, Volume.setInode_block] at hblock

theorem fileByte_eq {i : ℕ} (h : Grown inum st din st' din')
    (hblock : fileBlock st.volume.block din (i / BSIZE) ≠ 0) :
    fileByte st'.volume.block din' i = fileByte st.volume.block din i := by
  obtain ⟨heq, hcontents⟩ := h.blocks (i / BSIZE) hblock
  rw [fileByte, fileByte, heq, hcontents]

end Grown

theorem Filled.take {v v' : Volume} {b x : ℕ} (hfilled : Filled v x m)
    (htaken : Taken v v' (x, m) b) (hb : b ≠ 0) : Filled v' x (m + 1) := by
  intro c
  rw [htaken.slot, Function.update_apply]
  by_cases hc : c = m
  · rw [if_pos (by rw [hc])]
    exact iff_of_true hb (by omega)
  · rw [if_neg fun heq ↦ hc (congrArg Prod.snd heq), hfilled c]
    omega

theorem slot_eq_addrs (st : State) (inum : ℕ) (htype : din.type ≠ 0) (hk : k ≤ NDIRECT) :
    (st.volume.setInode inum din).slot (inum, k) = din.addrs k := by
  rw [Volume.slot_of_used (by simpa using htype), slotAddr, if_pos hk]
  simp

section Map

variable (hclean : Clean st) (hsound : (st.volume.setInode inum din).Sound layout)
  (htype : din.type ≠ 0) (hfilled : Filled (st.volume.setInode inum din) inum m)

include hclean hsound htype hfilled

/-- A direct block, or the indirect block itself. -/
theorem mapAddr_run (hk : k ≤ NDIRECT) (hkm : k ≤ m)
    (hroom : st.freeblock + max m (k + 1) ≤ FSSIZE + m) :
    ∃ st' din', mapAddr din k st = .ok ((din'.addrs k, din'), st') ∧ Grown inum st din st' din' ∧
      Filled (st'.volume.setInode inum din') inum (max m (k + 1)) ∧
      st'.freeblock + m = st.freeblock + max m (k + 1) := by
  have haddr := slot_eq_addrs st inum htype hk
  have hiff := hfilled k
  rw [haddr] at hiff
  by_cases h0 : din.addrs k = 0
  · have hmk : m = k := by
      have : ¬ k < m := fun hlt ↦ hiff.mpr hlt h0
      omega
    subst hmk
    have hfree : st.freeblock < FSSIZE := by omega
    have htaken := hsound.owned.takeAddr (x := inum) (k := m) (freeblock_mem hclean hfree)
      (used_freeblock st) (by simpa using htype) hk (by simpa using h0)
    have hvolume : (((st.volume.setInode inum din).setUsed st.freeblock true).setBlock st.freeblock
        zeroBlock).setInode inum (((st.volume.setInode inum din).inode inum).setAddr m st.freeblock) =
          st.take.volume.setInode inum (din.setAddr m st.freeblock) := by
      rw [volume_take hclean hfree]
      simp [Volume.setInode, Volume.setUsed, Volume.setBlock]
    rw [hvolume] at htaken
    have hb : st.freeblock ≠ 0 := by
      have hlow := hclean.low
      simp only [nmeta, nlog] at hlow
      omega
    refine ⟨st.take, din.setAddr m st.freeblock, ?_, ?_, ?_, ?_⟩
    · rw [mapAddr, if_pos h0]
      simp only [Dinode.setAddr, Function.update_self]
      rfl
    · refine .of_taken hclean hclean.take hfree hsound htype htaken (haddr.trans h0) rfl rfl
        fun hhigh c hc ↦ ?_
      simp only [Dinode.setAddr]
      rw [Function.update_of_ne (by omega)]
      exact hhigh c hc
    · rw [Nat.max_eq_right (Nat.le_succ m)]
      exact hfilled.take htaken hb
    · simp only [State.take]
      omega
  · have hlt := hiff.mp h0
    have hmax : max m (k + 1) = m := Nat.max_eq_left hlt
    refine ⟨st, din, ?_, .refl hclean hsound, ?_, ?_⟩
    · rw [mapAddr, if_neg h0]
      rfl
    · rwa [hmax]
    · rw [hmax]

/-- A block of the file whose number is in the indirect block. -/
theorem mapEntry_run (hind : din.addrs NDIRECT = ind) (hptr : NDIRECT < m) (hj : j < NINDIRECT)
    (hjm : NDIRECT + j + 1 ≤ m) (hroom : st.freeblock + max m (NDIRECT + j + 2) ≤ FSSIZE + m) :
    ∃ st', mapEntry ind j st = .ok (fileBlock st'.volume.block din (NDIRECT + j), st') ∧
      Grown inum st din st' din ∧
      Filled (st'.volume.setInode inum din) inum (max m (NDIRECT + j + 2)) ∧
      st'.freeblock + m = st.freeblock + max m (NDIRECT + j + 2) := by
  have hind0 : ind ≠ 0 := by
    have hslot := (hfilled NDIRECT).mpr hptr
    rwa [slot_eq_addrs st inum htype (Nat.le_refl _), hind] at hslot
  have hused : ((st.volume.setInode inum din).inode inum).type ≠ 0 := by simpa using htype
  -- the indirect block is a data block
  have hmem : ind ∈ layout.dataBlocks ∧ ind < st.freeblock := by
    have hslot := slot_eq_addrs st inum htype (Nat.le_refl NDIRECT)
    rw [hind] at hslot
    have hmem := hsound.owned.assigned.mem (inum, NDIRECT) (hslot.symm ▸ hind0)
    have hmarked := hsound.owned.assigned.marked (inum, NDIRECT) (hslot.symm ▸ hind0)
    rw [hslot] at hmem hmarked
    exact ⟨hmem, of_decide_eq_true hmarked⟩
  have hlow : nmeta ≤ ind := hmem.1.1
  have hhigh : ind < FSSIZE := hmem.1.2
  have hread : rsect ind st = .ok (st.image ind, st) := rsect_run hhigh
  have hdirect : ¬ NDIRECT + j < NDIRECT := by omega
  have hmax : NDIRECT + j < MAXFILE := by
    simp only [MAXFILE] at hj ⊢
    omega
  have hword : ∀ st' : State, nmeta ≤ ind → fileBlock st'.volume.block din (NDIRECT + j) =
      (st'.image ind).word j := by
    intro st' hlow
    rw [fileBlock, if_neg hdirect, if_pos ⟨hmax, hind.symm ▸ hind0⟩, hind, volume_block hlow,
      Nat.add_sub_cancel_left]
  have hindex : slotIndex (NDIRECT + j) = NDIRECT + j + 1 := if_neg hdirect
  have hslot : (st.volume.setInode inum din).slot (inum, NDIRECT + j + 1) = (st.image ind).word j := by
    rw [← hindex, Volume.slot_slotIndex hused, ← hword st hlow]
    simp
  have hiff := hfilled (NDIRECT + j + 1)
  rw [hslot] at hiff
  by_cases h0 : (st.image ind).word j = 0
  · have hmk : m = NDIRECT + j + 1 := by
      have : ¬ NDIRECT + j + 1 < m := fun hlt ↦ hiff.mpr hlt h0
      omega
    have hfree : st.freeblock < FSSIZE := by omega
    have htaken := hsound.owned.takeEntry (x := inum) (freeblock_mem hclean hfree)
      (used_freeblock st) hused (by simpa using hind) hind0 hj
    rw [hindex, ← hmk] at htaken
    set st' := st.take.putSector ind ((st.image ind).setWord j st.freeblock) with hst'
    have hvolume : (((st.volume.setInode inum din).setUsed st.freeblock true).setBlock st.freeblock
        zeroBlock).setBlock ind (((st.volume.setInode inum din).block ind).setWord j st.freeblock) =
          st'.volume.setInode inum din := by
      rw [hst', volume_putSector hlow, volume_take hclean hfree, Volume.setInode_block,
        volume_block hlow]
      rfl
    rw [hvolume] at htaken
    have hb : st.freeblock ≠ 0 := by
      have hmeta := hclean.low
      simp only [nmeta, nlog] at hmeta
      omega
    have hclean' : Clean st' := by
      refine hclean.take.putSector hlow ?_
      simp only [State.take]
      omega
    have hinode : st'.volume.inode = st.volume.inode := by
      rw [hst', volume_putSector hlow, volume_take hclean hfree]
      rfl
    have hnew : fileBlock st'.volume.block din (NDIRECT + j) = st.freeblock := by
      rw [hword st' hlow, hst']
      simp only [State.putSector, Function.update_self, Block.word_setWord_self]
      simp only [FSSIZE] at hfree
      omega
    refine ⟨st', ?_, ?_, ?_, ?_⟩
    · rw [mapEntry, run_bind hread, if_pos h0, hnew]
      rfl
    · exact .of_taken hclean hclean' hfree hsound htype htaken (by rw [hmk, hslot, h0]) hinode rfl id
    · rw [Nat.max_eq_right (by omega), ← show m + 1 = NDIRECT + j + 2 by omega]
      exact hfilled.take htaken hb
    · have hfreeblock : st'.freeblock = st.freeblock + 1 := rfl
      omega
  · have hlt := hiff.mp h0
    have hmax : max m (NDIRECT + j + 2) = m := Nat.max_eq_left hlt
    refine ⟨st, ?_, .refl hclean hsound, ?_, ?_⟩
    · rw [mapEntry, run_bind hread, if_neg h0, hword st hlow]
      rfl
    · rwa [hmax]
    · rw [hmax]

theorem mapBlock_run {fbn : ℕ} (hmax : fbn < MAXFILE)
    (hnext : slotIndex fbn ≤ m ∨ fbn = NDIRECT ∧ m = NDIRECT)
    (hroom : st.freeblock + max m (slotIndex fbn + 1) ≤ FSSIZE + m) :
    ∃ st' din', mapBlock din fbn st = .ok ((fileBlock st'.volume.block din' fbn, din'), st') ∧
      Grown inum st din st' din' ∧
      Filled (st'.volume.setInode inum din') inum (max m (slotIndex fbn + 1)) ∧
      st'.freeblock + m = st.freeblock + max m (slotIndex fbn + 1) := by
  by_cases hdirect : fbn < NDIRECT
  · have hindex : slotIndex fbn = fbn := if_pos hdirect
    rw [hindex] at hnext hroom ⊢
    obtain ⟨st', din', hrun, hgrown, hfilled', hfree⟩ := mapAddr_run hclean hsound htype hfilled
      hdirect.le (by omega) hroom
    refine ⟨st', din', ?_, hgrown, hfilled', hfree⟩
    rw [mapBlock, if_pos hdirect, hrun, fileBlock, if_pos hdirect]
  · obtain ⟨j, rfl⟩ := Nat.exists_eq_add_of_le (Nat.not_lt.mp hdirect)
    have hindex : slotIndex (NDIRECT + j) = NDIRECT + j + 1 := if_neg hdirect
    rw [hindex] at hnext hroom ⊢
    have hj : j < NINDIRECT := by
      simp only [MAXFILE] at hmax
      omega
    obtain ⟨st₁, din₁, hrun, hgrown, hfilled₁, hfree⟩ := mapAddr_run hclean hsound htype hfilled
      (Nat.le_refl NDIRECT) (by omega) (by omega)
    have htype₁ : din₁.type ≠ 0 := by rwa [hgrown.fields]
    obtain ⟨st', hrun', hgrown', hfilled', hfree'⟩ := mapEntry_run hgrown.clean hgrown.sound htype₁
      hfilled₁ rfl (by omega) hj (by omega) (by omega)
    have hmax' : max (max m (NDIRECT + 1)) (NDIRECT + j + 2) = max m (NDIRECT + j + 1 + 1) := by
      omega
    rw [hmax'] at hfilled' hfree'
    refine ⟨st', din₁, ?_, hgrown.trans hgrown', hfilled', by omega⟩
    rw [mapBlock, if_neg hdirect, run_bind hrun, Nat.add_sub_cancel_left, run_bind hrun']
    rfl

end Map

/-! ## The loop -/

/-- Inode `inum` has got other contents, and more blocks. -/
structure Appended (inum : ℕ) (st : State) (din : Dinode) (st' : State) (din' : Dinode) : Prop where
  clean : Clean st'
  sound : (st'.volume.setInode inum din').Sound layout
  others : ∀ y, y ≠ inum → st'.volume.tree y = st.volume.tree y
  fields : din' = { din with addrs := din'.addrs }
  inode : st'.volume.inode = st.volume.inode
  freeinode : st'.freeinode = st.freeinode
  slots : ∀ y, y ≠ inum → ∀ c, st'.volume.slot (y, c) = st.volume.slot (y, c)
  high : (∀ k, NDIRECT < k → din.addrs k = 0) → ∀ k, NDIRECT < k → din'.addrs k = 0

namespace Appended

theorem of_grown (h : Grown inum st din st' din') : Appended inum st din st' din' := by
  refine ⟨h.clean, h.sound, fun y hy ↦ ?_, h.fields, h.inode, h.freeinode, h.slots, h.high⟩
  have htree := congrFun h.tree y
  rwa [Volume.tree_setInode_of_ne hy, Volume.tree_setInode_of_ne hy] at htree

theorem trans (h : Appended inum st din st' din') (h' : Appended inum st' din' st'' din'') :
    Appended inum st din st'' din'' := by
  refine ⟨h'.clean, h'.sound, fun y hy ↦ (h'.others y hy).trans (h.others y hy), ?_,
    h'.inode.trans h.inode, h'.freeinode.trans h.freeinode,
    fun y hy c ↦ (h'.slots y hy c).trans (h.slots y hy c), fun hhigh ↦ h'.high (h.high hhigh)⟩
  rw [h'.fields, h.fields]

end Appended

theorem write_run {bn : ℕ} (data : Block) (hclean : Clean st)
    (hsound : (st.volume.setInode inum din).Sound layout) (htype : din.type ≠ 0)
    (hbn : fileBlock st.volume.block din bn ≠ 0) :
    let x := fileBlock st.volume.block din bn
    rsect x st = .ok (st.volume.block x, st) ∧
      Appended inum st din (st.putSector x data) din ∧
      ((st.putSector x data).volume.setInode inum din).slot = (st.volume.setInode inum din).slot ∧
      ∀ i, fileByte (st.putSector x data).volume.block din i =
        if i / BSIZE = bn then data (i % BSIZE) else fileByte st.volume.block din i := by
  intro x
  have hself : (st.volume.setInode inum din).inode inum = din := Function.update_self ..
  have hused : ((st.volume.setInode inum din).inode inum).type ≠ 0 := by rwa [hself]
  have hslot : (st.volume.setInode inum din).slot (inum, slotIndex bn) = x := by
    rw [Volume.slot_slotIndex hused, hself]
    rfl
  have hx : x ≠ 0 := hbn
  have hmem := hsound.owned.assigned.mem (inum, slotIndex bn) (hslot.symm ▸ hx)
  have hmarked := hsound.owned.assigned.marked (inum, slotIndex bn) (hslot.symm ▸ hx)
  rw [hslot] at hmem hmarked
  have hlow : nmeta ≤ x := hmem.1
  have hfree : x < st.freeblock := of_decide_eq_true hmarked
  have hmapped : fileBlock (st.volume.setInode inum din).block
      ((st.volume.setInode inum din).inode inum) bn ≠ 0 := by rwa [hself]
  obtain ⟨hsound', hwritten⟩ := hsound.write hused hmapped data
  have hpointer : ∀ y, ((st.volume.setInode inum din).inode y).type ≠ 0 →
      ((st.volume.setInode inum din).inode y).addrs NDIRECT ≠ 0 →
      ((st.volume.setInode inum din).inode y).addrs NDIRECT ≠ x := fun y hy _ ↦ by
    have hne := hsound.owned.fileBlock_ne_pointer hused hmapped hy
    rwa [hself] at hne
  have hvolume : (st.putSector x data).volume = st.volume.setBlock x data := volume_putSector hlow
  have hwith : (st.volume.setBlock x data).setInode inum din =
      (st.volume.setInode inum din).setBlock x data := rfl
  have hslots : ((st.putSector x data).volume.setInode inum din).slot =
      (st.volume.setInode inum din).slot := by
    rw [hvolume, hwith, Volume.slot_setBlock hpointer]
  rw [hself, Volume.setInode_block] at hsound'
  refine ⟨?_, ⟨hclean.putSector hlow hfree, ?_, fun y hy ↦ ?_, rfl, ?_, rfl, fun y hy c ↦ ?_, id⟩,
    hslots, fun i ↦ ?_⟩
  · rw [volume_block hlow]
    exact rsect_run hmem.2
  · rw [hvolume, hwith]
    exact hsound'
  · have htree := hwritten.others y hy
    rw [hself, Volume.setInode_block, Volume.tree_setInode_of_ne hy] at htree
    rw [hvolume, ← htree]
    exact (Volume.tree_setInode_of_ne (v := st.volume.setBlock x data) hy).symm
  · rw [hvolume]
    rfl
  · have heq := congrFun hslots (y, c)
    rwa [slot_setInode_of_ne hy, slot_setInode_of_ne hy] at heq
  · have hbyte := hwritten.byte i
    rw [hself, Volume.setInode_block] at hbyte
    rw [hvolume]
    exact hbyte

theorem slotsFor_cases (size : ℕ) :
    (size + 1023) / 1024 ≤ 12 ∧ slotsFor size = (size + 1023) / 1024 ∨
      12 < (size + 1023) / 1024 ∧ slotsFor size = (size + 1023) / 1024 + 1 := by
  unfold slotsFor
  by_cases hle : dataBlocks size ≤ NDIRECT
  · rw [if_pos hle]
    exact .inl ⟨hle, rfl⟩
  · rw [if_neg hle]
    exact .inr ⟨Nat.not_le.mp hle, rfl⟩

theorem slotIndex_cases (bn : ℕ) :
    bn < 12 ∧ slotIndex bn = bn ∨ 12 ≤ bn ∧ slotIndex bn = bn + 1 := by
  unfold slotIndex
  by_cases hlt : bn < NDIRECT
  · rw [if_pos hlt]
    exact .inl ⟨hlt, rfl⟩
  · rw [if_neg hlt]
    exact .inr ⟨Nat.not_lt.mp hlt, rfl⟩

theorem slotsFor_piece {off n : ℕ} (hn : 0 < n) (hle : n ≤ (off / BSIZE + 1) * BSIZE - off) :
    slotsFor (off + n) = max (slotsFor off) (slotIndex (off / BSIZE) + 1) ∧
      (slotIndex (off / BSIZE) ≤ slotsFor off ∨
        off / BSIZE = NDIRECT ∧ slotsFor off = NDIRECT) := by
  have hbefore := slotsFor_cases off
  have hafter := slotsFor_cases (off + n)
  have hindex := slotIndex_cases (off / BSIZE)
  simp only [BSIZE, NDIRECT] at hle hindex ⊢
  omega

theorem slotsFor_mono {size size' : ℕ} (hle : size ≤ size') : slotsFor size ≤ slotsFor size' := by
  have hsize := slotsFor_cases size
  have hsize' := slotsFor_cases size'
  omega

theorem slotIndex_lt {i off : ℕ} (hi : i < off) : slotIndex (i / BSIZE) < slotsFor off := by
  have hsize := slotsFor_cases off
  have hindex := slotIndex_cases (i / BSIZE)
  simp only [BSIZE] at hindex ⊢
  omega

theorem Filled.fileBlock_ne_zero {bn : ℕ} (hfilled : Filled (st.volume.setInode inum din) inum m)
    (htype : din.type ≠ 0) (hbn : slotIndex bn < m) : fileBlock st.volume.block din bn ≠ 0 := by
  have hslot := (hfilled (slotIndex bn)).mpr hbn
  rw [Volume.slot_slotIndex (by simpa using htype)] at hslot
  simpa using hslot

theorem appendLoop_run (data : ℕ → UInt8) (rounds : ℕ) {off : ℕ} {p : List UInt8} (hclean : Clean st)
    (hsound : (st.volume.setInode inum din).Sound layout) (htype : din.type ≠ 0)
    (hfilled : Filled (st.volume.setInode inum din) inum (slotsFor off))
    (hbytes : ∀ i < off, fileByte st.volume.block din i = data i)
    (hp : ∀ j < p.length, p.getD j 0 = data (off + j)) (hrounds : p.length ≤ rounds)
    (hmax : off + p.length ≤ MAXFILE * BSIZE)
    (hroom : st.freeblock + slotsFor (off + p.length) ≤ FSSIZE + slotsFor off) :
    ∃ st' din', appendLoop rounds din off p st = .ok ((din', off + p.length), st') ∧
      Appended inum st din st' din' ∧
      Filled (st'.volume.setInode inum din') inum (slotsFor (off + p.length)) ∧
      st'.freeblock + slotsFor off = st.freeblock + slotsFor (off + p.length) ∧
      ∀ i < off + p.length, fileByte st'.volume.block din' i = data i := by
  induction rounds generalizing st din off p with
  | zero =>
    obtain rfl : p = [] := List.length_eq_zero_iff.mp (by omega)
    exact ⟨st, din, rfl, .of_grown (.refl hclean hsound), hfilled, rfl, hbytes⟩
  | succ rounds ih =>
    by_cases hnil : p = []
    · subst hnil
      refine ⟨st, din, ?_, .of_grown (.refl hclean hsound), hfilled, rfl, hbytes⟩
      rw [appendLoop, if_pos rfl]
      rfl
    have hpos : 0 < p.length := List.length_pos_iff.mpr hnil
    set fbn := off / BSIZE with hfbn
    set n := min p.length ((fbn + 1) * BSIZE - off) with hn
    have hoff : fbn * BSIZE ≤ off ∧ off < (fbn + 1) * BSIZE := by
      simp only [BSIZE] at hfbn ⊢
      omega
    have hnpos : 0 < n := by omega
    have hfile : fbn < MAXFILE := by
      simp only [BSIZE] at hfbn hmax ⊢
      omega
    obtain ⟨hslots, hnext⟩ := slotsFor_piece hnpos (Nat.min_le_right _ _)
    rw [← hfbn] at hslots hnext
    have hmono := slotsFor_mono (show off + n ≤ off + p.length by omega)
    -- a block for the piece
    obtain ⟨st₁, din₁, hmap, hgrown, hfilled₁, hfree₁⟩ := mapBlock_run hclean hsound htype hfilled
      hfile hnext (by omega)
    rw [← hslots] at hfilled₁ hfree₁
    have htype₁ : din₁.type ≠ 0 := by rwa [hgrown.fields]
    have hblock : fileBlock st₁.volume.block din₁ fbn ≠ 0 :=
      hfilled₁.fileBlock_ne_zero htype₁ (by omega)
    -- the piece
    set buf := st₁.volume.block (fileBlock st₁.volume.block din₁ fbn) with hbuf
    set piece := bcopy p (off - fbn * BSIZE) n buf with hpiece
    obtain ⟨hread, happended, hslot₂, hbyte₂⟩ := write_run piece hgrown.clean hgrown.sound htype₁
      hblock
    set st₂ := st₁.putSector (fileBlock st₁.volume.block din₁ fbn) piece with hst₂
    have hfilled₂ : Filled (st₂.volume.setInode inum din₁) inum (slotsFor (off + n)) := by
      intro c
      rw [hslot₂]
      exact hfilled₁ c
    have hfree₂ : st₂.freeblock = st₁.freeblock := rfl
    have hbytes₂ : ∀ i < off + n, fileByte st₂.volume.block din₁ i = data i := by
      intro i hi
      have hold : i < off → fileByte st₁.volume.block din₁ i = data i := fun hlt ↦ by
        rw [hgrown.fileByte_eq (hfilled.fileBlock_ne_zero htype (slotIndex_lt hlt)), hbytes i hlt]
      rw [hbyte₂]
      by_cases hdiv : i / BSIZE = fbn
      · rw [if_pos hdiv, hpiece, bcopy]
        have hmod : fbn * BSIZE ≤ i ∧ i % BSIZE = i - fbn * BSIZE := by
          simp only [BSIZE] at hdiv ⊢
          omega
        by_cases hlt : i < off
        · rw [if_neg (by omega), ← hold hlt, fileByte, hdiv, if_neg hblock]
        · rw [if_pos (by omega), show i % BSIZE - (off - fbn * BSIZE) = i - off by omega,
            hp (i - off) (by omega), Nat.add_sub_cancel' (by omega)]
      · rw [if_neg hdiv]
        apply hold
        simp only [BSIZE] at hdiv hfbn hoff hn
        omega
    have hrest : ∀ j < (p.drop n).length, (p.drop n).getD j 0 = data (off + n + j) := by
      intro j hj
      rw [List.length_drop] at hj
      rw [Nat.add_assoc, ← hp (n + j) (by omega), List.getD_eq_getElem?_getD,
        List.getD_eq_getElem?_getD, List.getElem?_drop]
    have hlen : off + n + (p.drop n).length = off + p.length := by
      rw [List.length_drop]
      omega
    obtain ⟨st', din', hrun, happended', hfilled', hfree', hbytes'⟩ := ih happended.clean
      happended.sound htype₁ hfilled₂ hbytes₂ hrest (by rw [List.length_drop]; omega)
      (by rwa [hlen]) (by rw [hlen]; omega)
    rw [hlen] at hrun hfilled' hfree' hbytes'
    refine ⟨st', din', ?_, (Appended.of_grown hgrown).trans (happended.trans happended'), hfilled',
      by omega, hbytes'⟩
    rw [appendLoop, if_neg hnil]
    simp only [← hfbn]
    rw [when, if_neg (by omega), run_bind rfl, run_bind hmap, run_bind hread, run_bind rfl]
    exact hrun

/-! ## iappend -/

structure Inv (st : State) : Prop where
  clean : Clean st
  sound : st.volume.Sound layout
  filled : ∀ x, (st.volume.inode x).type ≠ 0 →
    Filled st.volume x (slotsFor (st.volume.inode x).size)
  inodes : ∀ x, (st.volume.inode x).type ≠ 0 ↔ 1 ≤ x ∧ x < st.freeinode

theorem fits_inode (st : State) (inum : ℕ) : Fits (st.volume.inode inum) := by
  have hzero : Fits zeroDinode := ⟨by decide, fun _ _ ↦ Nat.two_pow_pos 32, fun _ _ ↦ rfl⟩
  rw [State.volume]
  dsimp only
  split_ifs
  · refine ⟨Block.word_lt _ _, fun k hk ↦ ?_, fun k hk ↦ if_neg (Nat.not_le.mpr hk)⟩
    simp only [getDinode, if_pos hk]
    exact Block.word_lt _ _
  · exact hzero

theorem inum_lt (htype : (st.volume.inode inum).type ≠ 0) : inum < NINODES := by
  by_contra hge
  exact htype (by simp only [State.volume, if_neg hge, zeroDinode])

theorem slot_resize (size : ℕ) (v : Volume) :
    (v.setInode inum { din with size := size }).slot = (v.setInode inum din).slot := by
  funext ⟨y, c⟩
  by_cases hy : y = inum
  · subst hy
    simp [Volume.slot, slotAddr, fileBlock]
  · rw [slot_setInode_of_ne hy, slot_setInode_of_ne hy]

theorem fits_of_sound {size : ℕ} (hsound : (st.volume.setInode inum din).Sound layout)
    (htype : din.type ≠ 0) (hhigh : ∀ k, NDIRECT < k → din.addrs k = 0) (hsize : size < 2 ^ 32) :
    Fits { din with size := size } := by
  refine ⟨hsize, fun k hk ↦ ?_, hhigh⟩
  by_cases h0 : din.addrs k = 0
  · simp only [h0]
    decide
  · have hmem := hsound.owned.assigned.mem (inum, k)
    rw [slot_eq_addrs st inum htype hk] at hmem
    exact (hmem h0).2.trans (by decide)

theorem Filled.mapped {size : ℕ} (hfilled : Filled (st.volume.setInode inum din) inum (slotsFor size))
    (htype : din.type ≠ 0) : Mapped st.volume.block din size := by
  intro bn hbn _
  apply hfilled.fileBlock_ne_zero htype
  have hlt := slotIndex_lt hbn
  rwa [Nat.mul_div_cancel _ (by decide)] at hlt

/-- `iappend` adds the bytes to the file and keeps the invariant. -/
theorem iappend_run {n : Node} {p : List UInt8} (hinv : Inv st)
    (hnode : st.volume.tree inum = some n) (hmax : n.size + p.length ≤ MAXFILE * BSIZE)
    (hroom : st.freeblock + slotsFor (n.size + p.length) ≤ FSSIZE + slotsFor n.size) :
    ∃ st', iappend inum p st = .ok ((), st') ∧ Inv st' ∧ st'.freeinode = st.freeinode ∧
      st'.freeblock + slotsFor n.size = st.freeblock + slotsFor (n.size + p.length) ∧
      st'.volume.tree = Function.update st.volume.tree inum
        (some (n.write n.size p.length fun j ↦ p.getD j 0)) := by
  set din := st.volume.inode inum with hdin
  have htype : din.type ≠ 0 := by
    intro h0
    rw [Volume.tree, if_pos h0] at hnode
    cases hnode
  obtain rfl : n = din.node st.volume.block := by
    rw [Volume.tree, if_neg htype] at hnode
    exact (Option.some.inj hnode).symm
  have hinum := inum_lt htype
  have hself : st.volume.setInode inum din = st.volume := Volume.setInode_self rfl
  have hsize : (din.node st.volume.block).size = din.size := rfl
  rw [hsize] at hmax hroom ⊢
  set data : ℕ → UInt8 := fun i ↦
    if i < din.size then fileByte st.volume.block din i else p.getD (i - din.size) 0 with hdata
  have hp : ∀ j < p.length, p.getD j 0 = data (din.size + j) := by
    intro j _
    simp only [hdata]
    rw [if_neg (by omega), Nat.add_sub_cancel_left]
  obtain ⟨st₁, din₁, hrun, happended, hfilled, hfree, hbytes⟩ := appendLoop_run data p.length
    hinv.clean (hself.symm ▸ hinv.sound) htype (hself.symm ▸ hinv.filled inum htype)
    (fun i hi ↦ (if_pos hi).symm) hp (Nat.le_refl _) hmax hroom
  have htype₁ : din₁.type ≠ 0 := by rwa [happended.fields]
  set size := din.size + p.length with hsize'
  have hlarge : size < 2 ^ 32 := by
    simp only [BSIZE, MAXFILE, NDIRECT, NINDIRECT] at hmax
    omega
  have hfits : Fits { din₁ with size := size } :=
    fits_of_sound happended.sound htype₁ (happended.high (fits_inode st inum).others) hlarge
  have hvolume : (st₁.putInode inum { din₁ with size := size }).volume =
      st₁.volume.setInode inum { din₁ with size := size } := volume_putInode hinum hfits
  have hsound : (st₁.volume.setInode inum { din₁ with size := size }).Sound layout := by
    have hinode : (st₁.volume.setInode inum din₁).inode inum = din₁ := Function.update_self ..
    have hmapped : Mapped st₁.volume.block { din₁ with size := size } size :=
      (hfilled.mapped htype₁).congr rfl
    have hset : ((st₁.volume.setInode inum din₁).setInode inum { din₁ with size := size }).Sound
        layout := happended.sound.setInode (by rwa [hinode]) htype₁ (by rw [hinode]) hmapped
    rwa [Volume.setInode_setInode] at hset
  refine ⟨st₁.putInode inum { din₁ with size := size }, ?_, ⟨?_, ?_, ?_, ?_⟩, ?_, hfree, ?_⟩
  · rw [iappend, run_bind (rinode_run hinum), run_bind hrun]
    exact winode_run hinum
  · exact happended.clean.putInode hinum
  · rwa [hvolume]
  · intro x hx
    rw [hvolume] at hx ⊢
    by_cases hxi : x = inum
    · subst hxi
      intro c
      rw [slot_resize, hfilled c]
      simp
    · have hslots := happended.slots x hxi
      rw [Volume.setInode_inode, Function.update_of_ne hxi, happended.inode] at hx ⊢
      intro c
      rw [slot_setInode_of_ne hxi, hslots c]
      exact hinv.filled x hx c
  · intro x
    rw [hvolume, Volume.setInode_inode, Function.update_apply]
    by_cases hxi : x = inum
    · rw [if_pos hxi, hxi, show (st₁.putInode inum { din₁ with size := size }).freeinode =
        st.freeinode from happended.freeinode]
      exact iff_of_true htype₁ ((hinv.inodes inum).mp htype)
    · rw [if_neg hxi, happended.inode, show (st₁.putInode inum { din₁ with size := size }).freeinode =
        st.freeinode from happended.freeinode]
      exact hinv.inodes x
  · exact happended.freeinode
  · rw [hvolume, Volume.tree_setInode (show ({ din₁ with size := size } : Dinode).type ≠ 0 from htype₁)]
    funext y
    by_cases hy : y = inum
    · subst hy
      rw [Function.update_self, Function.update_self]
      congr 1
      have hfields := happended.fields
      ext1
      · simp only [Dinode.node, Node.write]
        rw [hfields]
      · simp only [Dinode.node, Node.write]
        rw [hfields]
      · simp only [Dinode.node, Node.write]
        rw [hfields]
      · simp only [Dinode.node, Node.write]
        rw [hfields]
      · simp only [Dinode.node, Node.write]
        omega
      · funext i
        simp only [Dinode.node, Node.write, fileByte_resize]
        by_cases hi : i < size
        · rw [if_pos hi, hbytes i hi]
          simp only [hdata]
          by_cases hold : i < din.size
          · rw [if_pos hold, if_neg (by omega), if_pos hold]
          · rw [if_neg hold, if_pos (by omega)]
        · rw [if_neg hi, if_neg (by omega), if_neg (by omega)]
    · rw [Function.update_of_ne hy, Function.update_of_ne hy, happended.others y hy]

end EnhancedXv6.Mkfs
