import EnhancedXv6.FileSystem.Volume
import EnhancedXv6.Storage.Bits

/-!
# The free map on the disk

`balloc` and `bfree` as they work on the blocks of the free map: a scan over the map block by block
and bit by bit, with the `int` counters of the source compared with the unsigned size of the disk.
A scan that finds a block takes it and clears it.
-/

namespace EnhancedXv6.FileSystem

open Storage

abbrev Disk := UInt32 → Block

structure MapArea where
  size : UInt32
  bmapstart : UInt32

namespace MapArea

def bblock (sb : MapArea) (b : UInt32) : UInt32 := b / 8192 + sb.bmapstart

def bblockInt (sb : MapArea) (b : Int32) : UInt32 := (b / 8192).toUInt32 + sb.bmapstart

/-- How many blocks of the map have bits of blocks below `size`. -/
def mapBlocks (sb : MapArea) : ℕ := (sb.size.toNat + BPB - 1) / BPB

theorem lt_mapBlocks_iff {sb : MapArea} {k : ℕ} :
    k < sb.mapBlocks ↔ k * BPB < sb.size.toNat := by
  have hbits : BPB = 8192 := rfl
  rw [mapBlocks, hbits]
  omega

end MapArea

variable (sb : MapArea) (disk : Disk)

def bzero (bno : UInt32) : Disk := Function.update disk bno zeroBlock

/-- The inner loop of `balloc` from `bi` on, for at most `rounds` bits: the first clear bit. -/
def scanBits (data : Block) (b : Int32) : ℕ → Int32 → Option Int32
  | 0, _ => none
  | rounds + 1, bi =>
    if bi < 8192 ∧ (b + bi).toUInt32 < sb.size then
      if data.bit bi.toInt.toNat = false then some bi else scanBits data b rounds (bi + 1)
    else none

/-- Marks bit `bi` of the map block `bp` and clears the block with number `bno`. -/
def takeBit (bp bno : UInt32) (bi : ℕ) : Disk :=
  bzero (Function.update disk bp ((disk bp).setBit bi)) bno

/-- The outer loop of `balloc` from `b` on; `none` if it has not ended after `rounds` map blocks. -/
def scanBlocks : ℕ → Int32 → Option (UInt32 × Disk)
  | 0, _ => none
  | rounds + 1, b =>
    if b.toUInt32 < sb.size then
      match scanBits sb (disk (sb.bblockInt b)) b BPB 0 with
      | some bi =>
        some ((b + bi).toUInt32,
          takeBit disk (sb.bblockInt b) (b + bi).toUInt32 bi.toInt.toNat)
      | none => scanBlocks rounds (b + 8192)
    else some (0, disk)

/-- `balloc(dev)`: the block, or 0, and the disk. -/
def ballocDisk : Option (UInt32 × Disk) := scanBlocks sb disk (sb.mapBlocks + 1) 0

/-- `bfree(dev, b)`, or `none` for its panic. -/
def bfreeDisk (b : UInt32) : Option Disk :=
  let bp := sb.bblock b
  let bi := (b % 8192).toNat
  if (disk bp).bit bi = false then none
  else some (Function.update disk bp ((disk bp).clearBit bi))

def marked (b : UInt32) : Bool := (disk (sb.bblock b)).bit (b % 8192).toNat

/-! ## The scan -/

section Scan

variable {base : ℕ}

/-- The inner loop of `balloc` stops at the first bit that is clear. -/
theorem scanBits_spec (data : Block) (hbase : base + BPB < 2 ^ 31) (rounds i : ℕ)
    (hi : i + rounds = BPB) :
    match scanBits sb data (.ofNat base) rounds (.ofNat i) with
    | some bi => ∃ j, bi = .ofNat j ∧ i ≤ j ∧ j < BPB ∧ base + j < sb.size.toNat ∧
        data.bit j = false ∧ ∀ k, i ≤ k → k < j → data.bit k = true
    | none => ∀ k, i ≤ k → k < BPB → base + k < sb.size.toNat → data.bit k = true := by
  have hbits : BPB = 8192 := rfl
  have hword : UInt32.size = 2 ^ 32 := rfl
  induction rounds generalizing i with
  | zero =>
    intro k hk hlt
    omega
  | succ rounds ih =>
    have hlt : Int32.ofNat i < 8192 :=
      (Int32.ofNat_lt_iff_lt (by omega) (by decide)).mpr (by omega : i < 8192)
    have hint : (Int32.ofNat i).toInt.toNat = i := by
      rw [Int32.toInt_ofNat_of_lt (by omega)]
      rfl
    have hsum : (Int32.ofNat base + Int32.ofNat i).toUInt32 < sb.size ↔
        base + i < sb.size.toNat := by
      rw [← Int32.ofNat_add, Int32.toUInt32_ofNat', UInt32.lt_iff_toNat_lt,
        UInt32.toNat_ofNat_of_lt' (by omega)]
    rw [scanBits, hint]
    by_cases hsize : base + i < sb.size.toNat
    · rw [if_pos ⟨hlt, hsum.mpr hsize⟩]
      by_cases hbit : data.bit i = false
      · rw [if_pos hbit]
        exact ⟨i, rfl, le_rfl, by omega, hsize, hbit, fun k hk hlt ↦ absurd hlt (by omega)⟩
      · rw [if_neg hbit]
        rw [Bool.not_eq_false] at hbit
        have hnext := ih (i + 1) (by omega)
        rw [Int32.ofNat_add] at hnext
        have hone : Int32.ofNat 1 = 1 := rfl
        rw [hone] at hnext
        revert hnext
        cases scanBits sb data (.ofNat base) rounds (.ofNat i + 1) with
        | none =>
          intro hnext k hk hlt hsize
          obtain rfl | hk := hk.eq_or_lt
          · exact hbit
          · exact hnext k hk hlt hsize
        | some bi =>
          rintro ⟨j, hbi, hij, hj, hsize, hclear, hbefore⟩
          refine ⟨j, hbi, by omega, hj, hsize, hclear, fun k hk hlt ↦ ?_⟩
          obtain rfl | hk := hk.eq_or_lt
          · exact hbit
          · exact hbefore k hk hlt
    · rw [if_neg fun h ↦ hsize (hsum.mp h.2)]
      intro k hk _ hlt
      omega

variable {sb disk}

def mapBit (sb : MapArea) (disk : Disk) (n : ℕ) : Bool :=
  (disk (.ofNat (n / BPB) + sb.bmapstart)).bit (n % BPB)

theorem bblock_eq (b : UInt32) : sb.bblock b = .ofNat (b.toNat / BPB) + sb.bmapstart := by
  have hdiv : b / 8192 = .ofNat (b.toNat / BPB) := by
    apply UInt32.toNat_inj.mp
    rw [UInt32.toNat_div, UInt32.toNat_ofNat_of_lt']
    · rfl
    · exact lt_of_le_of_lt (Nat.div_le_self _ _) b.toNat_lt
  rw [MapArea.bblock, hdiv]

theorem marked_eq_mapBit (b : UInt32) : marked sb disk b = mapBit sb disk b.toNat := by
  have hmod : (b % 8192).toNat = b.toNat % BPB := UInt32.toNat_mod b 8192
  rw [marked, mapBit, bblock_eq, hmod]

theorem bblockInt_ofNat {k : ℕ} (hbase : base = k * BPB) (hint : base < 2 ^ 31) :
    sb.bblockInt (.ofNat base) = .ofNat k + sb.bmapstart := by
  have hsmall : k < 2 ^ 31 :=
    lt_of_le_of_lt (Nat.le_mul_of_pos_right k (by decide)) (hbase ▸ hint)
  have hdiv : Int32.ofNat base / 8192 = .ofNat k := by
    apply Int32.toInt_inj.mp
    rw [Int32.toInt_div, Int32.toInt_ofNat_of_lt hint, Int32.toInt_ofNat_of_lt hsmall]
    have hcancel : (base : ℤ).tdiv (8192 : Int32).toInt = k := by
      rw [hbase, Int.natCast_mul]
      exact Int.mul_tdiv_cancel _ (by decide)
    rw [hcancel]
    apply Int.bmod_eq_of_le
    · omega
    · omega
  rw [MapArea.bblockInt, hdiv, Int32.toUInt32_ofNat']

theorem div_mod_BPB {i : ℕ} (k : ℕ) (hi : i < BPB) :
    (k * BPB + i) / BPB = k ∧ (k * BPB + i) % BPB = i := by
  have hbits : BPB = 8192 := rfl
  rw [hbits] at hi ⊢
  omega

def takeBlock (sb : MapArea) (disk : Disk) (n : ℕ) : Disk :=
  takeBit disk (.ofNat (n / BPB) + sb.bmapstart) (.ofNat n) (n % BPB)

def LeastFree (sb : MapArea) (disk : Disk) (n : ℕ) : Prop :=
  n < sb.size.toNat ∧ mapBit sb disk n = false ∧ ∀ m < n, mapBit sb disk m = true

/-- The outer loop, one map block after the other. -/
theorem scanBlocks_spec (hsize : sb.size.toNat + BPB < 2 ^ 31) (rounds k : ℕ)
    (hbase : base = k * BPB) (hk : k ≤ sb.mapBlocks) (hrounds : sb.mapBlocks - k < rounds)
    (hbelow : ∀ n < base, n < sb.size.toNat → mapBit sb disk n = true) :
    (∃ n, LeastFree sb disk n ∧
      scanBlocks sb disk rounds (.ofNat base) = some (.ofNat n, takeBlock sb disk n)) ∨
    (∀ n < sb.size.toNat, mapBit sb disk n = true) ∧
      scanBlocks sb disk rounds (.ofNat base) = some (0, disk) := by
  have hbits : BPB = 8192 := rfl
  have hword : UInt32.size = 2 ^ 32 := rfl
  induction rounds generalizing k base with
  | zero => omega
  | succ rounds ih =>
    have hfit : base < sb.size.toNat + BPB := by
      rw [MapArea.mapBlocks, hbits] at hk
      rw [hbits] at hbase ⊢
      omega
    have htest : (Int32.ofNat base).toUInt32 < sb.size ↔ base < sb.size.toNat := by
      rw [Int32.toUInt32_ofNat', UInt32.lt_iff_toNat_lt, UInt32.toNat_ofNat_of_lt' (by omega)]
    rw [scanBlocks]
    by_cases hlt : base < sb.size.toNat
    · have hbit : ∀ i < BPB, mapBit sb disk (base + i) =
          (disk (.ofNat k + sb.bmapstart)).bit i := by
        intro i hi
        rw [mapBit, hbase, (div_mod_BPB k hi).1, (div_mod_BPB k hi).2]
      have hscan := scanBits_spec sb (disk (.ofNat k + sb.bmapstart))
        (show base + BPB < 2 ^ 31 by omega) BPB 0 (Nat.zero_add BPB)
      have hzero : Int32.ofNat 0 = 0 := rfl
      rw [hzero] at hscan
      rw [if_pos (htest.mpr hlt), bblockInt_ofNat hbase (by omega)]
      revert hscan
      cases scanBits sb (disk (.ofNat k + sb.bmapstart)) (.ofNat base) BPB 0 with
      | some bi =>
        rintro ⟨j, rfl, -, hj, hn, hclear, hbefore⟩
        refine .inl ⟨base + j, ⟨hn, (hbit j hj).trans hclear, fun m hm ↦ ?_⟩, ?_⟩
        · by_cases hlow : m < base
          · exact hbelow m hlow (by omega)
          · obtain ⟨i, rfl⟩ := Nat.exists_eq_add_of_le (not_lt.mp hlow)
            rw [hbit i (by omega)]
            exact hbefore i (by omega) (by omega)
        · dsimp only
          rw [takeBlock, hbase, (div_mod_BPB k hj).1, (div_mod_BPB k hj).2, ← hbase,
            ← Int32.ofNat_add, Int32.toUInt32_ofNat', Int32.toInt_ofNat_of_lt (by omega),
            Int.toNat_natCast]
      | none =>
        intro hnone
        have hnext : Int32.ofNat base + 8192 = .ofNat (base + BPB) := by
          rw [Int32.ofNat_add]
          rfl
        have hk' : k < sb.mapBlocks := MapArea.lt_mapBlocks_iff.mpr (hbase ▸ hlt)
        dsimp only
        rw [hnext]
        refine ih (k + 1) (by rw [hbase, Nat.succ_mul]) hk' (by omega) fun n hn hsize ↦ ?_
        by_cases hlow : n < base
        · exact hbelow n hlow hsize
        · obtain ⟨i, rfl⟩ := Nat.exists_eq_add_of_le (not_lt.mp hlow)
          rw [hbit i (by omega)]
          exact hnone i (by omega) (by omega) hsize
    · rw [if_neg fun h ↦ hlt (htest.mp h)]
      exact .inr ⟨fun n hn ↦ hbelow n (by omega) hn, rfl⟩

/-- What `balloc` does, in terms of the smallest free block. -/
theorem ballocDisk_spec (hsize : sb.size.toNat + BPB < 2 ^ 31) :
    (∃ n, LeastFree sb disk n ∧ ballocDisk sb disk = some (.ofNat n, takeBlock sb disk n)) ∨
    (∀ n < sb.size.toNat, mapBit sb disk n = true) ∧ ballocDisk sb disk = some (0, disk) := by
  exact scanBlocks_spec hsize (sb.mapBlocks + 1) 0 (Nat.zero_mul BPB).symm (by omega) (by omega)
    fun n hn ↦ absurd hn (Nat.not_lt_zero n)

end Scan

/-! ## What the allocator changes -/

def MetadataMarked : Prop :=
  ∀ b, b.toNat < sb.bmapstart.toNat + sb.mapBlocks → b < sb.size → marked sb disk b = true

structure Takes (disk' : Disk) (b : UInt32) : Prop where
  marks : marked sb disk' b = true
  clears : disk' b = zeroBlock
  keeps : ∀ n ≠ b, ∀ i, ¬(n = sb.bblock b ∧ i = (b % 8192).toNat) →
    (disk' n).bit i = (disk n).bit i

structure Frees (disk' : Disk) (b : UInt32) : Prop where
  unmarks : marked sb disk' b = false
  keeps : ∀ n i, ¬(n = sb.bblock b ∧ i = (b % 8192).toNat) → (disk' n).bit i = (disk n).bit i

section Changes

variable {sb disk} {b c : UInt32} {n : ℕ}

/-- The map does not reach beyond the metadata. -/
theorem bblock_ne (hb : sb.bmapstart.toNat + sb.mapBlocks ≤ b.toNat) (hc : c < sb.size) :
    sb.bblock c ≠ b := by
  have hbits : BPB = 8192 := rfl
  have hword : UInt32.size = 2 ^ 32 := rfl
  have hlt := b.toNat_lt
  have hk : c.toNat / BPB < sb.mapBlocks := by
    rw [UInt32.lt_iff_toNat_lt] at hc
    rw [MapArea.mapBlocks, hbits]
    omega
  rintro rfl
  rw [bblock_eq, UInt32.toNat_add, UInt32.toNat_ofNat_of_lt' (by omega),
    Nat.mod_eq_of_lt (by omega)] at hb
  omega

theorem takeBlock_toNat (b : UInt32) : takeBlock sb disk b.toNat =
    Function.update (Function.update disk (sb.bblock b)
      ((disk (sb.bblock b)).setBit (b % 8192).toNat)) b zeroBlock := by
  rw [takeBlock, takeBit, bzero, bblock_eq, UInt32.ofNat_toNat]
  rfl

theorem takes_takeBlock (hb : sb.bblock b ≠ b) : Takes sb disk (takeBlock sb disk b.toNat) b := by
  rw [takeBlock_toNat]
  constructor
  · rw [marked, Function.update_of_ne hb, Function.update_self]
    simp
  · rw [Function.update_self]
  · intro n hn i hi
    rw [Function.update_of_ne hn]
    by_cases hmap : n = sb.bblock b
    · have hne : i ≠ (b % 8192).toNat := fun h ↦ hi ⟨hmap, h⟩
      rw [hmap, Function.update_self, Block.bit_setBit, decide_eq_false hne, Bool.false_or]
    · rw [Function.update_of_ne hmap]

/-- A free block is a data block. -/
theorem le_of_free (hmeta : MetadataMarked sb disk) (hb : b < sb.size)
    (hfree : marked sb disk b = false) : sb.bmapstart.toNat + sb.mapBlocks ≤ b.toNat := by
  by_contra hlt
  rw [hmeta b (not_le.mp hlt) hb] at hfree
  cases hfree

theorem exists_bfreeDisk (hused : marked sb disk b = true) :
    ∃ disk', bfreeDisk sb disk b = some disk' ∧ Frees sb disk disk' b ∧
      Function.update disk' (sb.bblock b)
        ((disk' (sb.bblock b)).setBit (b % 8192).toNat) = disk := by
  have hbit : (disk (sb.bblock b)).bit (b % 8192).toNat = true := hused
  refine ⟨Function.update disk (sb.bblock b) ((disk (sb.bblock b)).clearBit (b % 8192).toNat),
    ?_, ⟨?_, ?_⟩, ?_⟩
  · rw [bfreeDisk, if_neg (by rw [hbit]; decide)]
  · rw [marked, Function.update_self]
    simp
  · intro n i hi
    by_cases hmap : n = sb.bblock b
    · have hne : i ≠ (b % 8192).toNat := fun h ↦ hi ⟨hmap, h⟩
      rw [hmap, Function.update_self, Block.bit_clearBit, decide_eq_false hne]
      rfl
    · rw [Function.update_of_ne hmap]
  · rw [Function.update_self, Function.update_idem, Block.setBit_clearBit hbit,
      Function.update_eq_self]

theorem eq_of_same_bit (hblock : sb.bblock c = sb.bblock b)
    (hbit : (c % 8192).toNat = (b % 8192).toNat) : c = b := by
  rw [MapArea.bblock, MapArea.bblock, UInt32.add_left_inj, ← UInt32.toNat_inj] at hblock
  rw [UInt32.toNat_mod, UInt32.toNat_mod] at hbit
  rw [UInt32.toNat_div, UInt32.toNat_div] at hblock
  rw [← UInt32.toNat_inj, ← Nat.div_add_mod c.toNat (8192 : UInt32).toNat, hblock, hbit,
    Nat.div_add_mod]

theorem marked_eq_of_frees {disk' : Disk} (h : Frees sb disk disk' b) (hc : c ≠ b) :
    marked sb disk' c = marked sb disk c :=
  h.keeps _ _ fun hsame ↦ hc (eq_of_same_bit hsame.1 hsame.2)

theorem leastFree_toNat_iff :
    LeastFree sb disk b.toNat ↔
      b < sb.size ∧ marked sb disk b = false ∧ ∀ c < b, marked sb disk c = true := by
  rw [LeastFree, ← UInt32.lt_iff_toNat_lt, ← marked_eq_mapBit]
  refine and_congr_right fun _ ↦ and_congr_right fun _ ↦ ⟨fun h c hc ↦ ?_, fun h m hm ↦ ?_⟩
  · rw [marked_eq_mapBit]
    exact h c.toNat (UInt32.lt_iff_toNat_lt.mp hc)
  · have hm' : (UInt32.ofNat m).toNat = m := UInt32.toNat_ofNat_of_lt' (lt_trans hm b.toNat_lt)
    have hmarked := h (.ofNat m) (UInt32.lt_iff_toNat_lt.mpr (by rwa [hm']))
    rwa [marked_eq_mapBit, hm'] at hmarked

/-- `balloc` in terms of the bits of the blocks. -/
theorem ballocDisk_cases (hsize : sb.size.toNat + BPB < 2 ^ 31) :
    (∃ b, (b < sb.size ∧ marked sb disk b = false ∧ ∀ c < b, marked sb disk c = true) ∧
      ballocDisk sb disk = some (b, takeBlock sb disk b.toNat)) ∨
    (∀ b < sb.size, marked sb disk b = true) ∧ ballocDisk sb disk = some (0, disk) := by
  rcases ballocDisk_spec hsize with ⟨n, hleast, hresult⟩ | ⟨hall, hresult⟩
  · have hn : (UInt32.ofNat n).toNat = n :=
      UInt32.toNat_ofNat_of_lt' (lt_trans hleast.1 sb.size.toNat_lt)
    refine .inl ⟨.ofNat n, leastFree_toNat_iff.mp (hn.symm ▸ hleast), ?_⟩
    rw [hresult, hn]
  · refine .inr ⟨fun b hb ↦ ?_, hresult⟩
    rw [marked_eq_mapBit]
    exact hall b.toNat (UInt32.lt_iff_toNat_lt.mp hb)

/-- After `bfree(b)` of a block below every free one, `balloc` takes it again. -/
theorem ballocDisk_of_frees {disk' : Disk} (hsize : sb.size.toNat + BPB < 2 ^ 31)
    (hb : b < sb.size) (hfrees : Frees sb disk disk' b)
    (hleast : ∀ c < sb.size, marked sb disk c = false → b < c) :
    ballocDisk sb disk' = some (b, takeBlock sb disk' b.toNat) := by
  rcases ballocDisk_cases hsize with ⟨c, ⟨hc, hfree, hbelow⟩, hresult⟩ | ⟨hall, -⟩
  · have hcb : c = b := by
      by_contra hne
      rw [marked_eq_of_frees hfrees hne] at hfree
      have hmarked := hbelow b (hleast c hc hfree)
      rw [hfrees.unmarks] at hmarked
      cases hmarked
    rw [hresult, hcb]
  · have hmarked := hall b hb
    rw [hfrees.unmarks] at hmarked
    cases hmarked

end Changes

/-- `balloc` takes the smallest free block and changes nothing else, or returns 0 if there is none;
`bfree` clears the bit of its block; a block below every free one is taken again by the next `balloc`,
and the map is then as before unless the block is part of it. -/
theorem balloc_takes_least_bfree_clears (sb : MapArea) (disk : Disk)
    (hsize : sb.size.toNat < 2 ^ 31 - BPB) (hmeta : MetadataMarked sb disk) :
    (∃ r disk', ballocDisk sb disk = some (r, disk') ∧
      (r = 0 ↔ ∀ b < sb.size, marked sb disk b = true) ∧ (r = 0 → disk' = disk) ∧
      (r ≠ 0 → (r < sb.size ∧ marked sb disk r = false ∧ ∀ b < r, marked sb disk b = true) ∧
        Takes sb disk disk' r)) ∧
    ∀ b < sb.size, marked sb disk b = true →
      ∃ disk', bfreeDisk sb disk b = some disk' ∧ Frees sb disk disk' b ∧
        ((∀ c < sb.size, marked sb disk c = false → b < c) →
          ballocDisk sb disk' = some (b, bzero disk b) ∧
          ((∀ c < sb.size, sb.bblock c ≠ b) →
            ∀ c < sb.size, marked sb (bzero disk b) c = marked sb disk c)) := by
  replace hsize : sb.size.toNat + BPB < 2 ^ 31 := Nat.add_lt_of_lt_sub hsize
  constructor
  · rcases ballocDisk_cases hsize with ⟨b, hleast, hresult⟩ | ⟨hall, hresult⟩
    · have hdata := le_of_free hmeta hleast.1 hleast.2.1
      have hpos : b ≠ 0 := by
        rintro rfl
        have hblocks : 0 < sb.mapBlocks :=
          MapArea.lt_mapBlocks_iff.mpr (by simpa using UInt32.lt_iff_toNat_lt.mp hleast.1)
        rw [UInt32.toNat_zero] at hdata
        omega
      refine ⟨b, _, hresult, iff_of_false hpos fun hall ↦ ?_, fun h ↦ absurd h hpos,
        fun _ ↦ ⟨hleast, takes_takeBlock (bblock_ne hdata hleast.1)⟩⟩
      rw [hall b hleast.1] at hleast
      exact absurd hleast.2.1 (by decide)
    · exact ⟨0, disk, hresult, iff_of_true rfl hall, fun _ ↦ rfl, fun h ↦ absurd rfl h⟩
  · intro b hb hused
    obtain ⟨disk', hfree, hfrees, hback⟩ := exists_bfreeDisk hused
    refine ⟨disk', hfree, hfrees, fun hleast ↦ ⟨?_, fun hdata c hc ↦ ?_⟩⟩
    · rw [ballocDisk_of_frees hsize hb hfrees hleast, takeBlock_toNat, hback, bzero]
    · rw [marked, bzero, Function.update_of_ne (hdata c hc), marked]

/-- The disk that `mkfs` lays out: 2000 blocks, with the map in block 45. -/
def mkfsArea : MapArea := ⟨2000, 45⟩

def mkfsMap : Disk := fun n ↦
  if n = 45 then fun k ↦ if k < 5 then 255 else if k = 5 then 63 else 0 else zeroBlock

theorem metadataMarked_mkfsMap : MetadataMarked mkfsArea mkfsMap := by
  have hmarked : ∀ n < 46, marked mkfsArea mkfsMap (.ofNat n) = true := by decide +kernel
  intro b hb _
  have h := hmarked b.toNat hb
  rwa [UInt32.ofNat_toNat] at h

theorem balloc_takes_least_mkfs :
    ∃ r disk', ballocDisk mkfsArea mkfsMap = some (r, disk') ∧
      (r = 0 → disk' = mkfsMap) :=
  have h := (balloc_takes_least_bfree_clears mkfsArea mkfsMap (by decide)
    metadataMarked_mkfsMap).1
  h.imp fun _ h ↦ h.imp fun _ h ↦ ⟨h.1, h.2.2.1⟩

/-- Freeing the map block itself: `balloc` takes it again and clears the map. -/
theorem bfree_of_map_block_loses_map :
    MetadataMarked mkfsArea mkfsMap ∧ (∀ c, marked mkfsArea mkfsMap c = false → 45 < c) ∧
      marked mkfsArea mkfsMap 45 = true ∧ marked mkfsArea mkfsMap 0 = true ∧
      ((bfreeDisk mkfsArea mkfsMap 45).bind fun disk ↦ (ballocDisk mkfsArea disk).map
        fun r ↦ (r.1, marked mkfsArea r.2 0)) = some (45, false) := by
  refine ⟨metadataMarked_mkfsMap, fun c hc ↦ ?_, by decide +kernel, by decide +kernel,
    by decide +kernel⟩
  by_contra hle
  rw [UInt32.not_lt, UInt32.le_iff_toNat_le] at hle
  rw [metadataMarked_mkfsMap c (Nat.lt_succ_of_le hle)] at hc
  · cases hc
  · exact UInt32.lt_iff_toNat_lt.mpr (lt_of_le_of_lt hle (by decide))

end EnhancedXv6.FileSystem
