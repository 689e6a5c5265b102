import EnhancedXv6.FileSystem.Blocks
import EnhancedXv6.FileSystem.Names
import Mathlib.Data.List.Nodup

/-!
# Reading inodes

`bmap` and `readi` where every block of the range is there: a read then allocates nothing and returns
the bytes of the file.
-/

namespace EnhancedXv6.FileSystem

open Hoare Hoare.Program Storage

variable {sb : Superblock} {v v' : Volume} {inum b k bn : ℕ} {ip ip' : Dinode}

theorem Volume.setInode_setInode : (v.setInode inum ip).setInode inum ip' = v.setInode inum ip' := by
  simp [Volume.setInode]

theorem Volume.setInode_self (h : v.inode inum = ip) : v.setInode inum ip = v := by
  simp [Volume.setInode, ← h]

theorem bmap_of_mapped (hbn : fileBlock v.block ip bn ≠ 0) :
    bmap sb ip bn v = .ok ((fileBlock v.block ip bn, ip), v) := by
  have hload : ∀ k, ip.addrs k ≠ 0 → loadAddr sb ip k v = .ok ((ip.addrs k, ip), v) := fun k hk ↦ by
    rw [loadAddr, if_pos hk]
    rfl
  unfold bmap
  by_cases hdirect : bn < NDIRECT
  · rw [fileBlock, if_pos hdirect] at hbn ⊢
    rw [if_pos hdirect, hload bn hbn]
  · by_cases hindirect : bn < MAXFILE ∧ ip.addrs NDIRECT ≠ 0
    · rw [fileBlock, if_neg hdirect, if_pos hindirect] at hbn ⊢
      have hlt : bn - NDIRECT < NINDIRECT := by
        have := hindirect.1
        simp only [MAXFILE, NDIRECT, NINDIRECT] at this ⊢
        omega
      have hentry : loadEntry sb (ip.addrs NDIRECT) (bn - NDIRECT) v =
          .ok ((v.block (ip.addrs NDIRECT)).word (bn - NDIRECT), v) := by
        rw [loadEntry, run_bind rfl, if_pos hbn]
        rfl
      rw [if_neg hdirect, if_pos hlt, run_bind (hload NDIRECT hindirect.2), if_neg hindirect.2,
        run_bind hentry]
      rfl
    · rw [fileBlock, if_neg hdirect, if_neg hindirect] at hbn
      exact absurd rfl hbn

theorem mem_pieces {fuel off n : ℕ} {q : ℕ × ℕ} (h : q ∈ pieces fuel off n) :
    off ≤ q.1 ∧ q.1 < off + n := by
  induction fuel generalizing off n with
  | zero => simp [pieces] at h
  | succ fuel ih =>
    rw [pieces] at h
    split_ifs at h with hn
    · simp at h
    · rcases List.mem_cons.mp h with rfl | h
      · exact ⟨Nat.le_refl _, by simp only; omega⟩
      · have := ih h
        omega

theorem readLoop_of_mapped {fuel off n : ℕ} {acc : List UInt8} (hfuel : n ≤ fuel)
    (hmapped : ∀ i < n, fileBlock v.block ip ((off + i) / BSIZE) ≠ 0) :
    readLoop sb (fun _ ↦ true) (pieces fuel off n) ip acc v =
      .ok ((some (acc ++ (List.range n).map fun i ↦ fileByte v.block ip (off + i)), ip), v) := by
  induction fuel generalizing off n acc with
  | zero =>
    obtain rfl : n = 0 := by omega
    simp [pieces, readLoop]
    rfl
  | succ fuel ih =>
    rw [pieces]
    by_cases hn : n = 0
    · subst hn
      simp [readLoop]
      rfl
    · rw [if_neg hn]
      obtain ⟨m, hm⟩ : ∃ m, m = min n (BSIZE - off % BSIZE) := ⟨_, rfl⟩
      have hmod : off % BSIZE < BSIZE := Nat.mod_lt _ (by decide)
      have hfirst : fileBlock v.block ip (off / BSIZE) ≠ 0 := hmapped 0 (by omega)
      have hpiece : ((List.range m).map fun i ↦
          v.block (fileBlock v.block ip (off / BSIZE)) (off % BSIZE + i)) =
            (List.range m).map fun i ↦ fileByte v.block ip (off + i) := by
        refine List.map_congr_left fun i hi ↦ ?_
        have hi' := List.mem_range.mp hi
        have hdiv : (off + i) / BSIZE = off / BSIZE := by
          simp only [BSIZE] at hm hmod ⊢
          omega
        have hrem : (off + i) % BSIZE = off % BSIZE + i := by
          simp only [BSIZE] at hm hmod ⊢
          omega
        rw [fileByte, hdiv, hrem, if_neg hfirst]
      have hrest : ∀ i < n - m, fileBlock v.block ip ((off + m + i) / BSIZE) ≠ 0 := by
        intro i hi
        rw [Nat.add_assoc]
        exact hmapped _ (by omega)
      have hrange : List.range n = List.range m ++ (List.range (n - m)).map (m + ·) := by
        rw [← List.range_add]
        congr 1
        omega
      dsimp only
      rw [← hm, readLoop, run_bind (bmap_of_mapped hfirst), if_neg hfirst, run_bind rfl,
        if_pos rfl, ih (by omega) hrest, hpiece, hrange]
      simp [Function.comp_def, Nat.add_assoc]

theorem readi_of_mapped {off n : ℕ} (hoff : off ≤ ip.size) (hlarge : off + n < 2 ^ 32)
    (hmapped : ∀ i < min n (ip.size - off), fileBlock v.block ip ((off + i) / BSIZE) ≠ 0) :
    readi sb ip off n (fun _ ↦ true) v =
      .ok ((some ((List.range (min n (ip.size - off))).map fun i ↦ fileByte v.block ip (off + i)),
        ip), v) := by
  have hlen : (if off + n > ip.size then ip.size - off else n) = min n (ip.size - off) := by
    split_ifs <;> omega
  rw [readi, if_neg (by omega), hlen, readLoop_of_mapped (Nat.le_refl _) hmapped, List.nil_append]

theorem Volume.tree_setInode_of_ne {y : ℕ} (hy : y ≠ inum) : (v.setInode inum ip).tree y = v.tree y := by
  simp [Volume.tree, hy]

@[simp] theorem fileByte_resize (block : ℕ → Block) (ip : Dinode) (size i : ℕ) :
    fileByte block { ip with size := size } i = fileByte block ip i := rfl

end EnhancedXv6.FileSystem
