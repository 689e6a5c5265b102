import EnhancedXv6.FileSystem.Contents
import EnhancedXv6.FileSystem.Inodes

/-!
# Directories

The entries of a directory and the entry that has a name, read off the contents of its node, and what
`dirlookup` reads of a directory whose blocks are there.
-/

namespace EnhancedXv6.FileSystem

open Hoare Hoare.Program Storage

namespace Node

variable (n : Node) (k : ℕ) (name : Name)

def dirent : Dirent := Dirent.decode fun i ↦ n.data (DIRENT * k + i)

def slots : ℕ := (n.size + DIRENT - 1) / DIRENT

def Matches : Prop := (n.dirent k).inum ≠ 0 ∧ namecmp name (n.dirent k).name = 0

instance : Decidable (n.Matches k name) := inferInstanceAs (Decidable (_ ∧ _))

def find : Option ℕ := (List.range n.slots).find? fun k ↦ n.Matches k name

def lookup : Option ℕ := (n.find name).map fun k ↦ (n.dirent k).inum

end Node

variable {s : State} {dp : Ino} {sb : Superblock}

/-- A function that only reads leaves the inode in memory as it is. -/
theorem onInode_of_run {α : Type} {x : ℕ → Dinode → Vol (α × Dinode)} {a : α}
    (hx : x (s.itable dp).inum (s.itable dp).din s.volume =
      .ok ((a, (s.itable dp).din), s.volume)) :
    onInode dp x s = .ok (a, s) := by
  have hvolume : onVolume (x (s.itable dp).inum (s.itable dp).din) s =
      .ok ((a, (s.itable dp).din), s) := by
    simp only [onVolume, Program.on, hx]
  rw [onInode, run_bind rfl, run_bind hvolume]
  have hsame : s.setInode dp { s.itable dp with din := (s.itable dp).din } = s := by
    rw [State.setInode, Function.update_eq_self]
  exact congrArg (fun s' ↦ Except.ok (a, s')) hsame

theorem readDirent_of_mapped {k : ℕ} (panic : Stop) (hk : DIRENT * (k + 1) ≤ (s.itable dp).din.size)
    (hlarge : DIRENT * (k + 1) < 2 ^ 32)
    (hmapped : fileBlock s.volume.block (s.itable dp).din (DIRENT * k / BSIZE) ≠ 0) :
    readDirent sb dp (DIRENT * k) panic s =
      .ok (((s.itable dp).din.node s.volume.block).dirent k, s) := by
  have hmin : min DIRENT ((s.itable dp).din.size - DIRENT * k) = DIRENT := by
    simp only [DIRENT] at hk ⊢
    omega
  have hread : readi sb (s.itable dp).din (DIRENT * k) DIRENT (fun _ ↦ true) s.volume =
      .ok ((some ((List.range DIRENT).map fun i ↦
        fileByte s.volume.block (s.itable dp).din (DIRENT * k + i)), (s.itable dp).din),
        s.volume) := by
    rw [readi_of_mapped, hmin]
    · simp only [DIRENT] at hk ⊢
      omega
    · simp only [DIRENT] at hlarge ⊢
      omega
    · intro i hi
      rw [hmin] at hi
      have hdiv : (DIRENT * k + i) / BSIZE = DIRENT * k / BSIZE := by
        simp only [DIRENT, BSIZE] at hi ⊢
        omega
      rwa [hdiv]
  rw [readDirent, run_bind (onInode_of_run hread)]
  simp only [Option.getD_some, List.length_map, List.length_range, if_true]
  refine congrArg (fun de ↦ Except.ok (de, s)) (Dirent.decode_congr fun i hi ↦ ?_)
  have hlt : DIRENT * k + i < (s.itable dp).din.size := by
    simp only [DIRENT] at hi hk ⊢
    omega
  have hdata : ((s.itable dp).din.node s.volume.block).data (DIRENT * k + i) =
      fileByte s.volume.block (s.itable dp).din (DIRENT * k + i) := if_pos hlt
  rw [hdata]
  simp [List.getD_eq_getElem?_getD, List.getElem?_range hi]

end EnhancedXv6.FileSystem
