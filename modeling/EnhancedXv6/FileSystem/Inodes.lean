import EnhancedXv6.FileSystem.Names
import EnhancedXv6.FileSystem.Volume
import EnhancedXv6.Kernel.State

/-!
# The inode table and directories

The tables in memory, and the functions of `fs.c` from `iget` to `nameiparent`.  System calls run one
after the other here, so that the spin locks of the tables do not appear and a sleep lock is a flag.
-/

namespace EnhancedXv6.FileSystem

open Hoare Hoare.Program Kernel Storage

abbrev ROOTDEV : ℕ := 1
abbrev ROOTINO : ℕ := 1

abbrev Ino := Fin NINODE

/-- `struct inode`; `din` is the copy of the inode on the disk. -/
structure Inode where
  dev : ℕ
  inum : ℕ
  ref : ℤ
  locked : Bool
  valid : Bool
  din : Dinode

inductive FileType
  | none
  | pipe
  | inode
  | device
  deriving DecidableEq

/-- `struct file`, without what belongs to pipes. -/
structure File where
  type : FileType
  ref : ℤ
  readable : Bool
  writable : Bool
  ip : Option Ino
  off : ℕ
  major : Int16

abbrev Fno := Fin NFILE

abbrev Fd := Fin NOFILE

structure State where
  volume : Volume
  itable : Ino → Inode
  ftable : Fno → File
  /-- `p->ofile[fd]` -/
  ofile : Slot × Fd → Option Fno
  /-- `p->cwd`, null for a slot without a process -/
  cwd : Slot → Option Ino

abbrev Fs (α : Type) := Program State Stop α

def State.setInode (s : State) (ip : Ino) (e : Inode) : State :=
  { s with itable := Function.update s.itable ip e }

@[simp] theorem State.setInode_self (s : State) (ip : Ino) (e : Inode) :
    (s.setInode ip e).itable ip = e := Function.update_self ..

def onVolume {α : Type} (x : Vol α) : Fs α := x.on State.volume fun v s ↦ { s with volume := v }

def onInode {α : Type} (ip : Ino) (x : ℕ → Dinode → Vol (α × Dinode)) : Fs α := do
  let s ← get
  let r ← onVolume (x (s.itable ip).inum (s.itable ip).din)
  modify fun s ↦ s.setInode ip { s.itable ip with din := r.2 }
  pure r.1

/-! ## Inodes -/

def State.findInode (s : State) (dev inum : ℕ) : Option Ino :=
  (List.finRange NINODE).find? fun ip ↦
    (s.itable ip).ref > 0 ∧ (s.itable ip).dev = dev ∧ (s.itable ip).inum = inum

def State.findEmpty (s : State) : Option Ino :=
  (List.finRange NINODE).find? fun ip ↦ (s.itable ip).ref = 0

def iget (dev inum : ℕ) : Fs Ino := do
  let s ← get
  match s.findInode dev inum with
  | some ip => do
    modify fun s ↦ s.setInode ip { s.itable ip with ref := (s.itable ip).ref + 1 }
    pure ip
  | none =>
    match s.findEmpty with
    | some ip => do
      modify fun s ↦
        s.setInode ip { s.itable ip with dev := dev, inum := inum, ref := 1, valid := false }
      pure ip
    | none => stop .igetNoInodes

def idup (ip : Ino) : Fs Ino := do
  modify fun s ↦ s.setInode ip { s.itable ip with ref := (s.itable ip).ref + 1 }
  pure ip

def acquiresleep (ip : Ino) : Fs Unit := do
  let s ← get
  when ((s.itable ip).locked = true) (stop .sleepsForever)
  modify fun s ↦ s.setInode ip { s.itable ip with locked := true }

def loadInode (ip : Ino) : Fs Unit := do
  modify fun s ↦
    s.setInode ip { s.itable ip with din := s.volume.inode (s.itable ip).inum, valid := true }
  let s ← get
  when ((s.itable ip).din.type = 0) (stop .ilockNoType)

def ilock (ip : Ino) : Fs Unit := do
  let s ← get
  when ((s.itable ip).ref < 1) (stop .ilock)
  acquiresleep ip
  when ((s.itable ip).valid = false) (loadInode ip)

def iunlock (ip : Ino) : Fs Unit := do
  let s ← get
  when ((s.itable ip).locked = false ∨ (s.itable ip).ref < 1) (stop .iunlock)
  modify fun s ↦ s.setInode ip { s.itable ip with locked := false }

/-- The part of `iput` for an inode that has no links and no other references. -/
def ifree (ip : Ino) : Fs Unit := do
  acquiresleep ip
  onInode ip fun inum din ↦ do
    let din ← itrunc inum din
    iupdate inum { din with type := 0 }
    pure ((), { din with type := 0 })
  modify fun s ↦ s.setInode ip { s.itable ip with valid := false, locked := false }

def iput (ip : Ino) : Fs Unit := do
  let s ← get
  when ((s.itable ip).ref = 1 ∧ (s.itable ip).valid = true ∧ (s.itable ip).din.nlink = 0) (ifree ip)
  modify fun s ↦ s.setInode ip { s.itable ip with ref := (s.itable ip).ref - 1 }

def iunlockput (ip : Ino) : Fs Unit := do
  iunlock ip
  iput ip

def newInode (type : Int16) : Dinode :=
  { type := type, major := 0, minor := 0, nlink := 0, size := 0, addrs := fun _ ↦ 0 }

/-! ## Directories -/

def readDirent (sb : Superblock) (dp : Ino) (off : ℕ) (panic : Stop) : Fs Dirent := do
  let r ← onInode dp fun _ din ↦ readi sb din off DIRENT fun _ ↦ true
  let bytes := r.getD []
  if bytes.length = DIRENT then pure (Dirent.decode fun i ↦ bytes.getD i 0) else stop panic

def direntOffsets (size : ℕ) : List ℕ :=
  (List.range ((size + DIRENT - 1) / DIRENT)).map (DIRENT * ·)

def findDirent (sb : Superblock) (dp : Ino) (name : Name) : List ℕ → Fs (Option (Ino × ℕ))
  | [] => pure none
  | off :: rest => do
    let de ← readDirent sb dp off .dirlookupRead
    if de.inum ≠ 0 ∧ namecmp name de.name = 0 then do
      let s ← get
      let ip ← iget (s.itable dp).dev de.inum
      pure (some (ip, off))
    else findDirent sb dp name rest

def dirlookup (sb : Superblock) (dp : Ino) (name : Name) : Fs (Option (Ino × ℕ)) := do
  let s ← get
  when ((s.itable dp).din.type ≠ T_DIR) (stop .dirlookupNotDir)
  findDirent sb dp name (direntOffsets (s.itable dp).din.size)

/-! ## Paths -/

/-- The loop of `namex`; `name` is what the buffer holds.  Each turn makes the path shorter, so that
more than `path.length` turns are never needed. -/
def namexLoop (sb : Superblock) (parent : Bool) :
    ℕ → List UInt8 → Name → Ino → Fs (Option (Ino × Name))
  | 0, _, _, _ => pure none
  | fuel + 1, path, name, ip =>
    match skipelem path with
    | none =>
      if parent = true then do
        iput ip
        pure none
      else pure (some (ip, name))
    | some (name, path) => do
      ilock ip
      let s ← get
      if (s.itable ip).din.type ≠ T_DIR then do
        iunlockput ip
        pure none
      else if parent = true ∧ path = [] then do
        iunlock ip
        pure (some (ip, name))
      else do
        let next ← dirlookup sb ip name
        match next with
        | none => do
          iunlockput ip
          pure none
        | some (next, _) => do
          iunlockput ip
          namexLoop sb parent fuel path name next

def startInode (p : Slot) (path : List UInt8) : Fs Ino := do
  let s ← get
  if path.head? = some slash then iget ROOTDEV ROOTINO
  else
    match s.cwd p with
    | some ip => idup ip
    | none => stop .nullPointer

def namex (sb : Superblock) (p : Slot) (path : List UInt8) (parent : Bool) :
    Fs (Option (Ino × Name)) := do
  let ip ← startInode p path
  namexLoop sb parent (path.length + 1) path [] ip

def namei (sb : Superblock) (p : Slot) (path : List UInt8) : Fs (Option Ino) := do
  let r ← namex sb p path false
  pure (r.map Prod.fst)

def nameiparent (sb : Superblock) (p : Slot) (path : List UInt8) : Fs (Option (Ino × Name)) :=
  namex sb p path true

end EnhancedXv6.FileSystem
