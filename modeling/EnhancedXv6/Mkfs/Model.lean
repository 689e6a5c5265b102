import EnhancedXv6.FileSystem.Inodes

/-!
# mkfs

The program that makes the disk image: it numbers inodes and blocks from the first free one on and
writes inodes, data and free map to the sectors of the image.  An input file is given by its path and
by what the calls of `read` return for it.  Sectors and inodes are bytes here; `mount` is the volume
that the kernel finds in an image, read with the layout that the superblock gives.
-/

namespace EnhancedXv6.Mkfs

open Hoare Hoare.Program Storage FileSystem

abbrev FSSIZE : ℕ := 2000
abbrev NINODES : ℕ := 200
abbrev FSMAGIC : ℕ := 0x10203040

abbrev nbitmap : ℕ := FSSIZE / (BSIZE * 8) + 1
abbrev ninodeblocks : ℕ := NINODES / IPB + 1
abbrev nlog : ℕ := LOGSIZE
abbrev nmeta : ℕ := 2 + nlog + ninodeblocks + nbitmap
abbrev nblocks : ℕ := FSSIZE - nmeta

abbrev inodestart : ℕ := 2 + nlog
abbrev bmapstart : ℕ := 2 + nlog + ninodeblocks

abbrev Image := ℕ → Block

/-! ## Inodes in a block -/

/-- The 32-bit words of `struct dinode`. -/
def dinodeWord (din : Dinode) : ℕ → ℕ
  | 0 => din.type.toUInt16.toNat + 2 ^ 16 * din.major.toUInt16.toNat
  | 1 => din.minor.toUInt16.toNat + 2 ^ 16 * din.nlink.toUInt16.toNat
  | 2 => din.size
  | k + 3 => din.addrs k

def putDinode (b : Block) (i : ℕ) (din : Dinode) : Block := fun k ↦
  if k / 64 = i then UInt8.ofNat (dinodeWord din (k % 64 / 4) / 2 ^ (8 * (k % 4))) else b k

def getDinode (b : Block) (i : ℕ) : Dinode where
  type := (UInt16.ofNat (b.word (16 * i))).toInt16
  major := (UInt16.ofNat (b.word (16 * i) / 2 ^ 16)).toInt16
  minor := (UInt16.ofNat (b.word (16 * i + 1))).toInt16
  nlink := (UInt16.ofNat (b.word (16 * i + 1) / 2 ^ 16)).toInt16
  size := b.word (16 * i + 2)
  addrs := fun k ↦ if k ≤ NDIRECT then b.word (16 * i + 3 + k) else 0

def zeroDinode : Dinode := ⟨0, 0, 0, 0, 0, fun _ ↦ 0⟩

/-! ## The program -/

structure State where
  image : Image
  freeinode : ℕ
  freeblock : ℕ

/-- Where `mkfs` gives up: a read behind the end of the image, or an assertion. -/
inductive Abort
  | read
  | rootino
  | slash
  | maxfile
  | bitmap

abbrev Mk (α : Type) := Program State Abort α

def wsect (sec : ℕ) (buf : Block) : Mk Unit :=
  modify fun st ↦ { st with image := Function.update st.image sec buf }

def rsect (sec : ℕ) : Mk Block := do
  let st ← get
  if sec < FSSIZE then pure (st.image sec) else stop .read

def iblock (inum : ℕ) : ℕ := inum / IPB + inodestart

def winode (inum : ℕ) (din : Dinode) : Mk Unit := do
  let buf ← rsect (iblock inum)
  wsect (iblock inum) (putDinode buf (inum % IPB) din)

def rinode (inum : ℕ) : Mk Dinode := do
  let buf ← rsect (iblock inum)
  pure (getDinode buf (inum % IPB))

def ialloc (type : Int16) : Mk ℕ := do
  let st ← get
  modify fun st ↦ { st with freeinode := st.freeinode + 1 }
  winode st.freeinode { zeroDinode with type := type, nlink := 1 }
  pure st.freeinode

def setBit (buf : Block) (i : ℕ) : Block :=
  Function.update buf (i / 8) (buf (i / 8) ||| UInt8.ofNat (2 ^ (i % 8)))

def balloc (used : ℕ) : Mk Unit := do
  if used < BSIZE * 8 then wsect bmapstart ((List.range used).foldl setBit zeroBlock)
  else stop .bitmap

def takeBlock : Mk ℕ := do
  let st ← get
  modify fun st ↦ { st with freeblock := st.freeblock + 1 }
  pure st.freeblock

def mapAddr (din : Dinode) (k : ℕ) : Mk (ℕ × Dinode) :=
  if din.addrs k = 0 then do
    let b ← takeBlock
    pure (b, din.setAddr k b)
  else pure (din.addrs k, din)

def mapEntry (ind j : ℕ) : Mk ℕ := do
  let indirect ← rsect ind
  if indirect.word j = 0 then do
    let b ← takeBlock
    wsect ind (indirect.setWord j b)
    pure b
  else pure (indirect.word j)

def mapBlock (din : Dinode) (fbn : ℕ) : Mk (ℕ × Dinode) :=
  if fbn < NDIRECT then mapAddr din fbn
  else do
    let r ← mapAddr din NDIRECT
    let x ← mapEntry r.1 (fbn - NDIRECT)
    pure (x, r.2)

def bcopy (p : List UInt8) (start n : ℕ) (buf : Block) : Block := fun i ↦
  if start ≤ i ∧ i < start + n then p.getD (i - start) 0 else buf i

/-- The loop of `iappend`; each round copies at least one byte. -/
def appendLoop : ℕ → Dinode → ℕ → List UInt8 → Mk (Dinode × ℕ)
  | 0, din, off, _ => pure (din, off)
  | rounds + 1, din, off, p =>
    if p = [] then pure (din, off)
    else do
      let fbn := off / BSIZE
      when (fbn ≥ MAXFILE) (stop .maxfile)
      let r ← mapBlock din fbn
      let n1 := min p.length ((fbn + 1) * BSIZE - off)
      let buf ← rsect r.1
      wsect r.1 (bcopy p (off - fbn * BSIZE) n1 buf)
      appendLoop rounds r.2 (off + n1) (p.drop n1)

def iappend (inum : ℕ) (p : List UInt8) : Mk Unit := do
  let din ← rinode inum
  let r ← appendLoop p.length din din.size p
  winode inum { r.1 with size := r.2 }

structure File where
  /-- `argv[i]` -/
  path : Name
  /-- what the calls of `read` return -/
  reads : List (List UInt8)

def File.contents (f : File) : List UInt8 := f.reads.flatten

def userDir : Name := [117, 115, 101, 114, 47]

def basename (path : Name) : Name :=
  if path.take 5 = userDir then path.drop 5 else path

def skipUnderscore (name : Name) : Name := if name.headD 0 = 95 then name.tail else name

def File.shortname (f : File) : Name := skipUnderscore (basename f.path)

def direntBytes (inum : ℕ) (name : Name) : List UInt8 :=
  (List.range DIRENT).map (Dirent.encode ⟨inum, strncpy name DIRSIZ⟩)

/-- `while((cc = read(fd, buf, sizeof(buf))) > 0) iappend(inum, buf, cc);` -/
def appendReads (inum : ℕ) : List (List UInt8) → Mk Unit
  | [] => pure ()
  | buf :: rest =>
    if buf = [] then pure ()
    else do
      iappend inum buf
      appendReads inum rest

def addFile (f : File) : Mk Unit := do
  when (slash ∈ basename f.path) (stop .slash)
  let inum ← ialloc T_FILE
  iappend ROOTINO (direntBytes inum f.shortname)
  appendReads inum f.reads

def addFiles : List File → Mk Unit
  | [] => pure ()
  | f :: files => do
    addFile f
    addFiles files

def clearSectors : ℕ → Mk Unit
  | 0 => pure ()
  | n + 1 => do
    clearSectors n
    wsect n zeroBlock

def superblock : Block :=
  (((((((zeroBlock.setWord 0 FSMAGIC).setWord 1 FSSIZE).setWord 2 nblocks).setWord 3 NINODES).setWord
    4 nlog).setWord 5 2).setWord 6 inodestart).setWord 7 bmapstart

def fixRoot : Mk Unit := do
  let din ← rinode ROOTINO
  winode ROOTINO { din with size := (din.size / BSIZE + 1) * BSIZE }

def main (files : List File) : Mk Unit := do
  clearSectors FSSIZE
  wsect 1 superblock
  let rootino ← ialloc T_DIR
  when (rootino ≠ ROOTINO) (stop .rootino)
  iappend rootino (direntBytes rootino dot)
  iappend rootino (direntBytes rootino dotdot)
  addFiles files
  fixRoot
  let st ← get
  balloc st.freeblock

def start (image : Image) : State := ⟨image, 1, nmeta⟩

/-! ## What the kernel finds -/

def bit (buf : Block) (b : ℕ) : Bool := (buf (b / 8)).toNat.testBit (b % 8)

/-- The volume on a disk with this image.  Where inodes and free map are, the superblock says. -/
def mount (image : Image) : Volume where
  inode inum :=
    if inum < (image 1).word 3 then getDinode (image ((image 1).word 6 + inum / IPB)) (inum % IPB)
    else zeroDinode
  used b := bit (image ((image 1).word 7 + b / BPB)) (b % BPB)
  block b := if b < (image 1).word 1 - (image 1).word 2 then zeroBlock else image b
  inOp := false

def layout : Superblock where
  size := FSSIZE
  nblocks := nblocks
  ninodes := NINODES
  nblocks_lt := by decide
  size_lt := by decide
  ninodes_le := by decide

end EnhancedXv6.Mkfs
