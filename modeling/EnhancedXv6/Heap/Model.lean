import EnhancedXv6.Heap.Blocks
import EnhancedXv6.Heap.Circular
import Mathlib.Logic.Function.Basic

/-!
# The allocator of user programs

umalloc.c.  Addresses are natural numbers and 0 is the null pointer; the memory gives the header at
every address, and a header has `sizeof(Header)` = 16 bytes.  That the headers in use do not overlap
is part of what is proved.  The two search loops take fuel: `none` stands for a loop that is still
running.

`sbrk` answers its calls in order: the `k`th call fails, or it returns memory that begins `gap`
bytes after the end of what it returned before.
-/

namespace EnhancedXv6.Heap

structure Header where
  ptr : ℕ
  size : UInt32

abbrev Memory := ℕ → Header

namespace Memory

def setPtr (mem : Memory) (p ptr : ℕ) : Memory :=
  Function.update mem p { mem p with ptr := ptr }

def setSize (mem : Memory) (p : ℕ) (size : UInt32) : Memory :=
  Function.update mem p { mem p with size := size }

def next (mem : Memory) (p : ℕ) : ℕ :=
  (mem p).ptr

/-- `p + p->s.size`: the address after the block with header `p`. -/
def after (mem : Memory) (p : ℕ) : ℕ :=
  p + 16 * (mem p).size.toNat

end Memory

/-- The memory with the variables of the allocator and what it has from `sbrk`. -/
structure State where
  mem : Memory
  freep : ℕ
  /-- the number of calls of `sbrk` so far -/
  calls : ℕ := 0
  /-- the end of the memory obtained from `sbrk` -/
  top : ℕ
  /-- history: the regions obtained from `sbrk` -/
  granted : List Block := []

/-- The condition that ends the loop of `free`: that of the loop or that of its `break`. -/
def fits (mem : Memory) (bp p : ℕ) : Bool :=
  (bp > p && bp < (mem p).ptr) || (p ≥ (mem p).ptr && (bp > p || bp < (mem p).ptr))

/-- What `free` does to `x` and the block `y` that follows it on the list: they become one block if
they are adjacent, and are linked otherwise. -/
def attach (mem : Memory) (x y : ℕ) : Memory :=
  if mem.after x = y then
    let mem := mem.setSize x ((mem x).size + (mem y).size)
    mem.setPtr x (mem y).ptr
  else mem.setPtr x y

def free (fuel : ℕ) (s : State) (ap : ℕ) : Option State := do
  let bp := ap - 16
  let p ← search (fits s.mem bp) s.mem.next fuel s.freep
  let mem := attach s.mem bp (s.mem p).ptr
  let mem := attach mem p bp
  some { s with mem := mem, freep := p }

/-- `sbrk(n)`: the address, or `none` for `-1`.  For `n ≤ 0` nothing is granted; `growproc` also takes
`-n` bytes away, which are in no granted block here either. -/
def sbrk (answer : ℕ → Option ℕ) (s : State) (n : Int32) : Option ℕ × State :=
  match answer s.calls with
  | none => (none, { s with calls := s.calls + 1 })
  | some gap =>
    let p := s.top + gap
    (some p, { s with
      calls := s.calls + 1
      top := p + n.toInt.toNat
      granted := ⟨p, n.toInt.toNat⟩ :: s.granted })

def morecore (answer : ℕ → Option ℕ) (fuel : ℕ) (s : State) (nu : UInt32) : Option (ℕ × State) :=
  let nu := if nu < 4096 then 4096 else nu
  match sbrk answer s (nu.toUInt64 * 16).toUInt32.toInt32 with
  | (none, s) => some (0, s)
  | (some hp, s) => do
    let s ← free fuel { s with mem := s.mem.setSize hp nu } (hp + 16)
    some (s.freep, s)

/-- The block `p` is large enough: `malloc` takes it, or its tail. -/
def carve (s : State) (nunits : UInt32) (prevp p : ℕ) : ℕ × State :=
  if (s.mem p).size = nunits then
    (p + 16, { s with mem := s.mem.setPtr prevp (s.mem p).ptr, freep := prevp })
  else
    let mem := s.mem.setSize p ((s.mem p).size - nunits)
    let p := mem.after p
    (p + 16, { s with mem := mem.setSize p nunits, freep := prevp })

def mallocLoop (answer : ℕ → Option ℕ) (nunits : UInt32) : ℕ → State → ℕ → ℕ → Option (ℕ × State)
  | 0, _, _, _ => none
  | fuel + 1, s, prevp, p =>
    if (s.mem p).size ≥ nunits then some (carve s nunits prevp p)
    else if p = s.freep then do
      let (p, s) ← morecore answer fuel s nunits
      if p = 0 then some (0, s)
      else mallocLoop answer nunits fuel s p (s.mem p).ptr
    else mallocLoop answer nunits fuel s p (s.mem p).ptr

def unitsFor (nbytes : UInt32) : UInt32 :=
  ((nbytes.toUInt64 + 16 - 1) / 16 + 1).toUInt32

/-- `malloc(nbytes)`, with `base` at the given address: the pointer that it returns. -/
def malloc (answer : ℕ → Option ℕ) (base fuel : ℕ) (s : State) (nbytes : UInt32) :
    Option (ℕ × State) :=
  let s := if s.freep = 0 then
      { s with mem := (s.mem.setPtr base base).setSize base 0, freep := base }
    else s
  mallocLoop answer (unitsFor nbytes) fuel s s.freep (s.mem s.freep).ptr

end EnhancedXv6.Heap
