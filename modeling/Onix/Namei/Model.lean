/-
The inodes in memory and the buffers they are read from, as `named` and `namei` take and give back references to them: `fs/inode.c`, and
`bread` and `brelse` of `kernel/buffer.c`, with `iget`, `new_inode` and `minix_close` of `fs/minix/minix.c`.

One call runs to its end before the next one starts. A block has the same bytes in its buffer and on the device, and is written at once;
any read of a device may fail. Times, dirty marks, and the fields of an inode that no path is resolved with are left out.
-/
import Onix.Lib.Leads
import Onix.Minix.Bitmaps
import Onix.Walk.Model

namespace Onix.Namei

open Onix.Lib

/-! ## Data -/

abbrev INODE_NR : Nat := 64
abbrev SUPER_NR : Nat := 16

def BLOCK_SIZE : Nat := 1024

def BLOCK_INODES : Nat := 32

abbrev Ino : Type := Fin INODE_NR

abbrev SuperId : Type := Fin SUPER_NR

instance : NeZero INODE_NR := ⟨by decide⟩
instance : NeZero SUPER_NR := ⟨by decide⟩

inductive FsType
  | none
  | pipe
  | socket
  | minix
  | iso9660
  deriving DecidableEq

/-- A buffer, by its device, its block and its size. -/
structure Buf where
  dev : Int
  block : Nat
  size : Nat
  deriving DecidableEq

/-- A pointer into the bytes of a buffer. -/
structure Ptr where
  buf : Buf
  off : Nat
  deriving DecidableEq

/-- What is used of `inode_t`; `mount = 0`: nothing is mounted. -/
structure Slot where
  type : FsType
  dev : Int
  nr : Nat
  count : Nat
  mount : Int
  mode : Nat
  buf : Option Buf
  desc : Option Ptr
  super : Option SuperId
  op : Option FsType

structure Super where
  type : FsType
  dev : Int
  desc : Option Ptr
  iroot : Option Ino
  imount : Option Ino
  inodeList : List Ino

structure Task where
  iroot : Ino
  ipwd : Ino
  uid : Nat
  gid : Nat
  umask : Nat

/-- `faulty`: which reads of a device fail; `reads`: how many there were. Not of the kernel: `patience`, after how many rounds a search that
may have no end is given up; `lost`, the buffers to which the last pointer was overwritten with the reference not given back; `loose`,
whether `namei` has returned an inode without a reference. -/
structure State where
  slot : Ino → Slot
  super : SuperId → Super
  bufs : Buf → Nat
  data : Buf → Bytes
  task : Task
  faulty : Nat → Bool
  reads : Nat
  patience : Nat
  lost : List Buf
  loose : Bool

/-- A failed assertion or a panic; a `NULL` pointer that is followed; a pointer that was never set; a byte past a bitmap, or an operation
of pipes and sockets; a search that does not end. -/
inductive Stop
  | assertion
  | null
  | unset
  | outside
  | endless
  deriving DecidableEq

abbrev Prog (α : Type) : Type := StateT State (Except Stop) α

abbrev assert (p : Prop) [Decidable p] : Prog Unit := ensure .assertion p

abbrev deref {α : Type} (x : Option α) : Prog α := demand .null x

def EOF : Int := -100

def eofIndex : Nat := 2 ^ 32 - 100

/-! ## Bytes -/

namespace State

def u8 (s : State) (p : Ptr) (k : Nat) : Nat := (s.data p.buf (p.off + k)).toNat

def u16 (s : State) (p : Ptr) (k : Nat) : Nat := s.u8 p k + 256 * s.u8 p (k + 1)

def u32 (s : State) (p : Ptr) (k : Nat) : Nat := s.u16 p k + 65536 * s.u16 p (k + 2)

def chars (s : State) (p : Ptr) (k n : Nat) : List Char := (List.range n).map fun j => Char.ofNat (s.u8 p (k + j))

def setData (s : State) (b : Buf) (x : Bytes) : State := { s with data := Function.update s.data b x }

def store (s : State) (p : Ptr) (k : Nat) (l : List (BitVec 8)) : State :=
  s.setData p.buf fun j => if p.off + k ≤ j then l.getD (j - (p.off + k)) (s.data p.buf j) else s.data p.buf j

def setSlot (s : State) (i : Ino) (x : Slot) : State := { s with slot := Function.update s.slot i x }

/-! ### `minix_super_t`, `minix_inode_t`, `minix_dentry_t` -/

def desc (s : State) (p : Ptr) : Minix.Desc := ⟨s.u16 p 0, s.u16 p 2, s.u16 p 4, s.u16 p 6, s.u16 p 8⟩

def mode (s : State) (p : Ptr) : Nat := s.u16 p 0
def uid (s : State) (p : Ptr) : Nat := s.u16 p 2
def size (s : State) (p : Ptr) : Nat := s.u32 p 4
def gid (s : State) (p : Ptr) : Nat := s.u8 p 12
def nlinks (s : State) (p : Ptr) : Nat := s.u8 p 13

def entryNr (s : State) (p : Ptr) : Nat := s.u16 p 0

/-- `entry->name`: a name of 14 characters is not ended in the entry, and `match_name` looks at one more. -/
def entryName (s : State) (p : Ptr) : List Char := (s.chars p 2 15).takeWhile fun c => c ≠ '\x00'

end State

def bytes16 (v : Nat) : List (BitVec 8) := [BitVec.ofNat 8 v, BitVec.ofNat 8 (v / 256)]

def bytes32 (v : Nat) : List (BitVec 8) := bytes16 v ++ bytes16 (v / 65536)

def put (p : Ptr) (k : Nat) (l : List (BitVec 8)) : Prog Unit := modify fun s => s.store p k l

def put8 (p : Ptr) (k v : Nat) : Prog Unit := put p k [BitVec.ofNat 8 v]

def put16 (p : Ptr) (k v : Nat) : Prog Unit := put p k (bytes16 v)

def put32 (p : Ptr) (k v : Nat) : Prog Unit := put p k (bytes32 v)

def setInode (i : Ino) (f : Slot → Slot) : Prog Unit := modify fun s => s.setSlot i (f (s.slot i))

/-! ## Buffers -/

def getBuf (b : Buf) : Prog Unit := modify fun s => { s with bufs := Function.update s.bufs b (s.bufs b + 1) }

def bread (dev : Int) (block size : Nat) : Prog (Option Buf) := do
  let s ← get
  set { s with reads := s.reads + 1 }
  if s.faulty s.reads then pure none
  else do
    getBuf ⟨dev, block, size⟩
    pure (some ⟨dev, block, size⟩)

def brelse : Option Buf → Prog Unit
  | none => pure ()
  | some b => do
    let s ← get
    assert (s.bufs b ≠ 0)
    set { s with bufs := Function.update s.bufs b (s.bufs b - 1) }

def lose (b : Option Buf) : Prog Unit := modify fun s => { s with lost := b.toList ++ s.lost }

/-! ## The table of inodes -/

def getFreeInode : Prog Ino := do
  let s ← get
  let i ← demand .assertion ((List.finRange INODE_NR).find? fun i => (s.slot i).type = .none)
  assert ((s.slot i).buf = none ∧ (s.slot i).desc = none ∧ (s.slot i).super = none ∧ (s.slot i).op = none)
  pure i

def putFreeInode (i : Ino) : Prog Unit := do
  assert (i.val ≠ 0)
  let s ← get
  assert ((s.slot i).count = 0)
  setInode i fun x => { x with type := .none }
  let s ← get
  assert ((s.slot i).buf = none ∧ (s.slot i).desc = none ∧ (s.slot i).super = none ∧ (s.slot i).op = none)

def listPush (k : SuperId) (i : Ino) : Prog Unit := do
  let s ← get
  assert (i ∉ (s.super k).inodeList)
  set { s with super := fun l => { s.super l with inodeList := if l = k then i :: (s.super l).inodeList else (s.super l).inodeList } }

def listRemove (i : Ino) : Prog Unit := do
  let s ← get
  assert (∃ k, i ∈ (s.super k).inodeList)
  set { s with super := fun k => { s.super k with inodeList := (s.super k).inodeList.filter fun j => j ≠ i } }

def hold (i : Ino) : Prog Unit := setInode i fun x => { x with count := x.count + 1 }

def close (i : Ino) : Prog Unit := do
  setInode i fun x => { x with count := if x.count = 0 then 2 ^ 32 - 1 else x.count - 1 }
  let s ← get
  if (s.slot i).count ≠ 0 then pure ()
  else do
    brelse (s.slot i).buf
    listRemove i
    setInode i fun x => { x with buf := none, desc := none, super := none, op := none }
    putFreeInode i

def minixClose (i : Ino) : Prog Unit := do
  let s ← get
  assert ((s.slot i).type = .minix)
  let _ ← deref (s.slot i).buf
  close i

def iput : Option Ino → Prog Unit
  | none => pure ()
  | some i => do
    let s ← get
    let op ← deref (s.slot i).op
    match op with
    | .minix => minixClose i
    | .iso9660 => close i
    | _ => fail .outside

def State.getSuper (s : State) (dev : Int) : Option SuperId :=
  (List.finRange SUPER_NR).find? fun k => (s.super k).type ≠ .none ∧ (s.super k).dev = dev

def findInode (dev : Int) (nr : Nat) : Prog (Option Ino) := do
  let s ← get
  let k ← demand .assertion (s.getSuper dev)
  pure ((s.super k).inodeList.find? fun i => (s.slot i).nr = nr)

def fitInode (i : Ino) : Prog Ino := do
  let s ← get
  if (s.slot i).mount = 0 then pure i
  else do
    let k ← demand .assertion (s.getSuper (s.slot i).mount)
    iput (some i)
    let s ← get
    let r ← deref (s.super k).iroot
    hold r
    pure r

def before (nr : Nat) : Nat := (nr + (2 ^ 32 - 1)) % 2 ^ 32

def inodeBlock (d : Minix.Desc) (nr : Nat) : Nat := 2 + d.imapBlocks + d.zmapBlocks + before nr / BLOCK_INODES

/-- `iget`. The fields of a new inode are set at once, when its block is there. -/
def iget (dev : Int) (nr : Nat) : Prog Ino := do
  let found ← findInode dev nr
  match found with
  | some i => do
    hold i
    fitInode i
  | none => do
    let s ← get
    let k ← demand .assertion (s.getSuper dev)
    let desc ← deref (s.super k).desc
    assert (nr ≤ (s.desc desc).inodes)
    let i ← getFreeInode
    let b ← bread dev (inodeBlock (s.desc desc) nr) BLOCK_SIZE
    let b ← deref b
    let minode : Ptr := ⟨b, before nr % BLOCK_INODES * 32⟩
    let s ← get
    setInode i fun x =>
      { type := .minix, dev := dev, nr := nr, count := x.count + 1, mount := x.mount, mode := s.mode minode, buf := some b,
        desc := some minode, super := some k, op := some .minix }
    listPush k i
    fitInode i

def masked (umask : Nat) : Nat := 0o777 ^^^ (0o777 &&& umask)

def newInode (dev : Int) (nr : Nat) : Prog Ino := do
  let i ← iget dev nr
  let s ← get
  let _ ← deref (s.slot i).buf
  let minode ← deref (s.slot i).desc
  put minode 0 (List.replicate 32 0)
  put16 minode 0 (masked s.task.umask)
  setInode i fun x => { x with mode := masked s.task.umask }
  put16 minode 2 s.task.uid
  put8 minode 12 s.task.gid
  put8 minode 13 1
  pure i

end Onix.Namei
