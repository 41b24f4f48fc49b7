/-
Superblocks, the inodes they are mounted on and the buffers both hold: `fs/super.c`, `sys_mount`, `sys_umount` and `sys_mkfs` of
`fs/fsyscall.c`, `minix_super`, `minix_mkfs`, `iget` and `minix_close` of `fs/minix/minix.c`, `iso_super` and `iso_close` of
`fs/iso9660/iso9660.c`.

A call runs to its end before the next one starts. What `namei` finds is given with the call: it ends with a reference to what it returns,
and with the buffers that `iso_namei` does not release for an inode that is in memory. Pipes and sockets have no superblocks. Every buffer
with a reference keeps its block, and a buffer a superblock still points to is not taken for another block. What `minix_mkfs` writes through
buffers that it releases at once is not followed.
-/
import Onix.Lib.First
import Onix.Lib.Tally
import Onix.Minix.Bitmaps

namespace Onix.Mount

open Onix.Lib

def INODE_NR : Nat := 64
def SUPER_NR : Nat := 16

inductive FsType
  | none
  | minix
  | iso9660
  deriving DecidableEq

/-- What is asked of a mode: `ISBLK`, `ISDIR`. -/
inductive Kind
  | block
  | dir
  | other
  deriving DecidableEq

/-- A buffer, by its size, its device and its block. -/
structure Buf where
  size : Nat
  dev : Nat
  block : Nat
  deriving DecidableEq

def minixBlock (dev : Nat) : Buf := ⟨1024, dev, 1⟩

def isoBlock (dev : Nat) : Buf := ⟨2048, dev, 0x10⟩

/-- What is used of `inode_t`; `desc` is set and cleared with `buf`. -/
structure Inode where
  type : FsType
  dev : Nat
  rdev : Nat
  nr : Nat
  count : Nat
  mount : Nat
  kind : Kind
  buf : Option Buf
  super : Option Nat
  op : Option FsType

/-- `super_t`; its list of inodes are those whose `super` it is, and of `desc` stands what `iget` reads. -/
structure Super where
  type : FsType
  dev : Nat
  count : Nat
  iroot : Option Nat
  imount : Option Nat
  buf : Option Buf
  desc : Minix.Desc

/-- What a device holds; of a filesystem, what its root is made from. -/
inductive Content
  | unreadable
  | unknown
  | minix (desc : Minix.Desc) (zone : Nat)
  | iso9660 (lba : Nat)

/-- `blocks`: the size of a device. `held` and `heldBufs`: how many other holders an inode and a buffer have. -/
structure State where
  inodes : Nat → Inode
  supers : Nat → Super
  bufs : Buf → Nat
  disk : Nat → Content
  blocks : Nat → Nat
  held : Nat → Nat
  heldBufs : Buf → Nat

inductive Stop
  | assertion
  | null
  | panic
  deriving DecidableEq

def assert (p : Prop) [Decidable p] : Except Stop Unit := if p then .ok () else .error .assertion

def ENOENT : Int := 2
def EPERM : Int := 1
def ENOTBLK : Int := 15
def EBUSY : Int := 16
def ENOTDIR : Int := 20
def ENOSYS : Int := 38
def EFSUNK : Int := 63

def State.setInode (s : State) (i : Nat) (x : Inode) : State := { s with inodes := Function.update s.inodes i x }

def State.setSuper (s : State) (k : Nat) (x : Super) : State := { s with supers := Function.update s.supers k x }

/-! ## Buffers -/

def State.getBuf (s : State) (b : Buf) : State := { s with bufs := Function.update s.bufs b (s.bufs b + 1) }

def bread (s : State) (b : Buf) : Option State :=
  match s.disk b.dev with
  | .unreadable => none
  | _ => some (s.getBuf b)

def brelse (s : State) : Option Buf → Except Stop State
  | none => .ok s
  | some b => do
    assert (s.bufs b ≠ 0)
    .ok { s with bufs := Function.update s.bufs b (s.bufs b - 1) }

/-! ## Inodes -/

def getFreeInode (s : State) : Except Stop Nat :=
  match findFrom (fun i => (s.inodes i).type = .none) INODE_NR 0 with
  | none => .error .panic
  | some i => do
    assert ((s.inodes i).buf = none ∧ (s.inodes i).super = none ∧ (s.inodes i).op = none)
    .ok i

def putFreeInode (s : State) (i : Nat) : Except Stop State := do
  assert (i ≠ 0)
  assert ((s.inodes i).count = 0)
  let s := s.setInode i { s.inodes i with type := .none }
  assert ((s.inodes i).buf = none ∧ (s.inodes i).super = none ∧ (s.inodes i).op = none)
  .ok s

def dec (n : Nat) : Nat := if n = 0 then 2 ^ 32 - 1 else n - 1

/-- `iso_close`, and what `minix_close` does after it has written the buffer. -/
def close (s : State) (i : Nat) : Except Stop State := do
  let s := s.setInode i { s.inodes i with count := dec (s.inodes i).count }
  if (s.inodes i).count ≠ 0 then .ok s
  else do
    let s ← brelse s (s.inodes i).buf
    let s := s.setInode i { s.inodes i with buf := none, super := none, op := none }
    putFreeInode s i

def minixClose (s : State) (i : Nat) : Except Stop State := do
  assert ((s.inodes i).type = .minix)
  if (s.inodes i).buf = none then .error .null else close s i

def iput (s : State) : Option Nat → Except Stop State
  | none => .ok s
  | some i =>
    match (s.inodes i).op with
    | some .minix => minixClose s i
    | some .iso9660 => close s i
    | _ => .error .null

def State.hold (s : State) (i : Nat) : State := s.setInode i { s.inodes i with count := (s.inodes i).count + 1 }

/-! ## Superblocks -/

def getFreeSuper (s : State) : Except Stop Nat :=
  match findFrom (fun k => (s.supers k).type = .none) SUPER_NR 0 with
  | none => .error .panic
  | some k => do
    assert ((s.supers k).count = 0)
    .ok k

def getSuper (s : State) (dev : Nat) : Option Nat :=
  findFrom (fun k => (s.supers k).type ≠ .none ∧ (s.supers k).dev = dev) SUPER_NR 0

def putSuper (s : State) : Option Nat → Except Stop State
  | none => .ok s
  | some k => do
    assert (0 < (s.supers k).count)
    let s := s.setSuper k { s.supers k with count := (s.supers k).count - 1 }
    if (s.supers k).count ≠ 0 then .ok s
    else do
      let s := s.setSuper k { s.supers k with type := .none }
      let s ← iput s (s.supers k).imount
      let s ← iput s (s.supers k).iroot
      brelse s (s.supers k).buf

def findInode (s : State) (dev nr : Nat) : Except Stop (Option Nat) :=
  match getSuper s dev with
  | none => .error .assertion
  | some k => .ok (findFrom (fun i => (s.inodes i).super = some k ∧ (s.inodes i).nr = nr) INODE_NR 0)

def fitInode (s : State) (i : Nat) : Except Stop (Nat × State) :=
  if (s.inodes i).mount = 0 then .ok (i, s)
  else
    match getSuper s (s.inodes i).mount with
    | none => .error .assertion
    | some k => do
      let s ← iput s (some i)
      match (s.supers k).iroot with
      | none => .error .null
      | some r => .ok (r, s.hold r)

def Content.zone : Content → Nat
  | .minix _ zone => zone
  | _ => 0

/-- `iget(dev, 1)` of an inode that is not in memory; `k` is the superblock of `dev`. -/
def readRoot (s : State) (dev k : Nat) : Except Stop (Nat × State) := do
  assert (1 ≤ (s.supers k).desc.inodes)
  let i ← getFreeInode s
  let b : Buf := ⟨1024, dev, 2 + (s.supers k).desc.imapBlocks + (s.supers k).desc.zmapBlocks⟩
  match bread s b with
  | none => .error .null
  | some s =>
    fitInode (s.setInode i ⟨.minix, dev, (s.disk dev).zone, 1, (s.inodes i).count + 1, (s.inodes i).mount, .dir, some b, some k,
      some .minix⟩) i

def iget (s : State) (dev : Nat) : Except Stop (Nat × State) := do
  match ← findInode s dev 1 with
  | some i => fitInode (s.hold i) i
  | none =>
    match getSuper s dev with
    | none => .error .assertion
    | some k => readRoot s dev k

def minixSuper (s : State) (dev k : Nat) : Except Stop (Bool × State) :=
  match bread s (minixBlock dev) with
  | none => .ok (false, s)
  | some s =>
    match s.disk dev with
    | .minix desc _ => do
      let s := s.setSuper k { s.supers k with buf := some (minixBlock dev), desc := desc, dev := dev, type := .minix }
      let (i, s) ← iget s dev
      .ok (true, s.setSuper k { s.supers k with iroot := some i })
    | _ => do
      let s ← brelse s (some (minixBlock dev))
      .ok (false, s)

def volumeDesc : Minix.Desc := ⟨0x4301, 0x3044, 0x3130, 1, 0⟩

def isoSuper (s : State) (dev k : Nat) : Except Stop (Bool × State) :=
  match bread s (isoBlock dev) with
  | none => .ok (false, s)
  | some s =>
    match s.disk dev with
    | .iso9660 lba => do
      let s := s.setSuper k { s.supers k with desc := volumeDesc, buf := some (isoBlock dev), type := .iso9660, dev := dev }
      let i ← getFreeInode s
      let x : Inode := ⟨.iso9660, dev, (s.inodes i).rdev, lba, (s.inodes i).count + 1, (s.inodes i).mount, .dir, some (isoBlock dev), some k,
        some .iso9660⟩
      let s := (s.getBuf (isoBlock dev)).setInode i x
      .ok (true, s.setSuper k { s.supers k with iroot := some i })
    | _ => do
      let s ← brelse s (some (isoBlock dev))
      .ok (false, s)

def readSuper (s : State) (dev : Nat) : Except Stop (Option Nat × State) :=
  match getSuper s dev with
  | some k => .ok (some k, s.setSuper k { s.supers k with count := (s.supers k).count + 1 })
  | none => do
    let k ← getFreeSuper s
    let s := s.setSuper k { s.supers k with count := (s.supers k).count + 1 }
    let (ok, s) ← minixSuper s dev k
    if ok then .ok (some k, s)
    else do
      let (ok, s) ← isoSuper s dev k
      if ok then .ok (some k, s)
      else do
        let s ← putSuper s (some k)
        .ok (none, s)

/-! ## The calls -/

/-- What a path led to: an inode in memory, or one that is read into a free slot. -/
structure Found where
  slot : Nat
  fresh : Option Inode

def Found.take (x : Found) (s : State) : State :=
  match x.fresh with
  | none => s.hold x.slot
  | some inode =>
    match inode.buf with
    | none => s.setInode x.slot inode
    | some b => (s.getBuf b).setInode x.slot inode

/-- A path, with the buffers it leaves unreleased. -/
structure Path where
  found : Option Found
  leaks : List Buf

def State.leak (s : State) (bs : List Buf) : State :=
  { s with bufs := fun b => s.bufs b + bs.count b, heldBufs := fun b => s.heldBufs b + bs.count b }

def Path.walk (p : Path) (s : State) : State :=
  match p.found with
  | none => s.leak p.leaks
  | some x => x.take (s.leak p.leaks)

def rollback (s : State) (super dev dir : Option Nat) (ret : Int) : Except Stop (Int × State) := do
  let s ← putSuper s super
  let s ← iput s dev
  let s ← iput s dir
  .ok (ret, s)

def sysMount (s : State) (dev dir : Path) : Except Stop (Int × State) :=
  let s := dev.walk s
  match dev.found with
  | none => rollback s none none none (-ENOENT)
  | some x =>
    if (s.inodes x.slot).kind ≠ .block then rollback s none (some x.slot) none (-EPERM)
    else if (s.inodes x.slot).rdev = 0 then rollback s none (some x.slot) none (-ENOSYS)
    else
      let s := dir.walk s
      match dir.found with
      | none => rollback s none (some x.slot) none (-ENOENT)
      | some y =>
        if (s.inodes y.slot).kind ≠ .dir then rollback s none (some x.slot) (some y.slot) (-EPERM)
        else if (s.inodes y.slot).count ≠ 1 ∨ (s.inodes y.slot).mount ≠ 0 then rollback s none (some x.slot) (some y.slot) (-EBUSY)
        else do
          match ← readSuper s (s.inodes x.slot).rdev with
          | (none, s) => rollback s none (some x.slot) (some y.slot) (-EFSUNK)
          | (some k, s) =>
            if (s.supers k).imount ≠ none then rollback s (some k) (some x.slot) (some y.slot) (-EBUSY)
            else do
              let s := s.setSuper k { s.supers k with imount := some y.slot }
              let s := s.setInode y.slot { s.inodes y.slot with mount := (s.inodes x.slot).rdev }
              let s ← iput s (some x.slot)
              .ok (0, s)

def isRoot (s : State) (i : Nat) : Except Stop Bool :=
  match (s.inodes i).super with
  | none => .error .null
  | some k => .ok ((s.supers k).iroot = some i)

def listSize (s : State) (k : Nat) : Nat := (List.range INODE_NR).countP fun i => (s.inodes i).super = some k

/-- Whether something of the filesystem is still in use; `i` is the inode of the path, `r` the root. -/
def busy (s : State) (k r i : Nat) : Except Stop Bool :=
  if 2 < (s.inodes r).count then .ok true
  else do
    let root ← if (s.inodes r).count = 2 then isRoot s i else .ok true
    .ok (!root || 1 < listSize s k)

def leave (s : State) (inode super : Option Nat) (ret : Int) : Except Stop (Int × State) := do
  let s ← iput s inode
  let s ← putSuper s super
  .ok (ret, s)

def detach (s : State) (k r m i : Nat) : Except Stop (Int × State) := do
  let s ← iput s (some r)
  let s := s.setSuper k { s.supers k with iroot := none }
  let s := s.setInode m { s.inodes m with mount := 0 }
  let s ← iput s (some m)
  let s := s.setSuper k { s.supers k with imount := none, count := (s.supers k).count - 1 }
  assert ((s.supers k).count = 1)
  leave s (some i) (some k) 0

/-- The device that `sys_umount` is about: a block file's, or that of the filesystem of a root. -/
def umountDev (s : State) (i : Nat) : Nat := if (s.inodes i).kind = .block then (s.inodes i).rdev else (s.inodes i).dev

def mayUmount (s : State) (i : Nat) : Except Stop Bool := if (s.inodes i).kind = .block then .ok true else isRoot s i

def sysUmount (s : State) (target : Path) : Except Stop (Int × State) :=
  let s := target.walk s
  match target.found with
  | none => leave s none none (-ENOENT)
  | some x => do
    if (← mayUmount s x.slot) = false then leave s (some x.slot) none (-ENOTBLK)
    else if x.slot = 0 then leave s (some x.slot) none (-EBUSY)
    else do
      match ← readSuper s (umountDev s x.slot) with
      | (none, _) => .error .assertion
      | (some k, s) =>
        match (s.supers k).imount with
        | none => leave s (some x.slot) (some k) (-ENOENT)
        | some m =>
          match (s.supers k).iroot with
          | none => .error .null
          | some r => do
            if ← busy s k r x.slot then leave s (some x.slot) (some k) (-EBUSY) else detach s k r m x.slot

/-- `minix_mkfs`; `new_inode` leaves the inode in memory without a type. -/
def minixMkfs (s : State) (dev icount : Nat) : Except Stop (Int × State) := do
  let total := s.blocks dev
  assert (total ≠ 0)
  assert (icount < total)
  let desc := Minix.geometry total (if icount = 0 then total / 3 else icount)
  let k ← getFreeSuper s
  let s := s.setSuper k { s.supers k with type := .minix, dev := dev, count := (s.supers k).count + 1 }
  match bread s (minixBlock dev) with
  | none => .error .null
  | some s => do
    let s := s.setSuper k { s.supers k with buf := some (minixBlock dev), desc := desc }
    let s := { s with disk := Function.update s.disk dev (.minix desc desc.firstdatazone) }
    let (i, s) ← iget s dev
    let s := s.setInode i { s.inodes i with kind := .other }
    let s := s.setSuper k { s.supers k with iroot := some i }
    let s ← putSuper s (some k)
    .ok (0, s)

def sysMkfs (s : State) (dev : Path) (args : Nat) : Except Stop (Int × State) :=
  let s := dev.walk s
  match dev.found with
  | none => do
    let s ← iput s none
    .ok (-ENOENT, s)
  | some x =>
    if (s.inodes x.slot).kind ≠ .block then do
      let s ← iput s (some x.slot)
      .ok (-ENOTDIR, s)
    else do
      assert ((s.inodes x.slot).rdev ≠ 0)
      let (ret, s) ← match (s.inodes x.slot).op with
        | some .minix => minixMkfs s (s.inodes x.slot).rdev args
        | some .iso9660 => .ok (-ENOSYS, s)
        | _ => .error .null
      let s ← iput s (some x.slot)
      .ok (ret, s)

/-! ## Runs -/

/-- What other calls do is that an inode is opened and kept, that it is given back, and that a device gets another content. -/
inductive Act
  | mkfs (dev : Path) (args : Nat)
  | mount (dev dir : Path)
  | umount (target : Path)
  | open (path : Path)
  | close (i : Nat)
  | write (dev : Nat) (content : Content)

def call (s : State) : Act → Except Stop (Int × State)
  | .mkfs dev args => sysMkfs s dev args
  | .mount dev dir => sysMount s dev dir
  | .umount target => sysUmount s target
  | .open path =>
    let s := path.walk s
    match path.found with
    | none => .ok (-ENOENT, s)
    | some x => .ok (0, { s with held := Function.update s.held x.slot (s.held x.slot + 1) })
  | .close i => do
    let s ← iput { s with held := Function.update s.held i (s.held i - 1) } (some i)
    .ok (0, s)
  | .write dev content => .ok (0, { s with disk := Function.update s.disk dev content })

def step (s : State) (a : Act) : Except Stop State := do
  let (_, s) ← call s a
  .ok s

/-- What a path may lead to: an inode that is in memory, or one of a mounted filesystem that is not, read into the first free slot. -/
def Found.Ok (x : Found) (s : State) : Prop :=
  x.slot < INODE_NR ∧
    match x.fresh with
    | none => (s.inodes x.slot).type ≠ .none
    | some y => findFrom (fun i => (s.inodes i).type = .none) INODE_NR 0 = some x.slot ∧ y.type ≠ .none ∧ y.op = some y.type ∧
        y.count = 1 ∧ y.mount = 0 ∧ y.buf ≠ none ∧
        match y.super with
        | none => False
        | some k => k < SUPER_NR ∧ (s.supers k).type ≠ .none ∧ y.dev = (s.supers k).dev ∧
            ∀ i < INODE_NR, (s.inodes i).super = some k → (s.inodes i).nr ≠ y.nr

def Path.Ok (p : Path) (s : State) : Prop :=
  match p.found with
  | none => True
  | some x => x.Ok s

def reads (s : State) : Act → Option Nat
  | .mount dev dir =>
    let s := dev.walk s
    match dev.found with
    | none => none
    | some x =>
      if (s.inodes x.slot).kind ≠ .block ∨ (s.inodes x.slot).rdev = 0 then none
      else
        let s := dir.walk s
        match dir.found with
        | none => none
        | some y =>
          if (s.inodes y.slot).kind ≠ .dir ∨ (s.inodes y.slot).count ≠ 1 ∨ (s.inodes y.slot).mount ≠ 0 then none
          else some (s.inodes x.slot).rdev
  | .umount target =>
    let s := target.walk s
    match target.found with
    | none => none
    | some x =>
      if mayUmount s x.slot ≠ .ok true then none
      else if x.slot = 0 then none
      else some (umountDev s x.slot)
  | _ => none

def Content.Valid : Content → Prop
  | .minix desc _ => 1 ≤ desc.inodes
  | _ => True

/-- Paths lead where they may, what is read is valid or not recognised, and only what is held is given back. -/
def enabled (s : State) (a : Act) : Prop :=
  (∀ dev ∈ reads s a, (s.disk dev).Valid) ∧
    match a with
    | .mkfs dev _ => dev.Ok s
    | .mount dev dir => dev.Ok s ∧ dir.Ok (dev.walk s)
    | .umount target => target.Ok s
    | .open path => path.Ok s
    | .close i => i < INODE_NR ∧ 0 < s.held i
    | .write _ _ => True

end Onix.Mount
