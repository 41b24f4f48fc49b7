/-
`named` and `namei` of `fs/namei.c`, the search of an ISO 9660 directory they go through, and `sys_stat`, `sys_chdir`, `sys_mkdir` and
`sys_link` of `fs/fsyscall.c`. A path is the list of its characters up to the terminating zero, a pointer into it the part from there on.
-/
import Onix.Namei.Minix

namespace Onix.Namei

open Onix.Lib
open Walk (matchName isSeparator strrsep namelen isoMatchName)

/-! ## ISO 9660 -/

def ISO_BLOCK_SIZE : Nat := 2048

def ISO_FLAG_SUBDIR : Nat := 2

namespace State

/-! The fields of `iso_dentry_t`. -/

def isoLength (s : State) (p : Ptr) : Nat := s.u8 p 0
def isoLba (s : State) (p : Ptr) : Nat := s.u32 p 2
def isoSize (s : State) (p : Ptr) : Nat := s.u32 p 10
def isoFlags (s : State) (p : Ptr) : Nat := s.u8 p 25
def isoName (s : State) (p : Ptr) : List Char := s.chars p 33 (s.u8 p 32)

end State

def signed32 (n : Nat) : Int := if n < 2 ^ 31 then n else n - 2 ^ 32

/-- The loop of `iso_find_entry`, of `n` rounds at most. `left` goes down only where a block has no more records. -/
def isoLoop (dir : Ino) (name : List Char) : Nat → Nat → Int → Option Ptr → Prog (Option Ptr)
  | 0, _, _, _ => fail .endless
  | n + 1, lba, left, ptr =>
    if left ≤ 0 then do
      brelse (ptr.map Ptr.buf)
      pure none
    else do
      let r ← isoSeek lba ptr
      let s ← get
      if s.isoLength r.1 = 0 then isoLoop dir name n r.2 (left - ISO_BLOCK_SIZE) (some ⟨r.1.buf, ISO_BLOCK_SIZE⟩)
      else if isoMatchName name (namelen name).1 (s.isoName r.1) then pure (some r.1)
      else isoLoop dir name n r.2 left (some ⟨r.1.buf, r.1.off + s.isoLength r.1⟩)
where
  /-- The next block is read at the end of the one before it, which is given back. -/
  isoSeek (lba : Nat) (ptr : Option Ptr) : Prog (Ptr × Nat) := do
    match ptr with
    | some ptr =>
      if ptr.off < ISO_BLOCK_SIZE then pure (ptr, lba)
      else do
        brelse (some ptr.buf)
        isoTurn lba
    | none => isoTurn lba
  isoTurn (lba : Nat) : Prog (Ptr × Nat) := do
    let s ← get
    let b ← bread (s.slot dir).dev lba ISO_BLOCK_SIZE
    let b ← demand .assertion b
    pure (⟨b, 0⟩, lba + 1)

/-- `iso_find_entry`; a reference to the buffer of the record comes with it. -/
def isoFindEntry (dir : Ino) (name : List Char) : Prog (Option Ptr) := do
  let s ← get
  let desc ← deref (s.slot dir).desc
  isoLoop dir name s.patience (s.isoLba desc) (signed32 (s.isoSize desc)) none

def isoMakeMode (flags : Nat) : Nat :=
  0o555 ||| (if flags &&& ISO_FLAG_SUBDIR ≠ 0 then IFDIR else 0) ||| (if flags = 0 then IFREG else 0)

/-- `iso_make_inode`, with the descriptor and the buffer that its caller sets. -/
def isoMakeInode (super : SuperId) (entry : Ptr) : Prog Ino := do
  let i ← getFreeInode
  let s ← get
  setInode i fun x =>
    { type := .iso9660, dev := (s.super super).dev, nr := s.isoLba entry, count := x.count + 1, mount := x.mount,
      mode := isoMakeMode (s.isoFlags entry), buf := some entry.buf, desc := some entry, super := some super, op := some .iso9660 }
  listPush super i
  pure i

/-- `iso_namei`: the buffer of the record is kept by a new inode, and given back by no one when the inode is in memory. -/
def isoNamei (dir : Ino) (name : List Char) : Prog (Option (Ino × List Char)) := do
  let found ← isoFindEntry dir name
  match found with
  | none => pure none
  | some entry => do
    let s ← get
    let inode ← findInode entry.buf.dev (s.isoLba entry)
    match inode with
    | some i => do
      hold i
      let i ← fitInode i
      lose (some entry.buf)
      pure (some (i, (namelen name).2))
    | none => do
      let k ← deref (s.slot dir).super
      let i ← isoMakeInode k entry
      let i ← fitInode i
      pure (some (i, (namelen name).2))

/-! ## The operations of a directory -/

def opNamei (dir : Ino) (name : List Char) : Prog (Option (Ino × List Char)) := do
  let s ← get
  let op ← deref (s.slot dir).op
  match op with
  | .minix => minixNamei dir name
  | .iso9660 => isoNamei dir name
  | _ => fail .outside

def opMkdir (dir : Ino) (name : List Char) (mode : Nat) : Prog Int := do
  let s ← get
  let op ← deref (s.slot dir).op
  match op with
  | .minix => minixMkdir dir name mode
  | .iso9660 => pure (-ENOSYS)
  | _ => fail .outside

def opLink (odir : Ino) (oname : List Char) (ndir : Ino) (nname : List Char) : Prog Int := do
  let s ← get
  let op ← deref (s.slot ndir).op
  match op with
  | .minix => minixLink odir oname ndir nname
  | .iso9660 => pure (-ENOSYS)
  | _ => fail .outside

/-! ## `named` and `namei` -/

/-- `..` at the root of a filesystem starts where it is mounted: the directory that is searched, and what `inode` is set to. -/
def leave (dir : Ino) (name : List Char) : Prog (Ino × Option Ino) := do
  if (matchName name ['.', '.'] 3).isSome then do
    let s ← get
    let k ← deref (s.slot dir).super
    if (s.super k).iroot = some dir then do
      let inode ← deref (s.super k).imount
      hold inode
      iput (some dir)
      pure (inode, some inode)
    else pure (dir, none)
  else pure (dir, none)

/-- The loop of `named`, which ends at `right`. Only an entry without a name takes no character of the path. -/
def namedLoop (right : List Char) : Nat → Ino → List Char → Prog (Option (Ino × List Char))
  | 0, _, _ => fail .endless
  | n + 1, dir, name => do
    let r ← leave dir name
    let found ← opNamei r.1 name
    match found with
    | none => do
      iput (some r.1)
      pure none
    | some (inode, next) => do
      iput (some r.1)
      let s ← get
      if !isKind IFDIR (s.slot inode).mode then do
        iput (some inode)
        pure none
      else do
        let ok ← opPermission inode inode P_EXEC
        if !ok then do
          iput (some inode)
          pure none
        else if next.length = right.length then pure (some (inode, next))
        else namedLoop right n inode next

def Task.origin (task : Task) : List Char → Option (Ino × List Char)
  | [] => none
  | c :: l => if isSeparator c then some (task.iroot, l) else some (task.ipwd, c :: l)

def named (pathname : List Char) : Prog (Option (Ino × List Char)) := do
  let s ← get
  match s.task.origin pathname with
  | none => pure none
  | some (dir, name) => do
    assert (0 < (s.slot dir).dev)
    hold dir
    match strrsep name with
    | none => pure (some (dir, name))
    | some right => namedLoop right.tail (name.length + s.patience) dir name

/-- `namei`: when the last name is not found after `..` has led out of a filesystem, the mount point is returned all the same. -/
def namei (pathname : List Char) : Prog (Option Ino) := do
  let found ← named pathname
  match found with
  | none => pure none
  | some (dir, name) =>
    if name = [] then pure (some dir)
    else do
      let r ← leave dir name
      let found ← opNamei r.1 name
      iput (some r.1)
      match found with
      | some (inode, _) => pure (some inode)
      | none => do
        onlyIf (r.2.isSome) (modify fun s => { s with loose := true })
        pure r.2

/-! ## System calls -/

structure Stat where
  dev : Int
  nr : Nat
  mode : Nat
  nlinks : Nat
  uid : Nat
  gid : Nat
  rdev : Nat
  size : Nat

def minixStat (inode : Ino) : Prog Stat := do
  let s ← get
  let minode ← deref (s.slot inode).desc
  pure ⟨(s.slot inode).dev, (s.slot inode).nr, s.mode minode, s.nlinks minode, s.uid minode, s.gid minode, s.u16 minode 14, s.size minode⟩

def isoStat (inode : Ino) : Prog Stat := do
  let s ← get
  let entry ← deref (s.slot inode).desc
  pure ⟨(s.slot inode).dev, (s.slot inode).nr, (s.slot inode).mode, 1, s.task.uid, s.task.gid, 0, s.isoSize entry⟩

def opStat (inode : Ino) : Prog Stat := do
  let s ← get
  let op ← deref (s.slot inode).op
  match op with
  | .minix => minixStat inode
  | .iso9660 => isoStat inode
  | _ => fail .outside

def sysStat (filename : List Char) : Prog (Int × Option Stat) := do
  let inode ← namei filename
  match inode with
  | none => pure (-ENOENT, none)
  | some inode => do
    let stat ← opStat inode
    iput (some inode)
    pure (0, some stat)

/-- `sys_chdir`, without the text of the working directory: its return value, and the old and the new directory if there is a new one -/
def sysChdir (pathname : List Char) : Prog (Int × Option (Ino × Ino)) := do
  let inode ← namei pathname
  match inode with
  | none => pure (-ENOENT, none)
  | some inode => do
    let s ← get
    assert (0 < (s.slot inode).dev)
    if inode = s.task.ipwd then do
      iput (some inode)
      pure (0, none)
    else if !isKind IFDIR (s.slot inode).mode then do
      iput (some inode)
      pure (-EPERM, none)
    else do
      iput (some s.task.ipwd)
      modify fun s => { s with task := { s.task with ipwd := inode } }
      pure (0, some (s.task.ipwd, inode))

def sysMkdir (pathname : List Char) (mode : Nat) : Prog Int := do
  let found ← named pathname
  match found with
  | none => pure (-ENOENT)
  | some (dir, name) => do
    let ret ← mkdirIn dir name
    iput (some dir)
    pure ret
where
  mkdirIn (dir : Ino) (name : List Char) : Prog Int := do
    if name = [] then pure (-ENOENT)
    else do
      let ok ← opPermission dir dir P_WRITE
      if !ok then pure (-EPERM) else opMkdir dir name mode

/-- `sys_link`: without the first directory the second is given back, a pointer that was never set. -/
def sysLink (oldname newname : List Char) : Prog Int := do
  let odir ← named oldname
  match odir with
  | none => fail .unset
  | some (odir, oname) => do
    let ndir ← named newname
    match ndir with
    | none => do
      iput (some odir)
      pure (-ENOENT)
    | some (ndir, nname) => do
      let ret ← opLink odir oname ndir nname
      iput (some odir)
      iput (some ndir)
      pure ret

/-! ## The calls -/

inductive Call
  | named (pathname : List Char)
  | namei (pathname : List Char)
  | minixOpen (dir : Ino) (name : List Char) (flags mode : Nat)
  | minixMkdir (dir : Ino) (name : List Char) (mode : Nat)
  | minixRmdir (dir : Ino) (name : List Char)
  | minixLink (odir : Ino) (oldname : List Char) (ndir : Ino) (newname : List Char)
  | minixUnlink (dir : Ino) (name : List Char)
  | minixMknod (dir : Ino) (name : List Char) (mode : Nat) (dev : Int)
  | sysStat (filename : List Char)
  | sysChdir (pathname : List Char)
  | sysMkdir (pathname : List Char) (mode : Nat)
  | sysLink (oldname newname : List Char)

/-- What a call ends with: its code, the inode it returns or keeps, and the one that a new working directory takes the place of. -/
structure Outcome where
  ret : Int
  kept : Option Ino
  given : Option Ino

def Outcome.ofPtr (inode : Option Ino) : Outcome := ⟨if inode.isSome then 0 else -ENOENT, inode, none⟩

def Outcome.ofRet (ret : Int) : Outcome := ⟨ret, none, none⟩

def Call.run : Call → Prog Outcome
  | .named path => do
    let r ← Namei.named path
    pure (Outcome.ofPtr (r.map Prod.fst))
  | .namei path => do
    let r ← Namei.namei path
    pure (Outcome.ofPtr r)
  | .minixOpen dir name flags mode => do
    let r ← Namei.minixOpen dir name flags mode
    pure ⟨r.1, r.2, none⟩
  | .minixMkdir dir name mode => do
    let ret ← Namei.minixMkdir dir name mode
    pure (Outcome.ofRet ret)
  | .minixRmdir dir name => do
    let ret ← Namei.minixRmdir dir name
    pure (Outcome.ofRet ret)
  | .minixLink odir oldname ndir newname => do
    let ret ← Namei.minixLink odir oldname ndir newname
    pure (Outcome.ofRet ret)
  | .minixUnlink dir name => do
    let ret ← Namei.minixUnlink dir name
    pure (Outcome.ofRet ret)
  | .minixMknod dir name mode dev => do
    let ret ← Namei.minixMknod dir name mode dev
    pure (Outcome.ofRet ret)
  | .sysStat path => do
    let r ← Namei.sysStat path
    pure (Outcome.ofRet r.1)
  | .sysChdir path => do
    let r ← Namei.sysChdir path
    pure ⟨r.1, r.2.map Prod.snd, r.2.map Prod.fst⟩
  | .sysMkdir path mode => do
    let ret ← Namei.sysMkdir path mode
    pure (Outcome.ofRet ret)
  | .sysLink oldname newname => do
    let ret ← Namei.sysLink oldname newname
    pure (Outcome.ofRet ret)

end Onix.Namei
