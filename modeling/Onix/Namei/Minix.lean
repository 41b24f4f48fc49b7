/-
The operations of `fs/minix/minix.c` on directories, with the functions they call: the bitmaps, `minix_bmap`, `minix_truncate`,
`find_entry` and `add_entry`. Where a function ends at a label that gives back what it has, what comes before is a definition of its own.
-/
import Onix.Namei.Model

namespace Onix.Namei

open Onix.Lib
open Walk (matchName isSeparator MINIX1_NAME_LEN)

def EPERM : Int := 1
def ENOENT : Int := 2
def EACCES : Int := 13
def EEXIST : Int := 17
def EXDEV : Int := 18
def ENOTDIR : Int := 20
def ENOSYS : Int := 38
def ENOTEMPTY : Int := 39

def BLOCK_DENTRIES : Nat := 64
def BLOCK_INDEXES : Nat := 512
def DIRECT_BLOCK : Nat := 7
def INDIRECT1_BLOCK : Nat := BLOCK_INDEXES
def INDIRECT2_BLOCK : Nat := INDIRECT1_BLOCK * INDIRECT1_BLOCK
def TOTAL_BLOCK : Nat := DIRECT_BLOCK + INDIRECT1_BLOCK + INDIRECT2_BLOCK

def O_RDONLY : Nat := 0
def O_RDWR : Nat := 2
def O_ACCMODE : Nat := 3
def O_CREAT : Nat := 0o100
def O_TRUNC : Nat := 0o1000

def IFMT : Nat := 0o170000
def IFREG : Nat := 0o100000
def IFBLK : Nat := 0o60000
def IFDIR : Nat := 0o40000
def IFCHR : Nat := 0o20000
def IFSOCK : Nat := 0o140000
def ISVTX : Nat := 0o1000

def P_EXEC : Nat := 1
def P_WRITE : Nat := 2

def isKind (kind mode : Nat) : Bool := mode &&& IFMT = kind

def accMode (flags : Nat) : Nat :=
  match flags &&& O_ACCMODE with
  | 0 => 4
  | 1 => 2
  | 2 => 6
  | _ => 2 ^ 32 - 1

/-! ## Bitmaps -/

def ofBitmap {α : Type} : Except BitmapFault α → Prog α
  | .ok a => pure a
  | .error .assert => fail .assertion
  | .error .outside => fail .outside

def State.disk (s : State) (dev : Int) : Minix.Disk := fun n => s.data ⟨dev, n, BLOCK_SIZE⟩

/-- The loop of `minix_balloc` and `minix_ialloc`, with `n` blocks to go: the number, and the buffer of the last block. A buffer that is not
the last one is not given back. -/
def allocLoop (dev : Int) (a : Minix.Area) : Nat → Nat → Option Buf → Prog (Option Nat × Option Buf)
  | 0, _, buf => pure (none, buf)
  | n + 1, i, old => do
    lose old
    let b ← bread dev (a.base + i) BLOCK_SIZE
    let b ← demand .assertion b
    let s ← get
    let r ← ofBitmap ((a.map (s.disk dev) i).scan 1)
    match r.1 with
    | none => allocLoop dev a n (i + 1) (some b)
    | some bit => do
      assert (bit < a.limit)
      set (s.setData b r.2.bits)
      pure (some bit, some b)

/-- The loop of `minix_bfree` and `minix_ifree`. When no block is taken, `brelse` gets a pointer that was never set. -/
def freeLoop (dev : Int) (a : Minix.Area) (idx : Nat) : Nat → Nat → Prog Buf
  | 0, _ => fail .unset
  | n + 1, i =>
    if idx > Minix.blockBits * (i + 1) then freeLoop dev a idx n (i + 1)
    else do
      let b ← bread dev (a.base + i) BLOCK_SIZE
      let b ← demand .assertion b
      let s ← get
      let taken ← ofBitmap ((a.map (s.disk dev) i).test idx)
      assert (taken = true)
      let map ← ofBitmap ((a.map (s.disk dev) i).set idx false)
      set (s.setData b map.bits)
      pure b

def alloc (super : Option SuperId) (area : Minix.Desc → Minix.Area) : Prog Nat := do
  let s ← get
  let k ← deref super
  let desc ← deref (s.super k).desc
  let a := area (s.desc desc)
  let r ← allocLoop (s.super k).dev a a.blocks 0 none
  brelse r.2
  pure (r.1.getD eofIndex)

def free (super : Option SuperId) (area : Minix.Desc → Minix.Area) (idx : Nat) : Prog Unit := do
  let s ← get
  let k ← deref super
  let desc ← deref (s.super k).desc
  let a := area (s.desc desc)
  assert (idx < a.limit)
  let b ← freeLoop (s.super k).dev a idx a.blocks 0
  brelse (some b)

def minixBalloc (super : Option SuperId) : Prog Nat := alloc super Minix.Desc.zmap

def minixBfree (super : Option SuperId) (idx : Nat) : Prog Unit := free super Minix.Desc.zmap idx

def minixIalloc (super : Option SuperId) : Prog Nat := alloc super Minix.Desc.imap

def minixIfree (super : Option SuperId) (idx : Nat) : Prog Unit := free super Minix.Desc.imap idx

/-! ## The blocks of a file -/

/-- The start of a round of `reckon`: an entry of the array is given a block if there is none and one is asked for. -/
def fillIndex (inode : Ino) (create : Bool) (array : Ptr) (index : Nat) : Prog Unit := do
  let s ← get
  onlyIf (s.u16 array (2 * index) = 0 ∧ create) do
    let nr ← minixBalloc (s.slot inode).super
    put16 array (2 * index) nr

def reckon (inode : Ino) (create : Bool) : Nat → Nat → Nat → Ptr → Nat → Buf → Prog Nat
  | 0, _, _, array, index, buf => do
    fillIndex inode create array index
    brelse (some buf)
    let s ← get
    pure (s.u16 array (2 * index))
  | level + 1, block, divider, array, index, buf => do
    fillIndex inode create array index
    brelse (some buf)
    let s ← get
    if s.u16 array (2 * index) = 0 then pure 0
    else do
      let b ← bread (s.slot inode).dev (s.u16 array (2 * index)) BLOCK_SIZE
      let b ← deref b
      reckon inode create level (block % divider) (divider / BLOCK_INDEXES) ⟨b, 0⟩ (block / divider) b

def minixBmap (inode : Ino) (block : Nat) (create : Bool) : Prog Nat := do
  assert (block < TOTAL_BLOCK)
  let s ← get
  let minode ← deref (s.slot inode).desc
  let array : Ptr := ⟨minode.buf, minode.off + 14⟩
  let buf ← deref (s.slot inode).buf
  getBuf buf
  if block < DIRECT_BLOCK then reckon inode create 0 block 1 array block buf
  else do
    let block := block - DIRECT_BLOCK
    if block < INDIRECT1_BLOCK then reckon inode create 1 block 1 array DIRECT_BLOCK buf
    else do
      let block := block - INDIRECT1_BLOCK
      assert (block < INDIRECT2_BLOCK)
      reckon inode create 2 block BLOCK_INDEXES array (DIRECT_BLOCK + 1) buf

def inodeBfree (inode : Ino) : Nat → Ptr → Prog Unit
  | 0, p => do
    let s ← get
    if s.u16 p 0 = 0 then pure () else minixBfree (s.slot inode).super (s.u16 p 0)
  | level + 1, p => do
    let s ← get
    if s.u16 p 0 = 0 then pure ()
    else do
      let b ← bread (s.slot inode).dev (s.u16 p 0) BLOCK_SIZE
      let b ← deref b
      repeatUpto (fun i => inodeBfree inode level ⟨b, 2 * i⟩) BLOCK_INDEXES
      brelse (some b)
      let s ← get
      minixBfree (s.slot inode).super (s.u16 p 0)

def dropZone (inode : Ino) (minode : Ptr) (index level : Nat) : Prog Unit := do
  inodeBfree inode level ⟨minode.buf, minode.off + 14 + 2 * index⟩
  put16 minode (14 + 2 * index) 0

def minixTruncate (inode : Ino) : Prog Int := do
  let s ← get
  let minode ← deref (s.slot inode).desc
  if !isKind IFREG (s.mode minode) ∧ !isKind IFDIR (s.mode minode) then pure (-EPERM)
  else do
    repeatUpto (fun i => dropZone inode minode i 0) DIRECT_BLOCK
    dropZone inode minode DIRECT_BLOCK 1
    dropZone inode minode (DIRECT_BLOCK + 1) 2
    put32 minode 4 0
    let s ← get
    let _ ← deref (s.slot inode).buf
    pure 0

/-! ## Permissions -/

def minixPermission (inode : Ino) (mask : Nat) : Prog Bool := do
  let s ← get
  let minode ← deref (s.slot inode).desc
  if s.nlinks minode = 0 then pure false
  else if s.task.uid = 0 then pure true
  else
    let mode :=
      if s.task.uid = s.uid minode then s.mode minode >>> 6
      else if s.task.gid = s.gid minode then s.mode minode >>> 3
      else s.mode minode
    pure (mode &&& mask &&& 7 = mask)

def isoPermission (mask : Nat) : Bool := 5 &&& mask &&& 7 = mask

def opPermission (dir inode : Ino) (mask : Nat) : Prog Bool := do
  let s ← get
  let op ← deref (s.slot dir).op
  match op with
  | .minix => minixPermission inode mask
  | .iso9660 => pure (isoPermission mask)
  | _ => fail .outside

/-! ## Directory entries -/

/-- The block of entry `i` is read where it begins, and the one before it given back. -/
def seek (dir : Ino) (create : Bool) (i : Nat) (entry : Option Ptr) : Prog Ptr := do
  match entry with
  | some entry =>
    if entry.off < BLOCK_SIZE then pure entry
    else do
      brelse (some entry.buf)
      turn
  | none => turn
where
  turn : Prog Ptr := do
    let block ← minixBmap dir (i / BLOCK_DENTRIES) create
    assert (block ≠ 0)
    let s ← get
    let b ← bread (s.slot dir).dev block BLOCK_SIZE
    let b ← deref b
    pure ⟨b, 0⟩

def Ptr.next (p : Ptr) : Ptr := ⟨p.buf, p.off + 16⟩

/-- An entry that was found, and what follows its name in the path. -/
structure Found where
  entry : Ptr
  next : List Char

def findLoop (dir : Ino) (name : List Char) : Nat → Nat → Option Ptr → Prog (Option Found)
  | 0, _, entry => do
    brelse (entry.map Ptr.buf)
    pure none
  | n + 1, i, entry => do
    let entry ← seek dir false i entry
    let s ← get
    match (matchName name (s.entryName entry) MINIX1_NAME_LEN).filter fun _ => s.entryNr entry ≠ 0 with
    | some next => pure (some ⟨entry, next⟩)
    | none => findLoop dir name n (i + 1) (some entry.next)

/-- `find_entry`; a reference to the buffer of the entry comes with it. -/
def findEntry (dir : Ino) (name : List Char) : Prog (Option Found) := do
  let s ← get
  let minode ← deref (s.slot dir).desc
  assert (isKind IFDIR (s.mode minode))
  findLoop dir name (s.size minode / 16) 0 none

def nameBytes (name : List Char) : List (BitVec 8) := ((name.take 13).map fun c => BitVec.ofNat 8 c.toNat) ++ [0]

/-- The loop of `add_entry`; `minix_bmap` lets it look at `n` more entries at most. -/
def addLoop (dir : Ino) (minode : Ptr) (name : List Char) : Nat → Nat → Option Ptr → Prog Ptr
  | 0, _, _ => fail .assertion
  | n + 1, i, entry => do
    let entry ← seek dir true i entry
    let s ← get
    onlyIf (s.size minode ≤ i * 16) do
      put16 entry 0 0
      put32 minode 4 ((i + 1) * 16)
      let _ ← deref (s.slot dir).buf
    let s ← get
    if s.entryNr entry ≠ 0 then addLoop dir minode name n (i + 1) (some entry.next)
    else do
      put entry 2 (nameBytes name)
      let _ ← deref (s.slot dir).buf
      pure entry

def addEntry (dir : Ino) (name : List Char) : Prog Ptr := do
  let found ← findEntry dir name
  match found with
  | some found => pure found.entry
  | none => do
    assert (∀ c ∈ name.take MINIX1_NAME_LEN, isSeparator c = false)
    let s ← get
    let minode ← deref (s.slot dir).desc
    addLoop dir minode name (TOTAL_BLOCK * BLOCK_DENTRIES + 1) 0 none

/-- The loop of `is_empty`: how many entries are used, with `n` to go. -/
def countLoop (inode : Ino) : Nat → Nat → Option Ptr → Nat → Prog Nat
  | 0, _, entry, count => do
    brelse (entry.map Ptr.buf)
    pure count
  | n + 1, i, entry, count => do
    let entry ← seek inode false i entry
    let s ← get
    countLoop inode n (i + 1) (some entry.next) (if s.entryNr entry ≠ 0 then count + 1 else count)

def isEmpty (inode : Ino) : Prog Bool := do
  let s ← get
  let minode ← deref (s.slot inode).desc
  assert (isKind IFDIR (s.mode minode))
  if s.size minode / 16 < 2 ∨ s.u16 minode 14 = 0 then pure false
  else do
    let count ← countLoop inode (s.size minode / 16) 0 none 0
    pure (count = 2)

/-! ## The operations -/

/-- From `makeup` on in `minix_open`: the result, or the code of a failure. -/
def openInode (dir inode : Ino) (flags : Nat) : Prog (Except Int Unit) := do
  let ok ← opPermission dir inode (accMode flags)
  if !ok then pure (.error EOF)
  else do
    let s ← get
    if isKind IFDIR (s.slot inode).mode ∧ flags &&& O_ACCMODE ≠ O_RDONLY then pure (.error EOF)
    else if flags &&& O_TRUNC ≠ 0 then do
      let op ← deref (s.slot inode).op
      match op with
      | .minix => do
        let _ ← minixTruncate inode
        pure (.ok ())
      | .iso9660 => pure (.ok ())
      | _ => fail .outside
    else pure (.ok ())

def openDone (buf : Buf) (inode : Ino) (r : Except Int Unit) : Prog (Int × Option Ino) := do
  brelse (some buf)
  match r with
  | .ok _ => pure (0, some inode)
  | .error ret => do
    iput (some inode)
    pure (ret, none)

def minixOpen (dir : Ino) (name : List Char) (flags mode : Nat) : Prog (Int × Option Ino) := do
  let flags := if flags &&& O_TRUNC ≠ 0 ∧ flags &&& O_ACCMODE = O_RDONLY then flags ||| O_RDWR else flags
  let found ← findEntry dir name
  match found with
  | some found => do
    let s ← get
    let inode ← iget (s.slot dir).dev (s.entryNr found.entry)
    let r ← openInode dir inode flags
    openDone found.entry.buf inode r
  | none =>
    if flags &&& O_CREAT = 0 then pure (-EEXIST, none)
    else do
      let ok ← opPermission dir dir P_WRITE
      if !ok then pure (-EPERM, none)
      else do
        let entry ← addEntry dir name
        let s ← get
        let nr ← minixIalloc (s.slot dir).super
        put16 entry 0 nr
        let s ← get
        let inode ← newInode (s.slot dir).dev (s.entryNr entry)
        let mode := (mode &&& masked s.task.umask) ||| IFREG
        let s ← get
        let minode ← deref (s.slot inode).desc
        setInode inode fun x => { x with mode := mode }
        put16 minode 0 mode
        let r ← openInode dir inode flags
        openDone entry.buf inode r

def minixNamei (dir : Ino) (name : List Char) : Prog (Option (Ino × List Char)) := do
  let found ← findEntry dir name
  match found with
  | none => pure none
  | some found => do
    let s ← get
    let inode ← iget (s.slot dir).dev (s.entryNr found.entry)
    brelse (some found.entry.buf)
    pure (some (inode, found.next))

def minixMkdir (dir : Ino) (name : List Char) (mode : Nat) : Prog Int := do
  let s ← get
  let dminode ← deref (s.slot dir).desc
  assert (isKind IFDIR (s.mode dminode))
  let ok ← minixPermission dir P_WRITE
  if !ok then pure (-EPERM)
  else do
    let found ← findEntry dir name
    match found with
    | some found => do
      brelse (some found.entry.buf)
      pure (-EEXIST)
    | none => do
      let entry ← addEntry dir name
      let s ← get
      let nr ← minixIalloc (s.slot dir).super
      put16 entry 0 nr
      let s ← get
      let inode ← newInode (s.slot dir).dev (s.entryNr entry)
      let s ← get
      let iminode ← deref (s.slot inode).desc
      let mode := (mode &&& masked s.task.umask) ||| IFDIR
      setInode inode fun x => { x with mode := mode }
      put16 iminode 0 mode
      put32 iminode 4 32
      put8 iminode 13 2
      let s ← get
      let _ ← deref (s.slot dir).buf
      put8 dminode 13 (s.nlinks dminode + 1)
      let idx ← minixBmap inode 0 true
      assert (idx ≠ 0)
      let s ← get
      let zbuf ← bread (s.slot inode).dev idx BLOCK_SIZE
      let zbuf ← demand .assertion zbuf
      put ⟨zbuf, 0⟩ 2 (nameBytes ['.'])
      put16 ⟨zbuf, 0⟩ 0 (s.slot inode).nr
      put ⟨zbuf, 16⟩ 2 (nameBytes ['.', '.'])
      put16 ⟨zbuf, 16⟩ 0 (s.slot dir).nr
      iput (some inode)
      let s ← get
      let _ ← demand .assertion (s.slot dir).buf
      brelse (some entry.buf)
      brelse (some zbuf)
      pure 0

def rmdirInode (dir : Ino) (dminode entry : Ptr) (inode : Ino) : Prog Int := do
  if inode = dir then pure (-EPERM)
  else do
    let s ← get
    let iminode ← deref (s.slot inode).desc
    if !isKind IFDIR (s.mode iminode) then pure (-ENOTDIR)
    else if s.mode dminode &&& ISVTX ≠ 0 ∧ s.task.uid ≠ s.uid iminode then pure (-EPERM)
    else if (s.slot dir).dev ≠ (s.slot inode).dev ∨ 1 < (s.slot inode).count then pure (-EPERM)
    else do
      let empty ← isEmpty inode
      if !empty then pure (-ENOTEMPTY)
      else do
        let s ← get
        assert (s.nlinks iminode = 2)
        let ret ← minixTruncate inode
        assert (ret = 0)
        let s ← get
        minixIfree (s.slot inode).super (s.slot inode).nr
        put8 iminode 13 0
        let s ← get
        let _ ← deref (s.slot inode).buf
        setInode inode fun x => { x with nr := 0 }
        put8 dminode 13 (s.nlinks dminode + 255)
        let s ← get
        let _ ← deref (s.slot dir).buf
        assert (0 < s.nlinks dminode)
        put16 entry 0 0
        pure 0

def minixRmdir (dir : Ino) (name : List Char) : Prog Int := do
  let s ← get
  let dminode ← deref (s.slot dir).desc
  assert (isKind IFDIR (s.mode dminode))
  let ok ← minixPermission dir P_WRITE
  if !ok then pure (-EPERM)
  else do
    let found ← findEntry dir name
    match found with
    | none => pure (-ENOENT)
    | some found => do
      let s ← get
      let inode ← iget (s.slot dir).dev (s.entryNr found.entry)
      let ret ← rmdirInode dir dminode found.entry inode
      iput (some inode)
      brelse (some found.entry.buf)
      pure ret

/-- `minix_link`, after `minix_namei`: its return value and `buf` -/
def linkInode (inode ndir : Ino) (newname : List Char) : Prog (Int × Option Buf) := do
  let s ← get
  let minode ← deref (s.slot inode).desc
  if isKind IFDIR (s.mode minode) then pure (-EPERM, none)
  else do
    let nminode ← deref (s.slot ndir).desc
    if !isKind IFDIR (s.mode nminode) then pure (-EPERM, none)
    else if (s.slot ndir).dev ≠ (s.slot inode).dev then pure (-EXDEV, none)
    else do
      let ok ← minixPermission ndir P_WRITE
      if !ok then pure (-EACCES, none)
      else do
        let found ← findEntry ndir newname
        match found with
        | some found => pure (-EEXIST, some found.entry.buf)
        | none => do
          let entry ← addEntry ndir newname
          let s ← get
          put16 entry 0 (s.slot inode).nr
          let s ← get
          put8 minode 13 (s.nlinks minode + 1)
          let _ ← deref (s.slot inode).buf
          pure (0, some entry.buf)

def minixLink (odir : Ino) (oldname : List Char) (ndir : Ino) (newname : List Char) : Prog Int := do
  let found ← minixNamei odir oldname
  match found with
  | none => pure (-ENOENT)
  | some found => do
    let r ← linkInode found.1 ndir newname
    brelse r.2
    iput (some found.1)
    pure r.1

def unlinkInode (entry : Ptr) (inode : Ino) : Prog Int := do
  let s ← get
  let minode ← deref (s.slot inode).desc
  if isKind IFDIR (s.mode minode) then pure (-EPERM)
  else if s.mode minode &&& ISVTX ≠ 0 ∧ s.task.uid ≠ s.uid minode then pure (-EPERM)
  else do
    put16 entry 0 0
    let s ← get
    put8 minode 13 (s.nlinks minode + 255)
    let _ ← deref (s.slot inode).buf
    let s ← get
    onlyIf (s.nlinks minode = 0) do
      let _ ← minixTruncate inode
      let s ← get
      minixIfree (s.slot inode).super (s.slot inode).nr
    pure 0

def minixUnlink (dir : Ino) (name : List Char) : Prog Int := do
  let ok ← minixPermission dir P_WRITE
  if !ok then pure (-EPERM)
  else do
    let found ← findEntry dir name
    match found with
    | none => pure (-ENOENT)
    | some found => do
      let s ← get
      let inode ← iget (s.slot dir).dev (s.entryNr found.entry)
      let ret ← unlinkInode found.entry inode
      brelse (some found.entry.buf)
      iput (some inode)
      pure ret

def minixMknod (dir : Ino) (name : List Char) (mode : Nat) (dev : Int) : Prog Int := do
  let ok ← minixPermission dir P_WRITE
  if !ok then pure (-EPERM)
  else do
    let found ← findEntry dir name
    match found with
    | some found => do
      brelse (some found.entry.buf)
      pure (-EEXIST)
    | none => do
      let entry ← addEntry dir name
      let s ← get
      let nr ← minixIalloc (s.slot dir).super
      put16 entry 0 nr
      let s ← get
      let inode ← newInode (s.slot dir).dev (s.entryNr entry)
      let s ← get
      let minode ← deref (s.slot inode).desc
      put16 minode 0 mode
      onlyIf (isKind IFBLK mode ∨ isKind IFCHR mode ∨ isKind IFSOCK mode) (put16 minode 14 (dev % 2 ^ 16).toNat)
      brelse (some entry.buf)
      iput (some inode)
      pure 0

end Onix.Namei
