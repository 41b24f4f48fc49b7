/-
Descriptors, open files and the inodes they hold: `fs/file.c`, `fs/inode.c`, the calls of `fs/fsyscall.c` that make and drop descriptors,
`fs/pipe/pipe.c`, `net/socket.c`, and what `task_fork` and `task_exit` do to them.

A call runs to its end before the next one starts. What `named` and the `open` of a filesystem find is given with the call: they end with
a reference to what they return and no other. So is whether a socket's `accept` has a connection. Other holders of an inode, as the
superblocks are, keep it; no filesystem is mounted or unmounted meanwhile. Pointers a caller passes are valid. A negative descriptor
names memory before the table of the task.
-/
import Onix.Lib.First
import Onix.Lib.Loop
import Onix.Lib.Machine
import Onix.Lib.Tally

namespace Onix.Files

open Onix.Lib

def INODE_NR : Nat := 64
def FILE_NR : Nat := 128
def TASK_NR : Nat := 64
def TASK_FILE_NR : Nat := 16

inductive FsType
  | none
  | pipe
  | socket
  | minix
  | iso9660
  deriving DecidableEq

/-- What is used of `inode_t`; `buf` is also the pipe's `addr`, and `op` is known by its filesystem. -/
structure Inode where
  type : FsType
  count : Nat
  buf : Option Nat
  desc : Option Nat
  super : Option Nat
  op : Option FsType
  rxwaiter : Option Nat
  txwaiter : Option Nat

/-- `file_t`, by the slot of its inode. -/
structure File where
  inode : Option Nat
  count : Nat
  flags : Nat
  offset : Nat

/-- The inodes a task holds besides its files. -/
structure Task where
  ipwd : Nat
  iroot : Nat
  iexec : Option Nat

/-- `fds`: the tables of the tasks; `heap` and `pages`: what is allocated for pipes and sockets, by number, and `next`: the next number;
`held`: how many other holders an inode has. -/
structure State where
  inodes : Nat → Inode
  files : Nat → File
  fds : Nat × Nat → Option Nat
  tasks : Nat → Option Task
  heap : List Nat
  pages : List Nat
  next : Nat
  held : Nat → Nat

inductive Stop
  | assertion
  | null
  | wild
  | badFree
  | panic
  deriving DecidableEq

def assert (p : Prop) [Decidable p] : Except Stop Unit := if p then .ok () else .error .assertion

def dec (n : Nat) : Nat := if n = 0 then 2 ^ 32 - 1 else n - 1

def State.setInode (s : State) (i : Nat) (x : Inode) : State := { s with inodes := Function.update s.inodes i x }

def State.setFile (s : State) (f : Nat) (x : File) : State := { s with files := Function.update s.files f x }

def State.setFd (s : State) (p fd : Nat) (f : Option Nat) : State := { s with fds := Function.update s.fds (p, fd) f }

/-! ## Memory -/

def kmalloc (s : State) : Nat × State := (s.next, { s with heap := s.next :: s.heap, next := s.next + 1 })

def allocKpage (s : State) : Nat × State := (s.next, { s with pages := s.next :: s.pages, next := s.next + 1 })

def kfree (s : State) : Option Nat → Except Stop State
  | none => .error .assertion
  | some x => if x ∈ s.heap then .ok { s with heap := s.heap.erase x } else .error .badFree

def freeKpage (s : State) : Option Nat → Except Stop State
  | none => .error .badFree
  | some x => if x ∈ s.pages then .ok { s with pages := s.pages.erase x } else .error .badFree

/-! ## Inodes -/

def Inode.Clean (x : Inode) : Prop :=
  x.buf = none ∧ x.desc = none ∧ x.super = none ∧ x.op = none ∧ x.rxwaiter = none ∧ x.txwaiter = none

instance (x : Inode) : Decidable x.Clean := inferInstanceAs (Decidable (_ ∧ _))

def getFreeInode (s : State) : Except Stop Nat :=
  match findFrom (fun i => (s.inodes i).type = .none) INODE_NR 0 with
  | none => .error .panic
  | some i => do
    assert (s.inodes i).Clean
    .ok i

def putFreeInode (s : State) (i : Nat) : Except Stop State := do
  assert (i ≠ 0)
  assert ((s.inodes i).count = 0)
  let s := s.setInode i { s.inodes i with type := .none }
  assert (s.inodes i).Clean
  .ok s

def pipeClose (s : State) (i : Nat) : Except Stop State := do
  let s := s.setInode i { s.inodes i with count := dec (s.inodes i).count }
  if (s.inodes i).count ≠ 0 then .ok s
  else
    let s := s.setInode i { s.inodes i with type := .none }
    let s ← kfree s (s.inodes i).desc
    let s ← freeKpage s (s.inodes i).buf
    putFreeInode s i

/-- `socket_close`; what the socket's own `close` does to its connection is not followed. -/
def socketClose (s : State) (i : Nat) : Except Stop State := do
  let s := s.setInode i { s.inodes i with count := dec (s.inodes i).count }
  if (s.inodes i).count ≠ 0 then .ok s
  else
    let s := s.setInode i { s.inodes i with type := .none }
    assert ((s.inodes i).desc ≠ none)
    let s ← kfree s (s.inodes i).desc
    let s := s.setInode i { s.inodes i with buf := none, desc := none, super := none, op := none }
    putFreeInode s i

/-- `minix_close` and `iso_close` without the buffer they release. -/
def diskClose (s : State) (i : Nat) : Except Stop State := do
  let s := s.setInode i { s.inodes i with count := dec (s.inodes i).count }
  if (s.inodes i).count ≠ 0 then .ok s
  else
    let s := s.setInode i { s.inodes i with buf := none, desc := none, super := none, op := none }
    putFreeInode s i

def iput (s : State) : Option Nat → Except Stop State
  | none => .ok s
  | some i =>
    match (s.inodes i).op with
    | none => .error .null
    | some .none => .error .null
    | some .pipe => pipeClose s i
    | some .socket => socketClose s i
    | some .minix => diskClose s i
    | some .iso9660 => diskClose s i

def State.hold (s : State) (i : Nat) : State := s.setInode i { s.inodes i with count := (s.inodes i).count + 1 }

/-! ## Files -/

def getFile (s : State) : Except Stop (Nat × State) :=
  match findFrom (fun f => (s.files f).count = 0) (FILE_NR - 3) 3 with
  | none => .error .panic
  | some f => .ok (f, s.setFile f { s.files f with count := (s.files f).count + 1 })

def putFile (s : State) (f : Nat) : Except Stop State := do
  assert (0 < (s.files f).count)
  let s := s.setFile f { s.files f with count := (s.files f).count - 1 }
  if (s.files f).count = 0 then iput s (s.files f).inode else .ok s

def EINVAL : Int := 22
def EMFILE : Int := 24
def ENOENT : Int := 2

def fdCheck (s : State) (p : Nat) (fd : Int) : Except Stop (Option Nat) :=
  if TASK_FILE_NR ≤ fd then .ok none
  else if fd < 0 then .error .wild
  else .ok (s.fds (p, fd.toNat))

/-- `fd_get`: the descriptor and the file, or none for `-EMFILE`. -/
def fdGet (s : State) (p : Nat) : Except Stop (Option (Nat × Nat) × State) :=
  match findFrom (fun fd => s.fds (p, fd) = none) (TASK_FILE_NR - 3) 3 with
  | none => .ok (none, s)
  | some fd => do
    let (f, s) ← getFile s
    .ok (some (fd, f), s.setFd p fd (some f))

def fdPut (s : State) (p : Nat) (fd : Int) : Except Stop (Int × State) := do
  match ← fdCheck s p fd with
  | none => .ok (-EINVAL, s)
  | some f => do
    assert ((s.files f).inode ≠ none)
    let s ← putFile (s.setFd p fd.toNat none) f
    .ok (0, s)

/-! ## The calls -/

/-- What a path led to: an inode in memory, or one that is read into a free slot. -/
structure Found where
  slot : Nat
  fresh : Option Inode

def Found.take (x : Found) (s : State) : State :=
  match x.fresh with
  | some inode => s.setInode x.slot inode
  | none => s.hold x.slot

/-- What `sys_open` finds: no directory, the directory itself, an error of its `open`, or a file. -/
inductive Path
  | nothing
  | whole (dir : Found)
  | fails (dir : Found) (err : Int)
  | file (dir ino : Found)

/-- The descriptor for an inode that `sys_open` has got; the directory is put back. -/
def openFile (s : State) (p i dir flags size : Nat) : Except Stop (Int × State) := do
  match ← fdGet s p with
  | (none, s) => .ok (-EMFILE, s)
  | (some (fd, f), s) => do
    let s := s.setFile f ⟨some i, 1, flags, if flags &&& 0o2000 ≠ 0 then size else 0⟩
    let s ← iput s (some dir)
    .ok (fd, s)

def sysOpen (s : State) (p : Nat) (path : Path) (flags size : Nat) : Except Stop (Int × State) :=
  match path with
  | .nothing => .ok (-ENOENT, s)
  | .whole dir => openFile ((dir.take s).hold dir.slot) p dir.slot dir.slot flags size
  | .fails dir err => do
    let s ← iput (dir.take s) (some dir.slot)
    .ok (err, s)
  | .file dir ino => openFile (ino.take (dir.take s)) p ino.slot dir.slot flags size

def dupfd (s : State) (p : Nat) (fd arg : Int) : Except Stop (Int × State) := do
  match ← fdCheck s p fd with
  | none => .ok (-EINVAL, s)
  | some f =>
    if arg < 0 then .error .wild
    else
      match findFrom (fun fd => s.fds (p, fd) = none) (TASK_FILE_NR - arg.toNat) arg.toNat with
      | none => .ok (-EINVAL, s)
      | some fd =>
        let s := s.setFd p fd (some f)
        .ok (fd, s.setFile f { s.files f with count := (s.files f).count + 1 })

def sysDup (s : State) (p : Nat) (oldfd : Int) : Except Stop (Int × State) := dupfd s p oldfd 0

def sysDup2 (s : State) (p : Nat) (oldfd newfd : Int) : Except Stop (Int × State) := do
  let (_, s) ← fdPut s p newfd
  dupfd s p oldfd newfd

def pipeOpen (s : State) : Except Stop (Nat × State) := do
  let i ← getFreeInode s
  let (desc, s) := kmalloc s
  let (addr, s) := allocKpage s
  .ok (i, s.setInode i { s.inodes i with desc := some desc, buf := some addr, count := 2, type := .pipe, op := some .pipe })

/-- `sys_pipe`, with what stands in the second word of the caller's array. -/
def sysPipe (s : State) (p : Nat) (second : Int) : Except Stop (Int × State) := do
  let (i, s) ← pipeOpen s
  match ← fdGet s p with
  | (none, s) => do
    let (_, s) ← fdPut s p (-EMFILE)
    let (_, s) ← fdPut s p second
    .ok (-EMFILE, s)
  | (some (fd0, f0), s) => do
    match ← fdGet s p with
    | (none, s) => do
      let (_, s) ← fdPut s p fd0
      let (_, s) ← fdPut s p (-EMFILE)
      .ok (-EMFILE, s)
    | (some (_, f1), s) =>
      let s := s.setFile f0 { s.files f0 with inode := some i, flags := 0 }
      let s := s.setFile f1 { s.files f1 with inode := some i, flags := 1 }
      .ok (0, s)

def socketInode (s : State) (desc : Nat) : Except Stop (Nat × State) := do
  let i ← getFreeInode s
  .ok (i, s.setInode i { s.inodes i with desc := some desc, count := 1, type := .socket, op := some .socket })

def hasSocket (domain type : Int) : Bool := domain == 1 || (domain == 2 && (type == 1 || type == 2 || type == 3))

def sysSocket (s : State) (p : Nat) (domain type : Int) : Except Stop (Int × State) :=
  if hasSocket domain type then do
    match ← fdGet s p with
    | (none, s) => .ok (-EMFILE, s)
    | (some (fd, f), s) => do
      let (desc, s) := kmalloc s
      let (i, s) ← socketInode s desc
      .ok (fd, s.setFile f ⟨some i, 1, 0, 0⟩)
  else .ok (-EINVAL, s)

/-- `socket_get`: whether there is a socket; an inode of another filesystem is taken for one. -/
def socketGet (s : State) (p : Nat) (fd : Int) : Except Stop Bool :=
  if fd < 0 ∨ TASK_FILE_NR ≤ fd then .error .wild
  else
    match s.fds (p, fd.toNat) with
    | none => .ok false
    | some f =>
      match (s.files f).inode with
      | none => .ok false
      | some i =>
        if (s.inodes i).desc = none then .ok false
        else if (s.inodes i).type = .socket then .ok true
        else .error .wild

def sysAccept (s : State) (p : Nat) (fd : Int) (err : Option Int) : Except Stop (Int × State) := do
  if ← socketGet s p fd then
    match err with
    | some e => .ok (e, s)
    | none => do
      let (desc, s) := kmalloc s
      let (i, s) ← socketInode s desc
      match ← fdGet s p with
      | (none, _) => .error .wild
      | (some (fd, f), s) => .ok (fd, s.setFile f ⟨some i, 1, 0, 0⟩)
  else .ok (-EINVAL, s)

def State.holdTask (s : State) (x : Task) : State :=
  match x.iexec with
  | some i => ((s.hold x.ipwd).hold x.iroot).hold i
  | none => (s.hold x.ipwd).hold x.iroot

def fork (s : State) (p q : Nat) : Except Stop State :=
  match s.tasks p with
  | none => .error .null
  | some x =>
    let s := { s with
      tasks := Function.update s.tasks q (some x)
      fds := fun k => if k.1 = q then s.fds (p, k.2) else s.fds k }
    let s := s.holdTask x
    forRange TASK_FILE_NR (fun fd s =>
      match s.fds (q, fd) with
      | some f => .ok (s.setFile f { s.files f with count := (s.files f).count + 1 })
      | none => .ok s) s

def exit (s : State) (p : Nat) : Except Stop State :=
  match s.tasks p with
  | none => .error .null
  | some x => do
    let s := { s with tasks := Function.update s.tasks p none }
    let s ← iput s (some x.ipwd)
    let s ← iput s (some x.iroot)
    let s ← iput s x.iexec
    forRange TASK_FILE_NR (fun fd s =>
      match s.fds (p, fd) with
      | some _ => do
        let (_, s) ← fdPut s p fd
        .ok s
      | none => .ok s) s

/-! ## Runs -/

/-- What a path may lead to: an inode of a disk that is in memory, or one read into the first free slot. -/
def Found.Ok (x : Found) (s : State) : Prop :=
  x.slot < INODE_NR ∧
    match x.fresh with
    | none => (s.inodes x.slot).type = .minix ∨ (s.inodes x.slot).type = .iso9660
    | some y => findFrom (fun i => (s.inodes i).type = .none) INODE_NR 0 = some x.slot ∧ (y.type = .minix ∨ y.type = .iso9660) ∧
        y.count = 1 ∧ y.op = some y.type ∧ y.rxwaiter = none ∧ y.txwaiter = none

def Path.Ok (s : State) : Path → Prop
  | .nothing => True
  | .whole dir => dir.Ok s
  | .fails dir err => dir.Ok s ∧ err < 0
  | .file dir ino => dir.Ok s ∧ ino.Ok (dir.take s)

inductive Act
  | open (p : Nat) (path : Path) (flags size : Nat)
  | dup (p : Nat) (oldfd : Int)
  | dup2 (p : Nat) (oldfd newfd : Int)
  | close (p : Nat) (fd : Int)
  | pipe (p : Nat) (second : Int)
  | socket (p : Nat) (domain type : Int)
  | accept (p : Nat) (fd : Int) (err : Option Int)
  | fork (p q : Nat)
  | exit (p : Nat)

def Act.task : Act → Nat
  | .open p _ _ _ | .dup p _ | .dup2 p _ _ | .close p _ | .pipe p _ | .socket p _ _ | .accept p _ _ | .fork p _ | .exit p => p

def call (s : State) : Act → Except Stop (Int × State)
  | .open p path flags size => sysOpen s p path flags size
  | .dup p oldfd => sysDup s p oldfd
  | .dup2 p oldfd newfd => sysDup2 s p oldfd newfd
  | .close p fd => fdPut s p fd
  | .pipe p second => sysPipe s p second
  | .socket p domain type => sysSocket s p domain type
  | .accept p fd err => sysAccept s p fd err
  | .fork p q => do
    let s ← fork s p q
    .ok (q, s)
  | .exit p => do
    let s ← exit s p
    .ok (0, s)

def step (s : State) (a : Act) : Except Stop State := do
  let (_, s) ← call s a
  .ok s

/-- A call is made by a task there is; a path leads where it may, and a new task has a number of its own. -/
def enabled (s : State) (a : Act) : Prop :=
  s.tasks a.task ≠ none ∧
    match a with
    | .open _ path _ _ => path.Ok s
    | .accept _ _ err => ∀ e ∈ err, e < 0
    | .fork _ q => q < TASK_NR ∧ s.tasks q = none
    | _ => True

end Onix.Files
