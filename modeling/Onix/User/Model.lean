/-
The memory of a process as the kernel uses it: `memory_access` of `kernel/memory.c` over the page tables,
the system calls of `fs/fsyscall.c` that read or write a buffer of the process, and `task_signal`, which
writes a frame on its stack.

What a call does to user memory is the list of the bytes it loads or stores. The function of the file
system behind a file is any one that keeps to the buffer it is given.
-/
import Onix.Memory.Model

namespace Onix.User

open Onix.Memory (State)

abbrev Word := BitVec 32

/-! ## `memory_access` -/

def accessLoop (s : State) (pd : Nat) (write user : Bool) (last : Nat) : Nat → Nat → Option Bool
  | 0, _ => none
  | fuel + 1, page =>
    if page < last then
      if ¬ Memory.memoryAccess s pd page write user then some false
      else accessLoop s pd write user last fuel ((page + 0x1000) % 0x100000000)
    else some true

/-- `memory_access`; after `2 ^ 20` rounds the loop is where it began. -/
def memoryAccess (s : State) (pd : Nat) (vaddr size : Word) (write user : Bool) : Option Bool :=
  accessLoop s pd write user (vaddr + size).toNat (0x100000 + 1) (vaddr.toNat / 0x1000 * 0x1000)

/-! ## Files -/

def direntSize : Nat := 76

/-- `fs_op_t`: for a length and an offset in the file, what a function returns and which bytes of the buffer
it stores or loads. -/
structure FsOp where
  read : Nat → Int → Int × List Nat
  write : Nat → Int → Int × List Nat
  readdir : Word → Int → Int × List Nat
  read_lt : ∀ len offset, ∀ o ∈ (read len offset).2, o < len
  write_lt : ∀ len offset, ∀ o ∈ (write len offset).2, o < len
  readdir_lt : ∀ count offset, ∀ o ∈ (readdir count offset).2, o < direntSize

structure File where
  op : FsOp
  offset : Int
  flags : Nat

/-! ## Signals -/

structure SigAction where
  handler : Word
  mask : Word
  flags : Word
  restorer : Word

/-- The registers of `intr_frame_t` that a signal saves or changes. -/
structure IntrFrame where
  eip : Word
  eflags : Word
  edx : Word
  ecx : Word
  eax : Word
  esp : Word

structure SignalFrame where
  restorer : Word
  sig : Word
  blocked : Word
  eax : Word
  ecx : Word
  edx : Word
  eflags : Word
  eip : Word

def signalFrameSize : Nat := 32

/-- `SIG_DFL`, `SIG_IGN`, `SIGCHLD`, `SIG_NOMASK` and `SIG_ONESHOT`. -/
def sigDfl : Word := 0
def sigIgn : Word := 1
def sigChld : Nat := 17
def sigNomask : Word := 0x40000000
def sigOneshot : Word := 0x80000000

def kernelUser : Nat := 0

def taskFileNr : Int := 16

/-- The parts of `task_t` these functions use, for a task with user memory. `files` goes on below the array: a
negative number passes `fd_check`. The signals are 1 to 31. -/
structure Process where
  uid : Nat
  pd : Nat
  files : Int → Option File
  signal : BitVec 31
  blocked : Word
  actions : Nat → SigAction
  iframe : IntrFrame
  user : uid ≠ kernelUser

/-! ## Accesses -/

/-- A byte of user memory is loaded or stored. -/
inductive Access
  | load (a : Word)
  | store (a : Word)

/-- What a call returns, with the bytes of user memory it uses. -/
structure Outcome where
  ret : Int
  touched : List Access
  task : Process

def einval : Int := 22
def eperm : Int := 1
def eof : Int := -100

def fdCheck (t : Process) (fd : Int) : Option File := if taskFileNr ≤ fd then none else t.files fd

def Process.advance (t : Process) (fd : Int) (f : File) (len : Int) : Process :=
  if 0 < len then { t with files := fun g => if g = fd then some { f with offset := f.offset + len } else t.files g } else t

def bytes (v : Word) (offs : List Nat) : List Word := offs.map fun o => v + BitVec.ofNat 32 o

/-! ## System calls -/

/-- The part that `sys_read`, `sys_readdir` and `sys_write` share: `access` is the answer of `memory_access`, `refused` what
the mode of the file makes of the call, `call` the function of the file system. -/
def fileCall (t : Process) (fd : Int) (access : Option Bool) (refused : File → Option Int) (call : File → Int × List Access) :
    Option Outcome :=
  match access with
  | none => none
  | some false => some ⟨-einval, [], t⟩
  | some true =>
    match fdCheck t fd with
    | none => some ⟨-einval, [], t⟩
    | some f =>
      match refused f with
      | some e => some ⟨e, [], t⟩
      | none => some ⟨(call f).1, (call f).2, t.advance fd f (call f).1⟩

def sysRead (s : State) (t : Process) (fd : Int) (buf count : Word) : Option Outcome :=
  if count.toInt < 0 then some ⟨-einval, [], t⟩
  else fileCall t fd (memoryAccess s t.pd buf count false (decide (t.uid ≠ kernelUser)))
    (fun f => if f.flags % 4 = 1 then some eof else none)
    fun f => ((f.op.read count.toNat f.offset).1, (bytes buf (f.op.read count.toNat f.offset).2).map .store)

def sysReaddir (s : State) (t : Process) (fd : Int) (dir count : Word) : Option Outcome :=
  fileCall t fd (memoryAccess s t.pd dir (BitVec.ofNat 32 direntSize) false (decide (t.uid ≠ kernelUser)))
    (fun f => if f.flags % 4 = 1 then some eof else none)
    fun f => ((f.op.readdir count f.offset).1, (bytes dir (f.op.readdir count f.offset).2).map .store)

def sysWrite (s : State) (t : Process) (fd : Int) (buf count : Word) : Option Outcome :=
  if count.toInt < 0 then some ⟨-einval, [], t⟩
  else fileCall t fd (memoryAccess s t.pd buf count true (decide (t.uid ≠ kernelUser)))
    (fun f => if f.flags % 4 = 0 then some (-eperm) else none)
    fun f => ((f.op.write count.toNat f.offset).1, (bytes buf (f.op.write count.toNat f.offset).2).map .load)

/-! ## `task_signal` -/

/-- What becomes of the task: it goes on as it was, or ends, or runs a handler with a frame on its stack. -/
inductive Delivery
  | quiet (t : Process)
  | exit (status : Word)
  | handler (t : Process) (addr : Word) (frame : SignalFrame)

def Process.map (t : Process) : BitVec 31 := t.signal &&& ~~~ (t.blocked.setWidth 31)

def Process.pending (t : Process) : Option Nat := (List.range 31).find? fun i => t.map.getLsbD i

def signalFrame (t : Process) (i : Nat) : SignalFrame :=
  let action := t.actions i
  { restorer := action.restorer, sig := BitVec.ofNat 32 (i + 1)
    blocked := if action.flags &&& sigNomask ≠ 0 then t.blocked else BitVec.ofInt 32 eof
    eax := t.iframe.eax, ecx := t.iframe.ecx, edx := t.iframe.edx, eflags := t.iframe.eflags, eip := t.iframe.eip }

def Process.handle (t : Process) (i : Nat) (addr : Word) : Process :=
  let action := t.actions i
  { t with
    iframe := { t.iframe with esp := addr, eip := action.handler }
    actions := if action.flags &&& sigOneshot ≠ 0 then fun j => if j = i then { action with handler := sigDfl } else t.actions j
      else t.actions
    blocked := t.blocked ||| action.mask }

def taskSignal (t : Process) : Delivery :=
  match t.pending with
  | none => .quiet t
  | some i =>
    let t : Process := { t with signal := t.signal &&& ~~~ ((1 : BitVec 31) <<< i) }
    let action := t.actions i
    if action.handler = sigIgn then .quiet t
    else if action.handler = sigDfl ∧ i + 1 = sigChld then .quiet t
    else if action.handler = sigDfl then .exit (1 <<< i)
    else
      let addr := t.iframe.esp - BitVec.ofNat 32 signalFrameSize
      .handler (t.handle i addr) addr (signalFrame t i)

def Delivery.touched : Delivery → List Access
  | .quiet _ | .exit _ => []
  | .handler _ addr _ => (bytes addr (List.range signalFrameSize)).map .store

end Onix.User
