/-
`kernel/execve.c`, with `sys_brk`, `link_page` and `unlink_page` of `kernel/memory.c` and the read of a regular file as they are used there.

User memory is a map of pages, by their number, and the bytes at the addresses; frames and page tables are those of `Onix.Memory`. What
`namei` finds is given, with one more reference to it, and so are the strings of the caller, which end before a zero. The kernel stores
without regard to the write right. An address is a number: nothing above the stack is ever stored to.
-/
import Onix.Memory.Model

namespace Onix.Exec

open Onix.Lib
open Memory (userExecAddr userMmapAddr userStackTop userStackBottom)

/-! ## Data -/

abbrev Byte := UInt8

def pageSize : Nat := 0x1000

def TASK_NAME_LEN : Nat := 16

def eofWord : Nat := 2 ^ 32 - 100

def ENOENT : Int := 2
def EPERM : Int := 1
def ENOEXEC : Int := 8

/-- What is used of `page_entry_t`. -/
structure Page where
  write : Bool
  readonly : Bool
  deriving DecidableEq

/-- What is used of an inode: whether it is a regular file, whether the task may execute it, its bytes and the blocks that were never
written. -/
structure File where
  regular : Bool
  exec : Bool
  data : List Byte
  hole : Nat → Bool

variable {I : Type}

/-- What is used of `task_t`, its memory, and the counts of the inodes. `linked`: how many pages it was given in the call. -/
structure State (I : Type) where
  uid : Nat
  name : Nat → Byte
  brk : Nat
  endAddr : Nat
  text : Nat
  data : Nat
  iexec : Option I
  page : Nat → Option Page
  byte : Nat → Byte
  count : I → Int
  linked : Nat

/-- The free frames: whether there is one for the next page and what it holds, and whether there are `n` of them for `sys_brk`. -/
structure Env where
  available : Nat → Bool
  stale : Nat → Nat → Byte
  room : Nat → Bool

/-- A failed assertion, a panic, or a store beyond the kernel pages of the arguments. -/
inductive Stop
  | assertion
  | panic
  | overrun
  deriving DecidableEq

def assert (p : Prop) [Decidable p] : Except Stop Unit := if p then .ok () else .error .assertion

/-- What is used of `intr_frame_t`. -/
structure Frame where
  edx : Nat
  eip : Nat
  esp : Nat

/-- `sys_execve` returns, or the task enters its new program. -/
inductive Outcome (I : Type)
  | returned (ret : Int) (s : State I)
  | entered (s : State I) (frame : Frame)

/-! ## Memory -/

def linkPage (e : Env) (s : State I) (p : Nat) : Except Stop (State I) :=
  if (s.page p).isSome then .ok s
  else if e.available s.linked then
    .ok { s with
      page := fun q => if q = p then some ⟨true, false⟩ else s.page q
      byte := fun a => if a / pageSize = p then e.stale s.linked (a % pageSize) else s.byte a
      linked := s.linked + 1 }
  else .error .panic

def unlinkPage (s : State I) (p : Nat) : State I := { s with page := fun q => if q = p then none else s.page q }

def pageFault (e : Env) (s : State I) (a : Nat) : Except Stop (State I) :=
  if a < s.brk ∨ userStackBottom ≤ a then linkPage e s (a / pageSize) else .error .panic

def touch (e : Env) (s : State I) (a : Nat) : Except Stop (State I) :=
  if (s.page (a / pageSize)).isSome then .ok s else pageFault e s a

def storeByte (e : Env) (s : State I) (a : Nat) (b : Byte) : Except Stop (State I) := do
  let s ← touch e s a
  .ok { s with byte := fun x => if x = a then b else s.byte x }

def storeBytes (e : Env) : List Byte → Nat → State I → Except Stop (State I)
  | [], _, s => .ok s
  | b :: l, a, s => do
    let s ← storeByte e s a b
    storeBytes e l (a + 1) s

def number (byte : Nat → Byte) (a : Nat) : Nat → Nat
  | 0 => 0
  | n + 1 => (byte a).toNat + 256 * number byte (a + 1) n

/-- A `u32` behind the page that `load_elf` links; the heap is empty then, and a page that is not there a panic. -/
def State.word (s : State I) (a : Nat) : Except Stop Nat :=
  if (s.page (a / pageSize)).isSome then .ok (number s.byte a 4) else .error .panic

def unlinkPages : Nat → Nat → State I → State I
  | 0, _, s => s
  | n + 1, p, s => unlinkPages n (p + 1) (unlinkPage s p)

def sysBrk (e : Env) (s : State I) (brk : Nat) : Except Stop (State I) := do
  assert (brk % pageSize = 0)
  assert (s.uid ≠ 0)
  assert (s.endAddr ≤ brk ∧ brk ≤ userMmapAddr)
  if brk < s.brk then .ok { unlinkPages ((s.brk - brk + 0xFFF) / pageSize) (brk / pageSize) s with brk := brk }
  else if e.room ((brk - s.brk) / pageSize) then .ok { s with brk := brk }
  else .ok s

/-! ## Files -/

/-- `minix_read` of a regular file into user memory, with the number of bytes it returns. -/
def read (e : Env) (f : File) (addr len offset : Nat) (s : State I) : Except Stop (Int × State I) :=
  if f.data.length ≤ offset then .ok (-100, s)
  else do
    let bytes := (f.data.drop offset).take len
    assert (∀ k < bytes.length, f.hole ((offset + k) / 1024) = false)
    let s ← storeBytes e bytes addr s
    .ok (bytes.length, s)

/-! ## `load_segment` -/

def PT_LOAD : Nat := 1
def PF_X : Nat := 1
def PF_W : Nat := 2
def PF_R : Nat := 4

def divRoundUp (size : Nat) : Nat := (size + 0xFFF) % 2 ^ 32 / pageSize

def linkPages (e : Env) : Nat → Nat → State I → Except Stop (State I)
  | 0, _, s => .ok s
  | n + 1, addr, s => do
    assert (userExecAddr ≤ addr ∧ addr < userMmapAddr)
    let s ← linkPage e s (addr / pageSize)
    linkPages e n (addr + pageSize) s

def clear (e : Env) (vaddr filesz memsz : Nat) (s : State I) : Except Stop (State I) :=
  if filesz < memsz then storeBytes e (List.replicate (memsz - filesz) 0) (vaddr + filesz) s else .ok s

def protect (s : State I) (p count : Nat) : State I :=
  { s with page := fun q => if p ≤ q ∧ q < p + count then (s.page q).map fun _ => ⟨false, true⟩ else s.page q }

def setStart (s : State I) (flags vaddr : Nat) : State I :=
  if flags = PF_R ||| PF_X then { s with text := vaddr } else if flags = PF_R ||| PF_W then { s with data := vaddr } else s

/-- `load_segment`; the program header stays where it is, and each field is read from there when it is used. -/
def loadSegment (e : Env) (f : File) (phdr : Nat) (s : State I) : Except Stop (State I) := do
  assert ((← s.word (phdr + 28)) = 0x1000)
  let vaddr ← s.word (phdr + 8)
  assert (vaddr % pageSize = 0)
  let count := divRoundUp (max (← s.word (phdr + 20)) (← s.word (phdr + 16)))
  let s ← linkPages e count vaddr s
  let (_, s) ← read e f vaddr (← s.word (phdr + 16)) (← s.word (phdr + 4)) s
  let s ← clear e vaddr (← s.word (phdr + 16)) (← s.word (phdr + 20)) s
  let flags ← s.word (phdr + 24)
  let s := setStart (if flags &&& PF_W = 0 then protect s (vaddr / pageSize) count else s) flags vaddr
  .ok { s with endAddr := max s.endAddr (vaddr + count * pageSize) }

/-! ## `load_elf` -/

def ehdrSize : Nat := 52
def phdrSize : Nat := 32

def eType (byte : Nat → Byte) (a : Nat) : Nat := number byte (a + 16) 2
def eMachine (byte : Nat → Byte) (a : Nat) : Nat := number byte (a + 18) 2
def eVersion (byte : Nat → Byte) (a : Nat) : Nat := number byte (a + 20) 4
def eEntry (byte : Nat → Byte) (a : Nat) : Nat := number byte (a + 24) 4
def ePhoff (byte : Nat → Byte) (a : Nat) : Nat := number byte (a + 28) 4
def ePhentsize (byte : Nat → Byte) (a : Nat) : Nat := number byte (a + 42) 2
def ePhnum (byte : Nat → Byte) (a : Nat) : Nat := number byte (a + 44) 2

def elfValidate (byte : Nat → Byte) (a : Nat) : Bool :=
  ((List.range 7).map fun k => byte (a + k)) == [0x7F, 0x45, 0x4C, 0x46, 1, 1, 1] && eType byte a == 2 && eMachine byte a == 3 &&
    eVersion byte a == 1 && ePhentsize byte a == phdrSize

/-- The loop over the program headers; a header that is no `PT_LOAD` is looked at again in the next round. -/
def loadHeaders (e : Env) (f : File) : Nat → Nat → Nat → State I → Except Stop (State I)
  | 0, _, _, s => .ok s
  | n + 1, i, ptr, s =>
    if i < ePhnum s.byte userExecAddr then do
      if (← s.word ptr) ≠ PT_LOAD then loadHeaders e f n (i + 1) ptr s
      else do
        let s ← loadSegment e f ptr s
        loadHeaders e f n (i + 1) (ptr + phdrSize) s
    else .ok s

def loadElf (e : Env) (f : File) (s : State I) : Except Stop (Nat × State I) := do
  let s ← linkPage e s (userExecAddr / pageSize)
  let (n, s) ← read e f userExecAddr ehdrSize 0 s
  assert (n = ehdrSize)
  if elfValidate s.byte userExecAddr = false then .ok (eofWord, s)
  else do
    let phdr := userExecAddr + ehdrSize
    let (_, s) ← read e f phdr (ePhnum s.byte userExecAddr * ePhentsize s.byte userExecAddr) (ePhoff s.byte userExecAddr) s
    let s ← loadHeaders e f 65536 0 phdr s
    .ok (eEntry s.byte userExecAddr, s)

/-! ## `sys_execve` -/

/-- Strings from the last to the first, below what is already there up to the top of the stack; and where each starts. -/
def pushStrings : List (List Byte) → List Byte → List Nat × List Byte
  | [], top => ([], top)
  | x :: l, top =>
    let r := pushStrings l top
    let top := x ++ [0] ++ r.2
    ((userStackTop - top.length) :: r.1, top)

def wordBytes (n : Nat) : List Byte := [UInt8.ofNat n, UInt8.ofNat (n / 2 ^ 8), UInt8.ofNat (n / 2 ^ 16), UInt8.ofNat (n / 2 ^ 24)]

/-- The pointers to the arguments and to the environment, each list with its end, and the strings. -/
def argPointers (filename : List Byte) (argv envp : List (List Byte)) : List Nat × List Byte :=
  let envk := pushStrings envp []
  let argk := pushStrings (filename :: argv) envk.2
  (argk.1 ++ 0 :: (envk.1 ++ [0]), argk.2)

/-- What is to lie at the top of the stack: the number of arguments, the pointers and the strings. -/
def argBlock (filename : List Byte) (argv envp : List (List Byte)) : List Byte :=
  let args := argPointers filename argv envp
  wordBytes (argv.length + 1) ++ (args.1.flatMap wordBytes ++ args.2)

/-- `copy_argv_envp`; the pointers have a page, which nothing checks. -/
def copyArgvEnvp (e : Env) (filename : List Byte) (argv envp : List (List Byte)) (s : State I) : Except Stop (Nat × State I) :=
  let args := argBlock filename argv envp
  if 1024 < (argPointers filename argv envp).1.length then .error .overrun
  else do
    assert (args.length < 4 * pageSize)
    let s ← storeBytes e args (userStackTop - args.length) s
    .ok (userStackTop - args.length, s)

def strncpy (dest : Nat → Byte) (src : List Byte) (count : Nat) : Nat → Byte := fun k =>
  if count ≤ k then dest k
  else if src.length < count then if k ≤ src.length then src.getD k 0 else dest k
  else if k = count - 1 then 0 else src.getD k 0

variable [DecidableEq I]

def State.refer (s : State I) (i : I) (n : Int) : State I := { s with count := fun j => if j = i then s.count j + n else s.count j }

def iput (s : State I) : Option I → State I
  | none => s
  | some i => s.refer i (-1)

def sysExecve (e : Env) (file : I → File) (found : Option I) (filename : List Byte) (argv envp : List (List Byte)) (s : State I) :
    Except Stop (Outcome I) :=
  match found with
  | none => .ok (.returned (-ENOENT) s)
  | some inode =>
    let s := s.refer inode 1
    if (file inode).regular = false then .ok (.returned (-EPERM) (iput s (some inode)))
    else if (file inode).exec = false then .ok (.returned (-EPERM) (iput s (some inode)))
    else do
      let s := { s with name := strncpy s.name filename TASK_NAME_LEN }
      let (top, s) ← copyArgvEnvp e filename argv envp s
      let s := { s with endAddr := userExecAddr }
      let s ← sysBrk e s userExecAddr
      let (entry, s) ← loadElf e (file inode) s
      if entry = eofWord then .ok (.returned (-ENOEXEC) (iput s (some inode)))
      else do
        let s ← sysBrk e s s.endAddr
        let s := iput s s.iexec
        .ok (.entered { s with iexec := some inode } ⟨0, entry, top⟩)

end Onix.Exec
