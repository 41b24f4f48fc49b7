/-
User memory: the page tables, the reference counts of the frames and the functions of
`kernel/memory.c` that read or change them, with `fork`, `exit` and the stores of user and kernel
code. A system call, a page fault or a store is one step of a process.

A frame holds 1024 words; a word and a page table entry are the same 32 bits, so a table is a frame
like any other. The translation is read from the tables at each access (the code flushes the TLB where
it changes them). `copy_page` fills the new frame through the window at address 0 and closes it
again; only the copy is kept. The running task is a user process.
-/
import Onix.Lib.Loop
import Onix.Lib.Machine

namespace Onix.Memory

open Onix.Lib

/-! ## Addresses -/

/-- `IDX(KERNEL_MEMORY_SIZE)`: the frames before it are mapped to themselves. -/
def kernelFrames : Nat := 0x1000

def userExecAddr : Nat := 0x1000000

def userMmapAddr : Nat := 0x8000000

def userStackTop : Nat := 0x10000000

def userStackBottom : Nat := userStackTop - 0x200000

def didx (v : Nat) : Nat := v / 0x400000 % 1024

def tidx (v : Nat) : Nat := v / 0x1000 % 1024

/-- The address of the entry of `v` in the window of the last directory entry. -/
def entryAddr (v : Nat) : Nat := 0xFFC00000 + v % 0x100000000 / 0x1000 * 4

/-! ## Data -/

/-- `page_entry_t`, or any word of memory. -/
structure Entry where
  present : Bool
  write : Bool
  user : Bool
  pwt : Bool
  pcd : Bool
  accessed : Bool
  dirty : Bool
  pat : Bool
  global : Bool
  shared : Bool
  privat : Bool
  readonly : Bool
  index : Nat
  deriving DecidableEq

def Entry.zero : Entry := ⟨false, false, false, false, false, false, false, false, false, false, false, false, 0⟩

def entryInit (index : Nat) : Entry := { Entry.zero with present := true, write := true, user := true, index := index }

abbrev Mem := Nat → Nat → Entry

def Mem.set (m : Mem) (f i : Nat) (w : Entry) : Mem := fun g j => if g = f ∧ j = i then w else m g j

def Mem.fill (m : Mem) (f : Nat) (c : Nat → Entry) : Mem := fun g => if g = f then c else m g

/-- What `task_t` says of memory: the frame of the page directory, the heap, the end of the program
and the bitmap of the mapping area. -/
structure Task where
  pde : Nat
  brk : Nat
  endAddr : Nat
  vmap : Nat → Bool

def taskNr : Nat := 64

structure State where
  mem : Mem
  memoryMap : Nat → Nat
  freePages : Nat
  startPage : Nat
  totalPages : Nat
  tasks : Fin taskNr → Option Task

inductive Fault
  | getFree
  | putRange
  | putCount
  | putFree
  | outOfMemory
  | noEntry
  | count
  | align
  | range
  | bitmap
  | access
  | noTask
  deriving DecidableEq

def Fault.ofPages (e : Fault) : Prop := e = .getFree ∨ e = .putRange ∨ e = .putCount ∨ e = .putFree

/-! ## Frames -/

def setCount (c : Nat → Nat) (f n : Nat) : Nat → Nat := fun g => if g = f then n else c g

def getPage (s : State) : Except Fault (State × Nat) :=
  match (List.range' s.startPage (s.totalPages - s.startPage)).find? fun i => s.memoryMap i = 0 with
  | none => .error .outOfMemory
  | some i =>
    if s.freePages = 0 then .error .getFree
    else .ok ({ s with memoryMap := setCount s.memoryMap i 1, freePages := s.freePages - 1 }, i)

def putPage (s : State) (f : Nat) : Except Fault State :=
  if f < s.startPage ∨ s.totalPages ≤ f then .error .putRange
  else if s.memoryMap f < 1 then .error .putCount
  else
    let n := s.memoryMap f - 1
    let s := { s with memoryMap := setCount s.memoryMap f n, freePages := if n = 0 then s.freePages + 1 else s.freePages }
    if 0 < s.freePages ∧ s.freePages < s.totalPages then .ok s else .error .putFree

/-! ## Entries -/

def dirEntry (s : State) (pd v : Nat) : Entry := s.mem pd (didx v)

def pageEntry (s : State) (pd v : Nat) : Entry := s.mem (dirEntry s pd v).index (tidx v)

def setEntry (s : State) (pd v : Nat) (w : Entry) : State :=
  { s with mem := s.mem.set (dirEntry s pd v).index (tidx v) w }

def physical (s : State) (pd v : Nat) : Option Nat :=
  if (dirEntry s pd v).present ∧ (pageEntry s pd v).present then some (pageEntry s pd v).index else none

/-- `get_entry(v, true)`: the table of `v`, a new one if there is none. -/
def createTable (s : State) (pd v : Nat) : Except Fault State :=
  if (dirEntry s pd v).present then .ok s
  else do
    let (s, g) ← getPage s
    pure { s with mem := (s.mem.set pd (didx v) (entryInit g)).fill g fun _ => .zero }

def copyEntry (s : State) (pd v : Nat) : Except Fault State :=
  let e := pageEntry s pd v
  if e.write then .ok s
  else if s.memoryMap e.index = 0 then .error .count
  else if s.memoryMap e.index = 1 then .ok (setEntry s pd v { e with write := true })
  else do
    let (s, g) ← getPage s
    let s := { s with mem := s.mem.fill g (s.mem e.index) }
    let s := { s with memoryMap := setCount s.memoryMap e.index (s.memoryMap e.index - 1) }
    pure (setEntry s pd v { e with index := g, write := true })

def copyOnWrite (pd : Nat) : Nat → Nat → State → Except Fault State
  | 0, _, s => .ok s
  | level + 1, v, s =>
    if ¬ (dirEntry s pd v).present then .error .noEntry
    else copyOnWrite pd level (entryAddr v) s >>= fun s => copyEntry s pd v

def linkPage (s : State) (pd v : Nat) : Except Fault State :=
  if v % 0x1000 ≠ 0 then .error .align
  else do
    let s ← createTable s pd v
    if (pageEntry s pd v).present then pure s
    else do
      let s ← copyOnWrite pd 2 (entryAddr v) s
      let (s, g) ← getPage s
      pure (setEntry s pd v (entryInit g))

def dropEntry (s : State) (pd v : Nat) : Except Fault State :=
  let e := pageEntry s pd v
  putPage (setEntry s pd v { e with present := false }) e.index

def unlinkPage (s : State) (pd v : Nat) : Except Fault State :=
  if v % 0x1000 ≠ 0 then .error .align
  else if physical s pd v = none then .ok s
  else copyOnWrite pd 2 (entryAddr v) s >>= fun s => dropEntry s pd v

/-! ## Directories -/

def addRef (s : State) (f : Nat) : Except Fault State :=
  if s.memoryMap f = 0 ∨ 255 ≤ s.memoryMap f + 1 then .error .count
  else .ok { s with memoryMap := setCount s.memoryMap f (s.memoryMap f + 1) }

def sharePage (f t : Nat) (s : State) : Except Fault State :=
  let e := s.mem f t
  if ¬ e.present then .ok s
  else addRef { s with mem := if e.shared then s.mem else s.mem.set f t { e with write := false } } e.index

def shareTable (pd d : Nat) (s : State) : Except Fault State :=
  let e := s.mem pd d
  if ¬ e.present then .ok s
  else addRef { s with mem := s.mem.set pd d { e with write := false } } e.index >>= forRange 1024 (sharePage e.index)

def copyPde (s : State) (pd k : Nat) : Except Fault State := do
  let s ← forRange 60 (fun i => shareTable pd (4 + i)) s
  pure { s with mem := (s.mem.fill k (s.mem pd)).set k 1023 (entryInit k) }

def freePage (f t : Nat) (s : State) : Except Fault State :=
  let e := s.mem f t
  if ¬ e.present then .ok s
  else if s.memoryMap e.index = 0 then .error .count
  else putPage s e.index

def freeTable (pd d : Nat) (s : State) : Except Fault State :=
  let e := s.mem pd d
  if ¬ e.present then .ok s
  else forRange 1024 (freePage e.index) s >>= fun s => putPage s e.index

def freePde (s : State) (pd : Nat) : Except Fault State := forRange 60 (fun i => freeTable pd (4 + i)) s

/-! ## System calls -/

def unlinkPages (pd : Nat) : Nat → Nat → State → Except Fault State
  | 0, _, s => .ok s
  | n + 1, v, s => unlinkPage s pd v >>= unlinkPages pd n (v + 0x1000)

def setTask (s : State) (p : Fin taskNr) (t : Option Task) : State := { s with tasks := fun q => if q = p then t else s.tasks q }

def sysBrk (s : State) (p : Fin taskNr) (task : Task) (brk : Nat) : Except Fault State :=
  if brk % 0x1000 ≠ 0 then .error .align
  else if ¬ (task.endAddr ≤ brk ∧ brk ≤ userMmapAddr) then .error .range
  else if brk < task.brk then do
    let s ← unlinkPages task.pde ((task.brk - brk + 0xFFF) / 0x1000) brk s
    pure (setTask s p (some { task with brk := brk }))
  else if s.freePages < (brk - task.brk) / 0x1000 then .ok s
  else .ok (setTask s p (some { task with brk := brk }))

/-- `bitmap_scan` on the bitmap of the mapping area: the first run of `count` clear bits. -/
def bitmapScan (vmap : Nat → Bool) (count : Nat) : Option Nat :=
  ((List.range 0x8000).find? fun i => i + count ≤ 0x8000 ∧ ∀ j < count, vmap (userMmapAddr / 0x1000 + i + j) = false).map
    (userMmapAddr / 0x1000 + ·)

def mmapEntry (e : Entry) (write shared privat : Bool) : Entry :=
  { e with
    user := true, write := write, readonly := !write, shared := e.shared || shared, privat := e.privat || privat }

def mmapPage (s : State) (pd v : Nat) (write shared privat : Bool) : Except Fault State := do
  let s ← linkPage s pd v
  pure (setEntry s pd v (mmapEntry (pageEntry s pd v) write shared privat))

def mmapPages (pd : Nat) (write shared privat : Bool) : Nat → Nat → State → Except Fault State
  | 0, _, s => .ok s
  | n + 1, v, s => mmapPage s pd v write shared privat >>= mmapPages pd write shared privat n (v + 0x1000)

def setBits (vmap : Nat → Bool) (v count : Nat) (b : Bool) : Nat → Bool :=
  fun i => if v / 0x1000 ≤ i ∧ i < v / 0x1000 + count then b else vmap i

def pageCount (length : Nat) : Nat := (length + 0xFFF) % 0x100000000 / 0x1000

/-- The address `sys_mmap` takes: the one given or the first free one. -/
def mmapAddr (task : Task) (addr length : Nat) : Option Nat :=
  if addr ≠ 0 then some addr
  else if pageCount length = 0 then none
  else (bitmapScan task.vmap (pageCount length)).map (· * 0x1000)

def sysMmap (s : State) (p : Fin taskNr) (task : Task) (addr length : Nat) (write shared privat : Bool) :
    Except Fault State :=
  if addr % 0x1000 ≠ 0 then .error .align
  else match mmapAddr task addr length with
    | none => .error .bitmap
    | some v =>
      if ¬ (userMmapAddr ≤ v ∧ v < userStackBottom) then .error .range
      else do
        let s ← mmapPages task.pde write shared privat (pageCount length) v s
        pure (setTask s p (some { task with vmap := setBits task.vmap v (pageCount length) true }))

def munmapPages (pd : Nat) : Nat → Nat → (Nat → Bool) → State → Except Fault State
  | 0, _, _, s => .ok s
  | n + 1, v, vmap, s => do
    let s ← unlinkPage s pd v
    if 0x10000 ≤ v / 0x1000 ∨ vmap (v / 0x1000) = false then .error .bitmap
    else munmapPages pd n (v + 0x1000) vmap s

def sysMunmap (s : State) (p : Fin taskNr) (task : Task) (v length : Nat) : Except Fault State :=
  if ¬ (userMmapAddr ≤ v ∧ v < userStackBottom) then .error .range
  else if v % 0x1000 ≠ 0 then .error .align
  else do
    let s ← munmapPages task.pde (pageCount length) v task.vmap s
    pure (setTask s p (some { task with vmap := setBits task.vmap v (pageCount length) false }))

/-- `page_fault` at a user address; `present` and `write` are those of its error code. -/
def pageFault (s : State) (task : Task) (v : Nat) (present write : Bool) : Except Fault State :=
  if present then
    if ¬ write then .error .access
    else if ¬ (dirEntry s task.pde v).present then .error .noEntry
    else
      let e := pageEntry s task.pde v
      if ¬ e.present ∨ e.shared ∨ e.readonly then .error .access else copyOnWrite task.pde 3 v s
  else if v < task.brk ∨ userStackBottom ≤ v then linkPage s task.pde (v / 0x1000 * 0x1000)
  else .error .access

def memoryAccess (s : State) (pd v : Nat) (write user : Bool) : Bool :=
  (dirEntry s pd v).present && (pageEntry s pd v).present && !(write && (pageEntry s pd v).readonly) &&
    !(user && !(pageEntry s pd v).user)

def storeWord (s : State) (pd v i : Nat) (w : Entry) : State :=
  { s with mem := s.mem.set (pageEntry s pd v).index i w }

def readWord (s : State) (pd v i : Nat) : Option Entry := (physical s pd v).map fun f => s.mem f i

/-! ## The machine -/

inductive Act
  | start (p : Fin taskNr) (k : Nat)
  | fork (p q : Fin taskNr) (k : Nat)
  | exit (p : Fin taskNr)
  | link (p : Fin taskNr) (v : Nat)
  | unlink (p : Fin taskNr) (v : Nat)
  | fault (p : Fin taskNr) (v : Nat) (present write : Bool)
  | segment (p : Fin taskNr) (v : Nat)
  | brk (p : Fin taskNr) (v : Nat)
  | mmap (p : Fin taskNr) (v length : Nat) (write shared privat : Bool)
  | munmap (p : Fin taskNr) (v length : Nat)
  | store (p : Fin taskNr) (v i : Nat) (w : Entry)
  | kernelStore (p : Fin taskNr) (v i : Nat) (w : Entry) (user : Bool)

def withTask (s : State) (p : Fin taskNr) (f : Task → Except Fault State) : Except Fault State :=
  match s.tasks p with
  | none => .error .noTask
  | some t => f t

def step (s : State) : Act → Except Fault State
  | .start p k => do
    let s ← copyPde s 1 k
    pure (setTask s p (some ⟨k, userExecAddr, userExecAddr, fun _ => false⟩))
  | .fork p q k => withTask s p fun t => do
    let s ← copyPde s t.pde k
    pure (setTask s q (some { t with pde := k }))
  | .exit p => withTask s p fun t => freePde (setTask s p none) t.pde
  | .link p v => withTask s p fun t => linkPage s t.pde v
  | .unlink p v => withTask s p fun t => unlinkPage s t.pde v
  | .fault p v present write => withTask s p fun t => pageFault s t v present write
  | .segment p v => withTask s p fun t => .ok (setTask s p (some { t with endAddr := v }))
  | .brk p v => withTask s p fun t => sysBrk s p t v
  | .mmap p v length write shared privat => withTask s p fun t => sysMmap s p t v length write shared privat
  | .munmap p v length => withTask s p fun t => sysMunmap s p t v length
  | .store p v i w => withTask s p fun t => .ok (storeWord s t.pde v i w)
  | .kernelStore p v i w _ => withTask s p fun t => .ok (storeWord s t.pde v i w)

/-- The kernel page of a new directory is one `alloc_kpage` may give: no live one. -/
def kernelPage (s : State) (k : Nat) : Prop := 0x100 ≤ k ∧ k < 0xC00 ∧ ∀ p t, s.tasks p = some t → t.pde ≠ k

def userWritable (s : State) (pd v : Nat) : Prop :=
  (dirEntry s pd v).present ∧ (dirEntry s pd v).write ∧ (dirEntry s pd v).user ∧
    (pageEntry s pd v).present ∧ (pageEntry s pd v).write ∧ (pageEntry s pd v).user

/-- A new task takes a free slot and a kernel page; only a user address faults without ending the
task, with the present bit of its translation; a program ends where `execve` may load one; a store
goes to a page that user code may write, or that the kernel has found accessible. -/
def enabled (s : State) : Act → Prop
  | .start p k => s.tasks p = none ∧ kernelPage s k
  | .fork p q k => (∃ t, s.tasks p = some t) ∧ s.tasks q = none ∧ kernelPage s k
  | .fault p v present _ => ∃ t, s.tasks p = some t ∧ userExecAddr ≤ v ∧ v < userStackTop ∧
      present = (physical s t.pde v).isSome
  | .store p v i _ => i < 1024 ∧ v < 0x100000000 ∧ ∃ t, s.tasks p = some t ∧ userWritable s t.pde v
  | .kernelStore p v i _ user => i < 1024 ∧ v < 0x100000000 ∧ ∃ t, s.tasks p = some t ∧ memoryAccess s t.pde v true user
  | .exit p => ∃ t, s.tasks p = some t
  | .segment p v => userExecAddr ≤ v ∧ v ≤ userMmapAddr ∧ ∃ t, s.tasks p = some t
  | .link p v | .unlink p v | .brk p v | .mmap p v _ _ _ _ | .munmap p v _ =>
      v < 0x100000000 ∧ ∃ t, s.tasks p = some t

/-- After `mapping_init`: the frames of the kernel are taken, its directory has no user table. -/
structure Boot (s : State) : Prop where
  start : 0x100 < s.startPage ∧ s.startPage ≤ kernelFrames
  total : kernelFrames ≤ s.totalPages
  kernel : ∀ f < kernelFrames, s.memoryMap f = 1
  user : ∀ f, kernelFrames ≤ f → s.memoryMap f = 0
  free : s.freePages = s.totalPages - kernelFrames
  dir : ∀ d, 4 ≤ d → d < 64 → (s.mem 1 d).present = false
  tasks : ∀ p, s.tasks p = none

def memory : Machine State Act Fault where
  start := Boot
  enabled := enabled
  step := step

end Onix.Memory
