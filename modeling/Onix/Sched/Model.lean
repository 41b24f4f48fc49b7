/-
Tasks and what changes their state: `kernel/task.c`, `kernel/mutex.c`, `kernel/timer.c`, `kernel/signal.c`,
the requests of `kernel/device.c`, the transfers of `kernel/ide.c`, `kernel/buffer.c`, and the way from
`task_exit` through `iput` and `close` down to them.

A task is known by the address of its page. What it still has to do in the kernel is a list of calls, of
which the running task executes the first; it may be switched away in any of them that blocks or yields.
The kernel runs with interrupts off, so an interrupt comes only to a task that has nothing left to do there.
The rest of the kernel is any list of calls, and may change inodes, buffers and files in any way.
-/
import Onix.Lib.Machine
import Onix.Lib.Loop
import Onix.List

namespace Onix.Sched

open Onix.Lib

/-! ## Data -/

def taskNr : Nat := 64

/-- `IDE_TIMEOUT` and the time `ide_delay` sleeps, in milliseconds. -/
def ideTimeout : Nat := 60000
def ideDelay : Nat := 25

def jiffy : Nat := 10

def eok : Int := 0
def eintr : Int := 4
def eio : Int := 5
def etime : Int := 62

inductive TaskState
  | init
  | running
  | ready
  | blocked
  | sleeping
  | waiting
  | died
  deriving DecidableEq

/-- The lock of a disk controller and all the others. -/
inductive LockId
  | ctrl (d : Nat)
  | other (n : Nat)
  deriving DecidableEq

/-- The lists a blocked task may be on: `block_list`, `sleep_list`, the waiters of a mutex, the `wait_list`
of a buffer descriptor. -/
inductive Queue
  | block
  | sleep
  | mutex (l : LockId)
  | buffer (desc : Nat)
  deriving DecidableEq

/-- The pointers through which a task is woken. The waiters of a socket are reset by the task itself; those of
a pipe, the keyboard, a serial line, the sound card and the network card wait without a timeout; `ctrl->waiter`
of a disk has a timeout. -/
inductive Waiter
  | socket (n : Nat)
  | pipe (n : Nat)
  | disk (d : Nat)
  deriving DecidableEq

inductive InodeType
  | none
  | minix
  | iso
  | pipe
  | socket
  deriving DecidableEq

structure Inode where
  type : InodeType
  count : Int
  buf : Nat

structure Buffer where
  dirty : Bool
  count : Int
  desc : Nat
  dev : Nat
  block : BitVec 32
  sectors : Nat

structure File where
  count : Nat
  inode : Nat

structure Fs where
  inode : Nat → Inode
  buffer : Nat → Buffer
  file : Nat → File

inductive DiskType
  | ram
  | dma
  | pio
  deriving DecidableEq

/-- What `ide_busy_wait` reads from the drive, or that its time is over. -/
inductive Busy
  | again
  | ready
  | error
  | timeout
  deriving DecidableEq

/-- The calls a task may have to make. -/
inductive Op
  | wait (w : Waiter) (timeout : Nat)
  | woken (w : Waiter)
  | wake (w : Waiter)
  | block (st : TaskState) (timeout : Nat)
  | wakeThread (t : Nat) (guarded : Bool)
  | sleep (ms : Nat)
  | yield
  | lock (l : LockId)
  | unlock (l : LockId)
  | waitBuffer (desc : Nat)
  | request (d : Nat) (idx : BitVec 32) (count : Nat)
  | granted
  | disk (d count : Nat)
  | busyWait (d count : Nat)
  | sectors (d count : Nat)
  | check (d count : Nat)
  | reset
  | result
  | finish (d id : Nat)
  | bwrite (b : Nat)
  | cleaned (b : Nat)
  | brelse (b : Nat)
  | release (b : Nat)
  | iput (i : Nat)
  | closeInode (i : Nat)
  | putInode (i : Nat)
  | close (f : Nat)
  | reparent
  | tellParent
  | leave
  | kill (pid : Nat)
  | waitpid (pid : Option Nat)
  | fork (p : Nat)
  | create (p uid : Nat) (priority : Int)
  | modify (f : Fs → Fs)

structure Task where
  pid : Nat
  ppid : Nat
  uid : Nat
  state : TaskState
  /-- the list `node` is linked in -/
  node : Option Queue
  /-- when the timer of `task_block` expires -/
  timer : Option Nat
  status : Int
  /-- what the transfer of a block returned -/
  ret : Int
  ticks : Int
  priority : Int
  jiffies : Nat
  /-- `-1` is `none` -/
  waitpid : Option Nat
  ipwd : Nat
  iroot : Nat
  iexec : Option Nat
  /-- the entries of `files` in use -/
  files : List Nat
  kont : List Op

/-- A request, known by its block of memory, and the task that waits for its turn. -/
structure Request where
  id : Nat
  idx : BitVec 32
  task : Option Nat

/-- The holder of a lock; its mutex is held as long as there is one. -/
structure Lock where
  holder : Option Nat
  depth : Nat

structure State where
  running : Nat
  idle : Nat
  /-- `task_table` -/
  table : Nat → Option Nat
  task : Nat → Task
  queue : Queue → List Nat
  waiter : Waiter → Option Nat
  lock : LockId → Lock
  requests : Nat → List Request
  /-- the block the next request gets -/
  nextRequest : Nat
  /-- `DIRECT_UP` -/
  up : Nat → Bool
  diskType : Nat → DiskType
  jiffies : Nat
  fs : Fs

inductive Fault
  | linked
  | timer
  | state
  | unlock
  | status
  | request
  | parent
  | file
  | inode
  | full
  deriving DecidableEq

def State.setTask (s : State) (t : Nat) (x : Task) : State := { s with task := Function.update s.task t x }

def State.push (s : State) (ops : List Op) : State :=
  s.setTask s.running { s.task s.running with kont := ops ++ (s.task s.running).kont }

/-! ## Blocking and switching -/

/-- One round of `task_search`: the slot `i` against what was found before. -/
def searchSlot (s : State) (st : TaskState) (found : Option Nat) (i : Nat) : Option Nat :=
  match s.table i with
  | none => found
  | some p =>
    if (s.task p).state ≠ st ∨ p = s.running then found
    else
      match found with
      | none => some p
      | some q =>
        if (s.task q).ticks < (s.task p).ticks ∨ (s.task p).jiffies < (s.task q).jiffies then some p else found

/-- `task_search`: the task of that state, except the running one, with the most time left or the longest wait. -/
def taskSearch (s : State) (st : TaskState) : Option Nat := (List.range taskNr).foldl (searchSlot s st) none

def schedule (s : State) : State :=
  let next := (taskSearch s .ready).getD s.idle
  let current := s.task s.running
  let current := if current.state = .running then { current with state := .ready } else current
  let current := if current.ticks = 0 then { current with ticks := current.priority } else current
  let s := s.setTask s.running current
  { s.setTask next { s.task next with state := .running } with running := next }

def timerExpireJiffies (s : State) (ms : Nat) : Nat := s.jiffies + ms / jiffy

/-- The running task is entered in a list; 0 stands for `TIMELESS`. -/
def State.blocked (s : State) (q : Queue) (st : TaskState) (timeout : Nat) : State :=
  let t := s.task s.running
  let timer := if 0 < timeout then some (timerExpireJiffies s timeout) else t.timer
  { s.setTask s.running { t with node := some q, timer := timer, state := st } with
    queue := Function.update s.queue q (s.running :: s.queue q) }

def taskBlock (s : State) (q : Queue) (st : TaskState) (timeout : Nat) : Except Fault State :=
  let t := s.task s.running
  if t.node ≠ none then .error .linked
  else if st = .ready ∨ st = .running then .error .state
  else if 0 < timeout ∧ t.timer ≠ none then .error .timer
  else .ok (schedule (s.blocked q st timeout))

def State.unblocked (s : State) (t : Nat) (reason : Int) : State :=
  { s.setTask t { s.task t with node := none, timer := none, status := reason, state := .ready } with
    queue := fun q => (s.queue q).filter (· ≠ t) }

def taskUnblock (s : State) (t : Nat) (reason : Int) : Except Fault State :=
  if (s.task t).state = .running then .error .state else .ok (s.unblocked t reason)

def Waiter.state : Waiter → TaskState
  | .socket _ => .waiting
  | _ => .blocked

def Waiter.timeout : Waiter → Nat → Nat
  | .pipe _, _ => 0
  | _, ms => ms

def wait (s : State) (w : Waiter) (timeout : Nat) : Except Fault State :=
  taskBlock ({ s with waiter := Function.update s.waiter w (some s.running) }.push [.woken w]) .block w.state (w.timeout timeout)

/-- After `task_block` only the code of the sockets resets the pointer. -/
def woken (s : State) : Waiter → State
  | .socket n => { s with waiter := Function.update s.waiter (.socket n) none }
  | _ => s

def wake (s : State) (w : Waiter) : Except Fault State :=
  match s.waiter w with
  | none => .ok s
  | some t => do
    let s ← taskUnblock s t eok
    pure { s with waiter := Function.update s.waiter w none }

/-- `netif_input` and `netif_output` wake a thread that waits, `dhcp_start` wakes its thread. -/
def wakeThread (s : State) (t : Nat) (guarded : Bool) : Except Fault State :=
  if guarded ∧ (s.task t).state ≠ .waiting then .ok s else taskUnblock s t eok

def lockAcquire (s : State) (l : LockId) : Except Fault State :=
  match (s.lock l).holder with
  | none => .ok { s with lock := Function.update s.lock l ⟨some s.running, 1⟩ }
  | some h =>
    if h = s.running then .ok { s with lock := Function.update s.lock l ⟨some h, (s.lock l).depth + 1⟩ }
    else taskBlock (s.push [.lock l]) (.mutex l) .blocked 0

/-- `lock_release`: `mutex_unlock` wakes the first that came and yields to it. -/
def lockRelease (s : State) (l : LockId) : Except Fault State :=
  if (s.lock l).holder ≠ some s.running then .error .unlock
  else if 1 < (s.lock l).depth then .ok { s with lock := Function.update s.lock l ⟨some s.running, (s.lock l).depth - 1⟩ }
  else
    let s := { s with lock := Function.update s.lock l ⟨none, 0⟩ }
    match (s.queue (.mutex l)).getLast? with
    | none => .ok s
    | some t => do
      let s ← taskUnblock s t eok
      pure (schedule s)

/-! ## Block devices -/

def deviceRequest (s : State) (d : Nat) (idx : BitVec 32) (count : Nat) : Except Fault State :=
  let id := s.nextRequest
  let empty := (s.requests d).isEmpty
  let req : Request := ⟨id, idx, if empty then none else some s.running⟩
  let s := { s with
    requests := Function.update s.requests d (listInsertSort Request.idx req (s.requests d))
    nextRequest := id + 1 }
  if empty then .ok (s.push [.disk d count, .finish d id])
  else taskBlock (s.push [.granted, .disk d count, .finish d id]) .block .blocked 0

/-- `request_nextreq` for the request between `l` and `r`, and the direction after it. -/
def requestNextreq (up : Bool) (l r : List Request) : Bool × Option Request :=
  let up := if up = true ∧ r = [] then false else if up = false ∧ l = [] then true else up
  (up, if up then r.head? else l.getLast?)

/-- `device_request` after the transfer: the next task is woken, if a request is left. -/
def finish (s : State) (d id : Nat) : Except Fault State :=
  let l := (s.requests d).takeWhile fun x => decide (x.id ≠ id)
  let r := ((s.requests d).dropWhile fun x => decide (x.id ≠ id)).tail
  let next := requestNextreq (s.up d) l r
  let s := { s with
    requests := Function.update s.requests d ((s.requests d).filter fun x => decide (x.id ≠ id))
    up := Function.update s.up d next.1 }
  match next.2 with
  | none => .ok s
  | some x =>
    match x.task with
    | none => .error .request
    | some t => taskUnblock s t eok

/-- The driver: `ramdisk_write`, `ide_udma_write` or `ide_pio_write`, and the same to read. -/
def diskOps (type : DiskType) (d count : Nat) : List Op :=
  match type with
  | .ram => []
  | .dma => [.lock (.ctrl d), .wait (.disk d) ideTimeout, .result, .unlock (.ctrl d)]
  | .pio => [.lock (.ctrl d), .busyWait d count, .unlock (.ctrl d)]

def State.setRet (s : State) (r : Int) : State := s.setTask s.running { s.task s.running with ret := r }

/-- `ide_busy_wait`, then the transfer of the sectors that are left. -/
def busyWait (s : State) (d count : Nat) : Busy → State
  | .again => s.push [.sleep ideDelay, .busyWait d count]
  | .ready => s.push [.sectors d count]
  | .error => (s.setRet (-eio)).push [.sleep ideDelay, .reset]
  | .timeout => s.setRet (-etime)

def reset (s : State) : Busy → State
  | .again | .error => s.push [.sleep ideDelay, .reset]
  | .ready | .timeout => s

def sectors (s : State) (d : Nat) : Nat → State
  | 0 => s.setRet eok
  | n + 1 => s.push [.wait (.disk d) ideTimeout, .check d n]

def check (s : State) (d n : Nat) : State :=
  if (s.task s.running).status < 0 then s.setRet (s.task s.running).status else s.push [.busyWait d n]

def bwrite (s : State) (b : Nat) : State :=
  let x := s.fs.buffer b
  if x.dirty then s.push [.request x.dev x.block x.sectors, .cleaned b] else s

def State.setBuffer (s : State) (b : Nat) (x : Buffer) : State :=
  { s with fs := { s.fs with buffer := Function.update s.fs.buffer b x } }

def cleaned (s : State) (b : Nat) : State :=
  if (s.task s.running).ret < 0 then s else s.setBuffer b { s.fs.buffer b with dirty := false }

def release (s : State) (b : Nat) : Except Fault State :=
  let x := s.fs.buffer b
  let s := s.setBuffer b { x with count := x.count - 1 }
  if x.count - 1 ≠ 0 then .ok s
  else
    match (s.queue (.buffer x.desc)).getLast? with
    | none => .ok s
    | some t => taskUnblock s t eok

/-! ## Inodes and files -/

def State.setInode (s : State) (i : Nat) (x : Inode) : State :=
  { s with fs := { s.fs with inode := Function.update s.fs.inode i x } }

def closeInode (s : State) (i : Nat) : State :=
  let x := s.fs.inode i
  (s.setInode i { x with count := x.count - 1 }).push (if x.count - 1 ≠ 0 then [] else [.brelse x.buf, .putInode i])

def putInode (s : State) (i : Nat) : State := s.setInode i { s.fs.inode i with type := .none }

/-- `iput`; `net` is what closing a socket makes the network code do. -/
def iput (s : State) (i : Nat) (net : List Op) : Except Fault State :=
  let x := s.fs.inode i
  match x.type with
  | .none => .error .inode
  | .minix => .ok (s.push [.bwrite x.buf, .closeInode i])
  | .iso => .ok (s.push [.closeInode i])
  | .pipe | .socket =>
    .ok (if x.count - 1 ≠ 0 then s.setInode i { x with count := x.count - 1 }
    else (s.setInode i { x with type := .none, count := 0 }).push (if x.type = .socket then net else []))

def Fs.hold (fs : Fs) (inodes files : List Nat) : Fs :=
  { fs with
    inode := fun i => { fs.inode i with count := (fs.inode i).count + inodes.count i }
    file := fun f => { fs.file f with count := (fs.file f).count + files.count f } }

def close (s : State) (f : Nat) : Except Fault State :=
  let x := s.fs.file f
  if x.count = 0 then .error .file
  else
    let s := { s with fs := { s.fs with file := Function.update s.fs.file f { x with count := x.count - 1 } } }
    .ok (if x.count - 1 = 0 then s.push [.iput x.inode] else s)

/-! ## The life of a task -/

def taskExit (s : State) (status : Int) : Except Fault State :=
  let t := s.task s.running
  if t.node ≠ none then .error .linked
  else if t.state ≠ .running then .error .state
  else
    .ok (s.setTask s.running { t with
      state := .died
      status := status
      timer := none
      kont := [.iput t.ipwd, .iput t.iroot] ++ t.iexec.toList.map .iput ++ t.files.map .close ++ [.reparent, .tellParent, .leave] })

def reparentSlot (s : State) (i : Nat) : State :=
  let t := s.task s.running
  match s.table i with
  | none => s
  | some c => if 2 ≤ i ∧ (s.task c).ppid = t.pid then s.setTask c { s.task c with ppid := t.ppid } else s

def reparent (s : State) : State := (List.range taskNr).foldl reparentSlot s

def tellParent (s : State) : Except Fault State :=
  let t := s.task s.running
  match s.table t.ppid with
  | none => .error .parent
  | some p =>
    let x := s.task p
    if x.state = .waiting ∧ (x.waitpid = none ∨ x.waitpid = some t.pid) then taskUnblock s p eok else .ok s

def children (s : State) (pid : Option Nat) : List (Nat × Nat) :=
  (List.range taskNr).filterMap fun i =>
    match s.table i with
    | none => none
    | some c =>
      if 2 ≤ i ∧ (s.task c).ppid = (s.task s.running).pid ∧ (pid = none ∨ pid = some (s.task c).pid) then some (i, c) else none

def deadChild (s : State) (pid : Option Nat) : Option (Nat × Nat) :=
  (children s pid).find? fun c => decide ((s.task c.2).state = .died)

def taskWaitpid (s : State) (pid : Option Nat) : Except Fault State :=
  match deadChild s pid with
  | some (i, _) => .ok { s with table := Function.update s.table i none }
  | none =>
    if children s pid = [] then .ok s
    else taskBlock ((s.setTask s.running { s.task s.running with waitpid := pid }).push [.waitpid pid]) .block .waiting 0

def freeSlot (s : State) : Option Nat := (List.range taskNr).find? fun i => decide (s.table i = none)

def taskFork (s : State) (p : Nat) : Except Fault State :=
  match freeSlot s with
  | none => .error .full
  | some i =>
    let t := s.task s.running
    if t.node ≠ none then .error .linked
    else if t.state ≠ .running then .error .state
    else
      .ok { s.setTask p { t with pid := i, ppid := t.pid, ticks := t.priority, state := .ready, kont := [] } with
        table := Function.update s.table i (some p)
        fs := s.fs.hold ([t.ipwd, t.iroot] ++ t.iexec.toList) t.files }

def taskCreate (s : State) (p uid : Nat) (priority : Int) : Except Fault State :=
  match freeSlot s with
  | none => .error .full
  | some i =>
    .ok { s.setTask p ⟨i, 0, uid, .ready, none, none, 0, 0, priority, priority, 0, some 0, 0, 0, none, [0, 1, 2], []⟩ with
      table := Function.update s.table i (some p)
      fs := s.fs.hold [0, 0] [0, 1, 2] }

def getTask (s : State) (pid : Nat) : Option Nat :=
  (List.range taskNr).findSome? fun i =>
    match s.table i with
    | none => none
    | some p => if (s.task p).pid = pid then some p else none

def sysKill (s : State) (pid : Nat) : Except Fault State :=
  match getTask s pid with
  | none => .ok s
  | some t =>
    let x := s.task t
    if x.uid = 0 ∨ x.pid = 1 then .ok s
    else if x.state = .waiting ∨ x.state = .sleeping then taskUnblock s t (-eintr)
    else .ok s

/-! ## The machine -/

/-- What the hardware and the network decide in a call. -/
structure Choice where
  busy : Busy
  net : List Op

def exec (s : State) (c : Choice) : Op → Except Fault State
  | .wait w ms => wait s w ms
  | .woken w => .ok (woken s w)
  | .wake w => wake s w
  | .block st ms => taskBlock s .block st ms
  | .wakeThread t g => wakeThread s t g
  | .sleep ms => taskBlock s .sleep .sleeping ms
  | .yield => .ok (schedule s)
  | .lock l => lockAcquire s l
  | .unlock l => lockRelease s l
  | .waitBuffer d => taskBlock s (.buffer d) .blocked 0
  | .request d idx n => deviceRequest s d idx n
  | .granted => if (s.task s.running).status = eok then .ok s else .error .status
  | .disk d n => .ok (if s.diskType d = .ram then s.setRet eok else s.push (diskOps (s.diskType d) d n))
  | .busyWait d n => .ok (busyWait s d n c.busy)
  | .sectors d n => .ok (sectors s d n)
  | .check d n => .ok (check s d n)
  | .result => .ok (s.setRet (s.task s.running).status)
  | .reset => .ok (reset s c.busy)
  | .finish d id => finish s d id
  | .bwrite b => .ok (bwrite s b)
  | .cleaned b => .ok (cleaned s b)
  | .brelse b => .ok (s.push [.bwrite b, .release b])
  | .release b => release s b
  | .iput i => iput s i c.net
  | .closeInode i => .ok (closeInode s i)
  | .putInode i => .ok (putInode s i)
  | .close f => close s f
  | .reparent => .ok (reparent s)
  | .tellParent => tellParent s
  | .leave => .ok (schedule s)
  | .kill pid => sysKill s pid
  | .waitpid pid => taskWaitpid s pid
  | .fork p => taskFork s p
  | .create p uid pr => taskCreate s p uid pr
  | .modify f => .ok { s with fs := f s.fs }

/-- `default_timeout` of the timers that have expired, in `timer_wakeup`. -/
def timerWakeup (s : State) : Except Fault State :=
  forRange taskNr (fun i s =>
    match s.table i with
    | none => .ok s
    | some t =>
      match (s.task t).timer with
      | none => .ok s
      | some e => if e ≤ s.jiffies then taskUnblock s t (-etime) else .ok s) s

def clockHandler (s : State) : Except Fault State := do
  let s ← timerWakeup { s with jiffies := s.jiffies + 1 }
  let t := s.task s.running
  let s := s.setTask s.running { t with jiffies := s.jiffies, ticks := t.ticks - 1 }
  pure (if t.ticks - 1 = 0 then schedule s else s)

inductive Act
  | enter (ops : List Op)
  | exit (status : Int)
  | exec (c : Choice)
  | clock
  | alarm (pid : Nat)
  | interrupt (w : Waiter)

/-- The calls the network code makes when a socket is closed: packets are handed to a thread under its lock and
tasks that wait on the socket are woken. -/
def Op.net : Op → Bool
  | .lock (.other _) | .unlock (.other _) | .wakeThread _ _ | .wake (.socket _) => true
  | _ => false

def Op.inner : Op → Bool
  | .woken _ | .granted | .disk _ _ | .busyWait _ _ | .sectors _ _ | .check _ _ | .reset | .result | .finish _ _ | .cleaned _
  | .release _ | .closeInode _ | .putInode _ | .reparent | .tellParent | .leave => true
  | _ => false

def State.Page (s : State) (p : Nat) : Prop := ∃ i, i < taskNr ∧ s.table i = some p

instance (s : State) (p : Nat) : Decidable (s.Page p) :=
  decidable_of_iff (∃ i ∈ List.range taskNr, s.table i = some p) (by simp [State.Page])

/-- What the callers see to: a thread blocks as one that waits, a new task gets a free page, and the threads that
are woken by name are of the kernel. -/
def Op.admits (s : State) : Op → Prop
  | .block st _ => st = .waiting ∨ st = .blocked
  | .fork p | .create p _ _ => ¬ s.Page p
  | .wakeThread t _ => (s.task t).uid = 0 ∧ s.Page t
  | _ => True

instance (s : State) : (op : Op) → Decidable (op.admits s)
  | .block _ _ => inferInstanceAs (Decidable (_ ∨ _))
  | .fork p | .create p _ _ => inferInstanceAs (Decidable (¬ s.Page p))
  | .wakeThread _ _ => inferInstanceAs (Decidable (_ ∧ _))
  | .wait _ _ | .woken _ | .wake _ | .sleep _ | .yield | .lock _ | .unlock _ | .waitBuffer _
  | .request _ _ _ | .granted | .disk _ _ | .busyWait _ _ | .sectors _ _ | .check _ _ | .reset | .result | .finish _ _ | .bwrite _
  | .cleaned _ | .brelse _ | .release _ | .iput _ | .closeInode _ | .putInode _ | .close _ | .reparent | .tellParent | .leave
  | .kill _ | .waitpid _ | .modify _ => inferInstanceAs (Decidable True)

def State.Outside (s : State) : Prop := (s.task s.running).kont.isEmpty = true

instance (s : State) : Decidable s.Outside := inferInstanceAs (Decidable (_ = true))

def enabled (s : State) : Act → Prop
  | .enter ops => s.Outside ∧ ∀ op ∈ ops, op.inner = false
  | .exit _ => s.Outside ∧ (s.task s.running).uid ≠ 0
  | .exec c => (∃ op ∈ (s.task s.running).kont.head?, op.admits s) ∧ ∀ op ∈ c.net, op.net = true
  | .clock | .alarm _ | .interrupt _ => s.Outside

instance (s : State) : (a : Act) → Decidable (enabled s a)
  | .enter _ | .exit _ | .exec _ => inferInstanceAs (Decidable (_ ∧ _))
  | .clock | .alarm _ | .interrupt _ => inferInstanceAs (Decidable s.Outside)

def State.pop (s : State) : State :=
  s.setTask s.running { s.task s.running with kont := (s.task s.running).kont.tail }

def step (s : State) : Act → Except Fault State
  | .enter ops => .ok (s.push ops)
  | .exit status => taskExit s status
  | .exec c =>
    match (s.task s.running).kont with
    | [] => .ok s
    | op :: _ => exec s.pop c op
  | .clock => clockHandler s
  | .alarm pid => sysKill s pid
  | .interrupt w => wake s w

def tasks : Machine State Act Fault where
  start s := s.running = s.idle ∧ s.Page s.idle ∧ (∀ i j p, s.table i = some p → s.table j = some p → i = j) ∧
    (s.task s.idle).uid = 0 ∧ (s.task s.idle).state = .running ∧
    (∀ p, s.Page p → (s.task p).state ≠ .died ∧ (s.task p).node = none ∧ (s.task p).timer = none ∧ (s.task p).kont = []) ∧
    (∀ q, s.queue q = []) ∧ (∀ w, s.waiter w = none) ∧ ∀ d, s.requests d = []
  enabled := enabled
  step := step

end Onix.Sched
