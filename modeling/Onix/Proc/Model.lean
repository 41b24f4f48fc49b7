/-
Processes and their timers: `kernel/task.c`, `kernel/timer.c`, `kernel/alarm.c`, `sys_kill` of `kernel/signal.c` and `clock_handler` of
`kernel/clock.c`. A task is known by the address of its page and a timer by the number of its allocation.

The kernel runs with interrupts off, so a step is what the running task does until it is switched away or leaves the kernel, or a clock
interrupt that comes outside of it. The files, inodes and memory that `task_exit` frees are not modelled, nor the signals to a session;
what frees them is taken not to block, so that an exit is one step.
-/
import Onix.Lib.Machine
import Onix.Lib.Loop
import Onix.List

namespace Onix.Proc

open Onix.Lib

abbrev Word := BitVec 32

/-! ## Data -/

def taskNr : Nat := 64

def jiffy : Word := 10

def eof : Word := -100

def minSig : Int := 1
def maxSig : Int := 31
def sigAlrm : Int := 14
def sigChld : Int := 17

def sigmask (sig : Int) : Word := 1 <<< (sig - 1).toNat

def eok : Int := 0
def eintr : Int := 4
def etime : Int := 62

inductive TaskState
  | init
  | running
  | ready
  | blocked
  | sleeping
  | waiting
  | died
  deriving DecidableEq

/-- `timer_t`; the handler is `task_alarm` or there is none. -/
structure Timer where
  task : Nat
  expires : Word
  alarm : Bool
  active : Bool

/-- `task_t`; in `waitpid` and in the call it is from, `-1` is `none`. -/
structure Task where
  pid : Nat
  ppid : Nat
  uid : Nat
  state : TaskState
  /-- whether `node` is in a list -/
  linked : Bool
  status : Int
  waitpid : Option Nat
  signal : Word
  priority : Int
  ticks : Int
  jiffies : Word
  alarm : Option Nat
  timer : Option Nat
  /-- the call of `task_waitpid` the task is in -/
  call : Option (Option Nat)

structure State where
  running : Nat
  idle : Nat
  /-- `task_table` -/
  table : Nat → Option Nat
  task : Nat → Task
  /-- `timer_list` -/
  timers : List Nat
  timer : Nat → Timer
  /-- the timer that is allocated next -/
  nextTimer : Nat
  /-- the timers that were freed -/
  freed : List Nat
  jiffies : Word

/-- Failed assertions and panics; a timer is freed that is not in the list; the first of no timers expires. -/
inductive Fault
  | full
  | parent
  | linked
  | state
  | timer
  | freed
  | empty
  | hang
  deriving DecidableEq

def State.setTask (s : State) (p : Nat) (x : Task) : State := { s with task := Function.update s.task p x }

def State.setTimer (s : State) (a : Nat) (x : Timer) : State := { s with timer := Function.update s.timer a x }

/-! ## Timers -/

def timerPut (s : State) (a : Nat) : Except Fault State :=
  if a ∈ s.timers then .ok { s with timers := s.timers.filter (· ≠ a), freed := a :: s.freed } else .error .freed

def timerExpireJiffies (s : State) (ms : Word) : Word := s.jiffies + ms / jiffy

def timerAdd (s : State) (ms : Word) (alarm : Bool) : State :=
  let s := s.setTimer s.nextTimer ⟨s.running, timerExpireJiffies s ms, alarm, false⟩
  { s with timers := listInsertSort (fun a => (s.timer a).expires) s.nextTimer s.timers, nextTimer := s.nextTimer + 1 }

def timerRemove (s : State) (p : Nat) : Except Fault State :=
  s.timers.foldlM (fun s a => if (s.timer a).task = p then timerPut s a else .ok s) s

def timerExpires (s : State) : Word :=
  match s.timers with
  | [] => eof
  | a :: _ => (s.timer a).expires

/-! ## Blocking and switching -/

def getTask (s : State) (pid : Nat) : Option Nat :=
  (List.range taskNr).findSome? fun i =>
    match s.table i with
    | none => none
    | some p => if (s.task p).pid = pid then some p else none

def searchSlot (s : State) (st : TaskState) (found : Option Nat) (i : Nat) : Option Nat :=
  match s.table i with
  | none => found
  | some p =>
    if (s.task p).state ≠ st ∨ p = s.running then found
    else
      match found with
      | none => some p
      | some q => if (s.task q).ticks < (s.task p).ticks ∨ (s.task p).jiffies < (s.task q).jiffies then some p else found

def taskSearch (s : State) (st : TaskState) : Option Nat := (List.range taskNr).foldl (searchSlot s st) none

def Task.leave (x : Task) : Task :=
  { x with state := if x.state = .running then .ready else x.state, ticks := if x.ticks = 0 then x.priority else x.ticks }

def schedule (s : State) : State :=
  let next := (taskSearch s .ready).getD s.idle
  let s := s.setTask s.running (s.task s.running).leave
  { s.setTask next { s.task next with state := .running } with running := next }

def blockTimer (s : State) (ms : Int) : Except Fault State :=
  if 0 < ms then
    if (s.task s.running).timer ≠ none then .error .timer
    else .ok ((timerAdd s (BitVec.ofInt 32 ms) false).setTask s.running { s.task s.running with timer := some s.nextTimer })
  else .ok s

def taskBlock (s : State) (st : TaskState) (ms : Int) : Except Fault State :=
  if (s.task s.running).linked then .error .linked
  else if st = .ready ∨ st = .running then .error .state
  else do
    let s ← blockTimer s ms
    pure (schedule (s.setTask s.running { s.task s.running with linked := true, state := st }))

/-- The timer of `task_unblock`, which is not freed while it expires. -/
def unblockTimer (s : State) (p : Nat) : Except Fault State :=
  match (s.task p).timer with
  | none => .ok s
  | some a => if (s.timer a).active then .ok s else timerPut s a

def taskUnblock (s : State) (p : Nat) (reason : Int) : Except Fault State := do
  let s ← unblockTimer s p
  if (s.task p).state = .running then .error .state
  else .ok (s.setTask p { s.task p with linked := false, timer := none, status := reason, state := .ready })

/-! ## Calls -/

def freeSlot (s : State) : Option Nat := (List.range taskNr).find? fun i => decide (s.table i = none)

def State.spawn (s : State) (i p : Nat) (x : Task) : State := { s.setTask p x with table := Function.update s.table i (some p) }

def taskFork (s : State) (p : Nat) : Except Fault State :=
  let t := s.task s.running
  if t.linked ∨ t.state ≠ .running then .error .state
  else
    match freeSlot s with
    | none => .error .full
    | some i => .ok (s.spawn i p { t with pid := i, ppid := t.pid, ticks := t.priority, state := .ready })

def taskTellFather (s : State) : Except Fault State :=
  let t := s.task s.running
  if t.ppid = 0 then .ok s
  else
    match getTask s t.ppid with
    | none => .error .parent
    | some p => .ok (s.setTask p { s.task p with signal := (s.task p).signal ||| sigmask sigChld })

def reparentSlot (s : State) (i : Nat) : State :=
  let t := s.task s.running
  match s.table i with
  | none => s
  | some c => if 2 ≤ i ∧ (s.task c).ppid = t.pid then s.setTask c { s.task c with ppid := t.ppid } else s

def reparent (s : State) : State := (List.range taskNr).foldl reparentSlot s

def wakeParent (s : State) : Except Fault State :=
  let t := s.task s.running
  match s.table t.ppid with
  | none => .error .parent
  | some p =>
    let x := s.task p
    if x.state = .waiting ∧ (x.waitpid = none ∨ x.waitpid = some t.pid) then taskUnblock s p eok else .ok s

def taskExit (s : State) (status : Int) : Except Fault State :=
  let t := s.task s.running
  if t.linked ∨ t.state ≠ .running then .error .state
  else do
    let s ← taskTellFather (s.setTask s.running { t with state := .died, status := status })
    let s ← timerRemove s s.running
    let s ← wakeParent (reparent s)
    pure (schedule s)

/-- The slots and pages of the children that `task_waitpid` looks at. -/
def children (s : State) (pid : Option Nat) : List (Nat × Nat) :=
  (List.range taskNr).filterMap fun i =>
    match s.table i with
    | none => none
    | some c =>
      if 2 ≤ i ∧ (s.task c).ppid = (s.task s.running).pid ∧ (pid = none ∨ pid = some (s.task c).pid) then some (i, c) else none

def deadChild (s : State) (pid : Option Nat) : Option (Nat × Nat) :=
  (children s pid).find? fun c => decide ((s.task c.2).state = .died)

/-- The running task is in a call of `task_waitpid`, or returns from it. -/
def State.inCall (s : State) (call : Option (Option Nat)) : State := s.setTask s.running { s.task s.running with call := call }

def taskWaitpid (s : State) (pid : Option Nat) : Except Fault State :=
  match deadChild s pid with
  | some (i, _) => .ok { s.inCall none with table := Function.update s.table i none }
  | none =>
    if children s pid = [] then .ok (s.inCall none)
    else taskBlock (s.setTask s.running { s.task s.running with waitpid := pid, call := some pid }) .waiting 0

def sysKill (s : State) (pid : Nat) (sig : Int) : Except Fault State :=
  if sig < minSig ∨ maxSig < sig then .ok s
  else
    match getTask s pid with
    | none => .ok s
    | some p =>
      let x := s.task p
      if x.uid = 0 then .ok s
      else if x.pid = 1 then .ok s
      else
        let s := s.setTask p { x with signal := x.signal ||| sigmask sig }
        if x.state = .waiting ∨ x.state = .sleeping then taskUnblock s p (-eintr) else .ok s

def putAlarm (s : State) : Except Fault State :=
  match (s.task s.running).alarm with
  | none => .ok s
  | some a => timerPut s a

def sysAlarm (s : State) (sec : Word) : Except Fault State := do
  let s ← putAlarm s
  let t := timerAdd s (sec * 1000) true
  pure (t.setTask s.running { s.task s.running with alarm := some s.nextTimer })

/-! ## The clock -/

def taskAlarm (s : State) (p : Nat) : Except Fault State :=
  sysKill (s.setTask p { s.task p with alarm := none }) (s.task p).pid sigAlrm

def timeout (s : State) (x : Timer) : Except Fault State :=
  if x.alarm then taskAlarm s x.task else taskUnblock s x.task (-etime)

def timerLoop : Nat → State → Except Fault State
  | 0, _ => .error .hang
  | fuel + 1, s =>
    if timerExpires s ≤ s.jiffies then
      match s.timers with
      | [] => .error .empty
      | a :: _ => do
        let t ← timeout (s.setTimer a { s.timer a with active := true }) (s.timer a)
        let t ← timerPut t a
        timerLoop fuel t
    else .ok s

def timerWakeup (s : State) : Except Fault State := timerLoop (s.timers.length + 1) s

def clockHandler (s : State) : Except Fault State := do
  let s ← timerWakeup { s with jiffies := s.jiffies + 1 }
  let t := s.task s.running
  let s := s.setTask s.running { t with jiffies := s.jiffies, ticks := t.ticks - 1 }
  pure (if t.ticks - 1 = 0 then schedule s else s)

/-! ## The machine -/

inductive Act
  | fork (p : Nat)
  | exit (status : Int)
  | waitpid (pid : Option Nat)
  | kill (pid : Nat) (sig : Int)
  | alarm (sec : Word)
  | block (st : TaskState) (ms : Int)
  | unblock (p : Nat) (reason : Int)
  | yield
  | clock

def State.Page (s : State) (p : Nat) : Prop := ∃ i, i < taskNr ∧ s.table i = some p

instance (s : State) (p : Nat) : Decidable (s.Page p) :=
  decidable_of_iff (∃ i ∈ List.range taskNr, s.table i = some p) (by simp [State.Page])

/-- The running task is not woken in `task_waitpid`, where it goes on first. -/
def State.Outside (s : State) : Prop := (s.task s.running).call = none

instance (s : State) : Decidable s.Outside := inferInstanceAs (Decidable (_ = none))

/-- The idle task makes no calls; it and the task 1 do not exit; a new task gets a page of its own; a task that died is not woken. -/
def enabled (s : State) : Act → Prop
  | .fork p => s.Outside ∧ s.running ≠ s.idle ∧ ¬ s.Page p
  | .exit _ => s.Outside ∧ s.running ≠ s.idle ∧ (s.task s.running).pid ≠ 1
  | .waitpid pid => (s.Outside ∨ (s.task s.running).call = some pid) ∧ s.running ≠ s.idle
  | .alarm _ => s.Outside ∧ s.running ≠ s.idle
  | .block st _ => s.Outside ∧ s.running ≠ s.idle ∧ (st = .blocked ∨ st = .sleeping ∨ st = .waiting)
  | .unblock p _ => s.Outside ∧ s.Page p ∧ (s.task p).state ≠ .died
  | .kill _ _ | .yield | .clock => s.Outside

instance (s : State) : (a : Act) → Decidable (enabled s a)
  | .fork _ | .exit _ | .waitpid _ | .alarm _ | .block _ _ | .unblock _ _ => inferInstanceAs (Decidable (_ ∧ _))
  | .kill _ _ | .yield | .clock => inferInstanceAs (Decidable s.Outside)

def step (s : State) : Act → Except Fault State
  | .fork p => taskFork s p
  | .exit status => taskExit s status
  | .waitpid pid => taskWaitpid s pid
  | .kill pid sig => sysKill s pid sig
  | .alarm sec => sysAlarm s sec
  | .block st ms => taskBlock s st ms
  | .unblock p reason => taskUnblock s p reason
  | .yield => .ok (schedule s)
  | .clock => clockHandler s

structure Created (i : Nat) (x : Task) : Prop where
  pid : x.pid = i
  ppid : x.ppid = 0
  linked : x.linked = false
  alarm : x.alarm = none
  timer : x.timer = none
  call : x.call = none

/-- After the start: the tasks of the kernel and the task 1; the idle task runs. -/
structure Start (s : State) : Prop where
  idle : s.running = s.idle ∧ s.table 0 = some s.idle
  init : ∃ p, s.table 1 = some p
  room : ∀ i, taskNr ≤ i → s.table i = none
  created : ∀ i p, s.table i = some p → Created i (s.task p) ∧ (s.task p).state = if i = 0 then .running else .ready
  timers : s.timers = [] ∧ s.freed = [] ∧ s.nextTimer = 0

def processes : Machine State Act Fault where
  start := Start
  enabled := enabled
  step := step

end Onix.Proc
