/-
`src/kernel/signal.c` and `src/lib/restorer.asm`: a task with its registers and its user memory, what the signal calls and the delivery
of a signal do to them, and the instructions that bring the task back.

The deliveries that are not over are kept in a list, the last one first, with the registers and the mask the task had before; the kernel
does not read it. Between two deliveries the code of the program or of a handler may do anything to the registers and the memory that
keeps the parts of the frames that are still needed and the flags a user may not change. A signal may be delivered after every
instruction. User memory is mapped, and the flag RF, which `popf` clears, is not part of the flags.
-/
import Onix.Lib.Bytes
import Onix.Lib.Machine

namespace Onix.Signal

open Onix.Lib

abbrev Word := BitVec 32

def SIGKILL : Nat := 9
def SIGCHLD : Nat := 17
def MINSIG : Nat := 1
def MAXSIG : Nat := 31

def EOF : Word := -100
def EPERM : Word := 1

def SIGMASK (sig : Nat) : Word := (1 : Word) <<< (sig - 1)

def SIG_NOMASK : Word := 0x40000000
def SIG_ONESHOT : Word := 0x80000000

def SIG_DFL : Word := 0
def SIG_IGN : Word := 1

structure Action where
  handler : Word
  mask : Word
  flags : Word
  restorer : Word

/-- What the signal calls use of a task. -/
structure Task where
  uid : Nat
  signal : Word
  blocked : Word
  actions : Nat → Action

/-- The registers of `intr_frame_t` that a delivery saves. -/
structure Regs where
  eax : Word
  ecx : Word
  edx : Word
  eflags : Word
  eip : Word
  esp : Word
  deriving DecidableEq

/-- A task with the registers it goes on with in user mode, and its memory. -/
structure User where
  task : Task
  regs : Regs
  mem : ByteMem

inductive Stop
  | assertion
  | bounds
  | exit (status : Word)
  | lost

/-! ## The signal calls -/

def sysSsetmask (t : Task) (newmask : Word) : Task × Word :=
  if newmask = EOF then (t, -EPERM) else ({ t with blocked := newmask &&& ~~~SIGMASK SIGKILL }, t.blocked)

def Task.setAction (t : Task) (i : Nat) (action : Action) : Task :=
  { t with actions := fun j => if j = i then action else t.actions j }

def catchable (sig : Int) : Bool := !(sig < MINSIG || sig > MAXSIG || sig == SIGKILL)

def sysSignal (t : Task) (sig : Int) (handler restorer : Word) : Task × Word :=
  if catchable sig then
    (t.setAction (sig - 1).toNat ⟨handler, 0, SIG_ONESHOT ||| SIG_NOMASK, restorer⟩, handler)
  else (t, EOF)

def loadAction (m : ByteMem) (a : Word) : Action := ⟨m.load a, m.load (a + 4), m.load (a + 8), m.load (a + 12)⟩

def Action.words (x : Action) : List Word := [x.handler, x.mask, x.flags, x.restorer]

/-- `sys_sigaction`; the old action is written before the new one is read. -/
def sysSigaction (u : User) (sig : Int) (action oldaction : Word) : User × Word :=
  if catchable sig then
    let i := (sig - 1).toNat
    let mem := if oldaction = 0 then u.mem else u.mem.storeWords oldaction (u.task.actions i).words
    let x := loadAction mem action
    let mask := if x.flags &&& SIG_NOMASK ≠ 0 then 0 else x.mask ||| SIGMASK sig.toNat
    ({ u with task := u.task.setAction i { x with mask := mask }, mem := mem }, 0)
  else (u, EOF)

/-! ## The delivery -/

structure SignalFrame where
  restorer : Word
  sig : Word
  blocked : Word
  eax : Word
  ecx : Word
  edx : Word
  eflags : Word
  eip : Word

def SignalFrame.words (f : SignalFrame) : List Word := [f.restorer, f.sig, f.blocked, f.eax, f.ecx, f.edx, f.eflags, f.eip]

/-- The first signal of a map from `sig` on, by the rounds that are left; one past the last if there is none. -/
def signalLoop (map : Word) : Nat → Nat → Nat
  | 0, sig => sig
  | n + 1, sig => if map &&& SIGMASK sig ≠ 0 then sig else signalLoop map n (sig + 1)

def savedMask (nomask : Bool) (blocked : Word) : Word := if nomask then blocked else EOF

def Action.nomask (x : Action) : Bool := x.flags &&& SIG_NOMASK != 0

def frameOf (u : User) (sig : Nat) (x : Action) : SignalFrame :=
  ⟨x.restorer, BitVec.ofNat 32 sig, savedMask x.nomask u.task.blocked, u.regs.eax, u.regs.ecx, u.regs.edx, u.regs.eflags, u.regs.eip⟩

def putFrame (u : User) (sig : Nat) (x : Action) : User :=
  let frame := u.regs.esp - 32
  let task := if x.flags &&& SIG_ONESHOT ≠ 0 then u.task.setAction (sig - 1) { x with handler := SIG_DFL } else u.task
  { task := { task with blocked := task.blocked ||| x.mask }
    regs := { u.regs with esp := frame, eip := x.handler }
    mem := u.mem.storeWords frame (frameOf u sig x).words }

/-- `task_signal`; also the action whose handler is entered, if one is. -/
def taskSignal (u : User) : Except Stop (User × Option Action) :=
  let map := u.task.signal &&& ~~~u.task.blocked
  if map = 0 then .ok (u, none)
  else if u.task.uid = 0 then .error .assertion
  else
    let sig := signalLoop map MAXSIG MINSIG
    if MAXSIG < sig then .error .bounds
    else
      let u := { u with task := { u.task with signal := u.task.signal &&& ~~~SIGMASK sig } }
      let x := u.task.actions (sig - 1)
      if x.handler = SIG_IGN then .ok (u, none)
      else if x.handler = SIG_DFL && sig == SIGCHLD then .ok (u, none)
      else if x.handler = SIG_DFL then .error (.exit (SIGMASK sig))
      else .ok (putFrame u sig x, some x)

/-! ## The way back -/

/-- How far a delivery is: in the handler, at an instruction of the restorer, or in `ssetmask` before or after its system call. -/
inductive Stage
  | handler
  | skipSig
  | call
  | calling
  | called
  | skipMask
  | popEax
  | popEcx
  | popEdx
  | popf
  | ret
  deriving DecidableEq

def userFlags : Word := 0x244dd5

def addEsp (r : Regs) : Regs := { r with esp := r.esp + 4, eip := r.eip + 3 }

def ret (r : Regs) (m : ByteMem) : Regs := { r with esp := r.esp + 4, eip := m.load r.esp }

/-- What the stack and the instruction pointer are after a `pop`. -/
def popped (r : Regs) : Regs := { r with esp := r.esp + 4, eip := r.eip + 1 }

/-- The instruction at a stage; `ssetmask` is entered at `entry`. The system call is made elsewhere. -/
def instruction (entry : Word) (r : Regs) (m : ByteMem) : Stage → Regs × ByteMem
  | .handler => (ret r m, m)
  | .skipSig => (addEsp r, m)
  | .call => ({ r with esp := r.esp - 4, eip := entry }, m.store (r.esp - 4) (r.eip + 5))
  | .calling => (r, m)
  | .called => (ret r m, m)
  | .skipMask => (addEsp r, m)
  | .popEax => ({ popped r with eax := m.load r.esp }, m)
  | .popEcx => ({ popped r with ecx := m.load r.esp }, m)
  | .popEdx => ({ popped r with edx := m.load r.esp }, m)
  | .popf => ({ popped r with eflags := r.eflags &&& ~~~userFlags ||| m.load r.esp &&& userFlags }, m)
  | .ret => (ret r m, m)

/-- The stage after an instruction; `none` when the delivery is over. -/
def Stage.next : Stage → Option Stage
  | .handler => some .skipSig
  | .skipSig => some .call
  | .call => some .calling
  | .calling => some .called
  | .called => some .skipMask
  | .skipMask => some .popEax
  | .popEax => some .popEcx
  | .popEcx => some .popEdx
  | .popEdx => some .popf
  | .popf => some .ret
  | .ret => none

def Stage.code : Stage → Option Word
  | .handler => none
  | .skipSig => some 0
  | .call => some 3
  | .calling => none
  | .called => none
  | .skipMask => some 8
  | .popEax => some 11
  | .popEcx => some 12
  | .popEdx => some 13
  | .popf => some 14
  | .ret => some 15

def Stage.keeps : Stage → Nat → Bool
  | .handler, i => i == 0 || 2 ≤ i
  | .skipSig, i => 2 ≤ i
  | .call, i => 2 ≤ i
  | .calling, i => 1 ≤ i
  | .called, i => i == 1 || 3 ≤ i
  | .skipMask, i => 3 ≤ i
  | .popEax, i => 3 ≤ i
  | .popEcx, i => 4 ≤ i
  | .popEdx, i => 5 ≤ i
  | .popf, i => 6 ≤ i
  | .ret, i => 7 ≤ i

def Stage.low : Stage → Nat
  | .handler => 0
  | .skipSig => 2
  | .call => 2
  | .calling => 1
  | .called => 1
  | .skipMask => 3
  | .popEax => 3
  | .popEcx => 4
  | .popEdx => 5
  | .popf => 6
  | .ret => 7

/-- A delivery: what the task had before it, by which action, and how far it is. -/
structure Delivery where
  regs : Regs
  blocked : Word
  nomask : Bool
  restorer : Word
  stage : Stage

namespace Delivery

def frame (d : Delivery) : Word := d.regs.esp - 32

def slot (d : Delivery) (i : Nat) : Word := d.frame + BitVec.ofNat 32 (4 * i)

/-- The words of the frame; the second holds the return address while `ssetmask` is called. -/
def words (d : Delivery) : List Word :=
  [d.restorer, d.restorer + 8, savedMask d.nomask d.blocked, d.regs.eax, d.regs.ecx, d.regs.edx, d.regs.eflags, d.regs.eip]

end Delivery

structure State where
  user : User
  stack : List Delivery
  entry : Word

inductive Act
  | run (regs : Regs) (mem : ByteMem)
  | raise (sig : Nat)
  | deliver
  | ssetmask (newmask : Word)
  | signal (sig : Int) (handler restorer : Word)
  | sigaction (sig : Int) (action oldaction : Word)
  | next

def nextStep (s : State) : Except Stop State :=
  match s.stack with
  | [] => .ok s
  | d :: ds =>
    if ∃ k, d.stage.code = some k ∧ s.user.regs.eip ≠ d.restorer + k then .error .lost
    else if d.stage = .calling then
      -- the argument lies above the return address
      let (task, result) := sysSsetmask s.user.task (s.user.mem.load (d.slot 2))
      .ok { s with
        user := { s.user with task := task, regs := { s.user.regs with eax := result } }
        stack := { d with stage := .called } :: ds }
    else
      let (regs, mem) := instruction s.entry s.user.regs s.user.mem d.stage
      .ok { s with
        user := { s.user with regs := regs, mem := mem }
        stack := match d.stage.next with
          | some stage => { d with stage := stage } :: ds
          | none => ds }

def Delivery.of (u : User) (x : Action) : Delivery := ⟨u.regs, u.task.blocked, x.nomask, x.restorer, .handler⟩

def User.returns (u : User) (result : Word) : User := { u with regs := { u.regs with eax := result } }

def step (s : State) : Act → Except Stop State
  | .run regs mem => .ok { s with user := { s.user with regs := regs, mem := mem } }
  | .raise sig => .ok { s with user.task.signal := s.user.task.signal ||| SIGMASK sig }
  | .deliver => do
    let (user, entered) ← taskSignal s.user
    match entered with
    | some x => .ok { s with user := user, stack := .of s.user x :: s.stack }
    | none => .ok { s with user := user }
  | .ssetmask newmask =>
    let (task, result) := sysSsetmask s.user.task newmask
    .ok { s with user := { s.user with task := task }.returns result }
  | .signal sig handler restorer =>
    let (task, result) := sysSignal s.user.task sig handler restorer
    .ok { s with user := { s.user with task := task }.returns result }
  | .sigaction sig action oldaction =>
    let (user, result) := sysSigaction s.user sig action oldaction
    .ok { s with user := user.returns result }
  | .next => nextStep s

/-! ## What the user's code does not do -/

def Kept (m m' : ByteMem) (stack : List Delivery) : Prop :=
  ∀ d ∈ stack, ∀ i < 8, d.stage.keeps i = true → m'.load (d.slot i) = m.load (d.slot i)

def fixedFlags (eflags : Word) : Word := eflags &&& ~~~userFlags

def Stage.free : Stage → Bool
  | .handler | .calling | .called => true
  | _ => false

/-- What a step needs to be possible. Code runs in the program, in a handler and in `ssetmask`; only the first two make signal calls. -/
def Enabled (s : State) : Act → Prop
  | .run regs mem =>
    Kept s.user.mem mem s.stack ∧ fixedFlags regs.eflags = fixedFlags s.user.regs.eflags ∧
      ∀ d ∈ s.stack.head?, d.stage.free = true ∧ regs.esp.toNat ≤ d.frame.toNat + 4 * d.stage.low
  | .raise sig => MINSIG ≤ sig ∧ sig ≤ MAXSIG
  | .deliver => 32 ≤ s.user.regs.esp.toNat
  | .ssetmask _ | .signal _ _ _ => ∀ d ∈ s.stack.head?, d.stage = .handler
  | .sigaction sig action oldaction =>
    (∀ d ∈ s.stack.head?, d.stage = .handler) ∧ Kept s.user.mem (sysSigaction s.user sig action oldaction).1.mem s.stack
  | .next =>
    ∃ d ∈ s.stack.head?, (d.stage = .handler → s.user.regs.esp = d.slot 0) ∧ (d.stage = .called → s.user.regs.esp = d.slot 1)

def Start (s : State) : Prop := s.stack = [] ∧ s.user.task.uid ≠ 0 ∧ s.user.task.signal.getLsbD 31 = false

def machine : Machine State Act Stop := ⟨Start, Enabled, step⟩

end Onix.Signal
