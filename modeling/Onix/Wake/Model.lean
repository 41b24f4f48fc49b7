/-
Tasks that wait on sockets, and all that ends a wait: `task_block` and `task_unblock`, the waiters of `net/tcp.c`, `tcp_input.c`,
`tcp_pcb.c`, `tcp_timer.c` and `udp.c`, signals, timers, `task_exit` and `task_waitpid`. A part of a call between two waits, an
incoming segment or a round of a timer task for one pcb is one step.

A socket is known by its pcb; after `fork` any number of tasks have it. `TASK_RUNNING` counts as ready: who runs next is left
open. The other waiters of the kernel (disks, keyboard, pipes, buffers, locks) are pointers or lists of tasks, from which one is woken.
-/
import Onix.Tcp.Resend

namespace Onix.Wake

open Onix.Lib
open Onix.Tcp (Segment Seq Flags TcpState TcpTimer SockOpt TimeoutEnds)

/-! ## Data -/

inductive TaskState
  | ready
  | blocked
  | sleeping
  | waiting
  | died
  deriving DecidableEq

/-- `EOK`, `-ETIME`, `-ERESET` and `-EINTR`. -/
inductive Err
  | ok
  | etime
  | ereset
  | eintr
  deriving DecidableEq

/-- The call of `task_block` a task is in. -/
inductive Place
  | user
  | waitpid
  | sleep
  | device (d : Nat)
  | accept (i : Nat)
  | connect (i : Nat)
  | recv (i : Nat) (sizes : List Nat)
  | send (i : Nat)
  | udp (u : Nat)
  deriving DecidableEq

structure Task where
  ppid : Nat
  state : TaskState
  status : Err
  waitpid : Int
  place : Place
  deriving DecidableEq

abbrev Tasks := Nat → Option Task

/-- `tcp_pcb_t`; `sock`: a socket refers to it. -/
structure Pcb where
  conn : Tcp.Pcb
  sock : Bool
  acclist : List Nat
  /-- `pcb->listen` -/
  listener : Option Nat
  backlog : Nat
  backcnt : Nat
  acWaiter : Option Nat
  rxWaiter : Option Nat
  txWaiter : Option Nat

structure Udp where
  rxPbufList : List (List UInt8)
  rxWaiter : Option Nat

structure State where
  task : Tasks
  pcb : Nat → Option Pcb
  udp : Nat → Option Udp
  /-- the waiters of the other components -/
  waiters : Nat → List Nat

/-- `early`: the assertion of `tcp_accept`; `empty`: the one of `list_popback`; `listen`: the one on `pcb->listen`; `task`, `freed`:
a task or a pcb that is gone is used. -/
inductive Fault
  | early
  | empty
  | listen
  | task
  | freed
  | tcp (e : Tcp.Fault)
  deriving DecidableEq

def conn {α : Type} : Except Tcp.Fault α → Except Fault α
  | .ok a => .ok a
  | .error e => .error (.tcp e)

namespace State

def deref (s : State) (i : Nat) : Except Fault Pcb :=
  match s.pcb i with
  | some n => .ok n
  | none => .error .freed

def derefUdp (s : State) (u : Nat) : Except Fault Udp :=
  match s.udp u with
  | some n => .ok n
  | none => .error .freed

def setTask (s : State) (ts : Tasks) : State := { s with task := ts }

def setPcb (s : State) (i : Nat) (n : Pcb) : State := { s with pcb := Function.update s.pcb i (some n) }

def setUdp (s : State) (u : Nat) (n : Udp) : State := { s with udp := Function.update s.udp u (some n) }

def free (s : State) (i : Nat) : State := { s with pcb := Function.update s.pcb i none }

end State

/-! ## `task.c` -/

def modify (ts : Tasks) (t : Nat) (f : Task → Task) : Except Fault Tasks :=
  match ts t with
  | some k => .ok (Function.update ts t (some (f k)))
  | none => .error .task

def taskBlock (ts : Tasks) (t : Nat) (place : Place) (state : TaskState) : Except Fault Tasks :=
  modify ts t fun k => { k with state := state, place := place }

def taskUnblock (ts : Tasks) (t : Nat) (reason : Err) : Except Fault Tasks :=
  modify ts t fun k => { k with state := .ready, status := reason }

def unblock (ts : Tasks) (waiter : Option Nat) (reason : Err) : Except Fault Tasks :=
  match waiter with
  | some t => taskUnblock ts t reason
  | none => .ok ts

def taskExit (ts : Tasks) (t : Nat) : Except Fault Tasks :=
  match ts t with
  | none => .error .task
  | some k =>
    let ts := Function.update ts t (some { k with state := .died })
    let ts := fun c => (ts c).map fun j => if 2 ≤ c ∧ j.ppid = t then { j with ppid := k.ppid } else j
    match ts k.ppid with
    | none => .error .task
    | some p =>
      if p.state = .waiting ∧ (p.waitpid = -1 ∨ p.waitpid = t) then taskUnblock ts k.ppid .ok else .ok ts

def taskFork (ts : Tasks) (t c : Nat) : Except Fault Tasks :=
  match ts t with
  | some k => .ok (Function.update ts c (some { k with ppid := t, state := .ready }))
  | none => .error .task

/-! ## `tcp_pcb.c` -/

def fresh (c : Tcp.Pcb) (sock : Bool) (listener : Option Nat) : Pcb := ⟨c, sock, [], listener, 0, 0, none, none, none⟩

def wakeAll (ts : Tasks) (n : Pcb) (reason : Err) : Except Fault (Tasks × Pcb) := do
  let ts ← unblock ts n.acWaiter reason
  let ts ← unblock ts n.rxWaiter reason
  let ts ← unblock ts n.txWaiter reason
  pure (ts, { n with acWaiter := none, rxWaiter := none, txWaiter := none })

def putChild (s : State) (j : Nat) : Except Fault State := do
  let n ← s.deref j
  let _ ← conn (Tcp.tcpPcbPurge n.conn)
  let r ← wakeAll s.task n .etime
  pure ((s.setTask r.1).free j)

/-- `tcp_pcb_purge`; the buffers of the connection `c` are gone already. -/
def tcpPcbPurge (s : State) (i : Nat) (c : Tcp.Pcb) (reason : Err) : Except Fault State := do
  let n ← s.deref i
  let s ← n.acclist.foldlM putChild s
  let r ← wakeAll s.task { n with conn := c, acclist := [] } reason
  pure ((s.setTask r.1).setPcb i r.2)

def tcpPcbPut (s : State) (i : Nat) : Except Fault State := do
  let n ← s.deref i
  let c ← conn (Tcp.tcpPcbPurge n.conn)
  let s ← tcpPcbPurge s i c .etime
  pure (s.free i)

/-! ## `tcp_input.c` -/

def tcpUpdateAck (ts : Tasks) (n : Pcb) (g : Segment) : Except Fault (Tasks × Pcb) := do
  let c ← conn (Tcp.tcpUpdateAck n.conn g)
  if ¬ Tcp.seqGEQ n.conn.sndUna g.ackno ∧ c.unacked = [] ∧ c.unsent = [] then do
    let ts ← unblock ts n.txWaiter .ok
    pure (ts, { n with conn := c, txWaiter := none })
  else pure (ts, { n with conn := c })

/-- `tcp_update_buf`: the waiter is woken when a buffer was queued. -/
def tcpUpdateBuf (ts : Tasks) (n : Pcb) (g : Segment) : Except Fault (Tasks × Pcb) := do
  let c := Tcp.tcpUpdateBuf n.conn g
  if c.recved ≠ n.conn.recved then do
    let ts ← unblock ts n.rxWaiter .ok
    pure (ts, { n with conn := c, rxWaiter := none })
  else pure (ts, { n with conn := c })

def tcpReceive (ts : Tasks) (n : Pcb) (g : Segment) : Except Fault (Tasks × Pcb) :=
  (if g.flags.has Tcp.tcpAck then tcpUpdateAck ts { n with conn := Tcp.tcpUpdateWnd n.conn g } g else .ok (ts, n)) >>= fun r =>
    if 0 < g.size then tcpUpdateBuf r.1 r.2 g else .ok r

def tcpHandleSynSent (ts : Tasks) (n : Pcb) (g : Segment) : Except Fault (Tasks × Pcb) := do
  let c := Tcp.tcpHandleSynSent n.conn g
  if c.state = .established then do
    let ts ← unblock ts n.acWaiter .ok
    pure (ts, { n with conn := c, acWaiter := none })
  else pure (ts, { n with conn := c })

/-- `tcp_handle_listen`; `new`: the block of the new pcb, `isn`: its first number. -/
def tcpHandleListen (s : State) (i : Nat) (n : Pcb) (g : Segment) (new : Nat) (isn : Seq) : Except Fault State := do
  if g.flags ≠ Tcp.tcpSyn then pure (s.setPcb i n)
  else if n.backcnt = n.backlog then pure (s.setPcb i n)
  else do
    let d ← conn (Tcp.tcpHandleListen isn n.conn.sndMss g)
    pure ((s.setPcb i { n with acclist := new :: n.acclist, backcnt := n.backcnt + 1 }).setPcb new (fresh d false (some i)))

/-- `SYN_RCVD` in `tcp_process`: the statement after `task_unblock` leaves `ac_waiter` as it is. -/
def tcpSynRcvd (s : State) (i : Nat) (n : Pcb) (g : Segment) : Except Fault State := do
  let d ← conn (Tcp.processState n.conn g)
  let s := s.setPcb i { n with conn := d }
  if d.state = .established then
    match n.listener with
    | none => .error .listen
    | some l => do
      let m ← s.deref l
      let ts ← unblock s.task m.acWaiter .ok
      pure (s.setTask ts)
  else pure s

/-- The states after `ESTABLISHED` in `tcp_process`, and `ESTABLISHED` itself. -/
def tcpSettle (s : State) (i : Nat) (n : Pcb) (g : Segment) : Except Fault State := do
  let d ← conn (Tcp.processState n.conn g)
  let s := s.setPcb i { n with conn := d }
  if n.conn.state = .lastAck ∧ d.state = .closed then tcpPcbPut s i
  else if n.conn.state ≠ .timeWait ∧ d.state = .timeWait then tcpPcbPurge s i d .etime
  else pure s

def processState (s : State) (i : Nat) (n : Pcb) (g : Segment) (new : Nat) (isn : Seq) : Except Fault State :=
  match n.conn.state with
  | .listen => tcpHandleListen s i n g new isn
  | .synSent => do
    let r ← tcpHandleSynSent s.task n g
    pure ((s.setTask r.1).setPcb i r.2)
  | .synRcvd => tcpSynRcvd s i n g
  | _ => tcpSettle s i n g

def tcpProcess (s : State) (i : Nat) (n : Pcb) (g : Segment) (new : Nat) (isn : Seq) : Except Fault State :=
  (if g.flags.has Tcp.tcpAck ∧ n.conn.state ≠ .timeWait then tcpReceive s.task n g else .ok (s.task, n)) >>= fun r =>
    processState (s.setTask r.1) i r.2 g new isn

def tcpHandleReset (s : State) (i : Nat) (n : Pcb) : Except Fault State := do
  if n.conn.state.val ≤ TcpState.synSent.val then pure s
  else do
    let d ← conn (Tcp.tcpHandleReset n.conn)
    tcpPcbPurge s i d .ereset

def tcpInput (s : State) (i : Nat) (g : Segment) (new : Nat) (isn : Seq) : Except Fault State := do
  let n ← s.deref i
  if ¬ Tcp.tcpValidate n.conn g then pure s
  else if n.conn.state = .closed then pure s
  else if g.flags.has Tcp.tcpRst then tcpHandleReset s i n
  else
    let c := (Tcp.tcpParseOption n.conn g.options).1
    if (Tcp.tcpParseOption n.conn g.options).2 = false then pure (s.setPcb i { n with conn := c })
    else tcpProcess s i { n with conn := { c with idle := 0 } } g new isn

def tcpTimeout (s : State) (i : Nat) (type : TcpTimer) : Except Fault State := do
  let n ← s.deref i
  match type with
  | .finWait2 | .timewait => tcpPcbPut s i
  | _ => do
    let c ← conn (Tcp.tcpTimeout n.conn type)
    if TimeoutEnds n.conn type then tcpPcbPurge s i c .etime else pure (s.setPcb i { n with conn := c })

/-! ## `tcp.c` -/

def tcpClose (s : State) (i : Nat) : Except Fault State := do
  let n ← s.deref i
  match n.conn.state with
  | .closed | .synSent | .listen => tcpPcbPut s i
  | _ => do
    let c ← conn (Tcp.tcpClose n.conn)
    pure (s.setPcb i { n with conn := c, sock := false })

def tcpListen (s : State) (i backlog : Nat) : Except Fault State := do
  let n ← s.deref i
  if n.conn.state ≠ .closed then pure s
  else pure (s.setPcb i { n with conn := { n.conn with state := .listen }, backcnt := 0, backlog := backlog })

def tcpFindNpcb (s : State) (n : Pcb) : Option Nat :=
  n.acclist.find? fun j => (s.pcb j).map (fun m => m.conn.state) = some .established

def accepted (s : State) (i : Nat) (n : Pcb) (j : Nat) : Except Fault State := do
  let m ← s.deref j
  pure ((s.setPcb i { n with acclist := n.acclist.filter fun c => decide (c ≠ j) }).setPcb j { m with sock := true })

def tcpAccept (s : State) (t i : Nat) : Except Fault State := do
  let n ← s.deref i
  if n.backlog = 0 ∨ n.conn.state ≠ .listen then pure s
  else
    match tcpFindNpcb s n with
    | some j => accepted s i n j
    | none => do
      let ts ← taskBlock s.task t (.accept i) .waiting
      pure ((s.setPcb i { n with acWaiter := some t }).setTask ts)

def tcpConnect (s : State) (t i : Nat) : Except Fault State := do
  let n ← s.deref i
  if n.conn.state ≠ .closed then pure s
  else do
    let c ← conn (Tcp.tcpConnect n.conn)
    let ts ← taskBlock s.task t (.connect i) .waiting
    pure ((s.setPcb i { n with conn := c, acWaiter := some t }).setTask ts)

def recvQueued (s : State) (i : Nat) (n : Pcb) (sizes : List Nat) : Except Fault State := do
  let r ← conn (Tcp.recvQueued n.conn (sizes.map fun m => ⟨[], m⟩))
  pure (s.setPcb i { n with conn := r.1 })

def tcpRecvmsg (s : State) (t i : Nat) (sizes : List Nat) : Except Fault State := do
  let n ← s.deref i
  if n.conn.state ≠ .established then pure s
  else if n.conn.recved = [] then do
    let ts ← taskBlock s.task t (.recv i sizes) .waiting
    pure ((s.setPcb i { n with rxWaiter := some t }).setTask ts)
  else recvQueued s i n sizes

def tcpSendmsg (s : State) (t i : Nat) (iov : List ((Nat → UInt8) × Nat)) (flags : Flags) : Except Fault State := do
  let n ← s.deref i
  if n.conn.state ≠ .established ∨ n.conn.sndWnd < (iov.map Prod.snd).sum % 2 ^ 32 then pure s
  else do
    let c ← conn (Tcp.tcpSendmsg n.conn iov flags)
    if c.unacked = [] ∧ c.unsent = [] then pure (s.setPcb i { n with conn := c })
    else do
      let ts ← taskBlock s.task t (.send i) .waiting
      pure ((s.setPcb i { n with conn := c, txWaiter := some t }).setTask ts)

def onConn (s : State) (i : Nat) (f : Tcp.Pcb → Except Tcp.Fault Tcp.Pcb) : Except Fault State := do
  let n ← s.deref i
  let c ← conn (f n.conn)
  pure (s.setPcb i { n with conn := c })

/-! ## `udp.c` -/

def udpInput (s : State) (u : Nat) (payload : List UInt8) : Except Fault State := do
  let n ← s.derefUdp u
  let ts ← unblock s.task n.rxWaiter .ok
  pure ((s.setTask ts).setUdp u ⟨payload :: n.rxPbufList, none⟩)

def popback (s : State) (u : Nat) (n : Udp) : Except Fault State :=
  if n.rxPbufList = [] then .error .empty else .ok (s.setUdp u { n with rxPbufList := n.rxPbufList.dropLast })

def udpRecvmsg (s : State) (t u : Nat) : Except Fault State := do
  let n ← s.derefUdp u
  if n.rxPbufList = [] then do
    let ts ← taskBlock s.task t (.udp u) .waiting
    pure ((s.setUdp u { n with rxWaiter := some t }).setTask ts)
  else popback s u n

/-! ## After a wait -/

/-- A call goes on after `task_block`, with the status that returned. -/
def goOn (s : State) (place : Place) (status : Err) : Except Fault State :=
  match place with
  | .accept i => do
    let n ← s.deref i
    let n := { n with acWaiter := none }
    let s := s.setPcb i n
    if status ≠ .ok then pure s
    else
      match tcpFindNpcb s n with
      | some j => accepted s i n j
      | none => .error .early
  | .connect i => do
    let n ← s.deref i
    pure (s.setPcb i { n with acWaiter := none })
  | .recv i sizes => do
    let n ← s.deref i
    let n := { n with rxWaiter := none }
    let s := s.setPcb i n
    if status ≠ .ok then pure s else recvQueued s i n sizes
  | .send i => do
    let n ← s.deref i
    pure (s.setPcb i { n with txWaiter := none })
  | .udp u => do
    let n ← s.derefUdp u
    let n := { n with rxWaiter := none }
    let s := s.setUdp u n
    if status ≠ .ok then pure s else popback s u n
  | .user | .waitpid | .sleep | .device _ => pure s

def resume (s : State) (t : Nat) : Except Fault State :=
  match s.task t with
  | none => .error .task
  | some k => goOn (s.setTask (Function.update s.task t (some { k with place := .user }))) k.place k.status

/-! ## The machine -/

inductive Act
  | fork (t c : Nat)
  | exit (t : Nat)
  | waitpid (t : Nat) (pid : Int)
  | reap (t c : Nat)
  | kill (t : Nat)
  | expire (t : Nat)
  | sleep (t : Nat)
  | block (t d : Nat) (more : Bool) (state : TaskState)
  | interrupt (d t : Nat)
  | resume (t : Nat)
  | socket (i : Nat) (isn : Seq)
  | close (i : Nat)
  | listen (i backlog : Nat)
  | accept (t i : Nat)
  | connect (t i : Nat)
  | send (t i : Nat) (iov : List ((Nat → UInt8) × Nat)) (flags : Flags)
  | recv (t i : Nat) (sizes : List Nat)
  | setsockopt (i : Nat) (opt : SockOpt) (val : Bool)
  | input (i : Nat) (g : Segment) (new : Nat) (isn : Seq)
  | sent (i place : Nat)
  | slowtimo (i : Nat)
  | fastimo (i : Nat)
  | timeout (i : Nat) (type : TcpTimer)
  | udpSocket (u : Nat)
  | udpClose (u : Nat)
  | udpInput (u : Nat) (payload : List UInt8)
  | udpRecv (t u : Nat)

def sysKill (ts : Tasks) (t : Nat) : Except Fault Tasks :=
  match ts t with
  | none => .ok ts
  | some k => if k.state = .waiting ∨ k.state = .sleeping then taskUnblock ts t .eintr else .ok ts

def step (s : State) : Act → Except Fault State
  | .fork t c => do let ts ← taskFork s.task t c; pure (s.setTask ts)
  | .exit t => do let ts ← taskExit s.task t; pure (s.setTask ts)
  | .waitpid t pid => do
    let ts ← modify s.task t fun k => { k with waitpid := pid }
    let ts ← taskBlock ts t .waitpid .waiting
    pure (s.setTask ts)
  | .reap _ c => pure (s.setTask (Function.update s.task c none))
  | .kill t => do let ts ← sysKill s.task t; pure (s.setTask ts)
  | .expire t => do let ts ← taskUnblock s.task t .etime; pure (s.setTask ts)
  | .sleep t => do let ts ← taskBlock s.task t .sleep .sleeping; pure (s.setTask ts)
  | .block t d more state => do
    let ts ← taskBlock s.task t (.device d) state
    pure { s.setTask ts with waiters := Function.update s.waiters d (t :: if more then s.waiters d else []) }
  | .interrupt d t => do
    let ts ← taskUnblock s.task t .ok
    pure { s.setTask ts with waiters := Function.update s.waiters d ((s.waiters d).erase t) }
  | .resume t => resume s t
  | .socket i isn => pure (s.setPcb i (fresh (Tcp.tcpPcbGet isn) true none))
  | .close i => tcpClose s i
  | .listen i backlog => tcpListen s i backlog
  | .accept t i => tcpAccept s t i
  | .connect t i => tcpConnect s t i
  | .send t i iov flags => tcpSendmsg s t i iov flags
  | .recv t i sizes => tcpRecvmsg s t i sizes
  | .setsockopt i opt val => onConn s i fun c => .ok (Tcp.tcpSetsockopt c opt val)
  | .input i g new isn => tcpInput s i g new isn
  | .sent i place => onConn s i fun c => .ok (Tcp.deviceSent c place)
  | .slowtimo i => onConn s i fun c => .ok (Tcp.tcpSlowtimo c)
  | .fastimo i => onConn s i Tcp.tcpFastimo
  | .timeout i type => tcpTimeout s i type
  | .udpSocket u => pure (s.setUdp u ⟨[], none⟩)
  | .udpClose u => pure { s with udp := Function.update s.udp u none }
  | .udpInput u payload => udpInput s u payload
  | .udpRecv t u => udpRecvmsg s t u

def Runs (s : State) (t : Nat) : Prop := ∃ k, s.task t = some k ∧ k.state = .ready ∧ k.place = .user

def Place.pcb : Place → Option Nat
  | .accept i | .connect i | .recv i _ | .send i => some i
  | .user | .waitpid | .sleep | .device _ | .udp _ => none

def Open (s : State) (i : Nat) : Prop := ∃ n, s.pcb i = some n ∧ n.sock = true

def Queued (s : State) (i : Nat) : Prop := ∃ l n, s.pcb l = some n ∧ i ∈ n.acclist

/-- A task makes a call outside of any other, on an open socket; the last reference to a socket goes away only while no call is on
it. A child that died is taken by its parent. A timer runs for a task that is blocked. The timers of a listening pcb do not count;
those that free a pcb are set after `tcp_close`. `kmalloc` gives a block that is not in use. -/
def enabled (s : State) : Act → Prop
  | .fork t c => Runs s t ∧ s.task c = none
  | .exit t | .waitpid t _ | .sleep t => Runs s t
  | .reap t c => Runs s t ∧ ∃ k, s.task c = some k ∧ k.state = .died ∧ k.ppid = t
  | .kill _ => True
  | .expire t => ∃ k, s.task t = some k ∧ k.state ≠ .ready ∧ k.state ≠ .died
  | .block t _ _ state => Runs s t ∧ (state = .blocked ∨ state = .waiting)
  | .interrupt d t => t ∈ s.waiters d
  | .resume t => ∃ k, s.task t = some k ∧ k.state = .ready ∧ k.place ≠ .user
  | .socket i _ => s.pcb i = none
  | .close i => Open s i ∧ ∀ t k, s.task t = some k → k.place.pcb ≠ some i
  | .listen i backlog => Open s i ∧ 0 < backlog
  | .accept t i | .connect t i | .send t i _ _ | .recv t i _ => Runs s t ∧ Open s i
  | .setsockopt i _ _ => Open s i
  | .input i _ new _ => s.pcb i ≠ none ∧ s.pcb new = none
  | .sent i _ | .slowtimo i | .fastimo i => s.pcb i ≠ none
  | .timeout i .finWait2 | .timeout i .timewait => s.pcb i ≠ none ∧ ¬ Open s i ∧ ¬ Queued s i
  | .timeout i _ => ∃ n, s.pcb i = some n ∧ n.conn.state ≠ .listen
  | .udpSocket u => s.udp u = none
  | .udpClose u => ∀ t k, s.task t = some k → k.place ≠ .udp u
  | .udpInput u _ => s.udp u ≠ none
  | .udpRecv t u => Runs s t ∧ s.udp u ≠ none

def wake : Machine State Act Fault where
  start s := (∀ t k, s.task t = some k → k.state = .ready ∧ k.place = .user) ∧ (∀ i, s.pcb i = none) ∧ (∀ u, s.udp u = none) ∧
    ∀ d, s.waiters d = []
  enabled := enabled
  step := step

end Onix.Wake
