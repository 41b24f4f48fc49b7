/-
Who holds a TCP pcb: the lists of `tcp_pcb.c`, the sockets, the `acclist` of a listener and the timers
that free a pcb, over the connections of the TCP modules. A system call, an incoming segment, a
buffer the device gives back or a round of a timer task is one step; a call that waits holds its
pcb in a local variable and goes on in a later step.

A pcb is known by its block of memory. Reading or writing one that `tcp_pcb_put` has freed is a fault.
The timers that free a pcb are counted; the others may expire in any round, or never. Addresses and
ports only select a pcb: a segment may reach any pcb on the lists `tcp_find_pcb` goes through.
-/
import Onix.Tcp.Model

namespace Onix.Own

open Onix.Lib
open Onix.Tcp (Pcb Segment Seq Flags TcpState TcpTimer SockOpt Iovec)

/-! ## Data -/

def tcpToFinWait2 : Nat := 10 * 60 * 2
def tcpToTimewait : Nat := 4 * 60 * 2

inductive Where
  | create
  | active
  | listen
  | timewait
  deriving DecidableEq

/-- `tcp_pcb_t`: the connection, the fields of `acclist` and the timers that free the pcb. -/
structure Node where
  conn : Pcb
  acclist : List Nat
  /-- `pcb->listen` -/
  listener : Option Nat
  backlog : Nat
  backcnt : Nat
  finWait2 : Nat
  timewait : Nat

structure Sys where
  pcb : Nat → Option Node
  list : Where → List Nat
  /-- `s->tcp` of the open TCP sockets -/
  sock : Nat → Option Nat
  /-- the calls that wait: the socket, and the pcb the call holds -/
  waiting : List (Nat × Nat)

/-- `freed`: a pcb is used after `tcp_pcb_put`; `deep`: `tcp_pcb_put` goes deeper than there are pcbs;
`early`: the assertion of `tcp_accept`; `tcp`: an assertion about the buffers or a panic. -/
inductive Fault
  | freed
  | deep
  | early
  | tcp (e : Tcp.Fault)
  deriving DecidableEq

def conn {α : Type} : Except Tcp.Fault α → Except Fault α
  | .ok a => .ok a
  | .error e => .error (.tcp e)

namespace Sys

def deref (s : Sys) (i : Nat) : Except Fault Node :=
  match s.pcb i with
  | some n => .ok n
  | none => .error .freed

def set (s : Sys) (i : Nat) (n : Node) : Sys := { s with pcb := Function.update s.pcb i (some n) }

def unlink (s : Sys) (i : Nat) : Sys := { s with list := fun w => (s.list w).erase i }

def push (s : Sys) (w : Where) (i : Nat) : Sys := { s with list := Function.update s.list w (i :: s.list w) }

def kfree (s : Sys) (i : Nat) : Sys := { s with pcb := Function.update s.pcb i none }

end Sys

/-! ## `tcp_pcb.c` -/

def fresh (c : Pcb) (listener : Option Nat) : Node := ⟨c, [], listener, 0, 0, 0, 0⟩

/-- `tcp_pcb_put`, with `tcp_pcb_purge`, which puts the pcbs of the `acclist`. -/
def tcpPcbPut : Nat → Sys → Nat → Except Fault Sys
  | 0, _, _ => .error .deep
  | fuel + 1, s, i => do
    let n ← s.deref i
    let c ← conn (Tcp.tcpPcbPurge n.conn)
    let s ← n.acclist.foldlM (tcpPcbPut fuel) (s.set i { n with conn := c, acclist := [] })
    pure ((s.unlink i).kfree i)

def Sys.pcbs (s : Sys) : Nat := (s.list .create).length + (s.list .active).length + (s.list .listen).length + (s.list .timewait).length

/-- The pcb's buffers are gone already; those it has on its `acclist` are put. -/
def tcpPcbPurge (s : Sys) (i : Nat) (c : Pcb) : Except Fault Sys := do
  let n ← s.deref i
  n.acclist.foldlM (tcpPcbPut s.pcbs) (s.set i { n with conn := c, acclist := [] })

def insertTimewait (s : Sys) (i n : Nat) : List Nat → List Nat
  | [] => [i]
  | j :: l => if n < ((s.pcb j).map Node.timewait).getD 0 then i :: j :: l else j :: insertTimewait s i n l

/-- `tcp_pcb_timewait` for a connection that is in `TIME_WAIT` and purged. -/
def tcpPcbTimewait (s : Sys) (i : Nat) (c : Pcb) : Except Fault Sys := do
  let s ← tcpPcbPurge s i c
  let n ← s.deref i
  let s := (s.unlink i).set i { n with timewait := tcpToTimewait }
  pure { s with list := Function.update s.list .timewait (insertTimewait s i tcpToTimewait (s.list .timewait)) }

/-! ## `tcp_input` -/

/-- `tcp_handle_listen`; `new`: the block of the new pcb, `isn`: its first number. -/
def tcpHandleListen (s : Sys) (i : Nat) (c : Pcb) (g : Segment) (new : Nat) (isn : Seq) : Except Fault Sys := do
  let n ← s.deref i
  let s := s.set i { n with conn := c }
  if g.flags ≠ Tcp.tcpSyn then pure s
  else if n.backcnt = n.backlog then pure s
  else do
    let d ← conn (Tcp.tcpHandleListen isn c.sndMss g)
    let s := s.set i { n with conn := c, acclist := new :: n.acclist, backcnt := n.backcnt + 1 }
    pure ((s.set new (fresh d (some i))).push .active new)

/-- What the new state of the connection does to the pcb: `before` is its state in the `switch` of
`tcp_process`, `c` the connection after it. -/
def settle (s : Sys) (i : Nat) (before : TcpState) (c : Pcb) : Except Fault Sys := do
  let n ← s.deref i
  match before, c.state with
  | .lastAck, .closed => tcpPcbPut (s.pcbs + 1) (s.set i { n with conn := c }) i
  | .finWait1, .finWait2 => pure (s.set i { n with conn := c, finWait2 := tcpToFinWait2 })
  | .timeWait, .timeWait => pure (s.set i { n with conn := c })
  | _, .timeWait => tcpPcbTimewait s i c
  | _, _ => pure (s.set i { n with conn := c })

def tcpProcess (s : Sys) (i : Nat) (c : Pcb) (g : Segment) (new : Nat) (isn : Seq) : Except Fault Sys := do
  let c ← conn (if g.flags.has Tcp.tcpAck ∧ c.state ≠ .timeWait then Tcp.tcpReceive c g else .ok c)
  if c.state = .listen then tcpHandleListen s i c g new isn
  else do
    let d ← conn (Tcp.processState c g)
    settle s i c.state d

def tcpHandleReset (s : Sys) (i : Nat) (c : Pcb) : Except Fault Sys := do
  if c.state.val ≤ TcpState.synSent.val then pure s
  else do
    let d ← conn (Tcp.tcpHandleReset c)
    tcpPcbPurge s i d

def tcpInput (s : Sys) (i : Nat) (g : Segment) (new : Nat) (isn : Seq) : Except Fault Sys := do
  let n ← s.deref i
  if ¬ Tcp.tcpValidate n.conn g then pure s
  else if n.conn.state = .closed then pure s
  else if g.flags.has Tcp.tcpRst then tcpHandleReset s i n.conn
  else
    let (c, ok) := Tcp.tcpParseOption n.conn g.options
    if ¬ ok then pure (s.set i { n with conn := c })
    else tcpProcess s i { c with idle := 0 } g new isn

/-! ## System calls -/

def Sys.ofSock (s : Sys) (k : Nat) : Except Fault Nat :=
  match s.sock k with
  | some i => .ok i
  | none => .error .freed

/-- `tcp_socket`; `k`: the new socket, `new`: the block of its pcb. -/
def tcpSocket (s : Sys) (k new : Nat) (isn : Seq) : Sys :=
  { ((s.set new (fresh (Tcp.tcpPcbGet isn) none)).push .create new) with sock := Function.update s.sock k (some new) }

def tcpClose (s : Sys) (k : Nat) : Except Fault Sys := do
  let i ← s.ofSock k
  let n ← s.deref i
  let s := { s with sock := Function.update s.sock k none }
  match n.conn.state with
  | .closed | .synSent | .listen => tcpPcbPut (s.pcbs + 1) s i
  | _ => do
    let c ← conn (Tcp.tcpClose n.conn)
    pure (s.set i { n with conn := c })

def tcpListen (s : Sys) (k backlog : Nat) : Except Fault Sys := do
  let i ← s.ofSock k
  let n ← s.deref i
  if n.conn.state ≠ .closed then pure s
  else pure ((((s.set i { n with conn := { n.conn with state := .listen }, backcnt := 0, backlog := backlog }).unlink i).push .listen i))

def tcpFindNpcb (s : Sys) (n : Node) : Option Nat :=
  n.acclist.find? fun j => (s.pcb j).map (fun m => m.conn.state) = some .established

/-- The accepted pcb leaves the `acclist` for the new socket `ns`. -/
def accepted (s : Sys) (i : Nat) (n : Node) (ns j : Nat) : Sys :=
  { s.set i { n with acclist := n.acclist.erase j } with sock := Function.update s.sock ns (some j) }

def tcpAccept (s : Sys) (k ns : Nat) : Except Fault Sys := do
  let i ← s.ofSock k
  let n ← s.deref i
  if n.conn.state ≠ .listen ∨ n.backlog = 0 then pure s
  else
    match tcpFindNpcb s n with
    | some j => pure (accepted s i n ns j)
    | none => pure { s with waiting := (k, i) :: s.waiting }

def tcpConnect (s : Sys) (k : Nat) : Except Fault Sys := do
  let i ← s.ofSock k
  let n ← s.deref i
  if n.conn.state ≠ .closed then pure s
  else do
    let c ← conn (Tcp.tcpConnect n.conn)
    pure { ((s.set i { n with conn := c }).unlink i).push .active i with waiting := (k, i) :: s.waiting }

def tcpSendmsg (s : Sys) (k : Nat) (iov : List ((Nat → UInt8) × Nat)) (flags : Flags) : Except Fault Sys := do
  let i ← s.ofSock k
  let n ← s.deref i
  if n.conn.state ≠ .established ∨ n.conn.sndWnd < (iov.map Prod.snd).sum % 2 ^ 32 then pure s
  else do
    let c ← conn (Tcp.tcpSendmsg n.conn iov flags)
    let s := s.set i { n with conn := c }
    if c.unacked = [] ∧ c.unsent = [] then pure s else pure { s with waiting := (k, i) :: s.waiting }

def tcpRecvmsg (s : Sys) (k : Nat) (sizes : List Nat) : Except Fault Sys := do
  let i ← s.ofSock k
  let n ← s.deref i
  if n.conn.state = .established ∧ n.conn.recved = [] then pure { s with waiting := (k, i) :: s.waiting }
  else do
    let (c, _) ← conn (Tcp.tcpRecvmsg n.conn (sizes.map fun n => ⟨[], n⟩))
    pure (s.set i { n with conn := c })

def tcpSetsockopt (s : Sys) (k : Nat) (opt : SockOpt) (val : Bool) : Except Fault Sys := do
  let i ← s.ofSock k
  let n ← s.deref i
  pure (s.set i { n with conn := Tcp.tcpSetsockopt n.conn opt val })

/-- `tcp_bind`, `tcp_getpeername` and `tcp_getsockname`: the addresses of the pcb. -/
def tcpName (s : Sys) (k : Nat) : Except Fault Sys := do
  let i ← s.ofSock k
  let _ ← s.deref i
  pure s

/-- What a call does once its wait is over. -/
inductive Resume
  | done
  | accept (ns : Nat)
  | recv (sizes : List Nat)

def resume (s : Sys) (k i : Nat) (r : Resume) : Except Fault Sys := do
  let s := { s with waiting := s.waiting.erase (k, i) }
  let n ← s.deref i
  match r with
  | .done => pure s
  | .accept ns =>
    match tcpFindNpcb s n with
    | some j => pure (accepted s i n ns j)
    | none => .error .early
  | .recv sizes => do
    let (c, _) ← conn (Tcp.recvQueued n.conn (sizes.map fun n => ⟨[], n⟩))
    pure (s.set i { n with conn := c })

/-! ## Timers -/

/-- `tcp_timeout` for the timers that do not free the pcb; one that was closed before has an empty `acclist`. -/
def tcpTimeout (s : Sys) (i : Nat) (n : Node) (type : TcpTimer) : Except Fault Sys := do
  let c ← conn (Tcp.tcpTimeout n.conn type)
  if c.state = .closed then tcpPcbPurge s i c else pure (s.set i { n with conn := c })

/-- One timer of the inner loop of `tcp_slowtimo`; `expires`: the timers that are not counted. -/
def tcpTick (expires : TcpTimer → Bool) (i : Nat) (s : Sys) (type : TcpTimer) : Except Fault Sys := do
  let n ← s.deref i
  match type with
  | .finWait2 =>
    let s := s.set i { n with finWait2 := n.finWait2 - 1 }
    if n.finWait2 = 1 then tcpPcbPut (s.pcbs + 1) s i else pure s
  | .timewait =>
    let s := s.set i { n with timewait := n.timewait - 1 }
    if n.timewait = 1 then tcpPcbPut (s.pcbs + 1) s i else pure s
  | _ => if expires type then tcpTimeout s i n type else pure s

def slowPcb (expires : Nat → TcpTimer → Bool) (s : Sys) (i : Nat) : Except Fault Sys := do
  let n ← s.deref i
  [TcpTimer.syn, .rexmit, .persist, .keepalive, .finWait2, .timewait].foldlM (tcpTick (expires i) i)
    (s.set i { n with conn := Tcp.tcpSlowtimo n.conn })

/-- A round of `tcp_slowtimo`: what it does at one pcb takes no other off the two lists. -/
def tcpSlowtimo (s : Sys) (expires : Nat → TcpTimer → Bool) : Except Fault Sys := do
  let s ← (s.list .active).foldlM (slowPcb expires) s
  (s.list .timewait).foldlM (slowPcb expires) s

def fastPcb (s : Sys) (i : Nat) : Except Fault Sys := do
  let n ← s.deref i
  let c ← conn (Tcp.tcpFastimo n.conn)
  pure (s.set i { n with conn := c })

def tcpFastimo (s : Sys) : Except Fault Sys := do
  let s ← (s.list .active).foldlM fastPcb s
  (s.list .timewait).foldlM fastPcb s

/-! ## The machine -/

inductive Act
  | socket (k new : Nat) (isn : Seq)
  | close (k : Nat)
  | listen (k backlog : Nat)
  | accept (k ns : Nat)
  | connect (k : Nat)
  | send (k : Nat) (iov : List ((Nat → UInt8) × Nat)) (flags : Flags)
  | recv (k : Nat) (sizes : List Nat)
  | setsockopt (k : Nat) (opt : SockOpt) (val : Bool)
  | name (k : Nat)
  | resume (k i : Nat) (r : Resume)
  | input (i : Nat) (g : Segment) (new : Nat) (isn : Seq)
  | sent (i place : Nat)
  | slowtimo (expires : Nat → TcpTimer → Bool)
  | fastimo

def step (s : Sys) : Act → Except Fault Sys
  | .socket k new isn => .ok (tcpSocket s k new isn)
  | .close k => tcpClose s k
  | .listen k backlog => tcpListen s k backlog
  | .accept k ns => tcpAccept s k ns
  | .connect k => tcpConnect s k
  | .send k iov flags => tcpSendmsg s k iov flags
  | .recv k sizes => tcpRecvmsg s k sizes
  | .setsockopt k opt val => tcpSetsockopt s k opt val
  | .name k => tcpName s k
  | .resume k i r => resume s k i r
  | .input i g new isn => tcpInput s i g new isn
  | .sent i place => do
    let n ← s.deref i
    pure (s.set i { n with conn := Tcp.deviceSent n.conn place })
  | .slowtimo expires => tcpSlowtimo s expires
  | .fastimo => tcpFastimo s

/-- A call needs an open socket; the last reference to a socket goes away only while no call waits on it.
`kmalloc` gives a block that is not in use. A segment reaches a pcb that `tcp_find_pcb` may return, a buffer
that the device had goes back to the queue it is on. -/
def enabled (s : Sys) : Act → Prop
  | .socket k new _ => s.sock k = none ∧ s.pcb new = none
  | .close k => s.sock k ≠ none ∧ ∀ x ∈ s.waiting, x.1 ≠ k
  | .listen k backlog => s.sock k ≠ none ∧ 0 < backlog ∧ backlog ≤ 32
  | .accept k ns => s.sock k ≠ none ∧ s.sock ns = none
  | .connect k | .send k _ _ | .recv k _ | .setsockopt k _ _ | .name k => s.sock k ≠ none
  | .resume k i (.accept ns) => (k, i) ∈ s.waiting ∧ s.sock ns = none
  | .resume k i _ => (k, i) ∈ s.waiting
  | .input i _ new _ => (i ∈ s.list .active ∨ i ∈ s.list .timewait ∨ i ∈ s.list .listen) ∧ s.pcb new = none
  | .sent i place => ((s.pcb i).bind fun n => n.conn.unacked[place]?.map Tcp.Pbuf.count) = some 2
  | .slowtimo _ | .fastimo => True

instance (s : Sys) (i : Nat) : Decidable (s.pcb i = none) := decidable_of_iff _ Option.isNone_iff_eq_none

instance (s : Sys) : (a : Act) → Decidable (enabled s a)
  | .socket _ _ _ | .close _ | .listen _ _ | .accept _ _ | .input _ _ _ _ => inferInstanceAs (Decidable (_ ∧ _))
  | .connect _ | .send _ _ _ | .recv _ _ | .setsockopt _ _ _ | .name _ => inferInstanceAs (Decidable (_ ≠ none))
  | .sent _ _ => inferInstanceAs (Decidable (_ = some 2))
  | .resume _ _ (.accept _) => inferInstanceAs (Decidable (_ ∧ _))
  | .resume _ _ .done | .resume _ _ (.recv _) => inferInstanceAs (Decidable (_ ∈ _))
  | .slowtimo _ | .fastimo => inferInstanceAs (Decidable True)

def own : Machine Sys Act Fault where
  start s := s = ⟨fun _ => none, fun _ => [], fun _ => none, []⟩
  enabled := enabled
  step := step

end Onix.Own
