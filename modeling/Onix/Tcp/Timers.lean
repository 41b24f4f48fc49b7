/-
The timers of a connection. `Timed` adds `pcb->timers` and `pcb->tx_waiter` to the pcb, and each
function that sets a timer or wakes the waiter is given again here with what it does to them; a
round of `tcp_slowtimo` counts the timers down in their order and takes the timeouts of those that
reach zero. Without the timers every step is a run of the connection's.
-/
import Onix.Tcp.Control
import Onix.Tcp.Estimate
import Onix.Tcp.Output

namespace Onix.Tcp

open Onix.Lib

/-! ## Data -/

def tcpToSyn : Nat := 150

def tcpToFinWait2 : Nat := 1200

def tcpToTimewait : Nat := 480

def tcpToPersmin : Nat := 10

def tcpToPermax : Nat := 120

def tcpToKeepIdle : Nat := 14400

def tcpToKeepInterval : Nat := 150

/-- `pcb->timers`; zero is a timer that does not run. -/
@[ext] structure Timers where
  syn : Nat
  rexmit : Nat
  persist : Nat
  keepalive : Nat
  finWait2 : Nat
  timewait : Nat
  deriving DecidableEq

def Timers.get (ts : Timers) : TcpTimer → Nat
  | .syn => ts.syn | .rexmit => ts.rexmit | .persist => ts.persist | .keepalive => ts.keepalive
  | .finWait2 => ts.finWait2 | .timewait => ts.timewait

def Timers.set (ts : Timers) (n : Nat) : TcpTimer → Timers
  | .syn => { ts with syn := n } | .rexmit => { ts with rexmit := n } | .persist => { ts with persist := n }
  | .keepalive => { ts with keepalive := n } | .finWait2 => { ts with finWait2 := n } | .timewait => { ts with timewait := n }

/-- A pcb with its timers; `txWaiter` says that a task waits in `tcp_sendmsg`, `alive` that the pcb is not freed. -/
structure Timed where
  pcb : Pcb
  timers : Timers
  txWaiter : Bool
  alive : Bool

def Timed.set (t : Timed) (type : TcpTimer) (n : Nat) : Timed := { t with timers := t.timers.set n type }

/-! ## Output -/

/-- `tcp_output` starts the retransmission timer with each segment. -/
def outputT (t : Timed) : Except Fault Timed :=
  let r := tcpOutputLog t.pcb
  r.2 >>= fun p => .ok { t with pcb := p, timers := if r.1 = [] then t.timers else t.timers.set p.rto.toNat .rexmit }

def rexmitT (t : Timed) : Except Fault Timed :=
  outputT { t with pcb := requeue t.pcb } >>= fun t => .ok (t.set .rexmit t.pcb.rto.toNat)

/-! ## Input -/

/-- `tcp_update_wnd` starts the persist timer for an empty window. -/
def updateWndT (t : Timed) (g : Segment) : Timed :=
  if seqLT t.pcb.sndWl1 g.seqno ∨ (g.seqno = t.pcb.sndWl1 ∧ seqLEQ t.pcb.sndWl2 g.ackno) then
    { t with pcb := tcpUpdateWnd t.pcb g, timers := t.timers.set (if g.window = 0 then tcpToPersmin else 0) .persist }
  else t

def handleDuppacksT (t : Timed) : Except Fault Timed :=
  if t.pcb.dupacks < 3 then .ok t
  else if t.pcb.dupacks = 3 then
    if t.pcb.sndMss = 0 then .error .divide
    else rexmitT { t with pcb := fastRexmit t.pcb } >>= fun t =>
      .ok { t with pcb := { t.pcb with sndCwnd := t.pcb.sndSsthresh + BitVec.ofNat 32 t.pcb.sndMss * t.pcb.dupacks } }
  else rexmitT { t with pcb := { t.pcb with sndCwnd := t.pcb.sndCwnd + BitVec.ofNat 32 t.pcb.sndMss } }

/-- `tcp_update_ack` stops the retransmission timer when it wakes a waiting task. -/
def updateAckT (t : Timed) (g : Segment) : Except Fault Timed :=
  if seqGEQ t.pcb.sndUna g.ackno then
    if g.size = 0 then handleDuppacksT { t with pcb := { t.pcb with dupacks := t.pcb.dupacks + 1 } }
    else .ok { t with pcb := { t.pcb with dupacks := 0 } }
  else dropAcked (advanceUna (growCwnd t.pcb) g.ackno) g.ackno >>= fun p =>
    let t := { t with pcb := flushBuf p g.ackno }
    .ok (if t.pcb.unacked = [] ∧ t.pcb.unsent = [] ∧ t.txWaiter then { t with txWaiter := false, timers := t.timers.set 0 .rexmit }
      else t)

def receiveT (t : Timed) (g : Segment) : Except Fault Timed :=
  (if g.flags.has tcpAck then updateAckT (updateWndT t g) g else .ok t) >>= fun t =>
    .ok (if 0 < g.size then { t with pcb := tcpUpdateBuf t.pcb g } else t)

def purgeT (t : Timed) : Except Fault Timed := tcpPcbPurge t.pcb >>= fun p => .ok { t with pcb := p, txWaiter := false }

/-- The `switch` of `tcp_process`: a new `FIN_WAIT2` and a new `TIME_WAIT` start their timers, an acknowledged
`LAST_ACK` is freed. -/
def processStateT (t : Timed) (g : Segment) : Except Fault Timed :=
  processState t.pcb g >>= fun p =>
    let t' := { t with pcb := p }
    if t.pcb.state = .finWait1 ∧ p.state = .finWait2 then .ok (t'.set .finWait2 tcpToFinWait2)
    else if t.pcb.state ≠ .timeWait ∧ p.state = .timeWait then .ok { t'.set .timewait tcpToTimewait with txWaiter := false }
    else if t.pcb.state = .lastAck ∧ p.state = .closed then .ok { t' with txWaiter := false, alive := false }
    else .ok t'

def handleResetT (t : Timed) : Except Fault Timed :=
  if t.pcb.state.val ≤ TcpState.synSent.val then .ok t
  else purgeT t >>= fun t => .ok { t with pcb := { t.pcb with state := .closed } }

def inputT (t : Timed) (g : Segment) : Except Fault Timed :=
  if ¬ tcpValidate t.pcb g then .ok t
  else if t.pcb.state = .closed then .ok t
  else if g.flags.has tcpRst then handleResetT t
  else
    let (p, ok) := tcpParseOption t.pcb g.options
    let t := { t with pcb := p }
    if ¬ ok then .ok t
    else
      let t := { t with pcb := { t.pcb with idle := 0 } }
      let t := if t.pcb.keepalive then t.set .keepalive tcpToKeepIdle else t
      (if g.flags.has tcpAck ∧ t.pcb.state ≠ .timeWait then receiveT t g else .ok t) >>= fun t => processStateT t g

/-! ## Calls -/

def connectT (t : Timed) : Except Fault Timed :=
  if t.pcb.state ≠ .closed then .ok t
  else
    tcpEnqueue { t.pcb with state := .synSent } (fun _ => 0) 0 tcpSyn >>= fun p =>
      outputT { t with pcb := p } >>= fun t => .ok (t.set .syn tcpToSyn)

def Timers.zero : Timers := ⟨0, 0, 0, 0, 0, 0⟩

/-- The new pcb of `tcp_handle_listen`, which starts the timer of the listening one. -/
def handleListenT (isn : Seq) (mss : Nat) (g : Segment) : Except Fault Timed :=
  tcpEnqueue { tcpPcbGet isn with
    state := .synRcvd, sndWnd := g.window, sndMss := if mss < tcpDefaultMss then tcpDefaultMss else mss
    rcvNxt := g.seqno + 1 } (fun _ => 0) 0 (tcpSyn ||| tcpAck) >>= fun p => outputT ⟨p, .zero, false, true⟩

def closeT (t : Timed) : Except Fault Timed :=
  match t.pcb.state with
  | .closed | .synSent | .listen => purgeT { t with pcb := { t.pcb with state := .closed }, alive := false }
  | .synRcvd | .established =>
    tcpEnqueue t.pcb (fun _ => 0) 0 tcpFin >>= fun p => outputT { t with pcb := { p with state := .finWait1 } }
  | .closeWait => tcpEnqueue t.pcb (fun _ => 0) 0 tcpFin >>= fun p => outputT { t with pcb := { p with state := .lastAck } }
  | _ => .ok t

def sendmsgT (t : Timed) (iov : List ((Nat → UInt8) × Nat)) (flags : Flags) : Except Fault Timed :=
  if t.pcb.state ≠ .established then .ok t
  else
    let size := (iov.map Prod.snd).sum % 2 ^ 32
    if t.pcb.sndWnd < size then .ok t
    else
      sendLoop flags iov size t.pcb >>= fun p => outputT { t with pcb := p } >>= fun t =>
        .ok (if t.pcb.unacked = [] ∧ t.pcb.unsent = [] then t else { t with txWaiter := true })

def setsockoptT (t : Timed) (opt : SockOpt) (val : Bool) : Timed :=
  let t' := { t with pcb := tcpSetsockopt t.pcb opt val }
  if opt = .keepalive then t'.set .keepalive (if val then tcpToKeepIdle else 0) else t'

def fastimoT (t : Timed) : Except Fault Timed :=
  let t := if t.pcb.ackDelay then { t with pcb := { t.pcb with ackNow := true } } else t
  if t.pcb.ackNow then outputT t else .ok t

/-! ## Timeouts -/

def acts (s : Pcb) : TcpTimer → Bool
  | .syn => s.state = .synSent ∨ s.state = .synRcvd
  | .keepalive => s.keepalive ∧ TcpState.established.val ≤ s.state.val
  | .rexmit | .persist | .finWait2 | .timewait => true

def gaveUp (s : Pcb) : TcpTimer → Bool
  | .syn => acts s .syn
  | .rexmit => 12 < s.rtxCnt + 1
  | .keepalive => acts s .keepalive ∧ 1200 < s.idle
  | .persist | .finWait2 | .timewait => false

def backoffIndex (s : Pcb) : TcpTimer → Option Nat
  | .rexmit => if 12 < s.rtxCnt + 1 then none else some (s.rtxCnt + 1).toNat
  | .persist => some s.rtxCnt.toNat
  | .syn | .keepalive | .finWait2 | .timewait => none

def timeoutT (t : Timed) (type : TcpTimer) : Except Fault Timed :=
  let close (t : Timed) : Except Fault Timed := purgeT t >>= fun t => .ok { t with pcb := { t.pcb with state := .closed } }
  match type with
  | .syn => if t.pcb.state ≠ .synSent ∧ t.pcb.state ≠ .synRcvd then .ok t else close t
  | .rexmit =>
    let s := { t.pcb with rtxCnt := t.pcb.rtxCnt + 1 }
    if 12 < s.rtxCnt then close { t with pcb := s }
    else rexmitT { t with pcb := { s with rto := tcpUpdateRto s (tcpBackoff s.rtxCnt.toNat) } }
  | .persist =>
    let t := t.set .persist tcpToPermax
    .ok { t with pcb := if t.pcb.rtxCnt < 12 then { t.pcb with rtxCnt := t.pcb.rtxCnt + 1 } else t.pcb }
  | .keepalive =>
    if t.pcb.keepalive = false ∨ t.pcb.state.val < TcpState.established.val then .ok t
    else if 1200 < t.pcb.idle then close t
    else .ok (t.set .keepalive tcpToKeepInterval)
  | .finWait2 | .timewait => purgeT { t with pcb := { t.pcb with state := .closed }, alive := false }

/-- A timer that ran out: the pcb was one a timeout had closed, `tcp_timeout` got past its guards, and the entry of
`tcp_backoff` it read. -/
structure Expiry where
  type : TcpTimer
  closed : Bool
  acts : Bool
  index : Option Nat
  deriving DecidableEq

/-- A round of `tcp_slowtimo` under way: the timers that ran out, and whether a timeout has moved the pcb to `CLOSED`. -/
structure Tick where
  timed : Timed
  timedOut : Bool
  expiries : List Expiry

/-- `if (pcb->timers[i] && (--pcb->timers[i]) == 0) tcp_timeout(pcb, i)`; a pcb that was freed is still read. -/
def tickTimer (k : Tick) (type : TcpTimer) : Except Fault Tick :=
  if k.timed.timers.get type = 0 then .ok k
  else
    let t := k.timed.set type (k.timed.timers.get type - 1)
    if t.timers.get type ≠ 0 then .ok { k with timed := t }
    else
      timeoutT t type >>= fun t' => .ok {
        timed := t'
        timedOut := k.timedOut || gaveUp t.pcb type
        expiries := k.expiries ++ [⟨type, k.timedOut, acts t.pcb type, backoffIndex t.pcb type⟩] }

def tcpTimers : List TcpTimer := [.syn, .rexmit, .persist, .keepalive, .finWait2, .timewait]

def slowtimoT (k : Tick) : Except Fault Tick :=
  tcpTimers.foldlM tickTimer { k with timed := { k.timed with pcb := tcpSlowtimo k.timed.pcb } }

/-! ## The machine -/

/-- A connection with its timers and every timer that ran out so far. -/
structure TimedState where
  tick : Tick
  sock : Bool
  delivered : List UInt8

inductive TimedAct
  | connect
  | input (g : Segment)
  | send (iov : List ((Nat → UInt8) × Nat)) (flags : Flags)
  | sendEnd
  | recv (sizes : List Nat)
  | resume (sizes : List Nat)
  | setsockopt (opt : SockOpt) (val : Bool)
  | close
  | slowtimo
  | fastimo
  | sent (i : Nat)

def TimedState.conn (s : TimedState) : State := ⟨s.tick.timed.pcb, s.sock, s.delivered⟩

def TimedState.withTimed (s : TimedState) (t : Timed) : TimedState := { s with tick := { s.tick with timed := t } }

def timedStep (s : TimedState) : TimedAct → Except Fault TimedState
  | .connect => connectT s.tick.timed >>= fun t => .ok {
      s with tick := { s.tick with timed := t, timedOut := s.tick.timedOut && t.pcb.state = .closed } }
  | .input g => inputT s.tick.timed g >>= fun t => .ok (s.withTimed t)
  | .send iov flags => sendmsgT s.tick.timed iov flags >>= fun t => .ok (s.withTimed t)
  | .sendEnd => .ok (s.withTimed { s.tick.timed with txWaiter := false })
  | .recv sizes => tcpRecvmsg s.tick.timed.pcb (sizes.map fun n => ⟨[], n⟩) >>= fun r =>
      .ok { s.withTimed { s.tick.timed with pcb := r.1 } with delivered := s.delivered ++ r.2.flatMap Iovec.base }
  | .resume sizes => recvQueued s.tick.timed.pcb (sizes.map fun n => ⟨[], n⟩) >>= fun r =>
      .ok { s.withTimed { s.tick.timed with pcb := r.1 } with delivered := s.delivered ++ r.2.flatMap Iovec.base }
  | .setsockopt opt val => .ok (s.withTimed (setsockoptT s.tick.timed opt val))
  | .close => closeT s.tick.timed >>= fun t => .ok { s.withTimed t with sock := false }
  | .slowtimo => slowtimoT s.tick >>= fun k => .ok { s with tick := k }
  | .fastimo => fastimoT s.tick.timed >>= fun t => .ok (s.withTimed t)
  | .sent i => .ok (s.withTimed { s.tick.timed with pcb := deviceSent s.tick.timed.pcb i })

/-- The step of the connection that a call or a segment is; `none` for what only concerns the timers. -/
def TimedAct.act : TimedAct → Option Act
  | .connect => some .connect
  | .input g => some (.input g)
  | .send iov flags => some (.send iov flags)
  | .recv sizes => some (.recv sizes)
  | .resume sizes => some (.resume sizes)
  | .setsockopt opt val => some (.setsockopt opt val)
  | .close => some .close
  | .fastimo => some .fastimo
  | .sent i => some (.sent i)
  | .sendEnd | .slowtimo => none

def timedEnabled (s : TimedState) (a : TimedAct) : Prop := s.tick.timed.alive = true ∧ ∀ b ∈ a.act, enabled s.conn b

instance (s : TimedState) (a : TimedAct) : Decidable (timedEnabled s a) := inferInstanceAs (Decidable (_ ∧ _))

/-- A connection with its timers, from the pcb of `tcp_pcb_get` on, or from the one `tcp_handle_listen` makes. -/
def timed : Machine TimedState TimedAct Fault where
  start s := s.delivered = [] ∧ s.tick.timedOut = false ∧ s.tick.expiries = [] ∧
    ∃ isn, s.tick.timed = ⟨tcpPcbGet isn, .zero, false, true⟩ ∨
      ∃ mss g, mss < 65536 ∧ g.window < 65536 ∧ handleListenT isn mss g = .ok s.tick.timed
  enabled := timedEnabled
  step := timedStep

instance (s : TimedState) (a : TimedAct) : Decidable (timed.enabled s a) := inferInstanceAs (Decidable (timedEnabled s a))

end Onix.Tcp
