/-
One TCP connection: the control block of `net/tcp.h` and the functions of `tcp.c`, `tcp_input.c`,
`tcp_output.c`, `tcp_pcb.c`, `tcp_timer.c` and `tcp_option.c` that read or change it, from
`tcp_pcb_get` on. A system call, an incoming segment or a timer is one step.

Sequence numbers are 32-bit words; sizes are numbers. Timers may fire at any step, so their
counters are left out; a task blocked on the connection goes on at any later step. The pcb's
addresses and ports only select it. `tcp_reset` and `tcp_response` send a header and leave the pcb
as it is.
-/
import Onix.List
import Onix.Lib.Machine

namespace Onix.Tcp

open Onix.Lib

/-! ## Constants and sequence numbers -/

def tcpMss : Nat := 1460

def tcpWindow : Nat := 8192

def tcpMaxWindow : Nat := 65535

def tcpDefaultMss : Nat := 536

/-- Two buffers from each page between `MEMORY_BASE` and `KERNEL_RAMDISK_MEM`: `pbuf_get` panics beyond. -/
def pbufMax : Nat := 2 * ((0xC00000 - 0x100000) / 0x1000)

abbrev Seq := BitVec 32

def seqLT (a b : Seq) : Prop := (a - b).toInt < 0

def seqLEQ (a b : Seq) : Prop := (a - b).toInt ≤ 0

def seqGT (a b : Seq) : Prop := 0 < (a - b).toInt

def seqGEQ (a b : Seq) : Prop := 0 ≤ (a - b).toInt

instance (a b : Seq) : Decidable (seqLT a b) := inferInstanceAs (Decidable (_ < _))
instance (a b : Seq) : Decidable (seqLEQ a b) := inferInstanceAs (Decidable (_ ≤ _))
instance (a b : Seq) : Decidable (seqGT a b) := inferInstanceAs (Decidable (_ < _))
instance (a b : Seq) : Decidable (seqGEQ a b) := inferInstanceAs (Decidable (_ ≤ _))

abbrev Flags := BitVec 8

def tcpFin : Flags := 0x01
def tcpSyn : Flags := 0x02
def tcpRst : Flags := 0x04
def tcpPsh : Flags := 0x08
def tcpAck : Flags := 0x10

def Flags.has (f m : Flags) : Bool := f &&& m ≠ 0

/-! ## Data -/

inductive TcpState
  | closed | listen | synSent | synRcvd | established | finWait1 | finWait2 | closeWait | closing | lastAck | timeWait
  deriving DecidableEq

def TcpState.val : TcpState → Nat
  | .closed => 0 | .listen => 1 | .synSent => 2 | .synRcvd => 3 | .established => 4 | .finWait1 => 5
  | .finWait2 => 6 | .closeWait => 7 | .closing => 8 | .lastAck => 9 | .timeWait => 10

/-- `pbuf_t` with the flags of its header; `data` is what lies from its data pointer on. -/
structure Pbuf where
  data : List UInt8
  size : Nat
  total : Nat
  length : Nat
  count : Nat
  seqno : Seq
  flags : Flags
  deriving DecidableEq

def Pbuf.endSeq (p : Pbuf) : Seq := p.seqno + BitVec.ofNat 32 p.size

structure Pcb where
  state : TcpState
  ackDelay : Bool
  ackNow : Bool
  keepalive : Bool
  nodelay : Bool
  quickack : Bool
  sndUna : Seq
  sndNxt : Seq
  sndWnd : Nat
  sndMss : Nat
  sndNbb : Seq
  sndMax : Seq
  sndWl1 : Seq
  sndWl2 : Seq
  sndMwnd : Nat
  sndBuf : Option Pbuf
  rcvNxt : Seq
  rcvWnd : Nat
  rcvMss : Nat
  idle : BitVec 32
  rto : BitVec 32
  rtxCnt : BitVec 32
  rtt : BitVec 32
  rttSeq : Seq
  srtt : BitVec 32
  rttvar : BitVec 32
  rttmin : BitVec 32
  dupacks : BitVec 32
  sndCwnd : BitVec 32
  sndSsthresh : BitVec 32
  unsent : List Pbuf
  unacked : List Pbuf
  recved : List Pbuf

/-- The options `tcp_parse_option` tells apart. -/
inductive TcpOpt
  | optEnd
  | optMss (size : Nat) (value : Nat)
  | other
  deriving DecidableEq

def TcpOpt.mss : TcpOpt → Option Nat
  | .optMss _ value => some value
  | .optEnd | .other => none

/-- An incoming segment: `tcp_t` and its payload. -/
structure Segment where
  seqno : Seq
  ackno : Seq
  flags : Flags
  window : Nat
  options : List TcpOpt
  data : List UInt8
  deriving DecidableEq

def Segment.size (g : Segment) : Nat := g.data.length

/-- An `iovec_t` to be filled: what was written so far and the room left. -/
structure Iovec where
  base : List UInt8
  size : Nat
  deriving DecidableEq

/-- Failed assertions, a division by zero and the panic of `alloc_kpage`. -/
inductive Fault
  | count
  | size
  | short
  | window
  | divide
  | memory
  deriving DecidableEq

/-! ## Timers -/

def tcpBackoff (i : Nat) : BitVec 32 := if i < 6 then 1 <<< i else 64

def tcpRangeValue (val min max : BitVec 32) : BitVec 32 := if val < min then min else if max < val then max else val

def tcpUpdateRto (s : Pcb) (backoff : BitVec 32) : BitVec 32 :=
  tcpRangeValue ((s.srtt + (s.rttvar <<< 2)) * backoff) s.rttmin 128

def absInt (a : BitVec 32) : BitVec 32 := if a.slt 0 then -a else a

def tcpXmitTimer (s : Pcb) (rtt : BitVec 32) : Pcb :=
  let err := rtt - s.srtt
  let srtt := s.srtt + err.sshiftRight 3
  let rttvar := s.rttvar + (absInt err - s.rttvar).sshiftRight 2
  let s := { s with
    srtt := if srtt.sle 0 then 1 else srtt, rttvar := if rttvar.sle 0 then 1 else rttvar, rtt := 0, rtxCnt := 0 }
  { s with rto := tcpUpdateRto s 1 }

/-! ## Output -/

def insertSeg : Pbuf → List Pbuf → List Pbuf := listInsertSort Pbuf.seqno

/-- `tcp_output_seg`: what a header with the given flags changes in the pcb. -/
def tcpOutputSeg (s : Pcb) (flags : Flags) : Pcb :=
  if flags.has tcpSyn then s else { s with ackDelay := false, ackNow := false }

def tcpSendAck (s : Pcb) (flags : Flags) : Pcb := tcpOutputSeg s flags

def tcpWriteOption (flags : Flags) : Nat := 20 + if flags.has tcpSyn then 8 else 0

/-- The buffer `tcp_enqueue` fills: the Nagle buffer or a new one. -/
def enqueueBuf (s : Pcb) (flags : Flags) : Pbuf :=
  match s.sndBuf with
  | some p => p
  | none => { data := [], size := 0, total := tcpWriteOption flags, length := 0, count := 1, seqno := s.sndNbb, flags := flags }

/-- `MIN(left, snd_mss - size)` as `int`s: negative when the mss shrank below the buffer. -/
def enqueueLen (s : Pcb) (p : Pbuf) (left : Int) : Int :=
  let seglen : Int := s.sndMss - p.size
  if left < seglen then left else seglen

/-- `len` bytes from `ptr` on go into the buffer, the last ones of the call under `PSH`. -/
def fillBuf (src : Nat → UInt8) (ptr : Nat) (left len : Int) (flags : Flags) (p : Pbuf) : Pbuf :=
  let p := { p with
    flags := p.flags ||| flags
    data := p.data.take p.size ++ (List.range len.toNat).map fun i => src (ptr + i)
    size := (p.size + len).toNat
    total := (p.total + len).toNat }
  if left - len ≤ 0 ∧ 0 < p.size then { p with flags := p.flags ||| tcpPsh } else p

def tcpEnqueueSeg (src : Nat → UInt8) (ptr : Nat) (left : Int) (size : Nat) (flags : Flags) (s : Pcb) :
    Except Fault (Pcb × Int) :=
  if s.sndBuf = none ∧ pbufMax ≤ s.unsent.length + s.unacked.length + s.recved.length then .error .memory
  else
    let len := enqueueLen s (enqueueBuf s flags) left
    let p := fillBuf src ptr left len flags (enqueueBuf s flags)
    let s := { s with sndNbb := s.sndNbb + BitVec.ofInt 32 len }
    if s.nodelay = false ∧ p.size < s.sndMss ∧ 0 < size then .ok ({ s with sndBuf := some p }, len)
    else .ok ({ s with unsent := insertSeg p s.unsent, sndBuf := none }, len)

def enqueueLoop (src : Nat → UInt8) (size : Nat) (flags : Flags) : Nat → Nat → Int → Pcb → Except Fault Pcb
  | 0, _, _, s => .ok s
  | fuel + 1, ptr, left, s => do
    let (s, len) ← tcpEnqueueSeg src ptr left size flags s
    if 0 < left - len then enqueueLoop src size flags fuel (ptr + len.toNat) (left - len) s else pure s

def tcpEnqueue (s : Pcb) (src : Nat → UInt8) (size : Nat) (flags : Flags) : Except Fault Pcb :=
  let s := if s.sndMss < tcpDefaultMss then { s with sndMss := tcpDefaultMss } else s
  enqueueLoop src size flags (size + tcpMaxWindow + 2) 0 size s

def outputLoop (wnd : BitVec 32) : List Pbuf → Pcb → Except Fault Pcb
  | [], s => .ok s
  | p :: rest, s =>
    let nxt := p.endSeq
    if seqGT nxt (s.sndUna + wnd) then .ok s
    else
      let s := if s.rtt ≠ 0 ∧ seqLEQ s.rttSeq s.sndUna then { s with rtt := 1, rttSeq := nxt } else s
      let s := { s with sndNxt := nxt, sndMax := if seqGT nxt s.sndMax then nxt else s.sndMax }
      if p.count ≠ 1 then .error .count
      else
        let p := { p with
          count := p.count + 1, flags := if p.flags.has tcpSyn then p.flags else p.flags ||| tcpAck }
        outputLoop wnd rest (tcpOutputSeg { s with unsent := rest, unacked := insertSeg p s.unacked } p.flags)

/-- `MIN(snd_cwnd, snd_wnd)` after the slow start of `tcp_output`. -/
def outputWnd (s : Pcb) : BitVec 32 :=
  if s.sndCwnd < BitVec.ofNat 32 s.sndWnd then s.sndCwnd else BitVec.ofNat 32 s.sndWnd

def slowStart (s : Pcb) : Pcb :=
  if s.sndMax = s.sndUna ∧ s.rto ≤ s.idle then { s with sndCwnd := BitVec.ofNat 32 s.sndMss } else s

def tcpOutput (s : Pcb) : Except Fault Pcb :=
  let s := slowStart s
  if outputWnd s < BitVec.ofNat 32 tcpDefaultMss then .ok s
  else do
    let s ← outputLoop (outputWnd s) s.unsent s
    if s.ackNow then pure (tcpSendAck s tcpAck) else pure s

/-- The segments of `unacked` the device has given back go to `unsent` again. -/
def requeue (s : Pcb) : Pcb :=
  { s with
    unacked := s.unacked.filter fun p => decide (1 < p.count)
    unsent := (s.unacked.filter fun p => decide (p.count ≤ 1)).foldl (fun l p => insertSeg p l) s.unsent }

def tcpRexmit (s : Pcb) : Except Fault Pcb := tcpOutput (requeue s)

/-! ## Input -/

def tcpUpdateWnd (s : Pcb) (g : Segment) : Pcb :=
  if seqLT s.sndWl1 g.seqno ∨ (g.seqno = s.sndWl1 ∧ seqLEQ s.sndWl2 g.ackno) then
    { s with
      sndWnd := g.window, sndWl1 := g.seqno, sndWl2 := g.ackno
      sndMwnd := if s.sndMwnd < g.window then g.window else s.sndMwnd }
  else s

def fastRexmit (s : Pcb) : Pcb :=
  let segs := outputWnd s / 2 / BitVec.ofNat 32 s.sndMss
  let segs := if segs.slt 2 then 2 else segs
  { s with sndSsthresh := segs * BitVec.ofNat 32 s.sndMss, sndCwnd := BitVec.ofNat 32 s.sndMss, rtt := 0 }

def tcpHandleDuppacks (s : Pcb) : Except Fault Pcb :=
  if s.dupacks < 3 then .ok s
  else if s.dupacks = 3 then
    if s.sndMss = 0 then .error .divide
    else do
      let s ← tcpRexmit (fastRexmit s)
      pure { s with sndCwnd := s.sndSsthresh + BitVec.ofNat 32 s.sndMss * s.dupacks }
  else tcpRexmit { s with sndCwnd := s.sndCwnd + BitVec.ofNat 32 s.sndMss }

def growCwnd (s : Pcb) : Pcb :=
  let s := if 3 < s.dupacks ∧ s.sndSsthresh < s.sndCwnd then { s with sndCwnd := s.sndSsthresh } else s
  let mss := BitVec.ofNat 32 s.sndMss
  let unit := if s.sndSsthresh < s.sndCwnd then (mss * mss).sdiv s.sndCwnd else mss
  let cwnd := s.sndCwnd + unit
  { s with dupacks := 0, sndCwnd := if cwnd.slt (BitVec.ofNat 32 tcpMaxWindow) then cwnd else BitVec.ofNat 32 tcpMaxWindow }

def advanceUna (s : Pcb) (ackno : Seq) : Pcb :=
  let s := if s.rtt ≠ 0 ∧ ackno = s.rttSeq then tcpXmitTimer s (s.rtt - 1) else s
  { s with rtt := 1, sndUna := ackno, rtxCnt := 0 }

def dropAcked (s : Pcb) (ackno : Seq) : Except Fault Pcb :=
  if (s.unacked ++ s.unsent).any fun p => decide (¬ seqGT p.endSeq ackno) && decide (2 < p.count) then .error .count
  else .ok { s with
    unacked := s.unacked.filter fun p => decide (seqGT p.endSeq ackno)
    unsent := s.unsent.filter fun p => decide (seqGT p.endSeq ackno) }

def flushBuf (s : Pcb) (ackno : Seq) : Pcb :=
  match s.sndBuf with
  | some p => if 0 < p.size ∧ ackno = s.sndMax then { s with unsent := insertSeg p s.unsent, sndBuf := none } else s
  | none => s

def tcpUpdateAck (s : Pcb) (g : Segment) : Except Fault Pcb :=
  if seqGEQ s.sndUna g.ackno then
    if g.size = 0 then tcpHandleDuppacks { s with dupacks := s.dupacks + 1 }
    else .ok { s with dupacks := 0 }
  else do
    let s ← dropAcked (advanceUna (growCwnd s) g.ackno) g.ackno
    pure (flushBuf s g.ackno)

def Segment.pbuf (g : Segment) : Pbuf :=
  { data := g.data, size := g.size, total := 20 + g.size, length := 0, count := 1, seqno := g.seqno, flags := g.flags }

def trimSeg (s : Pcb) (g : Segment) : Pbuf :=
  if seqLT g.seqno s.rcvNxt then
    let offset := (s.rcvNxt - g.seqno).toNat
    { g.pbuf with data := g.pbuf.data.drop offset, size := g.pbuf.size - offset }
  else g.pbuf

/-- `tcp_update_buf`; a queued buffer has the reference of `neti_thread` given back already. -/
def tcpUpdateBuf (s : Pcb) (g : Segment) : Pcb :=
  let rcvNxt := g.seqno + BitVec.ofNat 32 g.size
  if seqLEQ rcvNxt s.rcvNxt then { s with ackDelay := true }
  else if seqGT g.seqno s.rcvNxt then { s with ackDelay := true }
  else
    let p := trimSeg s g
    if p.size = 0 then { s with ackDelay := true }
    else
      let s := { s with rcvNxt := rcvNxt, rcvWnd := (s.rcvWnd + 65536 - p.size % 65536) % 65536, ackDelay := true }
      let s := if s.quickack then tcpSendAck s tcpAck else s
      if TcpState.established.val < s.state.val then s
      else { s with recved := insertSeg p s.recved }

def tcpReceive (s : Pcb) (g : Segment) : Except Fault Pcb :=
  (if g.flags.has tcpAck then tcpUpdateAck (tcpUpdateWnd s g) g else .ok s) >>= fun s =>
    .ok (if 0 < g.size then tcpUpdateBuf s g else s)

def tcpPcbPurge (s : Pcb) : Except Fault Pcb :=
  if (s.recved ++ s.unsent ++ s.unacked).any fun p => decide (p.count ≠ 1) then .error .count
  else .ok { s with recved := [], unsent := [], unacked := [] }

def tcpPcbTimewait (s : Pcb) : Except Fault Pcb := tcpPcbPurge { s with state := .timeWait }

def tcpHandleSynSent (s : Pcb) (g : Segment) : Pcb :=
  if g.flags ≠ tcpSyn ||| tcpAck then s
  else if g.ackno ≠ s.sndNxt + 1 then s
  else
    let s := { s with
      state := .established, rcvNxt := g.seqno + 1, sndNxt := g.ackno, sndWnd := g.window, sndUna := g.ackno
      sndNbb := g.ackno, ackDelay := true }
    if s.quickack then tcpSendAck s tcpAck else s

def finAcked (s : Pcb) : Pcb := { s with sndNxt := s.sndNxt + 1, sndNbb := s.sndNxt + 1 }

def processFinWait1 (s : Pcb) (g : Segment) : Except Fault Pcb :=
  let fin := g.flags.has tcpFin
  let acked := g.flags.has tcpAck ∧ g.ackno = s.sndNxt + 1
  (if fin ∧ acked then tcpPcbTimewait (finAcked s)
    else if fin then .ok { s with state := .closing }
    else if acked then .ok { finAcked s with state := .finWait2 }
    else .ok s) >>= fun s =>
    .ok (if fin then { s with rcvNxt := g.seqno + 1, ackNow := true } else s)

def processTimeWait (s : Pcb) (g : Segment) : Pcb :=
  let nxt := g.seqno + BitVec.ofNat 32 g.size
  let s := if seqGT nxt s.rcvNxt then { s with rcvNxt := nxt } else s
  if 0 < g.size then { s with ackNow := true } else s

/-- The `switch` of `tcp_process`; the pcb a `LISTEN` one spawns is a connection of its own. -/
def processState (s : Pcb) (g : Segment) : Except Fault Pcb :=
  let ack := g.flags.has tcpAck
  let fin := g.flags.has tcpFin
  match s.state with
  | .synSent => .ok (tcpHandleSynSent s g)
  | .synRcvd =>
    if ¬ ack ∨ g.ackno ≠ s.sndNxt + 1 then .ok s
    else .ok { s with state := .established, sndNxt := g.ackno, sndNbb := g.ackno }
  | .closeWait | .established =>
    if fin then .ok { s with ackNow := true, state := .closeWait, rcvNxt := g.seqno + 1 } else .ok s
  | .lastAck => if ack then tcpPcbPurge { s with state := .closed } else .ok s
  | .finWait1 => processFinWait1 s g
  | .finWait2 => if fin then tcpPcbTimewait { s with rcvNxt := g.seqno + 1, ackNow := true } else .ok s
  | .closing => if ack ∧ g.ackno = s.sndNxt + 1 then tcpPcbTimewait (finAcked s) else .ok s
  | .timeWait => .ok (processTimeWait s g)
  | .listen | .closed => .ok s

def tcpProcess (s : Pcb) (g : Segment) : Except Fault Pcb :=
  (if g.flags.has tcpAck ∧ s.state ≠ .timeWait then tcpReceive s g else .ok s) >>= fun s => processState s g

def tcpValidate (s : Pcb) (g : Segment) : Bool :=
  g.flags.has tcpSyn ∨
    (¬ seqGT (g.seqno + BitVec.ofNat 32 g.size) (s.rcvNxt + BitVec.ofNat 32 s.rcvWnd) ∧
      ¬ seqLT (g.seqno + BitVec.ofNat 32 g.size) s.rcvNxt)

def tcpParseOption (s : Pcb) : List TcpOpt → Pcb × Bool
  | [] => (s, true)
  | .optEnd :: _ => (s, true)
  | .optMss size value :: os => if size ≠ 4 then (s, false) else tcpParseOption { s with sndMss := value } os
  | .other :: os => tcpParseOption s os

def tcpHandleReset (s : Pcb) : Except Fault Pcb := do
  if s.state.val ≤ TcpState.synSent.val then pure s
  else
    let s ← tcpPcbPurge s
    pure { s with state := .closed }

def tcpInput (s : Pcb) (g : Segment) : Except Fault Pcb :=
  if ¬ tcpValidate s g then .ok s
  else if s.state = .closed then .ok s
  else if g.flags.has tcpRst then tcpHandleReset s
  else
    let (s, ok) := tcpParseOption s g.options
    if ¬ ok then .ok s else tcpProcess { s with idle := 0 } g

/-! ## System calls -/

def tcpPcbGet (isn : Seq) : Pcb :=
  let s : Pcb := {
    state := .closed, ackDelay := false, ackNow := false, keepalive := false, nodelay := false, quickack := false
    sndUna := isn, sndNxt := isn, sndWnd := tcpDefaultMss, sndMss := tcpDefaultMss, sndNbb := isn, sndMax := 0
    sndWl1 := 0, sndWl2 := 0, sndMwnd := 0, sndBuf := none
    rcvNxt := 0, rcvWnd := tcpWindow, rcvMss := tcpMss
    idle := 0, rto := 0, rtxCnt := 0, rtt := 0, rttSeq := isn, srtt := 0, rttvar := 2, rttmin := 2
    dupacks := 0, sndCwnd := BitVec.ofNat 32 tcpDefaultMss, sndSsthresh := BitVec.ofNat 32 tcpMaxWindow
    unsent := [], unacked := [], recved := [] }
  { s with rto := tcpUpdateRto s 1 }

def tcpConnect (s : Pcb) : Except Fault Pcb :=
  if s.state ≠ .closed then .ok s
  else do
    let s ← tcpEnqueue { s with state := .synSent } (fun _ => 0) 0 tcpSyn
    tcpOutput s

/-- The new pcb of `tcp_handle_listen`, for a listening one with the given `snd_mss`. -/
def tcpHandleListen (isn : Seq) (mss : Nat) (g : Segment) : Except Fault Pcb := do
  let s := { tcpPcbGet isn with
    state := .synRcvd, sndWnd := g.window, sndMss := if mss < tcpDefaultMss then tcpDefaultMss else mss
    rcvNxt := g.seqno + 1 }
  let s ← tcpEnqueue s (fun _ => 0) 0 (tcpSyn ||| tcpAck)
  tcpOutput s

def tcpClose (s : Pcb) : Except Fault Pcb :=
  match s.state with
  | .closed | .synSent | .listen => tcpPcbPurge { s with state := .closed }
  | .synRcvd | .established => do
    let s ← tcpEnqueue s (fun _ => 0) 0 tcpFin
    tcpOutput { s with state := .finWait1 }
  | .closeWait => do
    let s ← tcpEnqueue s (fun _ => 0) 0 tcpFin
    tcpOutput { s with state := .lastAck }
  | _ => .ok s

/-- The options `tcp_setsockopt` knows. -/
inductive SockOpt
  | keepalive
  | nodelay
  | quickack
  deriving DecidableEq

def tcpSetsockopt (s : Pcb) (opt : SockOpt) (val : Bool) : Pcb :=
  match opt with
  | .keepalive => { s with keepalive := val }
  | .nodelay => { s with nodelay := val }
  | .quickack => { s with quickack := val }

/-- The loop of `tcp_sendmsg` over the `iovec`: the source and the size of each. -/
def sendLoop (flags : Flags) : List ((Nat → UInt8) × Nat) → Nat → Pcb → Except Fault Pcb
  | [], _, s => .ok s
  | v :: iov, left, s =>
    if left = 0 then .ok s
    else if v.2 = 0 then sendLoop flags iov left s
    else do
      let len := if left < v.2 then left else v.2
      let s ← tcpEnqueue s v.1 len flags
      sendLoop flags iov (left - len) s

def tcpSendmsg (s : Pcb) (iov : List ((Nat → UInt8) × Nat)) (flags : Flags) : Except Fault Pcb :=
  if s.state ≠ .established then .ok s
  else
    let size := (iov.map Prod.snd).sum % 2 ^ 32
    if s.sndWnd < size then .ok s
    else do
      let s ← sendLoop flags iov size s
      tcpOutput s

def iovecWrite : List Iovec → List UInt8 → Nat → List Iovec × Nat
  | [], _, _ => ([], 0)
  | v :: iov, buf, count =>
    if count = 0 then (v :: iov, 0)
    else
      let len := if count < v.size then count else v.size
      let (iov, n) := iovecWrite iov (buf.drop len) (count - len)
      (⟨v.base ++ buf.take len, v.size - len⟩ :: iov, len + n)

/-- The loop of `tcp_recvmsg` over `recved`: the room left, the vectors, `rcv_wnd` and the list. -/
def recvLoop : List Pbuf → Nat → List Iovec → Nat → Except Fault (Nat × List Iovec × Nat × List Pbuf)
  | [], left, iov, wnd => .ok (left, iov, wnd, [])
  | p :: rest, left, iov, wnd =>
    let p := if p.total ≠ 0 then { p with length := p.size, total := 0 } else p
    let len := if left < p.size then left else p.size
    let (iov, ret) := iovecWrite iov p.data len
    if ret ≠ len then .error .short
    else
      let left := left - ret
      if len < p.size then .ok (left, iov, wnd, { p with data := p.data.drop left, size := p.size - left } :: rest)
      else if p.count ≠ 1 then .error .count
      else
        let wnd := (wnd + p.length) % 65536
        if tcpWindow < wnd then .error .window else recvLoop rest left iov wnd

def recvQueued (s : Pcb) (iov : List Iovec) : Except Fault (Pcb × List Iovec) :=
  let size := (iov.map Iovec.size).sum % 2 ^ 32
  if size = 0 then .error .size
  else do
    let (_, iov, wnd, recved) ← recvLoop s.recved size iov s.rcvWnd
    pure ({ s with recved := recved, rcvWnd := wnd }, iov)

def tcpRecvmsg (s : Pcb) (iov : List Iovec) : Except Fault (Pcb × List Iovec) :=
  if s.state ≠ .established ∨ s.recved = [] then .ok (s, iov) else recvQueued s iov

/-! ## Timeouts -/

inductive TcpTimer
  | syn | rexmit | persist | keepalive | finWait2 | timewait
  deriving DecidableEq

def tcpTimeout (s : Pcb) : TcpTimer → Except Fault Pcb
  | .syn =>
    if s.state ≠ .synSent ∧ s.state ≠ .synRcvd then .ok s
    else do let s ← tcpPcbPurge s; pure { s with state := .closed }
  | .rexmit =>
    let s := { s with rtxCnt := s.rtxCnt + 1 }
    if 12 < s.rtxCnt then do let s ← tcpPcbPurge s; pure { s with state := .closed }
    else tcpRexmit { s with rto := tcpUpdateRto s (tcpBackoff s.rtxCnt.toNat) }
  | .persist => .ok (if s.rtxCnt < 12 then { s with rtxCnt := s.rtxCnt + 1 } else s)
  | .keepalive =>
    if s.keepalive = false ∨ s.state.val < TcpState.established.val ∨ ¬ 1200 < s.idle then .ok s
    else do let s ← tcpPcbPurge s; pure { s with state := .closed }
  | .finWait2 | .timewait => tcpPcbPurge { s with state := .closed }

def tcpSlowtimo (s : Pcb) : Pcb := { s with idle := s.idle + 1, rtt := if s.rtt ≠ 0 then s.rtt + 1 else 0 }

def tcpFastimo (s : Pcb) : Except Fault Pcb :=
  let s := if s.ackDelay then { s with ackNow := true } else s
  if s.ackNow then tcpOutput s else .ok s

def deviceSent (s : Pcb) (i : Nat) : Pcb := { s with unacked := s.unacked.modify i fun p => { p with count := p.count - 1 } }

/-! ## The machine -/

structure State where
  pcb : Pcb
  /-- the socket still refers to the pcb -/
  sock : Bool
  /-- the bytes the calls of `tcp_recvmsg` returned -/
  delivered : List UInt8

inductive Act
  | connect
  | input (g : Segment)
  | send (iov : List ((Nat → UInt8) × Nat)) (flags : Flags)
  | recv (sizes : List Nat)
  | resume (sizes : List Nat)
  | setsockopt (opt : SockOpt) (val : Bool)
  | close
  | timeout (type : TcpTimer)
  | slowtimo
  | fastimo
  | sent (i : Nat)

def step (s : State) : Act → Except Fault State
  | .connect => do let p ← tcpConnect s.pcb; pure { s with pcb := p }
  | .input g => do let p ← tcpInput s.pcb g; pure { s with pcb := p }
  | .send iov flags => do let p ← tcpSendmsg s.pcb iov flags; pure { s with pcb := p }
  | .recv sizes => do
    let (p, iov) ← tcpRecvmsg s.pcb (sizes.map fun n => ⟨[], n⟩)
    pure { s with pcb := p, delivered := s.delivered ++ iov.flatMap Iovec.base }
  | .resume sizes => do
    let (p, iov) ← recvQueued s.pcb (sizes.map fun n => ⟨[], n⟩)
    pure { s with pcb := p, delivered := s.delivered ++ iov.flatMap Iovec.base }
  | .setsockopt opt val => pure { s with pcb := tcpSetsockopt s.pcb opt val }
  | .close => do let p ← tcpClose s.pcb; pure { s with pcb := p, sock := false }
  | .timeout type => do let p ← tcpTimeout s.pcb type; pure { s with pcb := p }
  | .slowtimo => pure { s with pcb := tcpSlowtimo s.pcb }
  | .fastimo => do let p ← tcpFastimo s.pcb; pure { s with pcb := p }
  | .sent i => pure { s with pcb := deviceSent s.pcb i }

/-- Calls need the socket and vectors `iovec_check` accepts, a call of `tcp_recvmsg` that waited may go on
at any time; a segment has a 16-bit window and length and 16-bit option values; the device gives back
a segment it holds; no socket has a pcb in `SYN_RCVD`. -/
def enabled (s : State) : Act → Prop
  | .connect | .setsockopt _ _ => s.sock = true
  | .close => s.sock = true ∧ s.pcb.state ≠ .synRcvd
  | .send iov _ => s.sock = true ∧ ∀ v ∈ iov, 0 < v.2
  | .recv sizes => s.sock = true ∧ ∀ n ∈ sizes, 0 < n
  | .resume sizes => ∀ n ∈ sizes, 0 < n
  | .input g => g.size < 65536 ∧ g.window < 65536 ∧ ∀ v ∈ g.options.filterMap TcpOpt.mss, v < 65536
  | .sent i => s.pcb.unacked[i]?.map Pbuf.count = some 2
  | .timeout _ | .slowtimo | .fastimo => True

instance (s : State) : (a : Act) → Decidable (enabled s a)
  | .connect | .setsockopt _ _ => inferInstanceAs (Decidable (_ = _))
  | .close | .send _ _ | .recv _ | .input _ => inferInstanceAs (Decidable (_ ∧ _))
  | .resume sizes => inferInstanceAs (Decidable (∀ n ∈ sizes, 0 < n))
  | .sent _ => inferInstanceAs (Decidable (_ = _))
  | .timeout _ | .slowtimo | .fastimo => inferInstanceAs (Decidable True)

/-- A connection from the pcb of `tcp_pcb_get` on, or from the one `tcp_handle_listen` makes. -/
def tcp : Machine State Act Fault where
  start s := s.delivered = [] ∧ ∃ isn, s.pcb = tcpPcbGet isn ∨
    ∃ mss g, mss < 65536 ∧ g.window < 65536 ∧ tcpHandleListen isn mss g = .ok s.pcb
  enabled := enabled
  step := step

instance (s : State) (a : Act) : Decidable (tcp.enabled s a) := inferInstanceAs (Decidable (enabled s a))

end Onix.Tcp
