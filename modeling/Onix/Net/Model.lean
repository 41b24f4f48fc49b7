/-
A received frame on its way up: `ip_input` with `raw_input`, `icmp_input`, `udp_input` and
`tcp_input`, and `udp_recvmsg` for what was queued on a socket, over the bytes of one `pbuf_t`. Every
load is checked against the received length and every store against the room of the buffer, so a
frame that makes the code leave either ends in a fault.

Pointers into the frame are offsets from `pbuf->payload`: the Ethernet header lies at 0, the IP
header at 14, what IP carries at 34. The control blocks enter as the tables the functions search; what
a segment does to its own is the subject of the TCP modules. Messages of the log are left out: they
print addresses the functions have read before.
-/
import Onix.Lib.Wp
import Onix.Tcp.Model

namespace Onix.Net

open Onix.Lib
open Onix.Tcp (TcpState)

/-! ## The buffer -/

def payloadMax : Nat := 2048 - 40

/-- `pbuf_t`. `queued`: on the list of a UDP socket; `sized`: `tcp_input` has set `size` for this frame. -/
structure Pbuf where
  length : Nat
  payload : Nat → BitVec 8
  data : BitVec 32
  total : BitVec 32
  size : BitVec 32
  seqno : BitVec 32
  queued : Bool
  sized : Bool

namespace Pbuf

def u8 (p : Pbuf) (o : Nat) : BitVec 8 := p.payload o

def u16 (p : Pbuf) (o : Nat) : BitVec 16 := p.payload (o + 1) ++ p.payload o

def u32 (p : Pbuf) (o : Nat) : BitVec 32 := p.payload (o + 3) ++ p.payload (o + 2) ++ p.payload (o + 1) ++ p.payload o

def put8 (p : Pbuf) (o : Nat) (v : BitVec 8) : Pbuf := { p with payload := Function.update p.payload o v }

def put16 (p : Pbuf) (o : Nat) (v : BitVec 16) : Pbuf :=
  (p.put8 o (v.setWidth 8)).put8 (o + 1) ((v >>> 8).setWidth 8)

def put32 (p : Pbuf) (o : Nat) (v : BitVec 32) : Pbuf := (p.put16 o (v.setWidth 16)).put16 (o + 2) ((v >>> 16).setWidth 16)

@[simp] theorem put8_length (p : Pbuf) (o : Nat) (v : BitVec 8) : (p.put8 o v).length = p.length := by
  simp only [put8]

@[simp] theorem put16_length (p : Pbuf) (o : Nat) (v : BitVec 16) : (p.put16 o v).length = p.length := by
  rw [put16, put8_length, put8_length]

@[simp] theorem put32_length (p : Pbuf) (o : Nat) (v : BitVec 32) : (p.put32 o v).length = p.length := by
  rw [put32, put16_length, put16_length]

end Pbuf

/-- A load or a store out of bounds, with its offset. -/
inductive Fault
  | read (o : Nat)
  | write (o : Nat)
  deriving DecidableEq

abbrev Rx := StateT Pbuf (Except Fault)

def loads {α : Type} (n o : Nat) (f : Pbuf → α) : Rx α := guarded (fun p => o + n ≤ p.length) (.read o) fun p => (f p, p)

def stores (n o : Nat) (f : Pbuf → Pbuf) : Rx Unit := guarded (fun _ => o + n ≤ payloadMax) (.write o) fun p => ((), f p)

def load8 (o : Nat) : Rx (BitVec 8) := loads 1 o fun p => p.u8 o
def load16 (o : Nat) : Rx (BitVec 16) := loads 2 o fun p => p.u16 o
def load32 (o : Nat) : Rx (BitVec 32) := loads 4 o fun p => p.u32 o

def store8 (o : Nat) (v : BitVec 8) : Rx Unit := stores 1 o fun p => p.put8 o v
def store16 (o : Nat) (v : BitVec 16) : Rx Unit := stores 2 o fun p => p.put16 o v
def store32 (o : Nat) (v : BitVec 32) : Rx Unit := stores 4 o fun p => p.put32 o v

def ntohs (v : BitVec 16) : BitVec 16 := v <<< 8 ||| v >>> 8

def ntohl (v : BitVec 32) : BitVec 32 := v <<< 24 ||| (v &&& 0xFF00) <<< 8 ||| (v >>> 8 &&& 0xFF00) ||| v >>> 24

def ntohsAt (o : Nat) : Rx Unit := do
  let v ← load16 o
  store16 o (ntohs v)

def ntohlAt (o : Nat) : Rx Unit := do
  let v ← load32 o
  store32 o (ntohl v)

/-! ## Addresses and checksums -/

abbrev IpAddr := BitVec 32

def ipAddrIsany (a : IpAddr) : Bool := a = 0

def ipAddrIsbroadcast (a m : IpAddr) : Bool := a &&& ~~~m = ~~~m || a = -1 || a = 0

def ipAddrIsmulticast (a : IpAddr) : Bool := a &&& ntohl 0xF0000000 = ntohl 0xE0000000

def foldCarry (sum : BitVec 32) : BitVec 32 := (sum &&& 0xFFFF) + sum >>> 16

def chksumLoop : Nat → Nat → BitVec 32 → Rx (BitVec 32)
  | 0, _, sum => pure sum
  | 1, o, sum => do
    let v ← load8 o
    pure (sum + v.setWidth 32)
  | len + 2, o, sum => do
    let v ← load16 o
    chksumLoop len (o + 2) ((if sum.msb then foldCarry sum else sum) + v.setWidth 32)

def chksum (o len : Nat) (sum : BitVec 32) : Rx (BitVec 16) := do
  let sum ← chksumLoop len o sum
  pure ((foldCarry (foldCarry sum)).setWidth 16)

def ipChksum (o len : Nat) : Rx (BitVec 16) := do
  let sum ← chksum o len 0
  pure (~~~sum)

def addrSum (a : IpAddr) : BitVec 32 := (a &&& 0xFFFF) + a >>> 16

def inetChksum (o : Nat) (len : BitVec 16) (dst src : IpAddr) (proto : BitVec 16) : Rx (BitVec 16) := do
  let sum := addrSum dst + addrSum src + (ntohs proto).setWidth 32 + (ntohs len).setWidth 32
  let sum ← chksum o len.toNat sum
  pure (~~~sum)

/-! ## Control blocks -/

structure RawPcb where
  laddr : IpAddr
  raddr : IpAddr
  protocol : Nat

structure UdpPcb where
  laddr : IpAddr
  raddr : IpAddr
  lport : BitVec 16
  rport : BitVec 16

/-- What `tcp_find_pcb` compares and what of a pcb decides how a segment is read. -/
structure TcpPcb where
  laddr : IpAddr
  raddr : IpAddr
  lport : BitVec 16
  rport : BitVec 16
  state : TcpState
  rcvNxt : BitVec 32
  rcvWnd : BitVec 16

/-- The `netif_t` a frame came from and the lists of control blocks. -/
structure Env where
  ipaddr : IpAddr
  netmask : IpAddr
  ipTxOffload : Bool
  tcpRxOffload : Bool
  raws : List RawPcb
  udps : List UdpPcb
  active : List TcpPcb
  timewait : List TcpPcb
  listening : List TcpPcb

def admits (own a : IpAddr) : Bool := ipAddrIsany own || own = a

def RawPcb.recv (b : RawPcb) (src dst : IpAddr) (proto : BitVec 8) : Bool :=
  admits b.raddr src && admits b.laddr dst && (b.protocol = 0 || b.protocol = proto.toNat)

def findUdpPcb (e : Env) (raddr : IpAddr) (rport : BitVec 16) (laddr : IpAddr) (lport : BitVec 16) : Option UdpPcb :=
  e.udps.find? fun b => b.rport = rport && b.lport = lport && admits b.raddr raddr && admits b.laddr laddr

def findIn (l : List TcpPcb) (laddr : IpAddr) (lport : BitVec 16) (raddr : IpAddr) (rport : BitVec 16) : Option TcpPcb :=
  l.find? fun b =>
    b.lport = lport && admits b.laddr laddr && (rport = 0 || b.rport = rport && admits b.raddr raddr)

def tcpFindPcb (e : Env) (laddr : IpAddr) (lport : BitVec 16) (raddr : IpAddr) (rport : BitVec 16) : Option TcpPcb :=
  (findIn e.active laddr lport raddr rport).or
    ((findIn e.timewait laddr lport raddr rport).or (findIn e.listening laddr lport raddr 0))

/-! ## TCP -/

/-- What a function answers. `sent`: as `arp_eth_output` does; `processed`: as the state of the
connection has it; `looping`: an option of size 0 holds `tcp_parse_option` in its loop. -/
inductive Answer
  | ok | proto | time | option | frag | addr | chksum | reset | sent | processed | looping
  deriving DecidableEq

def tcpFlag (flags mask : BitVec 8) : Bool := flags &&& mask ≠ 0

def tcpValidate (b : TcpPcb) (p : Pbuf) (flags : BitVec 8) : Bool :=
  tcpFlag flags Tcp.tcpSyn ||
    (!decide (Tcp.seqGT (p.seqno + p.size) (b.rcvNxt + b.rcvWnd.setWidth 32)) &&
      !decide (Tcp.seqLT (p.seqno + p.size) b.rcvNxt))

/-- The `switch` of `tcp_parse_option` past `OPT_END` and `OPT_NOP`: false for a bad `OPT_MSS`. -/
def parseOption (type size : BitVec 8) (ptr : Nat) : Rx Bool :=
  if type ≠ 2 then pure true
  else if size ≠ 4 then pure false
  else do
    let _sndMss ← load16 (ptr + 2)
    pure true

/-- The loop of `tcp_parse_option` from `ptr` to `payload`; `none` when it is left. -/
def parseOptions : Nat → Nat → Nat → Rx (Option Answer)
  | 0, _, _ => pure none
  | fuel + 1, ptr, payload =>
    if payload ≤ ptr then pure none
    else do
      let type ← load8 ptr
      if type = 0 then pure none
      else if type = 1 then parseOptions fuel (ptr + 1) payload
      else do
        let size ← load8 (ptr + 1)
        let good ← parseOption type size ptr
        if good = false then pure (some .option)
        else if size = 0 then pure (some .looping)
        else parseOptions fuel (ptr + size.toNat) payload

/-- `tcp_parse_option`; every round of the loop goes on by a byte at least. -/
def tcpParseOption (tcphlen : Nat) : Rx (Option Answer) := parseOptions (tcphlen - 20) 54 (34 + tcphlen)

/-- What `tcp_update_buf` does to the buffer: the bytes received before are taken off its front. -/
def tcpUpdateBuf (b : TcpPcb) (seqno : BitVec 32) (p : Pbuf) : Pbuf :=
  let rcvNxt := seqno + p.size
  if Tcp.seqLEQ rcvNxt b.rcvNxt then p
  else if Tcp.seqGT seqno b.rcvNxt then p
  else if Tcp.seqLT seqno b.rcvNxt then
    let offset := b.rcvNxt - seqno
    { p with data := p.data + offset, size := p.size - offset }
  else p

/-- `tcp_receive`: `tcp_update_wnd` and `tcp_update_ack` read the header. -/
def tcpReceive (b : TcpPcb) : Rx Unit := do
  let seqno ← load32 38
  let _ackno ← load32 42
  let _window ← load16 48
  modify fun p => if 0 < p.size then tcpUpdateBuf b seqno p else p

/-- `tcp_process`: the branches of its `switch` read the flags, the numbers and the window, and
`tcp_handle_listen` the peer's address and port. -/
def tcpProcess (b : TcpPcb) : Rx Answer := do
  let flags ← load8 47
  if tcpFlag flags Tcp.tcpAck && b.state ≠ .timeWait then tcpReceive b
  let _seqno ← load32 38
  let _ackno ← load32 42
  let _window ← load16 48
  let _src ← load32 26
  let _sport ← load16 34
  pure .processed

/-- `tcp_handle_reset`, `tcp_parse_option` and `tcp_process`, for a segment of a pcb that is not closed. -/
def tcpAccept (b : TcpPcb) (tcphlen : Nat) (flags : BitVec 8) : Rx Answer :=
  if tcpFlag flags Tcp.tcpRst then pure .reset
  else do
    match ← tcpParseOption tcphlen with
    | some a => pure a
    | none => tcpProcess b

def tcpDemux (e : Env) (dst src : IpAddr) (tcphlen : Nat) : Rx Answer := do
  let dport ← load16 36
  let sport ← load16 34
  match tcpFindPcb e dst dport src sport with
  | none => pure .addr
  | some b =>
    let flags ← load8 47
    let p ← get
    if tcpValidate b p flags = false then pure .proto
    else if b.state = .closed then pure .sent
    else tcpAccept b tcphlen flags

/-- The payload of a segment with the given header length, and the `NUL` after it. -/
def tcpPayload (tcphlen : Nat) : Rx Unit := do
  modify fun p => { p with
    size := p.total - BitVec.ofNat 32 tcphlen, data := BitVec.ofNat 32 (34 + tcphlen), sized := true }
  let p ← get
  store8 (p.data + p.size).toNat 0

def tcpHost : Rx Unit := do
  ntohsAt 34
  ntohsAt 36
  ntohlAt 38
  ntohlAt 42
  ntohsAt 48
  ntohsAt 52
  let seqno ← load32 38
  modify fun p => { p with seqno := seqno }

def tcpChksumBad (e : Env) (dst src : IpAddr) (total : BitVec 32) : Rx Bool :=
  if e.tcpRxOffload then pure false
  else do
    let sum ← inetChksum 34 (total.setWidth 16) dst src 6
    pure (sum ≠ 0)

def tcpInput (e : Env) : Rx Answer := do
  let len ← load8 46
  let tcphlen := (len >>> 4).toNat * 4
  if tcphlen < 20 then pure .proto
  else do
    let dst ← load32 30
    if ipAddrIsbroadcast dst e.netmask then pure .ok
    else if ipAddrIsmulticast dst then pure .ok
    else do
      let ipLength ← load16 16
      let total := ipLength.setWidth 32 - 20
      modify fun p => { p with total := total }
      let src ← load32 26
      let bad ← tcpChksumBad e dst src total
      if bad then pure .chksum
      else do
        tcpPayload tcphlen
        tcpHost
        tcpDemux e dst src tcphlen

/-! ## UDP -/

def udpInput (e : Env) : Rx Answer := do
  ntohsAt 34
  ntohsAt 36
  let src ← load32 26
  let sport ← load16 34
  let dst ← load32 30
  let dport ← load16 36
  match findUdpPcb e src sport dst dport with
  | none => pure .addr
  | some _ => do
    modify fun p => { p with queued := true }
    pure .ok

def iovecWrite : List Nat → Nat → Nat → Rx Nat
  | [], _, _ => pure 0
  | size :: iov, buf, count =>
    if count = 0 then pure 0
    else if size = 0 then iovecWrite iov buf count
    else do
      let len := if count < size then count else size
      loads len buf fun _ => ()
      let rest ← iovecWrite iov (buf + len) (count - len)
      pure (len + rest)

/-- `udp_recvmsg` with vectors of the given sizes; `name`: the sender's address is asked for. -/
def udpRecvmsg (iov : List Nat) (name : Bool) : Rx Nat := do
  let length ← load16 38
  let ret ← iovecWrite iov 42 (ntohs length - 8).toNat
  if name then
    let _sport ← load16 34
    let _src ← load32 26
  pure ret

/-! ## ICMP -/

/-- `ip_output` up to `arp_eth_output`, its destination the sender of the frame. -/
def ipOutput (e : Env) (proto : BitVec 8) (len : BitVec 16) : Rx Answer := do
  let dst ← load32 26
  let _ ← load8 14
  store8 14 0x45
  let _ ← load8 20
  store8 20 0
  store8 21 0
  store8 15 0
  store16 18 0
  store8 22 64
  store8 23 proto
  store16 16 (ntohs (20 + len))
  store32 30 dst
  store32 26 e.ipaddr
  store16 24 0
  if e.ipTxOffload then pure .sent
  else do
    let sum ← ipChksum 14 20
    store16 24 sum
    pure .sent

def icmpEchoReply (e : Env) : Rx Answer := do
  let dst ← load32 30
  if ipAddrIsbroadcast dst e.netmask || ipAddrIsmulticast dst then pure .proto
  else if dst ≠ e.ipaddr then pure .proto
  else do
    store8 34 0
    store16 36 0
    let ipLength ← load16 16
    let len := ipLength - 20
    let sum ← ipChksum 34 len.toNat
    store16 36 sum
    ipOutput e 1 len

def icmpInput (e : Env) : Rx Answer := do
  let type ← load8 34
  if type = 8 then icmpEchoReply e else pure .ok

/-! ## IP -/

def rawInput (e : Env) : Rx Bool := do
  let src ← load32 26
  let dst ← load32 30
  let proto ← load8 23
  pure (e.raws.any fun b => b.recv src dst proto)

def ipDeliver (e : Env) : Rx Answer := do
  ntohsAt 16
  ntohsAt 18
  let eaten ← rawInput e
  if eaten then pure .ok
  else do
    let proto ← load8 23
    if proto = 6 then tcpInput e
    else if proto = 17 then udpInput e
    else if proto = 1 then icmpInput e
    else pure .proto

def ipInput (e : Env) : Rx Answer := do
  let head ← load8 14
  if head >>> 4 ≠ 4 then pure .proto
  else do
    let ttl ← load8 22
    if ttl = 0 then pure .time
    else if head &&& 15 ≠ 5 then pure .option
    else do
      let flags ← load8 20
      if flags >>> 5 &&& 4 ≠ 0 then pure .frag
      else do
        let dst ← load32 30
        if dst ≠ e.ipaddr then pure .addr else ipDeliver e

/-- A frame goes through `ip_input`, and what a UDP socket got is read with `udp_recvmsg`. -/
def receive (e : Env) (iov : List Nat) (name : Bool) : Rx (Option Nat) := do
  let _ ← ipInput e
  let p ← get
  if p.queued then do
    let n ← udpRecvmsg iov name
    pure (some n)
  else pure none

end Onix.Net
