/-
Port numbers: the bitmaps of `net/port.c` and the calls of `udp.c`, `tcp.c` and `tcp_pcb.c` that take a port
or give one back. What the TCP protocol does to a pcb between these calls is left open: a connection may
come in at any pcb, a pcb may go from any state to any other or be put, at any time. The pcbs of an
`acclist` that `tcp_pcb_purge` puts are put by steps of their own. A pcb is known by its block of memory; a
call that meets a block that was freed stops.

The loop of `port_get` tests a port and steps to the next before it looks at the result, so it marks and
returns the port after the first free one, whoever has it.
-/
import Onix.Lib.Loop
import Onix.Own.Model
import Onix.Tcp.Find

namespace Onix.Port

open Onix.Lib
open Onix.Tcp (IpAddr ipAddrIsany Ends TcpState findIn)
open Onix.Own (Where)

/-! ## The bitmap -/

abbrev Number := BitVec 16

abbrev PortMap := Number → Bool

/-- `put`: the assertions of `port_put`; `endless`: the loop of `port_get` finds no free port; `freed`: a pcb is
used after `kfree`. -/
inductive Fault
  | put
  | endless
  | freed
  deriving DecidableEq

def eOccupied : Int := 106

def portLoop (m : PortMap) : Nat → Number → Except Fault Number
  | 0, _ => .error .endless
  | n + 1, port => if m port then portLoop m n (port + 1) else .ok (port + 1)

def portGet (m : PortMap) (port : Number) : Except Fault (Int × PortMap) :=
  if port = 0 then do
    let port ← portLoop m (2 ^ 16) 4096
    pure (port.toNat, Function.update m port true)
  else if m port then .ok (-eOccupied, m)
  else .ok (port.toNat, Function.update m port true)

def portPut (m : PortMap) (port : Number) : Except Fault PortMap :=
  if port = 0 ∨ ¬ m port then .error .put else .ok (Function.update m port false)

/-! ## Sockets and pcbs -/

structure UdpPcb where
  ends : Ends
  connected : Bool
  deriving DecidableEq

/-- `tcp_pcb_t`: the ends, the state and `pcb->listen`. -/
structure TcpPcb where
  ends : Ends
  state : TcpState
  listener : Option Nat
  deriving DecidableEq

structure Sys where
  /-- the addresses of the interfaces -/
  own : List IpAddr
  udpMap : PortMap
  /-- `s->udp` of the open UDP sockets -/
  udp : Nat → Option UdpPcb
  tcpPortMap : PortMap
  /-- `s->tcp` of the open TCP sockets -/
  sock : Nat → Option Nat
  pcb : Nat → Option TcpPcb
  list : Where → List Nat

namespace Sys

def addrOk (s : Sys) (addr : IpAddr) : Bool := ipAddrIsany addr ∨ addr ∈ s.own

def ofUdp (s : Sys) (k : Nat) : Except Fault UdpPcb :=
  match s.udp k with
  | some u => .ok u
  | none => .error .freed

def setUdp (s : Sys) (k : Nat) (u : UdpPcb) : Sys := { s with udp := Function.update s.udp k (some u) }

def ofSock (s : Sys) (k : Nat) : Except Fault Nat :=
  match s.sock k with
  | some i => .ok i
  | none => .error .freed

def deref (s : Sys) (i : Nat) : Except Fault TcpPcb :=
  match s.pcb i with
  | some n => .ok n
  | none => .error .freed

def set (s : Sys) (i : Nat) (n : TcpPcb) : Sys := { s with pcb := Function.update s.pcb i (some n) }

/-- `list_remove` of the pcb's `node` and `list_push` on the list `w`. -/
def move (s : Sys) (i : Nat) (w : Where) : Sys :=
  { s with list := Function.update (fun w => (s.list w).erase i) w (i :: (s.list w).erase i) }

def kfree (s : Sys) (i : Nat) : Sys :=
  { s with list := fun w => (s.list w).erase i, pcb := Function.update s.pcb i none }

/-- `tcp_find_pcb` as `tcp_bind` calls it: with the remote port 0 the three lists are searched alike. -/
def tcpFindPcb (s : Sys) (laddr : IpAddr) (lport : Number) : Option Nat :=
  findIn (fun i => ((s.pcb i).map TcpPcb.ends).getD ⟨0, 0, 0, 0⟩) laddr lport 0 0
    (s.list .active ++ s.list .timewait ++ s.list .listen)

end Sys

/-! ## `udp.c` -/

def udpSocket (s : Sys) (k : Nat) : Sys := s.setUdp k ⟨⟨0, 0, 0, 0⟩, false⟩

def udpClose (s : Sys) (k : Nat) : Except Fault Sys := do
  let u ← s.ofUdp k
  let map ← if u.ends.lport ≠ 0 then portPut s.udpMap u.ends.lport else pure s.udpMap
  pure { s with udpMap := map, udp := Function.update s.udp k none }

def udpBind (s : Sys) (k : Nat) (addr : IpAddr) (port : Number) : Except Fault Sys := do
  let u ← s.ofUdp k
  if ¬ s.addrOk addr then pure s
  else do
    let u : UdpPcb := { u with ends := { u.ends with laddr := addr } }
    let (ret, map) ← portGet s.udpMap port
    let s := { s with udpMap := map }
    if ret < 0 then pure (s.setUdp k u)
    else pure (s.setUdp k { u with ends := { u.ends with lport := BitVec.ofInt 16 ret } })

def udpConnect (s : Sys) (k : Nat) (addr : IpAddr) (port : Number) : Except Fault Sys := do
  let u ← s.ofUdp k
  let u : UdpPcb := { u with ends := { u.ends with raddr := addr, rport := port }, connected := true }
  if u.ends.lport = 0 then do
    let (ret, map) ← portGet s.udpMap 0
    pure (Sys.setUdp { s with udpMap := map } k { u with ends := { u.ends with lport := BitVec.ofInt 16 ret } })
  else pure (s.setUdp k u)

/-- `udp_sendmsg` of a message that is not too long, as far as the ports go. -/
def udpSendmsg (s : Sys) (k : Nat) : Except Fault Sys := do
  let u ← s.ofUdp k
  if u.ends.lport = 0 then udpBind s k 0 0 else pure s

/-! ## `tcp.c` and `tcp_pcb.c` -/

def tcpPcbPut (s : Sys) (i : Nat) : Except Fault Sys := do
  let n ← s.deref i
  let map ← if n.ends.lport ≠ 0 ∧ n.listener = none then portPut s.tcpPortMap n.ends.lport else pure s.tcpPortMap
  pure (Sys.kfree { s with tcpPortMap := map } i)

def tcpSocket (s : Sys) (k new : Nat) : Sys :=
  { (s.set new ⟨⟨0, 0, 0, 0⟩, .closed, none⟩).move new .create with sock := Function.update s.sock k (some new) }

def tcpClose (s : Sys) (k : Nat) : Except Fault Sys := do
  let i ← s.ofSock k
  let n ← s.deref i
  let s := { s with sock := Function.update s.sock k none }
  match n.state with
  | .closed | .synSent | .listen => tcpPcbPut s i
  | .synRcvd | .established => pure (s.set i { n with state := .finWait1 })
  | .closeWait => pure (s.set i { n with state := .lastAck })
  | _ => pure s

def tcpListen (s : Sys) (k : Nat) : Except Fault Sys := do
  let i ← s.ofSock k
  let n ← s.deref i
  if n.state ≠ .closed then pure s
  else pure ((s.set i { n with state := .listen }).move i .listen)

/-- The end of `tcp_accept`: the socket `ns` gets the pcb that `tcp_find_npcb` found. -/
def tcpAccept (s : Sys) (ns j : Nat) : Sys := { s with sock := Function.update s.sock ns (some j) }

def tcpBind (s : Sys) (k : Nat) (addr : IpAddr) (port : Number) : Except Fault Sys := do
  if ¬ s.addrOk addr then pure s
  else do
    let (ret, map) ← portGet s.tcpPortMap port
    let s := { s with tcpPortMap := map }
    if ret < 0 then pure s
    else do
      let lport := BitVec.ofInt 16 ret
      if s.tcpFindPcb addr lport ≠ none then pure s
      else do
        let i ← s.ofSock k
        let n ← s.deref i
        pure (s.set i { n with ends := { n.ends with laddr := addr, lport := lport } })

def synSent (s : Sys) (i : Nat) (n : TcpPcb) : Sys := (s.set i { n with state := .synSent }).move i .active

def tcpConnect (s : Sys) (k : Nat) (addr : IpAddr) (port : Number) : Except Fault Sys := do
  let i ← s.ofSock k
  let n ← s.deref i
  if n.state ≠ .closed then pure s
  else if ipAddrIsany addr ∨ port = 0 then pure s
  else do
    let n : TcpPcb := { n with ends := { n.ends with raddr := addr, rport := port } }
    if n.ends.lport = 0 then do
      let (ret, map) ← portGet s.tcpPortMap 0
      pure (synSent { s with tcpPortMap := map } i { n with ends := { n.ends with lport := BitVec.ofInt 16 ret } })
    else pure (synSent s i n)

/-- `tcp_handle_listen`: a connection comes in, in the pcb `new`. -/
def tcpHandleListen (s : Sys) (i new : Nat) (laddr raddr : IpAddr) (rport : Number) : Except Fault Sys := do
  let n ← s.deref i
  pure ((s.set new ⟨⟨laddr, n.ends.lport, raddr, rport⟩, .synRcvd, some i⟩).move new .active)

/-- The protocol changes the state of a pcb; `TIME_WAIT` has a list of its own. -/
def progress (s : Sys) (i : Nat) (state : TcpState) : Except Fault Sys := do
  let n ← s.deref i
  let s := s.set i { n with state := state }
  pure (if state = .timeWait then s.move i .timewait else s)

inductive Act
  | udpSocket (k : Nat)
  | udpBind (k : Nat) (addr : IpAddr) (port : Number)
  | udpConnect (k : Nat) (addr : IpAddr) (port : Number)
  | udpSend (k : Nat)
  | udpClose (k : Nat)
  | tcpSocket (k new : Nat)
  | tcpBind (k : Nat) (addr : IpAddr) (port : Number)
  | tcpConnect (k : Nat) (addr : IpAddr) (port : Number)
  | tcpListen (k : Nat)
  | tcpAccept (k ns i j : Nat)
  | tcpClose (k : Nat)
  | arrive (i new : Nat) (laddr raddr : IpAddr) (rport : Number)
  | progress (i : Nat) (state : TcpState)
  | put (i : Nat)

def step (s : Sys) : Act → Except Fault Sys
  | .udpSocket k => .ok (udpSocket s k)
  | .udpBind k addr port => udpBind s k addr port
  | .udpConnect k addr port => udpConnect s k addr port
  | .udpSend k => udpSendmsg s k
  | .udpClose k => udpClose s k
  | .tcpSocket k new => .ok (tcpSocket s k new)
  | .tcpBind k addr port => tcpBind s k addr port
  | .tcpConnect k addr port => tcpConnect s k addr port
  | .tcpListen k => tcpListen s k
  | .tcpAccept _ ns _ j => .ok (tcpAccept s ns j)
  | .tcpClose k => tcpClose s k
  | .arrive i new laddr raddr rport => tcpHandleListen s i new laddr raddr rport
  | .progress i state => progress s i state
  | .put i => tcpPcbPut s i

/-- A call needs an open socket; `kmalloc` gives a block that is not in use. -/
def enabled (s : Sys) : Act → Prop
  | .udpSocket k => s.udp k = none
  | .udpBind k _ _ | .udpConnect k _ _ | .udpSend k | .udpClose k => s.udp k ≠ none
  | .tcpSocket k new => s.sock k = none ∧ s.pcb new = none
  | .tcpBind k _ _ | .tcpConnect k _ _ | .tcpListen k | .tcpClose k => s.sock k ≠ none
  | .tcpAccept k ns i j => s.sock k = some i ∧ s.sock ns = none ∧ (s.pcb j).bind TcpPcb.listener = some i
  | .arrive _ new _ _ _ => s.pcb new = none
  | .progress _ _ | .put _ => True

instance (s : Sys) (i : Nat) : Decidable (s.pcb i = none) := decidable_of_iff _ Option.isNone_iff_eq_none

instance (s : Sys) : (a : Act) → Decidable (enabled s a)
  | .udpSocket _ => inferInstanceAs (Decidable (_ = none))
  | .udpBind _ _ _ | .udpConnect _ _ _ | .udpSend _ | .udpClose _ => inferInstanceAs (Decidable (_ ≠ none))
  | .tcpSocket _ _ | .tcpAccept _ _ _ _ => inferInstanceAs (Decidable (_ ∧ _))
  | .tcpBind _ _ _ | .tcpConnect _ _ _ | .tcpListen _ | .tcpClose _ => inferInstanceAs (Decidable (_ ≠ none))
  | .arrive _ new _ _ _ => inferInstanceAs (Decidable (s.pcb new = none))
  | .progress _ _ | .put _ => inferInstanceAs (Decidable True)

def ports : Machine Sys Act Fault where
  start s := ∃ own, s = ⟨own, fun _ => false, fun _ => none, fun _ => false, fun _ => none, fun _ => none, fun _ => []⟩
  enabled := enabled
  step := step

end Onix.Port
