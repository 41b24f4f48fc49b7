/-
UDP sockets: the calls of `udp.c` over the sockets and ports of `Onix.Port`, with `udp_pcb_list` in its order and the interfaces a datagram
may leave through. A datagram is followed up to `arp_eth_output`, with the fields of the IP header that `ip_output` takes from its
arguments; the buffer it was built in is left out. No call sets `UDP_FLAG_BROADCAST`.
-/
import Onix.Checksum
import Onix.Net.Model
import Onix.Port.Books

namespace Onix.Udp

open Onix.Lib
open Onix.Checksum (htons inetChksum field)
open Onix.Port (UdpPcb Number Sys Act)
open Onix.Tcp (IpAddr ipAddrIsany ipAddrCmp Header)

/-- `port`: a fault of the calls below; `null`: there is no interface. -/
inductive Fault
  | port (f : Port.Fault)
  | null
  deriving DecidableEq

def EADDR : Int := 101
def ENOTCONN : Int := 107
def EACCES : Int := 13
def EMSGSIZE : Int := 90

/-! ## Interfaces -/

/-- `netif_t`; `udpTxOffload` is `NETIF_UDP_TX_CHECKSUM_OFFLOAD`. -/
structure Netif where
  index : Nat
  ipaddr : IpAddr
  netmask : IpAddr
  udpTxOffload : Bool
  deriving DecidableEq

def ipAddrMaskcmp (a b m : IpAddr) : Bool := a &&& m = b &&& m

def netifGet (netifs : List Netif) (index : Nat) : Option Netif := netifs.find? fun netif => netif.index = index

def netifRoute (netifs : List Netif) (addr : IpAddr) : Option Netif :=
  (netifs.find? fun netif => ipAddrMaskcmp addr netif.ipaddr netif.netmask && !ipAddrIsany netif.ipaddr).or (netifGet netifs 1)

/-! ## Datagrams -/

/-- `udp_t` and its payload; the fields are as they are in the frame. -/
structure Datagram where
  sport : BitVec 16
  dport : BitVec 16
  length : BitVec 16
  chksum : BitVec 16
  payload : List (BitVec 8)
  deriving DecidableEq

def bytes16 (v : BitVec 16) : List (BitVec 8) := [v.setWidth 8, (v >>> 8).setWidth 8]

def Datagram.bytes (u : Datagram) : List (BitVec 8) := field u.chksum (bytes16 u.sport ++ bytes16 u.dport ++ bytes16 u.length) u.payload

/-- What `arp_eth_output` gets, with the interface. -/
structure Packet where
  netif : Netif
  src : IpAddr
  dst : IpAddr
  proto : BitVec 8
  udp : Datagram
  deriving DecidableEq

def ipOutput (netif : Netif) (udp : Datagram) (dst : IpAddr) (proto : BitVec 8) : Packet := ⟨netif, netif.ipaddr, dst, proto, udp⟩

def udpPacket (netif : Netif) (pcb : UdpPcb) (payload : List (BitVec 8)) (dport len : Number) : Packet :=
  let src := if ipAddrIsany pcb.ends.laddr then netif.ipaddr else pcb.ends.laddr
  let length := len + 8
  let udp : Datagram := ⟨htons pcb.ends.lport, htons dport, htons length, 0, payload⟩
  let chksum := if netif.udpTxOffload then 0 else inetChksum udp.bytes length src pcb.ends.raddr 17
  ipOutput netif { udp with chksum := chksum } pcb.ends.raddr 17

/-- `udp_output`, with `NULL` for no destination; an error, or the packet. -/
def udpOutput (netif : Netif) (pcb : UdpPcb) (payload : List (BitVec 8)) (dst : Option IpAddr) (dport len : Number) : Except Int Packet :=
  let dst := dst.getD pcb.ends.raddr
  if ipAddrIsany dst then .error (-EADDR)
  else
    let dport := if dport = 0 then pcb.ends.rport else dport
    if dport = 0 then .error (-ENOTCONN)
    else if Net.ipAddrIsbroadcast dst netif.netmask then .error (-EACCES)
    else .ok (udpPacket netif pcb payload dport len)

/-- `msghdr_t`: the vectors, and the address and port of `name`, in host order. -/
structure Msg where
  iov : List (List (BitVec 8))
  name : Option (IpAddr × Number)

def iovecSize : List (List (BitVec 8)) → BitVec 32
  | [] => 0
  | v :: iov => BitVec.ofNat 32 v.length + iovecSize iov

def iovecRead : List (List (BitVec 8)) → Nat → List (BitVec 8)
  | [], _ => []
  | v :: iov, count => if count = 0 then [] else v.take count ++ iovecRead iov (count - v.length)

/-! ## The sockets -/

/-- The sockets, `udp_pcb_list` and `netif_list`. The list has the pcbs of the open sockets, and what is not connected has no peer. -/
structure Host where
  ports : Sys
  list : List Nat
  netifs : List Netif
  listed : ∀ k, k ∈ list ↔ ports.udp k ≠ none
  nodup : list.Nodup
  unset : ∀ k u, ports.udp k = some u → u.connected = false → u.ends.raddr = 0 ∧ u.ends.rport = 0

/-- The end of `udp_sendmsg`: `udp_output` for the message, through the interface of the route. -/
def send (netifs : List Netif) (pcb : UdpPcb) (msg : Msg) (payload : List (BitVec 8)) : Except Fault (Except Int Packet) :=
  let len := BitVec.ofNat 16 payload.length
  match msg.name with
  | some (addr, port) =>
    match netifRoute netifs addr with
    | none => .error .null
    | some netif => .ok (udpOutput netif pcb payload (some addr) port len)
  | none =>
    match netifRoute netifs pcb.ends.raddr with
    | none => .error .null
    | some netif => .ok (udpOutput netif pcb payload none 0 len)

/-- `udp_sendmsg`: the result, and the packet it has passed to `arp_eth_output`, which returns `arp packet`. -/
def udpSendmsg (h : Host) (arp : Packet → Int) (k : Nat) (msg : Msg) : Except Fault (Int × Option Packet) := do
  let size := iovecSize msg.iov
  if 1500 - 20 - 8 < size.toNat then pure (-EMSGSIZE, none)
  else do
    let s ← (Port.udpSendmsg h.ports k).mapError .port
    let pcb ← (s.ofUdp k).mapError .port
    match ← send h.netifs pcb msg (iovecRead msg.iov size.toNat) with
    | .error e => pure (e, none)
    | .ok packet =>
      let ret := arp packet
      pure (if ret < 0 then ret else size.toNat, some packet)

def findIn (udp : Nat → Option UdpPcb) (raddr : IpAddr) (rport : Number) (laddr : IpAddr) (lport : Number) : List Nat → Option Nat
  | [] => none
  | k :: rest =>
    match udp k with
    | none => findIn udp raddr rport laddr lport rest
    | some pcb =>
      if pcb.ends.rport ≠ rport then findIn udp raddr rport laddr lport rest
      else if pcb.ends.lport ≠ lport then findIn udp raddr rport laddr lport rest
      else if ¬ ipAddrIsany pcb.ends.raddr ∧ ¬ ipAddrCmp pcb.ends.raddr raddr then findIn udp raddr rport laddr lport rest
      else if ¬ ipAddrIsany pcb.ends.laddr ∧ ¬ ipAddrCmp pcb.ends.laddr laddr then findIn udp raddr rport laddr lport rest
      else some k

def findUdpPcb (h : Host) (raddr : IpAddr) (rport : Number) (laddr : IpAddr) (lport : Number) : Option Nat :=
  findIn h.ports.udp raddr rport laddr lport h.list

/-- `udp_input`: the result, and the socket that has the datagram on its list. -/
def udpInput (h : Host) (g : Header) : Int × Option Nat :=
  match findUdpPcb h g.src g.sport g.dst g.dport with
  | none => (-EADDR, none)
  | some k => (0, some k)

end Onix.Udp
