/-
`dhcp_parse_option` of `net/dhcp.c`. A pointer into the reply is its distance from the `dhcp_t`; the code may use the bytes that were
received. What the log prints of an option is read as well: four bytes for `%r`, up to the zero for `%s`, where the code has not copied
them before.
-/
import Onix.Lib.Window
import Onix.Net.Model

namespace Onix.Dhcp

open Onix.Lib
open Onix.Net (IpAddr ntohl ipAddrIsany)

abbrev Byte := BitVec 8

def OPT_PAD : Byte := 0
def OPT_SUBNET_MASK : Byte := 1
def OPT_ROUTER : Byte := 3
def OPT_DOMAIN_NAME_SERVER : Byte := 6
def OPT_DOMAIN_NAME : Byte := 15
def OPT_BROADCAST_ADDRESS : Byte := 28
def OPT_NETBIOS_NAME_SERVER : Byte := 44
def OPT_DHCP_LEASE_TIME : Byte := 51
def OPT_DHCP_MESSAGE_TYPE : Byte := 53
def OPT_DHCP_SERVER_IDENTIFIER : Byte := 54
def OPT_DHCP_RENEWAL_TIME : Byte := 58
def OPT_DHCP_REBINDING_TIME : Byte := 59
def OPT_END : Byte := 255

def DHCP_OFFER : Byte := 2
def DHCP_ACK : Byte := 5

def yiaddr : Nat := 16
def options : Nat := 240

structure Netif where
  ipaddr : IpAddr
  netmask : IpAddr
  gateway : IpAddr
  broadcast : IpAddr
  deriving DecidableEq

structure Pcb where
  netif : Netif
  server : IpAddr
  expires : Int
  leaseTime : BitVec 32
  renewalTime : BitVec 32
  rebindingTime : BitVec 32
  deriving DecidableEq

def Pcb.setNetmask (pcb : Pcb) (addr : IpAddr) : Pcb := { pcb with netif := { pcb.netif with netmask := addr } }
def Pcb.setGateway (pcb : Pcb) (addr : IpAddr) : Pcb := { pcb with netif := { pcb.netif with gateway := addr } }
def Pcb.setBroadcast (pcb : Pcb) (addr : IpAddr) : Pcb := { pcb with netif := { pcb.netif with broadcast := addr } }
def Pcb.setIpaddr (pcb : Pcb) (addr : IpAddr) : Pcb := { pcb with netif := { pcb.netif with ipaddr := addr } }

def u32At (w : Window Byte) (ptr : Nat) : Except Nat (BitVec 32) := do
  let a ← w.read ptr
  let b ← w.read (ptr + 1)
  let c ← w.read (ptr + 2)
  let d ← w.read (ptr + 3)
  pure (d ++ c ++ b ++ a)

/-- The case of an option whose size has to be four; `none` is `goto rollback`. -/
def sized (w : Window Byte) (opt : Nat) (set : BitVec 32 → Pcb) : Except Nat (Option (Window Byte × Pcb)) := do
  let size ← w.read (opt + 1)
  if size ≠ 4 then pure none
  else do
    let value ← u32At w (opt + 2)
    pure (some (w, set value))

def unsized (w : Window Byte) (opt : Nat) (set : BitVec 32 → Pcb) : Except Nat (Option (Window Byte × Pcb)) := do
  let value ← u32At w (opt + 2)
  pure (some (w, set value))

/-- `OPT_DOMAIN_NAME`: the byte behind the value is zero while the name is printed. -/
def domainName (w : Window Byte) (opt : Nat) : Except Nat (Window Byte) := do
  let size ← w.read (opt + 1)
  let val ← w.read (opt + 2 + size.toNat)
  let w ← w.write (opt + 2 + size.toNat) 0
  let _ ← w.find (· = 0) (opt + 2)
  w.write (opt + 2 + size.toNat) val

def messageType (w : Window Byte) (opt : Nat) (pcb : Pcb) : Except Nat (Option (Window Byte × Pcb)) := do
  let size ← w.read (opt + 1)
  if size ≠ 1 then pure none
  else do
    let value ← w.read (opt + 2)
    if value ≠ DHCP_OFFER ∧ value ≠ DHCP_ACK then pure none else pure (some (w, pcb))

/-- The `switch`, without `OPT_END`; `expire` is `timer_expire_jiffies`. The options that are not named are logged at most by their type. -/
def body (expire : BitVec 32 → Int) (w : Window Byte) (pcb : Pcb) (opt : Nat) (type : Byte) : Except Nat (Option (Window Byte × Pcb)) :=
  if type = OPT_PAD then pure (some (w, pcb))
  else if type = OPT_SUBNET_MASK then sized w opt pcb.setNetmask
  else if type = OPT_ROUTER then sized w opt pcb.setGateway
  else if type = OPT_DOMAIN_NAME_SERVER then unsized w opt fun _ => pcb
  else if type = OPT_DOMAIN_NAME then do
    let w ← domainName w opt
    pure (some (w, pcb))
  else if type = OPT_BROADCAST_ADDRESS then unsized w opt pcb.setBroadcast
  else if type = OPT_NETBIOS_NAME_SERVER then unsized w opt fun _ => pcb
  else if type = OPT_DHCP_LEASE_TIME then sized w opt fun v =>
    { pcb with leaseTime := ntohl v, expires := expire (ntohl v * 500) }
  else if type = OPT_DHCP_MESSAGE_TYPE then messageType w opt pcb
  else if type = OPT_DHCP_SERVER_IDENTIFIER then sized w opt fun v => { pcb with server := v }
  else if type = OPT_DHCP_RENEWAL_TIME then unsized w opt fun v => { pcb with renewalTime := ntohl v }
  else if type = OPT_DHCP_REBINDING_TIME then unsized w opt fun v => { pcb with rebindingTime := ntohl v }
  else pure (some (w, pcb))

/-- How the loop ends: at `OPT_END` or with a rollback, and the places where it has read options. -/
structure Walked where
  success : Bool
  mem : Nat → Byte
  pcb : Pcb
  places : List Nat

def walk (expire : BitVec 32 → Int) (len : Nat) (mem : Nat → Byte) (pcb : Pcb) (ptr : Nat) : Except Nat Walked :=
  if ptr < len then
    if mem ptr = OPT_END then .ok ⟨true, mem, pcb, [ptr]⟩
    else
      match body expire ⟨mem, len⟩ pcb ptr (mem ptr) with
      | .error e => .error e
      | .ok none => .ok ⟨false, mem, pcb, [ptr]⟩
      | .ok (some (w, pcb)) =>
        match (⟨w.mem, len⟩ : Window Byte).read (ptr + 1) with
        | .error e => .error e
        | .ok size =>
          match walk expire len w.mem pcb (ptr + size.toNat + 2) with
          | .error e => .error e
          | .ok r => .ok { r with places := ptr :: r.places }
  else .error ptr
  termination_by len - ptr

/-- `success`: the address is taken over, and its last byte is overwritten for the broadcast address. -/
def takeAddress (w : Window Byte) (pcb : Pcb) : Except Nat (Window Byte × Pcb) := do
  let addr ← u32At w yiaddr
  if ipAddrIsany addr then pure (w, pcb)
  else do
    let w ← w.write (yiaddr + 3) 255
    let addr' ← u32At w yiaddr
    pure (w, (pcb.setIpaddr addr).setBroadcast addr')

def dhcpParseOption (expire : BitVec 32 → Int) (w : Window Byte) (pcb : Pcb) : Except Nat Walked := do
  let r ← walk expire w.len w.mem pcb options
  if r.success then do
    let (w, pcb) ← takeAddress ⟨r.mem, w.len⟩ r.pcb
    pure { r with mem := w.mem, pcb := pcb }
  else pure r

end Onix.Dhcp
