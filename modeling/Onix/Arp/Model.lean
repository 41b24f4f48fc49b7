/-
The ARP cache of `net/arp.c`: `arp_eth_output`, which transmits a packet or queues it on the entry of its
next hop, `arp_refresh` for a reply and the rounds of `arp_thread`. The calls of `netif_output` block on
nothing, so each of these is one step. An entry is known by its block of memory; `kmalloc` does not clear it,
so `query` starts with what the block held.

A packet whose next hop is the gateway of an interface without one is neither queued nor released. The list
is kept in order by `list_insert_sort`, which reads `expires` as an `int`.
-/
import Onix.Lib.Machine
import Onix.List
import Onix.Tcp.Find

namespace Onix.Arp

open Onix.Lib
open Onix.Tcp (IpAddr ipAddrIsany ipAddrCmp)

/-! ## Data -/

abbrev Mac := BitVec 48

def ethBroadcast : Mac := BitVec.allOnes 48

def arpEntryTimeout : BitVec 32 := 600
def arpRetry : BitVec 32 := 5
def arpDelay : BitVec 32 := 2

/-- What the cache reads of a `netif_t`. -/
structure Netif where
  hwaddr : Mac
  ipaddr : IpAddr
  netmask : IpAddr
  gateway : IpAddr
  loopback : Bool

/-- `arp_entry_t`. The packets of `pbuf_list` are read from `tail.prev` back, so the oldest is first. -/
structure Entry where
  hwaddr : Mac
  ipaddr : IpAddr
  expires : BitVec 32
  used : BitVec 32
  query : BitVec 32
  retry : BitVec 32
  pbufs : List Nat
  netif : Nat

/-- A packet that was given for an unresolved address. -/
structure Packet where
  pbuf : Nat
  netif : Nat
  hop : IpAddr
  deriving DecidableEq

/-- What became of it: transmitted to a MAC, or released. -/
inductive Fate
  | sent (mac : Mac)
  | released
  deriving DecidableEq

/-- A call of `netif_output` or `netif_input`. -/
inductive Event
  | output (netif pbuf : Nat) (dst : Mac)
  | input (netif pbuf : Nat) (dst : Mac)
  deriving DecidableEq

structure Sys where
  /-- `netif_list` -/
  ifs : List Nat
  netif : Nat → Netif
  entry : Nat → Entry
  /-- `arp_entry_list`, from its head -/
  list : List Nat
  log : List Event
  /-- the packets given for an unresolved address -/
  asked : List Packet
  /-- those that left the queues -/
  out : List (Packet × Fate)

inductive Fault
  | search
  deriving DecidableEq

namespace Sys

def set (s : Sys) (i : Nat) (e : Entry) : Sys := { s with entry := Function.update s.entry i e }

def emit (s : Sys) (x : Event) : Sys := { s with log := s.log ++ [x] }

def insertSort (s : Sys) (i : Nat) (l : List Nat) : Sys :=
  { s with list := listInsertSort (fun j => (s.entry j).expires) i l }

def isown (s : Sys) (addr : IpAddr) : Bool := s.ifs.any fun i => ipAddrCmp (s.netif i).ipaddr addr

def nextHop (s : Sys) (netif : Nat) (addr : IpAddr) : IpAddr :=
  let f := s.netif netif
  if f.ipaddr &&& f.netmask ≠ addr &&& f.netmask then f.gateway else addr

end Sys

def Entry.For (e : Entry) (netif : Nat) (hop : IpAddr) : Prop := e.ipaddr = hop ∧ netif = e.netif

instance (e : Entry) (netif : Nat) (hop : IpAddr) : Decidable (e.For netif hop) := inferInstanceAs (Decidable (_ ∧ _))

/-! ## `arp.c` -/

/-- `arp_entry_get`, in the block `new` whose `query` holds `junk`. -/
def arpEntryGet (s : Sys) (netif : Nat) (addr : IpAddr) (new : Nat) (junk : BitVec 32) : Sys :=
  (s.set new ⟨ethBroadcast, addr, 0, 1, junk, 0, [], netif⟩).insertSort new s.list

def arpEntryPut (s : Sys) (i : Nat) : Sys :=
  let e := s.entry i
  { s with
    list := s.list.erase i
    out := s.out ++ e.pbufs.map fun p => (⟨p, e.netif, e.ipaddr⟩, .released) }

def arpLookup (s : Sys) (netif : Nat) (addr : IpAddr) (new : Nat) (junk : BitVec 32) : Sys × Option Nat :=
  let query := s.nextHop netif addr
  if ipAddrIsany query then (s, none)
  else
    match s.list.find? fun i => (s.entry i).For netif query with
    | some i => (s, some i)
    | none => (arpEntryGet s netif query new junk, some new)

def arpQuery (s : Sys) (i : Nat) (time : BitVec 32) : Sys :=
  let e := s.entry i
  if time < e.query + arpDelay then s
  else
    let retry := e.retry + 1
    s.set i { e with query := time, retry := retry, hwaddr := if 2 < retry then ethBroadcast else e.hwaddr }

/-- The loop of `arp_refresh` that transmits what waits for the entry. -/
def sendLoop (s : Sys) (netif i : Nat) : Sys :=
  let e := s.entry i
  { s.set i { e with pbufs := [] } with
    log := s.log ++ e.pbufs.map fun p => .output netif p e.hwaddr
    out := s.out ++ e.pbufs.map fun p => (⟨p, e.netif, e.ipaddr⟩, .sent e.hwaddr) }

structure Msg where
  hwtype : BitVec 16
  proto : BitVec 16
  opcode : BitVec 16
  hwsrc : Mac
  ipsrc : IpAddr
  ipdst : IpAddr

/-- The part of `arp_refresh` that writes the entry and moves it to its place. -/
def renew (s : Sys) (i : Nat) (hwsrc : Mac) (expires : BitVec 32) : Sys :=
  let s := s.set i { s.entry i with hwaddr := hwsrc, expires := expires, retry := 0, used := 0 }
  s.insertSort i (s.list.erase i)

def arpRefresh (s : Sys) (netif : Nat) (m : Msg) (time : BitVec 32) (new : Nat) (junk : BitVec 32) : Sys :=
  let f := s.netif netif
  if m.ipsrc &&& f.netmask ≠ f.ipaddr &&& f.netmask then s
  else
    match arpLookup s netif m.ipsrc new junk with
    | (s, none) => s
    | (s, some i) => sendLoop (renew s i m.hwsrc (time + arpEntryTimeout)) netif i

def arpInput (s : Sys) (netif : Nat) (m : Msg) (time : BitVec 32) (new : Nat) (junk : BitVec 32) : Sys :=
  if m.hwtype ≠ 1 then s
  else if m.proto ≠ 0x0800 then s
  else if ¬ ipAddrCmp (s.netif netif).ipaddr m.ipdst then s
  else if m.opcode = 2 then arpRefresh s netif m time new junk
  else s

def arpEthOutput (s : Sys) (netif p : Nat) (addr : IpAddr) (time : BitVec 32) (new : Nat) (junk : BitVec 32) : Except Fault Sys :=
  if (s.netif netif).loopback then .ok (s.emit (.output netif p 0))
  else if s.isown addr then .ok (s.emit (.input netif p (s.netif netif).hwaddr))
  else
    match arpLookup s netif addr new junk with
    | (s, none) => .ok { s with asked := s.asked ++ [⟨p, netif, s.nextHop netif addr⟩] }
    | (s, some i) =>
      let e := s.entry i
      if time < e.expires then .ok ((s.set i { e with used := e.used + 1 }).emit (.output netif p e.hwaddr))
      else if p ∈ e.pbufs then .error .search
      else .ok (arpQuery { s.set i { e with pbufs := e.pbufs ++ [p] } with asked := s.asked ++ [⟨p, netif, e.ipaddr⟩] } i time)

def refreshEntry (time : BitVec 32) (s : Sys) (i : Nat) : Sys :=
  let e := s.entry i
  if time < e.expires then s
  else if arpRetry < e.retry then arpEntryPut s i
  else if e.used = 0 then arpEntryPut s i
  else arpQuery s i time

/-- A round of `arp_thread`, from the tail; each entry is left before it may go. -/
def arpThread (s : Sys) (time : BitVec 32) : Sys := s.list.reverse.foldl (refreshEntry time) s

inductive Act
  | output (netif p : Nat) (addr : IpAddr) (time : BitVec 32) (new : Nat) (junk : BitVec 32)
  | input (netif : Nat) (m : Msg) (time : BitVec 32) (new : Nat) (junk : BitVec 32)
  | tick (time : BitVec 32)
  | config (i : Nat) (f : Netif)

def step (s : Sys) : Act → Except Fault Sys
  | .output netif p addr time new junk => arpEthOutput s netif p addr time new junk
  | .input netif m time new junk => .ok (arpInput s netif m time new junk)
  | .tick time => .ok (arpThread s time)
  | .config i f => .ok { s with netif := Function.update s.netif i f }

/-- A packet that is given is in no list, and `kmalloc` gives a block that is not in use. -/
def enabled (s : Sys) : Act → Prop
  | .output _ p _ _ new _ => new ∉ s.list ∧ ∀ i ∈ s.list, p ∉ (s.entry i).pbufs
  | .input _ _ _ new _ => new ∉ s.list
  | .tick _ | .config _ _ => True

instance (s : Sys) : (a : Act) → Decidable (enabled s a)
  | .output _ _ _ _ _ _ => inferInstanceAs (Decidable (_ ∧ _))
  | .input _ _ _ _ _ => inferInstanceAs (Decidable (_ ∉ _))
  | .tick _ | .config _ _ => inferInstanceAs (Decidable True)

def arp : Machine Sys Act Fault where
  start s := s.list = [] ∧ s.log = [] ∧ s.asked = [] ∧ s.out = []
  enabled := enabled
  step := step

end Onix.Arp
