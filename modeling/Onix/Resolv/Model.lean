/-
`net/resolv.c`: the question that is sent to the name server and the reply that comes back. A pointer into the buffer is its distance
from the buffer's beginning. Of the reply the code may read the bytes that were received; the rest of the buffer is whatever lay there.
-/
import Onix.Lib.Loop
import Onix.Lib.Window
import Onix.Tcp.Find

namespace Onix.Resolv

open Onix.Lib
open Onix.Tcp (IpAddr)

abbrev Byte := BitVec 8

/-- `sizeof(dns_t)`: two bytes for each of `id`, the flags and the four counts. -/
def dnsSize : Nat := 12

def DNS_TYPE_A : Nat := 1
def DNS_TYPE_CNAME : Nat := 5
def DNS_CLASS_IN : Nat := 1

/-! ## The question -/

def put (mem : Nat → Byte) (ptr : Nat) (v : Byte) : Nat → Byte := Function.update mem ptr v

def memcpy (mem : Nat → Byte) (ptr : Nat) : List Byte → Nat → Byte
  | [] => mem
  | b :: l => memcpy (put mem ptr b) (ptr + 1) l

def putHtons (mem : Nat → Byte) (ptr : Nat) (v : BitVec 16) : Nat → Byte :=
  put (put mem ptr ((v >>> 8).setWidth 8)) (ptr + 1) (v.setWidth 8)

def dot : Byte := 46

/-- The loop of `fill_payload`: `rest` is what the name has from `ptr0` on, its terminating zero left out. -/
def fillLoop (mem : Nat → Byte) (buf : Nat) (rest : List Byte) : (Nat → Byte) × Nat :=
  let run := rest.takeWhile (· ≠ dot)
  let size : Byte := BitVec.ofNat 8 run.length
  let mem := memcpy (put mem buf size) (buf + 1) (rest.take size.toNat)
  let buf := buf + 1 + size.toNat
  match h : rest.drop run.length with
  | [] => (put mem buf 0, buf + 1)
  | _ :: next => fillLoop mem buf next
  termination_by rest.length
  decreasing_by
    have := congrArg List.length h
    rw [List.length_drop, List.length_cons] at this
    omega

/-- `fill_payload` from the place `data` on: the memory, and the size that is returned. -/
def fillPayload (mem : Nat → Byte) (data : Nat) (name : List Byte) (type cls : BitVec 16) : (Nat → Byte) × Nat :=
  let (mem, attr) := fillLoop mem data name
  (putHtons (putHtons mem attr type) (attr + 2) cls, attr + 4 - data)

/-! ## The reply -/

def u16At (w : Window Byte) (ptr : Nat) : Except Nat Nat := do
  let lo ← w.read ptr
  let hi ← w.read (ptr + 1)
  pure (lo.toNat + 256 * hi.toNat)

def ntohsAt (w : Window Byte) (ptr : Nat) : Except Nat Nat := do
  let hi ← w.read ptr
  let lo ← w.read (ptr + 1)
  pure (256 * hi.toNat + lo.toNat)

def ntohlAt (w : Window Byte) (ptr : Nat) : Except Nat Nat := do
  let hi ← ntohsAt w ptr
  let lo ← ntohsAt w (ptr + 2)
  pure (65536 * hi + lo)

def addrAt (w : Window Byte) (ptr : Nat) : Except Nat IpAddr := do
  let a ← w.read ptr
  let b ← w.read (ptr + 1)
  let c ← w.read (ptr + 2)
  let d ← w.read (ptr + 3)
  pure (d ++ c ++ b ++ a)

def skipName (w : Window Byte) (ptr : Nat) : Except Nat Nat :=
  if ptr < w.len then
    let size := w.mem ptr
    if size = 0 then .ok (ptr + 1)
    else if size &&& 0xC0#8 = 0xC0#8 then do
      let _offset ← ntohsAt w ptr
      pure (ptr + 2)
    else skipName w (ptr + size.toNat + 1)
  else .error ptr
  termination_by w.len - ptr

def questions (w : Window Byte) : Nat → Nat → Except Nat Nat
  | 0, ptr => .ok ptr
  | count + 1, ptr =>
    if ptr < w.len then do
      let ptr ← skipName w ptr
      let _type ← ntohsAt w ptr
      let _cls ← ntohsAt w (ptr + 2)
      questions w count (ptr + 4)
    else .ok ptr

/-- What `LOGK("resolved cname %s\n", ptr)` reads: the string up to its zero. -/
def logString (w : Window Byte) (ptr : Nat) : Except Nat Nat := w.find (· = 0) ptr

/-- The answers of `resolve`, with `count` to go; `none` is `-EINVAL`. -/
def answers (w : Window Byte) : Nat → Nat → Except Nat (Option IpAddr)
  | 0, _ => .ok none
  | count + 1, ptr =>
    if ptr < w.len then do
      let ptr ← skipName w ptr
      let type ← ntohsAt w ptr
      let cls ← ntohsAt w (ptr + 2)
      let _ttl ← ntohlAt w (ptr + 4)
      let rdlength ← ntohsAt w (ptr + 8)
      let ptr := ptr + 10
      if type = DNS_TYPE_A ∧ cls = DNS_CLASS_IN ∧ rdlength = 4 then do
        let addr ← addrAt w ptr
        pure (some addr)
      else if type = DNS_TYPE_CNAME ∧ cls = DNS_CLASS_IN then do
        let _ ← logString w ptr
        answers w count (ptr + rdlength)
      else answers w count (ptr + rdlength)
    else .ok none

/-- `resolve`: the counts are in host order, and `end` is where the reply ends. -/
def resolve (w : Window Byte) : Except Nat (Option IpAddr) := do
  let qdcount ← u16At w 4
  let ptr ← questions w qdcount dnsSize
  let ancount ← u16At w 6
  answers w ancount ptr

/-- What `sys_resolv` does to a reply before: the four counts are turned into host order where they lie. -/
def hostOrder (mem : Nat → Byte) : Nat → Byte := fun i =>
  if 4 ≤ i ∧ i < 12 then if i % 2 = 0 then mem (i + 1) else mem (i - 1) else mem i

def received (reply : Window Byte) : Window Byte := { reply with mem := hostOrder reply.mem }

end Onix.Resolv
