/-
Which packets `ip_input` hands over: the bit-fields of `ip_t` as the compiler lays them out, the lowest bits first, beside the
header as it is on the wire, most significant bit first. `flags` is the three highest bits of the first of the two bytes of flags and
offset, so `IP_FLAG_NOLAST` is the reserved bit, not the one that says that more fragments follow.
-/
import Onix.Net.Model

namespace Onix.Net

/-! ## `ip_t` -/

namespace Pbuf

variable (p : Pbuf)

def header : BitVec 4 := (p.u8 14).extractLsb' 0 4

def version : BitVec 4 := (p.u8 14).extractLsb' 4 4

def offset0 : BitVec 5 := (p.u8 20).extractLsb' 0 5

def flags : BitVec 3 := (p.u8 20).extractLsb' 5 3

def offset1 : BitVec 8 := p.u8 21

def ttl : BitVec 8 := p.u8 22

def dst : IpAddr := p.u32 30

end Pbuf

def ipFlagNolast : BitVec 3 := 4

/-- The checks of `ip_input`: its answer, or nothing when the packet goes on to `raw_input` and the protocols. -/
def ipCheck (e : Env) (p : Pbuf) : Option Answer :=
  if p.version ≠ 4 then some .proto
  else if p.ttl = 0 then some .time
  else if p.header ≠ 5 then some .option
  else if p.flags &&& ipFlagNolast ≠ 0 then some .frag
  else if p.dst ≠ e.ipaddr then some .addr
  else none

/-- `ip_input` hands the packet to `raw_input` and, when no raw socket takes it, to its protocol. -/
def HandedOver (e : Env) (p : Pbuf) : Prop := ipCheck e p = none

instance (e : Env) (p : Pbuf) : Decidable (HandedOver e p) := inferInstanceAs (Decidable (_ = _))

variable {e : Env} {p : Pbuf}

theorem version_eq_iff : p.version = 4 ↔ p.u8 14 >>> 4 = 4 := by
  unfold Pbuf.version
  generalize p.u8 14 = b
  revert b
  decide +kernel

theorem header_eq_iff : p.header = 5 ↔ p.u8 14 &&& 15 = 5 := by
  unfold Pbuf.header
  generalize p.u8 14 = b
  revert b
  decide +kernel

/-! ## On the wire -/

def Pbuf.fragWord (p : Pbuf) : BitVec 16 := p.u8 20 ++ p.u8 21

def Pbuf.reserved (p : Pbuf) : Bool := p.fragWord.getLsbD 15

def Pbuf.moreFragments (p : Pbuf) : Bool := p.fragWord.getLsbD 13

def Pbuf.fragOffset (p : Pbuf) : BitVec 13 := p.fragWord.extractLsb' 0 13

def Complete (p : Pbuf) : Prop := p.fragOffset = 0 ∧ p.moreFragments = false

/-- An option-free packet of version 4 with a time to live, for the interface. -/
structure ForUs (e : Env) (p : Pbuf) : Prop where
  version : p.u8 14 >>> 4 = 4
  header : p.u8 14 &&& 15 = 5
  ttl : p.u8 22 ≠ 0
  dst : p.u32 30 = e.ipaddr

instance (p : Pbuf) : Decidable (Complete p) := inferInstanceAs (Decidable (_ ∧ _))

theorem nolast_iff_reserved : p.flags &&& ipFlagNolast = 0 ↔ p.reserved = false := by
  unfold Pbuf.flags Pbuf.reserved Pbuf.fragWord ipFlagNolast
  rw [BitVec.getLsbD_append, if_neg (by decide)]
  generalize p.u8 20 = b
  revert b
  decide +kernel

theorem handedOver_iff : HandedOver e p ↔ ForUs e p ∧ p.reserved = false := by
  unfold HandedOver ipCheck
  rw [← nolast_iff_reserved]
  constructor
  · intro h
    split at h
    · cases h
    split at h
    · cases h
    split at h
    · cases h
    split at h
    · cases h
    split at h
    · cases h
    rename_i hv ht hh hf hd
    exact ⟨⟨version_eq_iff.1 (not_not.1 hv), header_eq_iff.1 (not_not.1 hh), ht, not_not.1 hd⟩, not_not.1 hf⟩
  · rintro ⟨⟨hv, hh, ht, hd⟩, hf⟩
    rw [if_neg (not_not.2 (version_eq_iff.2 hv)), if_neg (show ¬ p.ttl = 0 from ht), if_neg (not_not.2 (header_eq_iff.2 hh)),
      if_neg (not_not.2 hf), if_neg (not_not.2 (show p.dst = e.ipaddr from hd))]

/-- Only complete packets are handed over, and all those that are for this host, exactly when the reserved bit says so. -/
theorem ip_delivery (e : Env) (p : Pbuf) :
    ((HandedOver e p → Complete p) ∧ (Complete p → ForUs e p → HandedOver e p)) ↔
      (ForUs e p → (p.reserved = false ↔ Complete p)) := by
  rw [handedOver_iff]
  constructor
  · rintro ⟨h1, h2⟩ hu
    exact ⟨fun hr => h1 ⟨hu, hr⟩, fun hc => (h2 hc hu).2⟩
  · intro h
    exact ⟨fun ⟨hu, hr⟩ => (h hu).1 hr, fun hc hu => ⟨hu, (h hu).2 hc⟩⟩

def station : Env := ⟨0x0200000A, 0x00FFFFFF, true, true, [], [], [], [], []⟩

def udpPacket (b0 b1 : BitVec 8) : Pbuf :=
  ⟨60, fun o => if o < 14 then 0 else [0x45, 0, 0, 46, 0, 0, b0, b1, 64, 17, 0, 0, 10, 0, 0, 1, 10, 0, 0, 2].getD (o - 14) 0,
    0, 0, 0, 0, false, false⟩

/-- The first fragment of a datagram is handed over, and so is one in its middle; a whole one with the reserved bit set is not. -/
theorem fragments_handed_over :
    (HandedOver station (udpPacket 0x20 0) ∧ ¬ Complete (udpPacket 0x20 0)) ∧
    (HandedOver station (udpPacket 0 1) ∧ ¬ Complete (udpPacket 0 1)) ∧
    Complete (udpPacket 0x80 0) ∧ ForUs station (udpPacket 0x80 0) ∧ ¬ HandedOver station (udpPacket 0x80 0) :=
  ⟨by decide, by decide, by decide, ⟨by decide, by decide, by decide, by decide⟩, by decide⟩

end Onix.Net
