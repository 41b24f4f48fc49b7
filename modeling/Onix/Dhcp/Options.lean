/-
What `dhcp_parse_option` makes of a reply. The format of the options is a grammar: padding of one byte, an end, and types with a size and a
value. The code steps over two bytes and more at a padding, does not look where the reply ends, and sets addresses before it has seen all.
-/
import Mathlib.Data.List.Chain
import Onix.Dhcp.Model
import Onix.Lib.Loop

namespace Onix.Dhcp

open List Function Onix.Lib
open Onix.Net (IpAddr ntohl ipAddrIsany)

/-! ## The format -/

structure Opt where
  type : Byte
  value : List Byte

def optAt (mem : Nat → Byte) (p : Nat) : Opt := ⟨mem p, (List.range (mem (p + 1)).toNat).map fun i => mem (p + 2 + i)⟩

def checked : List Byte := [OPT_SUBNET_MASK, OPT_ROUTER, OPT_DHCP_LEASE_TIME, OPT_DHCP_SERVER_IDENTIFIER]
def unchecked : List Byte := [OPT_BROADCAST_ADDRESS, OPT_DHCP_RENEWAL_TIME, OPT_DHCP_REBINDING_TIME]

/-- The value is as it has to be: the message is an offer or an acknowledgement. -/
structure Opt.Sound (o : Opt) : Prop where
  four : o.type ∈ checked ∨ o.type ∈ unchecked → o.value.length = 4
  message : o.type = OPT_DHCP_MESSAGE_TYPE → o.value = [DHCP_OFFER] ∨ o.value = [DHCP_ACK]

/-- A list of options within the reply, from `p` up to the end mark. -/
inductive Options (w : Window Byte) : Nat → List Opt → Prop
  | stop {p : Nat} : p < w.len → w.mem p = OPT_END → Options w p []
  | pad {p : Nat} {os : List Opt} : p < w.len → w.mem p = OPT_PAD → Options w (p + 1) os → Options w p os
  | opt {p : Nat} {os : List Opt} : p + 1 < w.len → w.mem p ≠ OPT_PAD → w.mem p ≠ OPT_END → (optAt w.mem p).Sound →
    Options w (p + 2 + (w.mem (p + 1)).toNat) os → Options w p (optAt w.mem p :: os)

def Follows (mem : Nat → Byte) (p q : Nat) : Prop :=
  mem p ≠ OPT_END ∧ q = if mem p = OPT_PAD then p + 1 else p + 2 + (mem (p + 1)).toNat

/-! ## What options are for -/

def set (expire : BitVec 32 → Int) (pcb : Pcb) (type : Byte) (v : BitVec 32) : Pcb :=
  if type = OPT_SUBNET_MASK then pcb.setNetmask v
  else if type = OPT_ROUTER then pcb.setGateway v
  else if type = OPT_BROADCAST_ADDRESS then pcb.setBroadcast v
  else if type = OPT_DHCP_LEASE_TIME then { pcb with leaseTime := ntohl v, expires := expire (ntohl v * 500) }
  else if type = OPT_DHCP_SERVER_IDENTIFIER then { pcb with server := v }
  else if type = OPT_DHCP_RENEWAL_TIME then { pcb with renewalTime := ntohl v }
  else if type = OPT_DHCP_REBINDING_TIME then { pcb with rebindingTime := ntohl v }
  else pcb

def Opt.word (o : Opt) : BitVec 32 := o.value.getD 3 0 ++ o.value.getD 2 0 ++ o.value.getD 1 0 ++ o.value.getD 0 0

def word (mem : Nat → Byte) (p : Nat) : BitVec 32 := mem (p + 3) ++ mem (p + 2) ++ mem (p + 1) ++ mem p

def directed (addr : IpAddr) : IpAddr := 255#8 ++ addr.setWidth 24

def finish (addr : IpAddr) (given : Bool) (pcb : Pcb) : Pcb :=
  if addr = 0 then pcb
  else (pcb.setIpaddr addr).setBroadcast (if given then pcb.netif.broadcast else directed addr)

def applied (expire : BitVec 32 → Int) (os : List Opt) (addr : IpAddr) (pcb : Pcb) : Pcb :=
  finish addr (os.any (·.type = OPT_BROADCAST_ADDRESS)) (os.foldl (fun pcb o => set expire pcb o.type o.word) pcb)

/-- The reply is parsed without leaving it, an option is read where the one before ends, the options of a well-formed list are applied, and
a reply that is rejected leaves the interface alone. -/
def Parses (expire : BitVec 32 → Int) (w : Window Byte) (pcb : Pcb) : Prop :=
  ∃ r, dhcpParseOption expire w pcb = .ok r ∧ r.places.IsChain (Follows w.mem) ∧
    (∀ os, Options w options os → r.success = true ∧ r.pcb = applied expire os (word w.mem yiaddr) pcb) ∧
    (r.success = false → r.pcb.netif = pcb.netif)

/-! ## What the code reads -/

def loose : List Byte := [OPT_DOMAIN_NAME_SERVER, OPT_BROADCAST_ADDRESS, OPT_NETBIOS_NAME_SERVER, OPT_DHCP_RENEWAL_TIME, OPT_DHCP_REBINDING_TIME]

/-- The option at `p` passes the checks of the code, and what is read of it is in the reply. -/
structure Accepts (len : Nat) (mem : Nat → Byte) (p : Nat) : Prop where
  size : p + 1 < len
  checked : mem p ∈ checked → mem (p + 1) = 4 ∧ p + 6 ≤ len
  loose : mem p ∈ loose → p + 6 ≤ len
  message : mem p = OPT_DHCP_MESSAGE_TYPE → mem (p + 1) = 1 ∧ p + 2 < len ∧ (mem (p + 2) = DHCP_OFFER ∨ mem (p + 2) = DHCP_ACK)
  name : mem p = OPT_DOMAIN_NAME → p + 2 + (mem (p + 1)).toNat < len

def Refused (len : Nat) (mem : Nat → Byte) (p : Nat) : Prop :=
  p + 1 < len ∧ (mem p ∈ checked ∧ mem (p + 1) ≠ 4 ∨ mem p = OPT_DHCP_MESSAGE_TYPE ∧
    (mem (p + 1) ≠ 1 ∨ p + 2 < len ∧ mem (p + 2) ≠ DHCP_OFFER ∧ mem (p + 2) ≠ DHCP_ACK))

/-- Options that are accepted, at the places `ps` from `p` up to `e`. -/
inductive Steps (len : Nat) (mem : Nat → Byte) : Nat → List Nat → Nat → Prop
  | nil {p : Nat} : Steps len mem p [] p
  | cons {p e : Nat} {ps : List Nat} : mem p ≠ OPT_END → Accepts len mem p → Steps len mem (p + 2 + (mem (p + 1)).toNat) ps e →
    Steps len mem p (p :: ps) e

def settle (expire : BitVec 32 → Int) (mem : Nat → Byte) (ps : List Nat) (pcb : Pcb) : Pcb :=
  ps.foldl (fun pcb p => set expire pcb (mem p) (word mem (p + 2))) pcb

/-- Options without a padding among them, each read within the reply, up to the end mark or an option that is refused. When all have the size
they should, an address for broadcasts is only given when it is the one that is made up, or no address comes with the reply; and before an
option that is refused nothing changes the interface. -/
def ParsesWhen (expire : BitVec 32 → Int) (w : Window Byte) (pcb : Pcb) : Prop :=
  ∃ ps e, Steps w.len w.mem options ps e ∧ e < w.len ∧ (∀ p ∈ ps, w.mem p ≠ OPT_PAD) ∧
    (w.mem e = OPT_END ∧ ((∀ p ∈ ps, (optAt w.mem p).Sound) → (∃ p ∈ ps, w.mem p = OPT_BROADCAST_ADDRESS) →
        word w.mem yiaddr = 0 ∨ (settle expire w.mem ps pcb).netif.broadcast = directed (word w.mem yiaddr)) ∨
      Refused w.len w.mem e ∧ (settle expire w.mem ps pcb).netif = pcb.netif)

variable {expire : BitVec 32 → Int} {w w' : Window Byte} {mem : Nat → Byte} {len p e : Nat} {pcb pcb' : Pcb} {type : Byte} {ps : List Nat}
variable {f : BitVec 32 → Pcb}

/-! ## A round -/

@[simp] theorem bind_u32At {α : Type} {f : BitVec 32 → Except Nat α} {r : α} :
    u32At w p >>= f = .ok r ↔ p + 4 ≤ w.len ∧ f (word w.mem p) = .ok r := by
  unfold u32At
  simp only [bind_assoc, Window.bind_read]
  constructor
  · rintro ⟨-, -, -, h1, h2⟩
    exact ⟨h1, h2⟩
  · rintro ⟨h1, h2⟩
    exact ⟨by omega, by omega, by omega, h1, h2⟩

theorem body_checked (h : type ∈ checked) : body expire w pcb p type = sized w p (set expire pcb type) := by
  simp only [checked, mem_cons, not_mem_nil, or_false] at h
  rcases h with rfl | rfl | rfl | rfl <;> rfl

theorem body_loose (h : type ∈ loose) : body expire w pcb p type = unsized w p (set expire pcb type) := by
  simp only [loose, mem_cons, not_mem_nil, or_false] at h
  rcases h with rfl | rfl | rfl | rfl | rfl <;> rfl

theorem other (h1 : type ∉ checked) (h2 : type ∉ loose) (h3 : type ≠ OPT_DHCP_MESSAGE_TYPE) (h4 : type ≠ OPT_DOMAIN_NAME) :
    body expire w pcb p type = .ok (some (w, pcb)) ∧ ∀ v, set expire pcb type v = pcb := by
  simp only [checked, loose, mem_cons, not_mem_nil, or_false, not_or] at h1 h2
  constructor
  · simp [body, h1, h2, h3, h4]
    rfl
  · intro v
    simp [set, h1, h2]

theorem sized_some : sized w p f = .ok (some (w', pcb')) ↔
    w.mem (p + 1) = 4 ∧ p + 6 ≤ w.len ∧ w' = w ∧ pcb' = f (word w.mem (p + 2)) := by
  unfold sized
  rw [Window.bind_read]
  by_cases h : w.mem (p + 1) = 4
  · rw [if_neg (not_not_intro h), bind_u32At]
    simp only [pure, Except.pure, Except.ok.injEq, Option.some.injEq, Prod.mk.injEq]
    constructor
    · rintro ⟨-, h2, rfl, rfl⟩
      exact ⟨h, h2, rfl, rfl⟩
    · rintro ⟨-, h2, rfl, rfl⟩
      exact ⟨by omega, h2, rfl, rfl⟩
  · rw [if_pos h]
    exact iff_of_false (fun h' => nomatch h'.2) fun h' => h h'.1

theorem sized_none : sized w p f = .ok none ↔ p + 1 < w.len ∧ w.mem (p + 1) ≠ 4 := by
  unfold sized
  rw [Window.bind_read]
  refine and_congr_right fun _ => ?_
  by_cases h : w.mem (p + 1) = 4
  · rw [if_neg (not_not_intro h), bind_u32At]
    exact iff_of_false (fun h' => nomatch h'.2) (not_not_intro h)
  · rw [if_pos h]
    exact iff_of_true rfl h

theorem unsized_some : unsized w p f = .ok (some (w', pcb')) ↔
    p + 6 ≤ w.len ∧ w' = w ∧ pcb' = f (word w.mem (p + 2)) := by
  unfold unsized
  rw [bind_u32At]
  simp only [pure, Except.pure, Except.ok.injEq, Option.some.injEq, Prod.mk.injEq, eq_comm]

theorem unsized_none : unsized w p f ≠ .ok none := by
  unfold unsized
  rw [Ne, bind_u32At]
  exact fun h => nomatch h.2

theorem message_some : messageType w p pcb = .ok (some (w', pcb')) ↔
    w.mem (p + 1) = 1 ∧ p + 2 < w.len ∧ (w.mem (p + 2) = DHCP_OFFER ∨ w.mem (p + 2) = DHCP_ACK) ∧ w' = w ∧ pcb' = pcb := by
  unfold messageType
  rw [Window.bind_read]
  by_cases h : w.mem (p + 1) = 1
  · rw [if_neg (not_not_intro h), Window.bind_read]
    by_cases hv : w.mem (p + 2) ≠ DHCP_OFFER ∧ w.mem (p + 2) ≠ DHCP_ACK
    · rw [if_pos hv]
      exact iff_of_false (fun h' => nomatch h'.2.2) fun h' => h'.2.2.1.elim hv.1 hv.2
    · rw [if_neg hv]
      simp only [pure, Except.pure, Except.ok.injEq, Option.some.injEq, Prod.mk.injEq]
      constructor
      · rintro ⟨-, h2, rfl, rfl⟩
        exact ⟨h, h2, by tauto, rfl, rfl⟩
      · rintro ⟨-, h2, -, rfl, rfl⟩
        exact ⟨by omega, h2, rfl, rfl⟩
  · rw [if_pos h]
    exact iff_of_false (fun h' => nomatch h'.2) fun h' => h h'.1

theorem message_none : messageType w p pcb = .ok none ↔ p + 1 < w.len ∧
    (w.mem (p + 1) ≠ 1 ∨ p + 2 < w.len ∧ w.mem (p + 2) ≠ DHCP_OFFER ∧ w.mem (p + 2) ≠ DHCP_ACK) := by
  unfold messageType
  rw [Window.bind_read]
  refine and_congr_right fun _ => ?_
  by_cases h : w.mem (p + 1) = 1
  · rw [if_neg (not_not_intro h), Window.bind_read]
    by_cases hv : w.mem (p + 2) ≠ DHCP_OFFER ∧ w.mem (p + 2) ≠ DHCP_ACK
    · rw [if_pos hv]
      simp [h, hv, pure, Except.pure]
    · rw [if_neg hv]
      refine iff_of_false (fun h' => nomatch h'.2) ?_
      rintro (h1 | ⟨-, h1⟩)
      · exact h1 h
      · exact hv h1
  · rw [if_pos h]
    exact iff_of_true rfl (.inl h)

theorem domainName_ok : domainName w p = .ok w' ↔ p + 2 + (w.mem (p + 1)).toNat < w.len ∧ w' = w := by
  unfold domainName
  rw [Window.bind_read, Window.bind_read, Window.bind_write]
  have hback : ∀ (f : Nat → Byte) (i : Nat) (b : Byte), update (update f i b) i (f i) = f := fun f i b => by
    rw [update_idem, update_eq_self]
  constructor
  · rintro ⟨-, h1, -, h⟩
    obtain ⟨q, -, h⟩ := bind_ok h
    unfold Window.write at h
    rw [if_pos h1, hback] at h
    cases h
    exact ⟨h1, rfl⟩
  · rintro ⟨h1, rfl⟩
    refine ⟨by omega, h1, h1, ?_⟩
    obtain ⟨q, hq⟩ := (Window.exists_find (w := { w' with mem := update w'.mem (p + 2 + (w'.mem (p + 1)).toNat) 0 })
      (P := (· = 0)) (p := p + 2)).2 ⟨p + 2 + (w'.mem (p + 1)).toNat, by omega, h1, by simp⟩
    rw [hq]
    show Window.write _ _ _ = _
    unfold Window.write
    rw [if_pos h1, hback]

theorem body_some : body expire ⟨mem, len⟩ pcb p (mem p) = .ok (some (w', pcb')) ∧ p + 1 < len ↔
    Accepts len mem p ∧ w' = ⟨mem, len⟩ ∧ pcb' = set expire pcb (mem p) (word mem (p + 2)) := by
  by_cases h1 : mem p ∈ checked
  · have hno : mem p ∉ loose ∧ mem p ≠ OPT_DHCP_MESSAGE_TYPE ∧ mem p ≠ OPT_DOMAIN_NAME := by
      revert h1
      generalize mem p = type
      revert type
      decide +kernel
    rw [body_checked h1, sized_some]
    constructor
    · rintro ⟨⟨h, hlen, hw, hp⟩, hs⟩
      exact ⟨⟨hs, fun _ => ⟨h, hlen⟩, fun hl => absurd hl hno.1, fun hm => absurd hm hno.2.1, fun hn => absurd hn hno.2.2⟩, hw, hp⟩
    · rintro ⟨ha, hw, hp⟩
      exact ⟨⟨(ha.checked h1).1, (ha.checked h1).2, hw, hp⟩, ha.size⟩
  by_cases h2 : mem p ∈ loose
  · have hno : mem p ≠ OPT_DHCP_MESSAGE_TYPE ∧ mem p ≠ OPT_DOMAIN_NAME := by
      revert h2
      generalize mem p = type
      revert type
      decide +kernel
    rw [body_loose h2, unsized_some]
    constructor
    · rintro ⟨⟨hlen, hw, hp⟩, hs⟩
      exact ⟨⟨hs, fun hc => absurd hc h1, fun _ => hlen, fun hm => absurd hm hno.1, fun hn => absurd hn hno.2⟩, hw, hp⟩
    · rintro ⟨ha, hw, hp⟩
      exact ⟨⟨ha.loose h2, hw, hp⟩, ha.size⟩
  by_cases h3 : mem p = OPT_DHCP_MESSAGE_TYPE
  · have hno : mem p ≠ OPT_DOMAIN_NAME := h3 ▸ by decide
    have hb : body expire ⟨mem, len⟩ pcb p (mem p) = messageType ⟨mem, len⟩ p pcb := by
      rw [h3]
      rfl
    have hset : set expire pcb (mem p) (word mem (p + 2)) = pcb := by
      rw [h3]
      rfl
    rw [hb, hset, message_some]
    constructor
    · rintro ⟨⟨h, hlen, hv, hw, hp⟩, hs⟩
      exact ⟨⟨hs, fun hc => absurd hc h1, fun hl => absurd hl h2, fun _ => ⟨h, hlen, hv⟩, fun hn => absurd hn hno⟩, hw, hp⟩
    · rintro ⟨ha, hw, hp⟩
      obtain ⟨h, hlen, hv⟩ := ha.message h3
      exact ⟨⟨h, hlen, hv, hw, hp⟩, ha.size⟩
  by_cases h4 : mem p = OPT_DOMAIN_NAME
  · have hb : body expire ⟨mem, len⟩ pcb p (mem p) = domainName ⟨mem, len⟩ p >>= fun w => pure (some (w, pcb)) := by
      rw [h4]
      rfl
    have hset : set expire pcb (mem p) (word mem (p + 2)) = pcb := by
      rw [h4]
      rfl
    rw [hb, hset]
    constructor
    · rintro ⟨h, hs⟩
      obtain ⟨w1, hd, h⟩ := bind_ok h
      obtain ⟨hlen, hw⟩ := domainName_ok.1 hd
      cases h
      exact ⟨⟨hs, fun hc => absurd hc h1, fun hl => absurd hl h2, fun hm => absurd hm h3, fun _ => hlen⟩, hw, rfl⟩
    · rintro ⟨ha, hw, hp⟩
      rw [domainName_ok.2 ⟨ha.name h4, rfl⟩, hw, hp]
      exact ⟨rfl, ha.size⟩
  · obtain ⟨hb, hset⟩ : body expire ⟨mem, len⟩ pcb p (mem p) = .ok (some (⟨mem, len⟩, pcb)) ∧ ∀ v, set expire pcb (mem p) v = pcb :=
      other h1 h2 h3 h4
    rw [hb, hset]
    constructor
    · rintro ⟨h, hs⟩
      cases h
      exact ⟨⟨hs, fun hc => absurd hc h1, fun hl => absurd hl h2, fun hm => absurd hm h3, fun hn => absurd hn h4⟩, rfl, rfl⟩
    · rintro ⟨ha, hw, hp⟩
      rw [hw, hp]
      exact ⟨rfl, ha.size⟩

theorem body_none : body expire ⟨mem, len⟩ pcb p (mem p) = .ok none ↔ Refused len mem p := by
  unfold Refused
  by_cases h1 : mem p ∈ checked
  · have hno : mem p ≠ OPT_DHCP_MESSAGE_TYPE := by
      rintro h
      rw [h] at h1
      exact absurd h1 (by decide)
    rw [body_checked h1, sized_none]
    simp [h1, hno]
  by_cases h3 : mem p = OPT_DHCP_MESSAGE_TYPE
  · have hb : body expire ⟨mem, len⟩ pcb p (mem p) = messageType ⟨mem, len⟩ p pcb := by
      rw [h3]
      rfl
    have hno : OPT_DHCP_MESSAGE_TYPE ∉ checked := by decide
    rw [hb, message_none]
    simp only [h3, hno, false_and, false_or, true_and]
  have hno : ¬ (p + 1 < len ∧ (mem p ∈ checked ∧ mem (p + 1) ≠ 4 ∨ mem p = OPT_DHCP_MESSAGE_TYPE ∧
      (mem (p + 1) ≠ 1 ∨ p + 2 < len ∧ mem (p + 2) ≠ DHCP_OFFER ∧ mem (p + 2) ≠ DHCP_ACK))) := by
    rintro ⟨-, ⟨h, -⟩ | ⟨h, -⟩⟩
    · exact h1 h
    · exact h3 h
  refine iff_of_false ?_ hno
  by_cases h2 : mem p ∈ loose
  · rw [body_loose h2]
    exact unsized_none
  by_cases h4 : mem p = OPT_DOMAIN_NAME
  · have hb : body expire ⟨mem, len⟩ pcb p (mem p) = domainName ⟨mem, len⟩ p >>= fun w => pure (some (w, pcb)) := by
      rw [h4]
      rfl
    rw [hb]
    intro h
    obtain ⟨w1, -, h⟩ := bind_ok h
    cases h
  · rw [(other h1 h2 h3 h4).1]
    exact nofun

/-! ## The walk -/

theorem walk_ok {r : Walked} : walk expire len mem pcb p = .ok r ↔ ∃ ps e, Steps len mem p ps e ∧ e < len ∧
    r.mem = mem ∧ r.pcb = settle expire mem ps pcb ∧ r.places = ps ++ [e] ∧
      (mem e = OPT_END ∧ r.success = true ∨ Refused len mem e ∧ mem e ≠ OPT_END ∧ r.success = false) := by
  constructor
  · intro h
    induction hn : len - p using Nat.strong_induction_on generalizing p pcb r with
    | _ n ih =>
      unfold walk at h
      split at h
      case isFalse => cases h
      rename_i hp
      split at h
      · rename_i hend
        cases h
        exact ⟨[], p, .nil, hp, rfl, rfl, rfl, .inl ⟨hend, rfl⟩⟩
      · rename_i hend
        split at h
        · cases h
        · rename_i hbody
          cases h
          exact ⟨[], p, .nil, hp, rfl, rfl, rfl, .inr ⟨body_none.1 hbody, hend, rfl⟩⟩
        · rename_i w1 pcb1 hbody
          split at h
          · cases h
          · rename_i size hsize
            obtain ⟨hp1, hread⟩ := Window.read_ok.1 hsize
            obtain ⟨ha, rfl, rfl⟩ := body_some.1 ⟨hbody, hp1⟩
            split at h
            · cases h
            · rename_i r1 hr
              cases h
              rw [← hread, add_right_comm] at hr
              obtain ⟨ps, e, hs, he, hmem, hpcb, hplaces, hstop⟩ := ih _ (by omega) hr rfl
              exact ⟨p :: ps, e, .cons hend ha hs, he, hmem, hpcb, congrArg (p :: ·) hplaces, hstop⟩
  · rintro ⟨ps, e, hs, he, hmem, hpcb, hplaces, hstop⟩
    induction hs generalizing pcb r with
    | nil =>
      unfold walk
      rw [if_pos he]
      obtain ⟨success, mem', pcb', places⟩ := r
      dsimp only at hmem hpcb hplaces hstop
      rcases hstop with ⟨hend, rfl⟩ | ⟨href, hend, rfl⟩
      · rw [if_pos hend, hmem, hpcb, hplaces]
        rfl
      · rw [if_neg hend, body_none.2 href, hmem, hpcb, hplaces]
        rfl
    | cons hend ha hs ih =>
      rename_i p e ps
      unfold walk
      have hp : p < len := Nat.lt_of_succ_lt ha.size
      rw [if_pos hp, if_neg hend, (body_some.2 ⟨ha, rfl, rfl⟩).1]
      dsimp only
      rw [Window.read_ok.2 ⟨ha.size, rfl⟩]
      dsimp only
      have hnext : walk expire len mem (set expire pcb (mem p) (word mem (p + 2))) (p + 2 + (mem (p + 1)).toNat) =
          .ok { r with places := ps ++ [e] } := ih he hmem hpcb rfl hstop
      rw [add_right_comm, hnext]
      dsimp only
      rw [← cons_append, ← hplaces]

theorem Steps.le {ps : List Nat} (h : Steps len mem p ps e) : p ≤ e := by
  induction h with
  | nil => exact le_refl _
  | cons _ _ _ ih => omega

theorem Steps.chain {ps : List Nat} (h : Steps len mem p ps e) : (ps ++ [e]).IsChain (Follows mem) ↔ ∀ q ∈ ps, mem q ≠ OPT_PAD := by
  induction h with
  | nil => simp
  | cons hend ha hs ih =>
    rename_i p e ps
    have hfirst : ∃ l, ps ++ [e] = (p + 2 + (mem (p + 1)).toNat) :: l := by
      cases hs with
      | nil => exact ⟨[], rfl⟩
      | cons _ _ _ => exact ⟨_, rfl⟩
    obtain ⟨l, hl⟩ := hfirst
    rw [cons_append, hl, isChain_cons_cons, ← hl, ih, forall_mem_cons]
    refine and_congr_left fun _ => ?_
    unfold Follows
    by_cases hpad : mem p = OPT_PAD
    · rw [if_pos hpad]
      exact iff_of_false (fun h => by have := h.2; omega) (not_not_intro hpad)
    · rw [if_neg hpad]
      exact iff_of_true ⟨hend, rfl⟩ hpad

/-! ## Lists -/

theorem word_optAt (h : (mem (p + 1)).toNat = 4) : (optAt mem p).word = word mem (p + 2) := by
  unfold Opt.word optAt word
  rw [h]
  rfl

theorem value_length (mem : Nat → Byte) (p : Nat) : (optAt mem p).value.length = (mem (p + 1)).toNat := by
  simp [optAt]

theorem set_optAt (h : (optAt mem p).Sound) (pcb : Pcb) :
    set expire pcb (optAt mem p).type (optAt mem p).word = set expire pcb (mem p) (word mem (p + 2)) := by
  by_cases hk : mem p ∈ checked ∨ mem p ∈ unchecked
  · rw [word_optAt ((value_length mem p).symm.trans (h.four hk))]
    rfl
  · have hany : ∀ v, set expire pcb (mem p) v = pcb := fun v => by
      simp only [checked, unchecked, mem_cons, not_mem_nil, or_false, not_or] at hk
      simp [set, hk]
    exact (hany _).trans (hany _).symm

theorem not_sound (h : Refused len mem p) : ¬ (optAt mem p).Sound := by
  rintro ⟨hfour, hmsg⟩
  have hlen := value_length mem p
  rcases h with ⟨-, ⟨hc, h4⟩ | ⟨ht, h1⟩⟩
  · rw [hfour (.inl hc)] at hlen
    exact h4 (BitVec.eq_of_toNat_eq hlen.symm)
  · have hone : mem (p + 1) = 1 := by
      apply BitVec.eq_of_toNat_eq
      rw [← hlen]
      rcases hmsg ht with h | h <;> rw [h] <;> rfl
    have hval : (optAt mem p).value = [mem (p + 2)] := by
      unfold optAt
      rw [hone]
      rfl
    rw [hval] at hmsg
    rcases h1 with h1 | ⟨-, h2, h3⟩
    · exact h1 hone
    · rcases hmsg ht with h | h
      · exact h2 (cons.inj h).1
      · exact h3 (cons.inj h).1

theorem Steps.options (h : Steps w.len w.mem p ps e) (os : List Opt) (hpad : ∀ q ∈ ps, w.mem q ≠ OPT_PAD) (he : e < w.len)
    (hstop : w.mem e = OPT_END ∨ Refused w.len w.mem e ∧ w.mem e ≠ OPT_PAD) :
    Options w p os ↔ w.mem e = OPT_END ∧ (∀ q ∈ ps, (optAt w.mem q).Sound) ∧ os = ps.map (optAt w.mem) := by
  induction h generalizing os with
  | nil =>
    constructor
    · intro ho
      cases ho with
      | stop _ hend => exact ⟨hend, nofun, rfl⟩
      | pad _ hz _ =>
        rcases hstop with hend | ⟨-, hne⟩
        · rw [hend] at hz
          cases hz
        · exact absurd hz hne
      | opt _ _ hend hs _ =>
        rcases hstop with hend' | ⟨href, -⟩
        · exact absurd hend' hend
        · exact absurd hs (not_sound href)
    · rintro ⟨hend, -, rfl⟩
      exact .stop he hend
  | cons hend ha hs ih =>
    obtain ⟨hp, hpad⟩ := forall_mem_cons.1 hpad
    rw [forall_mem_cons, map_cons]
    constructor
    · intro ho
      cases ho with
      | stop _ hend' => exact absurd hend' hend
      | pad _ hz _ => exact absurd hz hp
      | opt _ _ _ hsound ho =>
        obtain ⟨h1, h2, rfl⟩ := (ih _ hpad he hstop).1 ho
        exact ⟨h1, ⟨hsound, h2⟩, rfl⟩
    · rintro ⟨h1, ⟨hsound, h2⟩, rfl⟩
      exact .opt ha.size hp hend hsound ((ih _ hpad he hstop).2 ⟨h1, h2, rfl⟩)

theorem foldl_settle (h : ∀ q ∈ ps, (optAt mem q).Sound) (pcb : Pcb) :
    (ps.map (optAt mem)).foldl (fun pcb o => set expire pcb o.type o.word) pcb = settle expire mem ps pcb := by
  induction ps generalizing pcb with
  | nil => rfl
  | cons p ps ih =>
    obtain ⟨hp, h⟩ := forall_mem_cons.1 h
    rw [map_cons, foldl_cons, set_optAt hp, ih h]
    rfl

/-! ## The whole -/

theorem last_byte (a b c d : Byte) : (255#8 ++ c ++ b ++ a : BitVec 32) = 255#8 ++ BitVec.setWidth 24 (d ++ c ++ b ++ a) := by
  apply BitVec.eq_of_getLsbD_eq
  intro i hi
  simp only [BitVec.getLsbD_append, BitVec.getLsbD_setWidth]
  by_cases h1 : i < 8
  · have : i < 24 := by omega
    simp [h1, this]
  · by_cases h2 : i - 8 < 8
    · have : i < 24 := by omega
      simp [h1, h2, this]
    · by_cases h3 : i - 8 - 8 < 8
      · have : i < 24 := by omega
        simp [h1, h2, h3, this]
      · have : ¬ i < 24 := by omega
        have h4 : i - 8 - 8 - 8 = i - 24 := by omega
        simp [h1, h2, h3, this, h4]

theorem takeAddress_ok (pcb : Pcb) (hlen : options ≤ w.len) : ∃ w', takeAddress w pcb = .ok (w', finish (word w.mem yiaddr) false pcb) := by
  have h4 : yiaddr + 4 ≤ w.len := le_trans (by decide) hlen
  unfold takeAddress finish
  by_cases h0 : word w.mem yiaddr = 0
  · refine ⟨w, ?_⟩
    rw [if_pos h0, bind_u32At]
    refine ⟨h4, ?_⟩
    rw [if_pos (by simp [ipAddrIsany, h0])]
    rfl
  · refine ⟨{ w with mem := update w.mem (yiaddr + 3) 255 }, ?_⟩
    have hlast : word (update w.mem (yiaddr + 3) 255) yiaddr = directed (word w.mem yiaddr) := by
      exact last_byte _ _ _ _
    rw [if_neg h0, bind_u32At]
    refine ⟨h4, ?_⟩
    rw [if_neg (by simpa [ipAddrIsany] using h0), Window.bind_write]
    refine ⟨by omega, ?_⟩
    rw [bind_u32At]
    refine ⟨h4, ?_⟩
    rw [hlast]
    rfl

theorem refused_type (h : Refused len mem p) : mem p ≠ OPT_PAD ∧ mem p ≠ OPT_END := by
  rcases h with ⟨-, ⟨h, -⟩ | ⟨h, -⟩⟩
  · revert h
    generalize mem p = type
    revert type
    decide +kernel
  · rw [h]
    decide

theorem parse_ok {r : Walked} (h : dhcpParseOption expire w pcb = .ok r) : ∃ ps e, Steps w.len w.mem options ps e ∧ e < w.len ∧
    r.places = ps ++ [e] ∧
      (w.mem e = OPT_END ∧ r.success = true ∧ r.pcb = finish (word w.mem yiaddr) false (settle expire w.mem ps pcb) ∨
        Refused w.len w.mem e ∧ r.success = false ∧ r.pcb = settle expire w.mem ps pcb) := by
  obtain ⟨r1, h1, h⟩ := bind_ok h
  obtain ⟨ps, e, hs, he, hmem, hpcb, hplaces, hstop⟩ := walk_ok.1 h1
  refine ⟨ps, e, hs, he, ?_⟩
  rcases hstop with ⟨hend, hsucc⟩ | ⟨href, -, hsucc⟩
  · rw [if_pos hsucc, hmem, hpcb] at h
    obtain ⟨w', hw'⟩ := takeAddress_ok (w := w) (settle expire w.mem ps pcb) (le_trans hs.le (le_of_lt he))
    rw [hw'] at h
    cases h
    exact ⟨hplaces, .inl ⟨hend, hsucc, rfl⟩⟩
  · rw [if_neg (by simp [hsucc])] at h
    cases h
    exact ⟨hplaces, .inr ⟨href, hsucc, hpcb⟩⟩

theorem parse_exists (expire : BitVec 32 → Int) (pcb : Pcb) (hs : Steps w.len w.mem options ps e) (he : e < w.len)
    (hstop : w.mem e = OPT_END ∨ Refused w.len w.mem e) :
    ∃ r, dhcpParseOption expire w pcb = .ok r ∧ r.places = ps ++ [e] ∧
      (w.mem e = OPT_END ∧ r.success = true ∧ r.pcb = finish (word w.mem yiaddr) false (settle expire w.mem ps pcb) ∨
        Refused w.len w.mem e ∧ r.success = false ∧ r.pcb = settle expire w.mem ps pcb) := by
  unfold dhcpParseOption
  rcases hstop with hend | href
  · have hw : walk expire w.len w.mem pcb options = .ok ⟨true, w.mem, settle expire w.mem ps pcb, ps ++ [e]⟩ :=
      walk_ok.2 ⟨ps, e, hs, he, rfl, rfl, rfl, .inl ⟨hend, rfl⟩⟩
    obtain ⟨w', hw'⟩ := takeAddress_ok (w := w) (settle expire w.mem ps pcb) (le_trans hs.le (le_of_lt he))
    rw [hw]
    refine ⟨⟨true, w'.mem, finish (word w.mem yiaddr) false (settle expire w.mem ps pcb), ps ++ [e]⟩, ?_, rfl, .inl ⟨hend, rfl, rfl⟩⟩
    show (takeAddress w (settle expire w.mem ps pcb) >>= _) = _
    rw [hw']
    rfl
  · have hw : walk expire w.len w.mem pcb options = .ok ⟨false, w.mem, settle expire w.mem ps pcb, ps ++ [e]⟩ :=
      walk_ok.2 ⟨ps, e, hs, he, rfl, rfl, rfl, .inr ⟨href, (refused_type href).2, rfl⟩⟩
    rw [hw]
    exact ⟨_, rfl, rfl, .inr ⟨href, rfl, rfl⟩⟩

theorem finish_false {addr : IpAddr} {given : Bool} : finish addr false pcb = finish addr given pcb ↔
    (given = true → addr = 0 ∨ pcb.netif.broadcast = directed addr) := by
  unfold finish
  by_cases h0 : addr = 0
  · rw [if_pos h0, if_pos h0]
    exact iff_of_true rfl fun _ => .inl h0
  · rw [if_neg h0, if_neg h0]
    cases given with
    | false => exact iff_of_true rfl nofun
    | true =>
      rw [if_neg Bool.false_ne_true, if_pos rfl]
      constructor
      · intro h _
        exact .inr (congrArg (fun p => p.netif.broadcast) h).symm
      · intro h
        rw [(h rfl).resolve_left h0]

theorem any_broadcast (mem : Nat → Byte) (ps : List Nat) :
    (ps.map (optAt mem)).any (·.type = OPT_BROADCAST_ADDRESS) = true ↔ ∃ p ∈ ps, mem p = OPT_BROADCAST_ADDRESS := by
  simp only [any_map, any_eq_true, Function.comp_apply, decide_eq_true_eq]
  rfl

/-- The options of a reply are parsed as they should be exactly so. -/
theorem option_parsing (expire : BitVec 32 → Int) (w : Window Byte) (pcb : Pcb) : Parses expire w pcb ↔ ParsesWhen expire w pcb := by
  constructor
  · rintro ⟨r, hr, hchain, hlist, hreject⟩
    obtain ⟨ps, e, hs, he, hplaces, hstop⟩ := parse_ok hr
    rw [hplaces] at hchain
    have hpad := hs.chain.1 hchain
    refine ⟨ps, e, hs, he, hpad, ?_⟩
    rcases hstop with ⟨hend, -, hpcb⟩ | ⟨href, hsucc, hpcb⟩
    · refine .inl ⟨hend, fun hsound hb => ?_⟩
      obtain ⟨-, happlied⟩ := hlist _ ((hs.options _ hpad he (.inl hend)).2 ⟨hend, hsound, rfl⟩)
      unfold applied at happlied
      rw [foldl_settle hsound, hpcb, finish_false] at happlied
      exact happlied ((any_broadcast w.mem ps).2 hb)
    · exact .inr ⟨href, hpcb ▸ hreject hsucc⟩
  · rintro ⟨ps, e, hs, he, hpad, hstop⟩
    obtain ⟨r, hr, hplaces, hres⟩ := parse_exists expire pcb hs he (hstop.imp And.left And.left)
    refine ⟨r, hr, hplaces ▸ hs.chain.2 hpad, ?_⟩
    have hlist := fun os => hs.options os hpad he
    rcases hres with ⟨hend, hsucc, hpcb⟩ | ⟨href, hsucc, hpcb⟩
    · have hb := (hstop.resolve_right fun h => (refused_type h.1).2 hend).2
      refine ⟨fun os hos => ?_, fun hf => by rw [hsucc] at hf; cases hf⟩
      obtain ⟨-, hsound, rfl⟩ := (hlist os (.inl hend)).1 hos
      refine ⟨hsucc, ?_⟩
      unfold applied
      rw [foldl_settle hsound, hpcb, finish_false, any_broadcast]
      exact hb hsound
    · have hsame := (hstop.resolve_left fun h => (refused_type href).2 h.1).2
      refine ⟨fun os hos => ?_, fun _ => hpcb ▸ hsame⟩
      exact absurd ((hlist os (.inr ⟨href, (refused_type href).1⟩)).1 hos).1 (refused_type href).2

def padded : Window Byte := ⟨fun i => [0, 1, 4, 255, 255, 255, 0, 255].getD (i - 240) 0, 248⟩

def noPcb : Pcb := ⟨⟨0, 0, 0, 0⟩, 0, 0, 0, 0, 0⟩

/-- The type of the netmask is taken for the size of the padding, and the netmask is not set. -/
theorem netmask_skipped : (∃ r, dhcpParseOption (fun _ => 0) padded noPcb = .ok r ∧ r.success = true ∧ r.pcb.netif.netmask = 0) ∧
    ¬ ∀ expire w pcb, Parses expire w pcb := by
  have ha : Accepts padded.len padded.mem options :=
    ⟨by decide, fun h => absurd h (by decide), fun h => absurd h (by decide), fun h => absurd h (by decide), fun h => absurd h (by decide)⟩
  have hs : Steps padded.len padded.mem options [options] 243 := .cons (by decide) ha .nil
  obtain ⟨r, hr, hplaces, hres⟩ := parse_exists (fun _ => 0) noPcb hs (by decide) (.inl (by decide))
  constructor
  · rcases hres with ⟨-, hsucc, hpcb⟩ | ⟨href, -⟩
    · exact ⟨r, hr, hsucc, by rw [hpcb]; rfl⟩
    · exact absurd (by decide) (refused_type href).2
  · intro hall
    obtain ⟨r', hr', hchain, -⟩ := hall (fun _ => 0) padded noPcb
    cases hr.symm.trans hr'
    rw [hplaces] at hchain
    exact absurd (hs.chain.1 hchain options (List.mem_singleton_self _)) (by decide)

end Onix.Dhcp
