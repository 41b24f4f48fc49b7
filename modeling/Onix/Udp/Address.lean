/-
Where datagrams go. `udp_output` looks at the destination it was given and sends to the peer of the socket all the same; the checksum is
made for the address the socket is bound to, the header has that of the interface; and `find_udp_pcb` compares the port of a peer that a
socket does not have.
-/
import Onix.Udp.Sockets

namespace Onix.Udp

open List Onix.Lib
open Onix.Checksum
open Onix.Port (UdpPcb Number Sys PortMap portLoop portGet)
open Onix.Tcp (IpAddr ipAddrIsany ipAddrCmp Header Local Full)

/-! ## Sending -/

def Packet.Valid (p : Packet) : Prop :=
  p.netif.udpTxOffload = true ∨ inetChksum p.udp.bytes (BitVec.ofNat 16 p.udp.bytes.length) p.src p.dst (p.proto.setWidth 16) = 0

def SendsRight (h : Host) (k : Nat) (msg : Msg) : Prop :=
  ∀ u arp ret p, h.ports.udp k = some u → udpSendmsg h arp k msg = .ok (ret, some p) →
    (p.dst, p.udp.dport) = Prod.map id htons (msg.name.getD (u.ends.raddr, u.ends.rport)) ∧ p.Valid

def target (u : UdpPcb) (msg : Msg) : IpAddr := (msg.name.map Prod.fst).getD u.ends.raddr

def targetPort (u : UdpPcb) (msg : Msg) : Number :=
  if (msg.name.map Prod.snd).getD 0 = 0 then u.ends.rport else (msg.name.map Prod.snd).getD 0

/-- The message is sent through `netif`: it is short enough, there is a port for the socket, the destination is set and no broadcast. -/
structure Sendable (h : Host) (u : UdpPcb) (msg : Msg) (netif : Netif) : Prop where
  short : (iovecSize msg.iov).toNat ≤ 1472
  port : u.ends.lport = 0 → ∃ p, h.ports.udpMap p = false
  route : netifRoute h.netifs (target u msg) = some netif
  addr : target u msg ≠ 0
  dport : targetPort u msg ≠ 0
  single : Net.ipAddrIsbroadcast (target u msg) netif.netmask = false

def SameSum (a b : IpAddr) : Prop := a.toNat ≡ b.toNat [MOD 65535]

/-- When a message is sent at all, its destination is the peer, with a port, and the socket has no address of its own, or one that adds the
same to a checksum as that of the interface. -/
def SendsWhen (h : Host) (k : Nat) (msg : Msg) : Prop :=
  ∀ u netif, h.ports.udp k = some u → Sendable h u msg netif →
    (∀ addr port, msg.name = some (addr, port) → addr = u.ends.raddr ∧ port ≠ 0) ∧
      (netif.udpTxOffload = true ∨ u.ends.lport = 0 ∨ u.ends.laddr = 0 ∨ SameSum u.ends.laddr netif.ipaddr)

variable {h : Host} {k : Nat} {msg : Msg} {u v : UdpPcb} {netif : Netif} {netifs : List Netif} {p : Packet} {s : Sys} {m : PortMap}
  {payload : List (BitVec 8)} {len : Number}

/-! ### The checksum -/

theorem pseudo_sum (len : BitVec 16) (dst src : IpAddr) (proto : BitVec 16) : (pseudo len dst src proto).sum =
    (dst.toNat % 65536 + dst.toNat / 65536) + ((src.toNat % 65536 + src.toNat / 65536) + (htons proto).toNat + (htons len).toNat) := by
  simp [pseudo, Nat.add_assoc]

theorem halves_mod (a : IpAddr) : a.toNat % 65536 + a.toNat / 65536 ≡ a.toNat [MOD 65535] := by
  calc a.toNat % 65536 + a.toNat / 65536 ≡ a.toNat % 65536 + a.toNat / 65536 + 65535 * (a.toNat / 65536) [MOD 65535] :=
        Nat.modEq_add_modulus_mul_iff.2 rfl
    _ = a.toNat := by omega

theorem length_field (w : BitVec 16) (before after : List (BitVec 8)) : (field w before after).length = before.length + 2 + after.length := by
  simp [field]
  omega

theorem inetChksum_other (before after : List (BitVec 8)) (a b x : IpAddr) (heven : before.length % 2 = 0) (hlen : before.length + 2 + after.length ≤ 65535) :
    inetChksum (field (inetChksum (field 0 before after) (BitVec.ofNat 16 (before.length + 2 + after.length)) a x 17) before after)
      (BitVec.ofNat 16 (before.length + 2 + after.length)) b x 17 = 0 ↔ SameSum b a := by
  have hl : ∀ w, before.length + 2 + after.length = (field w before after).length := fun w => (length_field w before after).symm
  let n (c : IpAddr) : Nat := (pseudo (BitVec.ofNat 16 (before.length + 2 + after.length)) c x 17).sum + (words before).sum + (words after).sum
  have hsum : ∀ w c, (inetSum (field w before after) (BitVec.ofNat 16 (before.length + 2 + after.length)) c x 17).val.toNat =
      reduce 65535 (n c + w.toNat) := fun w c => by
    rw [hl w, (inetSum_spec (hl w ▸ hlen) c x 17).2, words_field w heven, ← hl w]
    dsimp only [n]
    congr 1
    omega
  have h0 : (0 : BitVec 16).toNat = 0 := rfl
  have hle : ∀ w, reduce 65535 w ≤ 65535 := reduce_le (by decide)
  have hnot : (inetChksum (field 0 before after) (BitVec.ofNat 16 (before.length + 2 + after.length)) a x 17).toNat =
      65535 - reduce 65535 (n a) := by
    have := hle (n a)
    unfold inetChksum
    rw [BitVec.toNat_not, BitVec.toNat_setWidth, hsum 0 a, h0, Nat.add_zero]
    omega
  have hzero : ∀ S : Sum, S.val.toNat ≤ 65535 → (~~~(S.val.setWidth 16) = 0 ↔ S.val.toNat = 65535) := fun S hS => by
    rw [← BitVec.toNat_inj, BitVec.toNat_not, BitVec.toNat_setWidth, h0]
    omega
  have hpos : n b ≠ 0 := by
    have h17 : (htons 17).toNat = 4352 := by decide
    have := pseudo_sum (BitVec.ofNat 16 (before.length + 2 + after.length)) b x 17
    dsimp only [n]
    omega
  unfold inetChksum at hnot ⊢
  rw [hzero _ (by rw [hsum]; exact hle _), hsum, hnot, complement_fits (by decide) hpos]
  dsimp only [n]
  rw [pseudo_sum, pseudo_sum]
  unfold SameSum
  have ha := halves_mod a
  have hb := halves_mod b
  unfold Nat.ModEq at ha hb ⊢
  omega

/-! ### The socket gets a port -/

theorem portLoop_ok : ∀ (n : Nat) (p : Number) (i : Nat), i < n → m (p + BitVec.ofNat 16 i) = false → ∃ r, portLoop m n p = .ok r
  | n + 1, p, i, hi, hf => by
    unfold portLoop
    cases hm : m p with
    | false => exact ⟨p + 1, rfl⟩
    | true =>
      cases i with
      | zero =>
        have hf : m p = false := (BitVec.add_zero p) ▸ hf
        rw [hf] at hm
        cases hm
      | succ i =>
        refine portLoop_ok n (p + 1) i (by omega) (hf ▸ congrArg m ?_)
        rw [BitVec.add_assoc, BitVec.ofNat_add, BitVec.add_comm (BitVec.ofNat 16 i)]
        rfl

theorem portGet_free : (∃ p, m p = false) ↔ ∃ r, portGet m 0 = .ok r := by
  unfold portGet
  constructor
  · rintro ⟨p, hp⟩
    have hback : 4096 + BitVec.ofNat 16 (p - 4096).toNat = p := by
      rw [BitVec.ofNat_toNat, BitVec.setWidth_eq, BitVec.add_comm]
      exact BitVec.sub_add_cancel _ _
    obtain ⟨r, hr⟩ := portLoop_ok (2 ^ 16) 4096 (p - 4096).toNat (p - 4096).isLt (hback.symm ▸ hp)
    exact ⟨_, by rw [hr]; rfl⟩
  · rintro ⟨r, hr⟩
    obtain ⟨l, hl, -⟩ := bind_ok hr
    obtain ⟨i, -, hf, -⟩ := Port.portLoop_spec _ _ _ hl
    exact ⟨_, hf⟩

theorem sendmsg_bound (hu : s.udp k = some u) (hp : u.ends.lport = 0 → ∃ p, s.udpMap p = false) :
    ∃ t v, Port.udpSendmsg s k = .ok t ∧ t.ofUdp k = .ok v ∧ v.ends.raddr = u.ends.raddr ∧ v.ends.rport = u.ends.rport ∧
      v.ends.laddr = if u.ends.lport = 0 then 0 else u.ends.laddr := by
  have hof : s.ofUdp k = .ok u := by
    unfold Sys.ofUdp
    rw [hu]
  unfold Port.udpSendmsg
  rw [hof]
  by_cases h0 : u.ends.lport = 0
  · obtain ⟨⟨ret, m'⟩, hr⟩ := portGet_free.1 (hp h0)
    have hret : ¬ ret < 0 := by
      rcases Port.portGet_spec hr with ⟨-, hne, -⟩ | ⟨l, -, hl, -⟩
      · exact absurd rfl hne
      · omega
    let v : UdpPcb := ⟨⟨0, BitVec.ofInt 16 ret, u.ends.raddr, u.ends.rport⟩, u.connected⟩
    refine ⟨Sys.setUdp { s with udpMap := m' } k v, v, ?_, ?_, rfl, rfl, (if_pos h0).symm⟩
    · show (if u.ends.lport = 0 then Port.udpBind s k 0 0 else pure s) = _
      rw [if_pos h0]
      unfold Port.udpBind
      rw [hof]
      show (if ¬ s.addrOk 0 = true then pure s else _) = _
      rw [if_neg (by simp [Sys.addrOk, ipAddrIsany]), hr]
      show (if ret < 0 then _ else _) = _
      rw [if_neg hret]
      rfl
    · simp [Sys.ofUdp, Sys.setUdp]
  · refine ⟨s, u, ?_, hof, rfl, rfl, (if_neg h0).symm⟩
    show (if u.ends.lport = 0 then Port.udpBind s k 0 0 else pure s) = _
    rw [if_neg h0]
    rfl

theorem bound_free {t : Sys} (hu : s.udp k = some u) (h : Port.udpSendmsg s k = .ok t) (h0 : u.ends.lport = 0) : ∃ p, s.udpMap p = false := by
  obtain ⟨v, hv, h⟩ := bind_ok h
  cases (ofUdp_ok hv).symm.trans hu
  rw [if_pos h0] at h
  obtain ⟨v, -, h⟩ := bind_ok h
  obtain ⟨r, hr, -⟩ := bind_ok h
  exact portGet_free.2 ⟨r, hr⟩

/-! ### The packet -/

theorem isany_iff {a : IpAddr} : ipAddrIsany a = true ↔ a = 0 := by
  exact decide_eq_true_iff

theorem output_ok : udpOutput netif u payload (msg.name.map Prod.fst) ((msg.name.map Prod.snd).getD 0) len = .ok p ↔ target u msg ≠ 0 ∧
    targetPort u msg ≠ 0 ∧ Net.ipAddrIsbroadcast (target u msg) netif.netmask = false ∧ p = udpPacket netif u payload (targetPort u msg) len := by
  have hout : udpOutput netif u payload (msg.name.map Prod.fst) ((msg.name.map Prod.snd).getD 0) len =
      if ipAddrIsany (target u msg) then .error (-EADDR) else if targetPort u msg = 0 then .error (-ENOTCONN)
      else if Net.ipAddrIsbroadcast (target u msg) netif.netmask then .error (-EACCES) else .ok (udpPacket netif u payload (targetPort u msg) len) := rfl
  rw [hout]
  by_cases h1 : target u msg = 0
  · simp [h1, ipAddrIsany]
  · rw [if_neg fun h => h1 (isany_iff.1 h)]
    by_cases h2 : targetPort u msg = 0
    · simp [h2]
    · rw [if_neg h2]
      by_cases h3 : Net.ipAddrIsbroadcast (target u msg) netif.netmask = true
      · simp [h3]
      · rw [if_neg h3, Except.ok.injEq]
        exact ⟨fun h => ⟨h1, h2, Bool.not_eq_true _ ▸ h3, h.symm⟩, fun h => h.2.2.2.symm⟩

theorem send_ok : send netifs u msg payload = .ok (.ok p) ↔ ∃ netif, netifRoute netifs (target u msg) = some netif ∧ target u msg ≠ 0 ∧
    targetPort u msg ≠ 0 ∧ Net.ipAddrIsbroadcast (target u msg) netif.netmask = false ∧
      p = udpPacket netif u payload (targetPort u msg) (BitVec.ofNat 16 payload.length) := by
  have hsend : ∀ r, netifRoute netifs (target u msg) = r → send netifs u msg payload = r.elim (.error .null) fun netif =>
      .ok (udpOutput netif u payload (msg.name.map Prod.fst) ((msg.name.map Prod.snd).getD 0) (BitVec.ofNat 16 payload.length)) := by
    rintro _ rfl
    unfold send target
    cases msg.name with
    | none =>
      dsimp only [Option.map, Option.getD]
      cases netifRoute netifs u.ends.raddr <;> rfl
    | some a =>
      dsimp only [Option.map, Option.getD]
      cases netifRoute netifs a.1 <;> rfl
  rw [hsend _ rfl]
  cases netifRoute netifs (target u msg) with
  | none => simp
  | some netif =>
    constructor
    · intro h
      exact ⟨netif, rfl, output_ok.1 (Except.ok.inj h)⟩
    · rintro ⟨_, hn, h⟩
      cases hn
      exact congrArg Except.ok (output_ok.2 h)

def content (msg : Msg) : List (BitVec 8) := iovecRead msg.iov (iovecSize msg.iov).toNat

theorem Sendable.sends (hs : Sendable h u msg netif) (hu : h.ports.udp k = some u) :
    ∃ v, v.ends.raddr = u.ends.raddr ∧ v.ends.rport = u.ends.rport ∧ v.ends.laddr = (if u.ends.lport = 0 then 0 else u.ends.laddr) ∧
      ∀ arp, ∃ ret, udpSendmsg h arp k msg =
        .ok (ret, some (udpPacket netif v (content msg) (targetPort u msg) (BitVec.ofNat 16 (content msg).length))) := by
  obtain ⟨t, v, ht, hv, hr, hp, hl⟩ := sendmsg_bound hu hs.port
  have htarget : target v msg = target u msg := by
    unfold target
    rw [hr]
  have hport : targetPort v msg = targetPort u msg := by
    unfold targetPort
    rw [hp]
  have hsend : send h.netifs v msg (content msg) = .ok (.ok (udpPacket netif v (content msg) (targetPort v msg) (BitVec.ofNat 16 (content msg).length))) :=
    send_ok.2 ⟨netif, htarget ▸ hs.route, htarget ▸ hs.addr, hport ▸ hs.dport, htarget ▸ hs.single, rfl⟩
  rw [hport] at hsend
  refine ⟨v, hr, hp, hl, fun arp => ?_⟩
  unfold udpSendmsg
  rw [ht, if_neg (Nat.not_lt.2 hs.short)]
  show ∃ ret, ((t.ofUdp k).mapError Fault.port >>= _) = _
  rw [hv]
  show ∃ ret, (send h.netifs v msg (content msg) >>= _) = _
  rw [hsend]
  exact ⟨_, rfl⟩

theorem sendable_of_sent {arp : Packet → Int} {ret : Int} (hu : h.ports.udp k = some u) (hs : udpSendmsg h arp k msg = .ok (ret, some p)) :
    ∃ netif, Sendable h u msg netif := by
  unfold udpSendmsg at hs
  dsimp only at hs
  split at hs
  · cases hs
  · rename_i hsize
    obtain ⟨t, ht, hs⟩ := bind_ok hs
    obtain ⟨v, hv, hs⟩ := bind_ok hs
    obtain ⟨r, hr, hs⟩ := bind_ok hs
    have ht : Port.udpSendmsg h.ports k = .ok t := by
      cases h' : Port.udpSendmsg h.ports k with
      | error e =>
        rw [h'] at ht
        cases ht
      | ok t' =>
        rw [h'] at ht
        cases ht
        rfl
    have hfree := bound_free hu ht
    obtain ⟨t', v', ht', hv', hraddr, hrport, -⟩ := sendmsg_bound hu hfree
    cases ht.symm.trans ht'
    rw [hv'] at hv
    cases hv
    cases r with
    | error e => cases hs
    | ok p' =>
      obtain ⟨netif, h1, h2, h3, h4, -⟩ := send_ok.1 hr
      have htarget : target v msg = target u msg := by
        unfold target
        rw [hraddr]
      have hport : targetPort v msg = targetPort u msg := by
        unfold targetPort
        rw [hrport]
      exact ⟨netif, Nat.not_lt.1 hsize, hfree, htarget ▸ h1, htarget ▸ h2, hport ▸ h3, htarget ▸ h4⟩

theorem packet_valid (dport : Number) (hlen : payload.length ≤ 1472) : (udpPacket netif v payload dport (BitVec.ofNat 16 payload.length)).Valid ↔
    netif.udpTxOffload = true ∨ v.ends.laddr = 0 ∨ SameSum v.ends.laddr netif.ipaddr := by
  unfold Packet.Valid udpPacket ipOutput
  dsimp only
  by_cases hoff : netif.udpTxOffload = true
  · exact iff_of_true (.inl hoff) (.inl hoff)
  · rw [if_neg hoff]
    rw [or_iff_right hoff, or_iff_right hoff]
    have hbytes : ∀ c : BitVec 16, Datagram.bytes ⟨htons v.ends.lport, htons dport, htons (BitVec.ofNat 16 payload.length + 8), c, payload⟩ =
        field c (bytes16 (htons v.ends.lport) ++ bytes16 (htons dport) ++ bytes16 (htons (BitVec.ofNat 16 payload.length + 8))) payload := fun _ => rfl
    have hsix : ∀ a b c : BitVec 16, (bytes16 a ++ bytes16 b ++ bytes16 c).length = 6 := fun _ _ _ => rfl
    have hl : BitVec.ofNat 16 payload.length + 8 = BitVec.ofNat 16 (6 + 2 + payload.length) := by
      rw [Nat.add_comm, BitVec.ofNat_add]
      rfl
    have hfit := inetChksum_other (bytes16 (htons v.ends.lport) ++ bytes16 (htons dport) ++
      bytes16 (htons (BitVec.ofNat 16 payload.length + 8))) payload (if ipAddrIsany v.ends.laddr then netif.ipaddr else v.ends.laddr)
      netif.ipaddr v.ends.raddr (by rw [hsix])
      (by rw [hsix]; omega)
    rw [hsix, ← hl] at hfit
    have hlength : ∀ c, (field c (bytes16 (htons v.ends.lport) ++ bytes16 (htons dport) ++
        bytes16 (htons (BitVec.ofNat 16 payload.length + 8))) payload).length = 6 + 2 + payload.length := fun c => by
      rw [length_field, hsix]
    rw [hbytes, hbytes, hlength, ← hl]
    refine Iff.trans hfit ?_
    by_cases h0 : v.ends.laddr = 0
    · rw [if_pos (isany_iff.2 h0)]
      exact iff_of_true rfl (.inl h0)
    · rw [if_neg fun h => h0 (isany_iff.1 h)]
      exact ⟨fun h => .inr h.symm, fun h => (h.resolve_left h0).symm⟩

theorem length_iovecRead : ∀ (iov : List (List (BitVec 8))) (count : Nat), (iovecRead iov count).length ≤ count
  | [], _ => Nat.zero_le _
  | v :: iov, count => by
    unfold iovecRead
    split
    · exact Nat.zero_le _
    · have := length_iovecRead iov (count - v.length)
      rw [length_append, length_take]
      omega

theorem htons_inj {a b : BitVec 16} (h : htons a = htons b) : a = b := by
  have hback : ∀ v : BitVec 16, htons (htons v) = v := fun v => by
    unfold htons
    apply BitVec.eq_of_getLsbD_eq
    intro i hi
    rw [BitVec.getLsbD_or, BitVec.getLsbD_shiftLeft, BitVec.getLsbD_ushiftRight, BitVec.getLsbD_or, BitVec.getLsbD_or,
      BitVec.getLsbD_shiftLeft, BitVec.getLsbD_shiftLeft, BitVec.getLsbD_ushiftRight, BitVec.getLsbD_ushiftRight]
    have hout : v.getLsbD (8 + (8 + i)) = false := BitVec.getLsbD_of_ge v _ (by omega)
    by_cases h8 : i < 8
    · have h1 : ¬ 8 + i < 8 := by omega
      have h2 : 8 + i < 16 := by omega
      simp [h8, h1, h2, hout]
    · have h1 : i - 8 < 8 := by omega
      have h2 : 8 + (i - 8) = i := by omega
      have h3 : ¬ 8 + i < 16 := by omega
      simp [h8, hi, h1, h2, h3, hout]
  calc a = htons (htons a) := (hback a).symm
    _ = htons (htons b) := congrArg htons h
    _ = b := hback b

theorem sends_iff (h : Host) (k : Nat) (msg : Msg) : SendsRight h k msg ↔ SendsWhen h k msg := by
  have hshort : ∀ u netif, Sendable h u msg netif → (content msg).length ≤ 1472 := fun u netif hs =>
    Nat.le_trans (length_iovecRead _ _) hs.short
  constructor
  · intro hr u netif hu hs
    obtain ⟨v, hraddr, hrport, hladdr, hsend⟩ := hs.sends hu
    obtain ⟨ret, hret⟩ := hsend fun _ => 0
    obtain ⟨hdst, hvalid⟩ := hr u _ ret _ hu hret
    constructor
    · intro addr port hname
      rw [hname] at hdst
      obtain ⟨h1, h2⟩ := Prod.mk.inj hdst
      refine ⟨h1.symm.trans hraddr, fun h0 => ?_⟩
      -- with no port given it goes to the port of the peer, which is none either
      have hport : targetPort u msg = 0 := by
        rw [htons_inj h2]
        exact h0
      exact hs.dport hport
    · rw [packet_valid _ (hshort u netif hs), hladdr] at hvalid
      rcases hvalid with hoff | h0 | hsum
      · exact .inl hoff
      · by_cases hl : u.ends.lport = 0
        · exact .inr (.inl hl)
        · rw [if_neg hl] at h0
          exact .inr (.inr (.inl h0))
      · by_cases hl : u.ends.lport = 0
        · exact .inr (.inl hl)
        · rw [if_neg hl] at hsum
          exact .inr (.inr (.inr hsum))
  · intro hw u arp ret p hu hp
    obtain ⟨netif, hs⟩ := sendable_of_sent hu hp
    obtain ⟨hname, hsum⟩ := hw u netif hu hs
    obtain ⟨v, hraddr, hrport, hladdr, hsend⟩ := hs.sends hu
    obtain ⟨ret', hret⟩ := hsend arp
    cases hp.symm.trans hret
    constructor
    · cases hm : msg.name with
      | none =>
        have hport : targetPort u msg = u.ends.rport := by
          unfold targetPort
          rw [hm]
          exact if_pos rfl
        rw [hport]
        exact Prod.ext hraddr rfl
      | some n =>
        obtain ⟨addr, port⟩ := n
        obtain ⟨rfl, h0⟩ := hname addr port hm
        have hport : targetPort u msg = port := by
          unfold targetPort
          rw [hm]
          exact if_neg h0
        rw [hport]
        exact Prod.ext hraddr rfl
    · rw [packet_valid _ (hshort u netif hs), hladdr]
      rcases hsum with hoff | hl | h0 | hsum
      · exact .inl hoff
      · exact .inr (.inl (if_pos hl))
      · right
        left
        rw [h0]
        exact ite_self _
      · by_cases hl : u.ends.lport = 0
        · exact .inr (.inl (if_pos hl))
        · rw [if_neg hl]
          exact .inr (.inr hsum)

/-! ## Receiving -/

/-- The socket has the destination of the datagram for its own port, and an address that is not another. -/
def Bound (g : Header) (u : UdpPcb) : Prop := u.ends.lport ≠ 0 ∧ Local g u.ends

def FromPeer (g : Header) (u : UdpPcb) : Prop := u.ends.raddr = g.src ∧ u.ends.rport = g.sport

def Meant (g : Header) (u : UdpPcb) : Prop := Bound g u ∧ (u.connected = true → FromPeer g u)

def DeliversRight (h : Host) (g : Header) : Prop :=
  (∀ k, (udpInput h g).2 = some k → ∃ u, h.ports.udp k = some u ∧ Meant g u) ∧
    ((∃ k u, h.ports.udp k = some u ∧ Meant g u) → (udpInput h g).2 ≠ none)

/-- `find_udp_pcb` may take the socket: its ends are those of the datagram or not set. -/
def Matches (h : Host) (g : Header) (k : Nat) : Prop := ∃ u, h.ports.udp k = some u ∧ Full g u.ends

/-- The first socket that matches has a port, and no peer without an address unless the sender has none either; and when none matches, no
socket without a connection is bound to the destination. -/
def DeliversWhen (h : Host) (g : Header) : Prop :=
  (∀ l k r u, h.list = l ++ k :: r → (∀ j ∈ l, ¬ Matches h g j) → h.ports.udp k = some u → Full g u.ends →
    g.dport ≠ 0 ∧ (u.connected = true → u.ends.raddr = g.src)) ∧
  ((∃ k, Matches h g k) ∨ ∀ k u, h.ports.udp k = some u → Bound g u → u.connected = true)

theorem findIn_cons (udp : Nat → Option UdpPcb) (g : Header) (k : Nat) (rest : List Nat) :
    ((∃ u, udp k = some u ∧ Full g u.ends) → findIn udp g.src g.sport g.dst g.dport (k :: rest) = some k) ∧
      (¬ (∃ u, udp k = some u ∧ Full g u.ends) →
        findIn udp g.src g.sport g.dst g.dport (k :: rest) = findIn udp g.src g.sport g.dst g.dport rest) := by
  rw [findIn]
  cases hu : udp k with
  | none => simp
  | some u =>
    have hraddr : (¬ ipAddrIsany u.ends.raddr = true ∧ ¬ ipAddrCmp u.ends.raddr g.src = true) ↔ ¬ (u.ends.raddr = 0 ∨ u.ends.raddr = g.src) := by
      simp [ipAddrIsany, ipAddrCmp]
    have hladdr : (¬ ipAddrIsany u.ends.laddr = true ∧ ¬ ipAddrCmp u.ends.laddr g.dst = true) ↔ ¬ (u.ends.laddr = 0 ∨ u.ends.laddr = g.dst) := by
      simp [ipAddrIsany, ipAddrCmp]
    dsimp only
    rw [if_congr hraddr rfl rfl, if_congr hladdr rfl rfl]
    constructor
    · rintro ⟨_, hw, ⟨hlport, hl⟩, hrport, hr⟩
      cases hw
      rw [if_neg (not_not_intro hrport), if_neg (not_not_intro hlport), if_neg (not_not_intro hr), if_neg (not_not_intro hl)]
    · intro hno
      split
      · rfl
      · split
        · rfl
        · split
          · rfl
          · split
            · rfl
            · rename_i h1 h2 h3 h4
              exact absurd ⟨u, rfl, ⟨not_not.1 h2, not_not.1 h4⟩, not_not.1 h1, not_not.1 h3⟩ hno

theorem findIn_some {g : Header} {list : List Nat} (hf : findIn h.ports.udp g.src g.sport g.dst g.dport list = some k) :
    ∃ l r, list = l ++ k :: r ∧ (∀ j ∈ l, ¬ Matches h g j) ∧ Matches h g k := by
  induction list with
  | nil => cases hf
  | cons i rest ih =>
    obtain ⟨hyes, hno⟩ := findIn_cons h.ports.udp g i rest
    by_cases hm : Matches h g i
    · rw [hyes hm] at hf
      cases hf
      exact ⟨[], rest, rfl, nofun, hm⟩
    · rw [hno hm] at hf
      obtain ⟨l, r, rfl, hl, hk⟩ := ih hf
      refine ⟨i :: l, r, rfl, ?_, hk⟩
      rintro j hj
      rcases mem_cons.1 hj with rfl | hj
      · exact hm
      · exact hl j hj

theorem findIn_none {g : Header} {list : List Nat} (hf : findIn h.ports.udp g.src g.sport g.dst g.dport list = none) :
    ∀ k ∈ list, ¬ Matches h g k := by
  induction list with
  | nil => exact nofun
  | cons i rest ih =>
    obtain ⟨hyes, hno⟩ := findIn_cons h.ports.udp g i rest
    have hm : ¬ Matches h g i := fun hm => by
      rw [hyes hm] at hf
      cases hf
    rw [hno hm] at hf
    rintro k hk
    rcases mem_cons.1 hk with rfl | hk
    · exact hm
    · exact ih hf k hk

theorem first_found {g : Header} {l r : List Nat} (hl : ∀ j ∈ l, ¬ Matches h g j) (hk : Matches h g k) :
    findIn h.ports.udp g.src g.sport g.dst g.dport (l ++ k :: r) = some k := by
  induction l with
  | nil => exact (findIn_cons h.ports.udp g k r).1 hk
  | cons i l ih =>
    rw [cons_append, (findIn_cons h.ports.udp g i (l ++ k :: r)).2 (hl i (mem_cons_self ..))]
    exact ih fun j hj => hl j (mem_cons_of_mem _ hj)

theorem input_find (h : Host) (g : Header) : (udpInput h g).2 = findIn h.ports.udp g.src g.sport g.dst g.dport h.list := by
  unfold udpInput findUdpPcb
  cases findIn h.ports.udp g.src g.sport g.dst g.dport h.list <;> rfl

theorem delivers_iff (h : Host) (g : Header) : DeliversRight h g ↔ DeliversWhen h g := by
  have hlisted : ∀ k u, h.ports.udp k = some u → k ∈ h.list := fun k u hu => (h.listed k).2 (hu ▸ nofun)
  have hmatch : ∀ k, Matches h g k → findIn h.ports.udp g.src g.sport g.dst g.dport h.list ≠ none := by
    rintro k ⟨u, hu, hf⟩ hn
    exact findIn_none hn k (hlisted k u hu) ⟨u, hu, hf⟩
  unfold DeliversRight
  rw [input_find]
  constructor
  · rintro ⟨hsound, hcomplete⟩
    constructor
    · intro l k r u hsplit hl hu hf
      rw [hsplit, first_found hl ⟨u, hu, hf⟩] at hsound
      obtain ⟨v, hv, hb, hpeer⟩ := hsound k rfl
      cases hu.symm.trans hv
      exact ⟨fun h0 => hb.1 (hb.2.1.trans h0), fun hc => (hpeer hc).1⟩
    · cases hfind : findIn h.ports.udp g.src g.sport g.dst g.dport h.list with
      | none =>
        right
        intro k u hu hb
        by_contra hc
        exact hcomplete ⟨k, u, hu, hb, fun h => absurd h hc⟩ hfind
      | some k =>
        obtain ⟨l, r, -, -, hk⟩ := findIn_some hfind
        exact .inl ⟨k, hk⟩
  · rintro ⟨hfirst, hnone⟩
    constructor
    · intro k hfind
      obtain ⟨l, r, hsplit, hl, u, hu, hf⟩ := findIn_some hfind
      obtain ⟨h0, haddr⟩ := hfirst l k r u hsplit hl hu hf
      exact ⟨u, hu, ⟨fun e => h0 (hf.1.1.symm.trans e), hf.1⟩, fun hc => ⟨haddr hc, hf.2.1⟩⟩
    · rintro ⟨k, u, hu, hb, hpeer⟩
      rcases hnone with ⟨j, hj⟩ | hnone
      · exact hmatch j hj
      · have hp := hpeer (hnone k u hu hb)
        exact hmatch k ⟨u, hu, hb.2, hp.2, .inr hp.1⟩

/-! ## Both -/

/-- Datagrams are sent and delivered with the right addresses exactly so. -/
theorem udp_addressing (h : Host) (k : Nat) (msg : Msg) (g : Header) :
    SendsRight h k msg ∧ DeliversRight h g ↔ SendsWhen h k msg ∧ DeliversWhen h g :=
  and_congr (sends_iff h k msg) (delivers_iff h g)

def opened : Host := (Host.boot [0x0100000A] [⟨1, 0x0100000A, 0x00FFFFFF, false⟩]).socket 0 rfl

def query : Msg := ⟨[[1]], some (0x0200000A, 53)⟩

/-- The message goes to 0.0.0.0. -/
theorem destination_ignored : (∃ ret p, udpSendmsg opened (fun _ => 0) 0 query = .ok (ret, some p) ∧ p.dst = 0) ∧
    ¬ ∀ h k msg g, SendsRight h k msg ∧ DeliversRight h g := by
  have hs : Sendable opened ⟨⟨0, 0, 0, 0⟩, false⟩ query ⟨1, 0x0100000A, 0x00FFFFFF, false⟩ :=
    ⟨by decide, fun _ => ⟨0, rfl⟩, by decide, by decide, by decide, by decide⟩
  obtain ⟨v, hr, -, -, hsend⟩ := hs.sends (k := 0) rfl
  obtain ⟨ret, hret⟩ := hsend fun _ => 0
  refine ⟨⟨ret, _, hret, hr⟩, fun hall => ?_⟩
  have hw := (sends_iff opened 0 query).1 (hall opened 0 query ⟨0, 0, 0, 0⟩).1
  exact absurd ((hw _ _ rfl hs).1 _ _ rfl).1 (by decide)

end Onix.Udp
