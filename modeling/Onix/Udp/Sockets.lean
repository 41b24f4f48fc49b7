/-
The calls lead from sockets to sockets: a call keeps the list of the pcbs, and only `udp_connect` gives a pcb a peer. What TCP does leaves
the UDP sockets alone.
-/
import Onix.Udp.Model

namespace Onix.Udp

open Function Onix.Lib
open Onix.Port

/-- What a call may make of a socket that stays open: without a connection its peer is what it was. -/
def Kept : Option UdpPcb → Option UdpPcb → Prop
  | none, none => True
  | some u, some v => v.connected = false → u.connected = false ∧ v.ends.raddr = u.ends.raddr ∧ v.ends.rport = u.ends.rport
  | _, _ => False

variable {s t : Sys} {a : Act} {k i j : Nat} {u : UdpPcb} {map : PortMap}
variable {addr : Tcp.IpAddr} {port : Number}

theorem Kept.refl : ∀ o : Option UdpPcb, Kept o o
  | none => trivial
  | some _ => fun h => ⟨h, rfl, rfl⟩

theorem Kept.isSome : ∀ {o o' : Option UdpPcb}, Kept o o' → (o' ≠ none ↔ o ≠ none)
  | none, none, _ => Iff.rfl
  | some _, some _, _ => iff_of_true nofun nofun

theorem kept_set {v : UdpPcb} (hk : s.udp k = some u) (hv : Kept (some u) (some v)) (j : Nat) :
    Kept (s.udp j) ((Sys.setUdp { s with udpMap := map } k v).udp j) := by
  unfold Sys.setUdp
  by_cases hj : j = k
  · rw [hj, hk]
    simpa using hv
  · simpa [update_of_ne hj] using Kept.refl (s.udp j)

theorem ofUdp_ok (h : s.ofUdp k = .ok u) : s.udp k = some u := by
  unfold Sys.ofUdp at h
  split at h
  · cases h
    assumption
  · cases h

theorem udpBind_kept (h : udpBind s k addr port = .ok t) (j : Nat) : Kept (s.udp j) (t.udp j) := by
  obtain ⟨u, hu, h⟩ := bind_ok h
  have hu := ofUdp_ok hu
  split at h
  · cases h
    exact .refl _
  · obtain ⟨⟨ret, map⟩, -, h⟩ := bind_ok h
    dsimp only at h
    split at h
    · cases h
      apply kept_set hu
      exact fun h => ⟨h, rfl, rfl⟩
    · cases h
      apply kept_set hu
      exact fun h => ⟨h, rfl, rfl⟩

theorem udpConnect_kept (h : udpConnect s k addr port = .ok t) (j : Nat) :
    Kept (s.udp j) (t.udp j) := by
  obtain ⟨u, hu, h⟩ := bind_ok h
  have hu := ofUdp_ok hu
  dsimp only at h
  split at h
  · obtain ⟨⟨ret, map⟩, -, h⟩ := bind_ok h
    cases h
    apply kept_set hu
    exact nofun
  · cases h
    refine @kept_set s k u s.udpMap _ hu ?_ j
    exact nofun

theorem udpSendmsg_kept (h : Port.udpSendmsg s k = .ok t) (j : Nat) : Kept (s.udp j) (t.udp j) := by
  obtain ⟨u, -, h⟩ := bind_ok h
  split at h
  · exact udpBind_kept h j
  · cases h
    exact .refl _

theorem udpClose_udp (h : udpClose s k = .ok t) : t.udp = update s.udp k none := by
  obtain ⟨u, -, h⟩ := bind_ok h
  split at h
  · obtain ⟨map, -, h⟩ := bind_ok h
    cases h
    rfl
  · cases h
    rfl

/-! ## TCP -/

theorem tcpPcbPut_udp (h : tcpPcbPut s i = .ok t) : t.udp = s.udp := by
  obtain ⟨n, -, h⟩ := bind_ok h
  split at h
  · obtain ⟨map, -, h⟩ := bind_ok h
    cases h
    rfl
  · cases h
    rfl

theorem tcpClose_udp (h : tcpClose s k = .ok t) : t.udp = s.udp := by
  obtain ⟨i, -, h⟩ := bind_ok h
  obtain ⟨n, -, h⟩ := bind_ok h
  split at h
  · exact (tcpPcbPut_udp h).trans rfl
  · exact (tcpPcbPut_udp h).trans rfl
  · exact (tcpPcbPut_udp h).trans rfl
  · cases h
    rfl
  · cases h
    rfl
  · cases h
    rfl
  · cases h
    rfl

theorem tcpListen_udp (h : tcpListen s k = .ok t) : t.udp = s.udp := by
  obtain ⟨i, -, h⟩ := bind_ok h
  obtain ⟨n, -, h⟩ := bind_ok h
  split at h
  · cases h
    rfl
  · cases h
    rfl

theorem tcpBind_udp (h : tcpBind s k addr port = .ok t) : t.udp = s.udp := by
  unfold tcpBind at h
  split at h
  · cases h
    rfl
  · obtain ⟨⟨ret, map⟩, -, h⟩ := bind_ok h
    dsimp only at h
    split at h
    · cases h
      rfl
    · split at h
      · cases h
        rfl
      · obtain ⟨i, -, h⟩ := bind_ok h
        obtain ⟨n, -, h⟩ := bind_ok h
        cases h
        rfl

theorem tcpConnect_udp (h : tcpConnect s k addr port = .ok t) : t.udp = s.udp := by
  obtain ⟨i, -, h⟩ := bind_ok h
  obtain ⟨n, -, h⟩ := bind_ok h
  split at h
  · cases h
    rfl
  · split at h
    · cases h
      rfl
    · dsimp only at h
      split at h
      · obtain ⟨⟨ret, map⟩, -, h⟩ := bind_ok h
        cases h
        rfl
      · cases h
        rfl

theorem tcpHandleListen_udp {laddr raddr : Tcp.IpAddr} {rport : Number} (h : tcpHandleListen s i j laddr raddr rport = .ok t) :
    t.udp = s.udp := by
  obtain ⟨n, -, h⟩ := bind_ok h
  cases h
  rfl

theorem progress_udp {state : Tcp.TcpState} (h : progress s i state = .ok t) : t.udp = s.udp := by
  obtain ⟨n, -, h⟩ := bind_ok h
  cases h
  split <;> rfl

/-! ## The calls -/

def relist (list : List Nat) : Act → List Nat
  | .udpSocket k => k :: list
  | .udpClose k => list.erase k
  | _ => list

theorem step_cases (h : step s a = .ok t) (list : List Nat) :
    (∃ k, a = .udpSocket k ∧ t.udp = update s.udp k (some ⟨⟨0, 0, 0, 0⟩, false⟩)) ∨
      (∃ k, a = .udpClose k ∧ t.udp = update s.udp k none) ∨ relist list a = list ∧ ∀ j, Kept (s.udp j) (t.udp j) := by
  have hsame : t.udp = s.udp → ∀ j, Kept (s.udp j) (t.udp j) := fun he j => by
    rw [he]
    exact .refl _
  cases a with
  | udpSocket k =>
    cases h
    exact .inl ⟨k, rfl, rfl⟩
  | udpClose k => exact .inr (.inl ⟨k, rfl, udpClose_udp h⟩)
  | udpBind k addr port => exact .inr (.inr ⟨rfl, udpBind_kept h⟩)
  | udpConnect k addr port => exact .inr (.inr ⟨rfl, udpConnect_kept h⟩)
  | udpSend k => exact .inr (.inr ⟨rfl, udpSendmsg_kept h⟩)
  | tcpSocket k new =>
    cases h
    exact .inr (.inr ⟨rfl, hsame rfl⟩)
  | tcpBind k addr port => exact .inr (.inr ⟨rfl, hsame (tcpBind_udp h)⟩)
  | tcpConnect k addr port => exact .inr (.inr ⟨rfl, hsame (tcpConnect_udp h)⟩)
  | tcpListen k => exact .inr (.inr ⟨rfl, hsame (tcpListen_udp h)⟩)
  | tcpAccept k ns i j =>
    cases h
    exact .inr (.inr ⟨rfl, hsame rfl⟩)
  | tcpClose k => exact .inr (.inr ⟨rfl, hsame (tcpClose_udp h)⟩)
  | arrive i new laddr raddr rport => exact .inr (.inr ⟨rfl, hsame (tcpHandleListen_udp h)⟩)
  | progress i state => exact .inr (.inr ⟨rfl, hsame (progress_udp h)⟩)
  | put i => exact .inr (.inr ⟨rfl, hsame (tcpPcbPut_udp h)⟩)

theorem relist_listed {list : List Nat} (hl : ∀ k, k ∈ list ↔ s.udp k ≠ none) (hn : list.Nodup) (he : enabled s a)
    (h : step s a = .ok t) : (∀ k, k ∈ relist list a ↔ t.udp k ≠ none) ∧ (relist list a).Nodup := by
  rcases step_cases h list with ⟨k, rfl, hu⟩ | ⟨k, rfl, hu⟩ | ⟨hr, hk⟩
  · have he : s.udp k = none := he
    refine ⟨fun j => ?_, List.nodup_cons.2 ⟨fun hm => (hl k).1 hm he, hn⟩⟩
    rw [hu]
    by_cases hj : j = k
    · simp [relist, hj]
    · simp [relist, hj, hl]
  · refine ⟨fun j => ?_, hn.erase k⟩
    rw [hu]
    by_cases hj : j = k
    · simp [relist, hj, hn.mem_erase_iff]
    · simp [relist, hj, hn.mem_erase_iff, hl]
  · rw [hr]
    exact ⟨fun j => (hl j).trans (hk j).isSome.symm, hn⟩

theorem step_unset (hs : ∀ k u, s.udp k = some u → u.connected = false → u.ends.raddr = 0 ∧ u.ends.rport = 0) (h : step s a = .ok t) :
    ∀ k u, t.udp k = some u → u.connected = false → u.ends.raddr = 0 ∧ u.ends.rport = 0 := by
  intro j v hv hc
  have hother : ∀ {k : Nat} {o : Option UdpPcb}, t.udp = update s.udp k o → j ≠ k → v.ends.raddr = 0 ∧ v.ends.rport = 0 := by
    intro k o hu hj
    rw [hu, update_of_ne hj] at hv
    exact hs j v hv hc
  rcases step_cases h [] with ⟨k, -, hu⟩ | ⟨k, -, hu⟩ | ⟨-, hk⟩
  · by_cases hj : j = k
    · rw [hu, hj, update_self] at hv
      cases hv
      exact ⟨rfl, rfl⟩
    · exact hother hu hj
  · by_cases hj : j = k
    · rw [hu, hj, update_self] at hv
      cases hv
    · exact hother hu hj
  · have hj := hk j
    rw [hv] at hj
    cases hu : s.udp j with
    | none =>
      rw [hu] at hj
      exact hj.elim
    | some u =>
      rw [hu] at hj
      obtain ⟨hc, hr, hp⟩ := hj hc
      rw [hr, hp]
      exact hs j u hu hc

def Host.call (h : Host) (a : Act) (he : enabled h.ports a) : Except Port.Fault Host :=
  match hs : step h.ports a with
  | .error e => .error e
  | .ok t => .ok ⟨t, relist h.list a, h.netifs, (relist_listed h.listed h.nodup he hs).1, (relist_listed h.listed h.nodup he hs).2,
      step_unset h.unset hs⟩

def Host.boot (own : List Tcp.IpAddr) (netifs : List Netif) : Host where
  ports := ⟨own, fun _ => false, fun _ => none, fun _ => false, fun _ => none, fun _ => none, fun _ => []⟩
  list := []
  netifs := netifs
  listed _ := iff_of_false nofun (not_not_intro rfl)
  nodup := List.nodup_nil
  unset _ _ h := nomatch h

def Host.socket (h : Host) (k : Nat) (hk : h.ports.udp k = none) : Host :=
  have hl := relist_listed (a := .udpSocket k) h.listed h.nodup hk rfl
  ⟨udpSocket h.ports k, relist h.list (.udpSocket k), h.netifs, hl.1, hl.2, step_unset (a := .udpSocket k) h.unset rfl⟩

theorem Host.call_socket (h : Host) (hk : h.ports.udp k = none) : h.call (.udpSocket k) hk = .ok (h.socket k hk) := rfl

end Onix.Udp
