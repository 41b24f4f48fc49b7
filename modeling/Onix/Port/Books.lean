/-
The port maps in every run: a bit for each owner. `port_get(0)` has to land on a free port, and no call may
leave a bit without its owner.
-/
import Onix.Port.Model

namespace Onix.Port

open Function Onix.Lib
open Onix.Tcp (IpAddr ipAddrIsany TcpState)
open Onix.Own (Where)

/-! ## The books -/

/-- A bit of the map is set exactly when the port has an owner, and it has one at most. -/
structure Books (m : PortMap) (o : Nat → Option Number) : Prop where
  marked : ∀ l, m l = true ↔ ∃ i, o i = some l
  single : ∀ i j l, o i = some l → o j = some l → i = j

variable {m m' : PortMap} {o : Nat → Option Number} {i : Nat} {l port : Number} {ret : Int}
variable {Q : Sys → Prop}

theorem Books.grant (h : Books m o) (hi : o i = none) (hl : m l = false) :
    Books (update m l true) (update o i (some l)) := by
  have hno : ∀ j, o j ≠ some l := fun j hj => by
    rw [(h.marked l).2 ⟨j, hj⟩] at hl
    cases hl
  constructor
  · intro k
    by_cases hk : k = l
    · subst hk
      rw [update_self]
      exact iff_of_true rfl ⟨i, update_self ..⟩
    · rw [update_of_ne hk, h.marked]
      constructor
      · rintro ⟨j, hj⟩
        have hji : j ≠ i := by
          rintro rfl
          rw [hi] at hj
          cases hj
        exact ⟨j, by rw [update_of_ne hji]; exact hj⟩
      · rintro ⟨j, hj⟩
        by_cases hji : j = i
        · subst hji
          rw [update_self] at hj
          cases hj
          exact absurd rfl hk
        · rw [update_of_ne hji] at hj
          exact ⟨j, hj⟩
  · intro j k l' hj hk
    by_cases hji : j = i <;> by_cases hki : k = i
    · rw [hji, hki]
    · rw [hji, update_self] at hj
      rw [update_of_ne hki] at hk
      cases hj
      exact absurd hk (hno k)
    · rw [hki, update_self] at hk
      rw [update_of_ne hji] at hj
      cases hk
      exact absurd hj (hno j)
    · rw [update_of_ne hji] at hj
      rw [update_of_ne hki] at hk
      exact h.single j k l' hj hk

theorem Books.release (h : Books m o) (hi : o i = some l) : Books (update m l false) (update o i none) := by
  constructor
  · intro k
    by_cases hk : k = l
    · subst hk
      rw [update_self]
      refine iff_of_false (by decide) ?_
      rintro ⟨j, hj⟩
      by_cases hji : j = i
      · rw [hji, update_self] at hj
        cases hj
      · rw [update_of_ne hji] at hj
        exact hji (h.single j i k hj hi)
    · rw [update_of_ne hk, h.marked]
      constructor
      · rintro ⟨j, hj⟩
        have hji : j ≠ i := by
          rintro rfl
          rw [hi] at hj
          cases hj
          exact hk rfl
        exact ⟨j, by rw [update_of_ne hji]; exact hj⟩
      · rintro ⟨j, hj⟩
        by_cases hji : j = i
        · rw [hji, update_self] at hj
          cases hj
        · rw [update_of_ne hji] at hj
          exact ⟨j, hj⟩
  · intro j k l' hj hk
    have hji : j ≠ i := by
      rintro rfl
      rw [update_self] at hj
      cases hj
    have hki : k ≠ i := by
      rintro rfl
      rw [update_self] at hk
      cases hk
    rw [update_of_ne hji] at hj
    rw [update_of_ne hki] at hk
    exact h.single j k l' hj hk

theorem Books.keep (h : Books m o) {x : Option Number} (hi : o i = x) : Books m (update o i x) := by
  subst hi
  rw [update_eq_self]
  exact h

/-! ## What `port_get` does -/

def First (m : PortMap) (f : Number) : Prop := m f = false ∧ ∀ k < (f - 4096).toNat, m (4096 + BitVec.ofNat 16 k) = true

def Gives (m : PortMap) (port l : Number) : Prop :=
  (port ≠ 0 ∧ m port = false ∧ l = port) ∨ (port = 0 ∧ ∃ f, First m f ∧ l = f + 1)

/-- `port_get(0)` steps from the first free port to one that is free as well, and not 0. -/
def Lands (m : PortMap) : Prop := ∀ f, First m f → m (f + 1) = false ∧ f + 1 ≠ 0

theorem portLoop_spec : ∀ (n : Nat) (p r : Number), portLoop m n p = .ok r →
    ∃ k < n, m (p + BitVec.ofNat 16 k) = false ∧ (∀ j < k, m (p + BitVec.ofNat 16 j) = true) ∧ r = p + BitVec.ofNat 16 k + 1
  | 0, _, _, h => nomatch h
  | n + 1, p, r, h => by
    unfold portLoop at h
    cases hm : m p with
    | false =>
      rw [hm] at h
      cases h
      refine ⟨0, Nat.succ_pos n, ?_, fun j hj => absurd hj (Nat.not_lt_zero j), ?_⟩
      · simpa using hm
      · simp
    | true =>
      rw [hm] at h
      obtain ⟨k, hk, h1, h2, h3⟩ := portLoop_spec n (p + 1) r h
      have hadd : ∀ j, p + 1 + BitVec.ofNat 16 j = p + BitVec.ofNat 16 (j + 1) := by
        intro j
        rw [BitVec.add_assoc]
        congr 1
        apply BitVec.eq_of_toNat_eq
        simp [BitVec.toNat_add, Nat.add_comm]
      refine ⟨k + 1, Nat.succ_lt_succ hk, ?_, ?_, ?_⟩
      · rw [← hadd]
        exact h1
      · rintro (_ | j) hj
        · simpa using hm
        · rw [← hadd]
          exact h2 j (Nat.lt_of_succ_lt_succ hj)
      · rw [h3, hadd]

theorem ofInt_toNat (l : Number) : BitVec.ofInt 16 (l.toNat : Int) = l := by
  rw [BitVec.ofInt_natCast, BitVec.ofNat_toNat, BitVec.setWidth_eq]

theorem portGet_spec (h : portGet m port = .ok (ret, m')) : (ret < 0 ∧ port ≠ 0 ∧ m port = true ∧ m' = m) ∨
    ∃ l, Gives m port l ∧ ret = l.toNat ∧ m' = update m l true := by
  unfold portGet at h
  by_cases h0 : port = 0
  · rw [if_pos h0] at h
    obtain ⟨r, hr, h⟩ := bind_ok h
    cases h
    obtain ⟨k, hk, h1, h2, h3⟩ := portLoop_spec _ _ _ hr
    refine .inr ⟨r, .inr ⟨h0, 4096 + BitVec.ofNat 16 k, ⟨h1, fun j hj => h2 j ?_⟩, h3⟩, rfl, rfl⟩
    have hsub : (4096 + BitVec.ofNat 16 k - 4096 : Number) = BitVec.ofNat 16 k := by
      rw [BitVec.add_comm, BitVec.add_sub_cancel]
    rw [hsub, BitVec.toNat_ofNat] at hj
    exact Nat.lt_of_lt_of_le hj (Nat.mod_le _ _)
  · rw [if_neg h0] at h
    cases hm : m port with
    | true =>
      rw [hm] at h
      cases h
      exact .inl ⟨by decide, h0, rfl, rfl⟩
    | false =>
      rw [hm] at h
      cases h
      exact .inr ⟨port, .inl ⟨h0, hm, rfl⟩, rfl, rfl⟩

theorem portGet_error {e : Fault} (h : portGet m port = .error e) : e = .endless := by
  have hloop : ∀ (n : Nat) (p : Number), portLoop m n p = .error e → e = .endless := by
    intro n
    induction n with
    | zero =>
      intro p h
      cases h
      rfl
    | succ n ih =>
      intro p h
      unfold portLoop at h
      split at h
      · exact ih _ h
      · cases h
  unfold portGet at h
  split at h
  · cases hp : portLoop m (2 ^ 16) 4096 with
    | error e' =>
      rw [hp] at h
      cases h
      exact hloop _ _ hp
    | ok r =>
      rw [hp] at h
      cases h
  · split at h <;> cases h

theorem Gives.free (h : Gives m port l) (hl : port = 0 → Lands m) : m l = false ∧ l ≠ 0 := by
  rcases h with ⟨h0, hm, rfl⟩ | ⟨h0, f, hf, rfl⟩
  · exact ⟨hm, h0⟩
  · exact hl h0 f hf

/-! ## Owners -/

def UdpPcb.owns (u : UdpPcb) : Option Number := if u.ends.lport ≠ 0 then some u.ends.lport else none

def TcpPcb.owns (n : TcpPcb) : Option Number := if n.ends.lport ≠ 0 ∧ n.listener = none then some n.ends.lport else none

def Sys.udpOwner (s : Sys) (k : Nat) : Option Number := (s.udp k).bind UdpPcb.owns

def Sys.tcpOwner (s : Sys) (i : Nat) : Option Number := (s.pcb i).bind TcpPcb.owns

structure Sound (s : Sys) : Prop where
  udp : Books s.udpMap s.udpOwner
  tcp : Books s.tcpPortMap s.tcpOwner

variable {s t : Sys} {k : Nat} {u : UdpPcb} {n : TcpPcb} {map : PortMap}

theorem setUdp_owner (s : Sys) (k : Nat) (u : UdpPcb) : (s.setUdp k u).udpOwner = update s.udpOwner k u.owns := by
  funext j
  unfold Sys.udpOwner Sys.setUdp
  by_cases h : j = k
  · subst h
    simp
  · simp [h]

theorem set_owner (s : Sys) (i : Nat) (n : TcpPcb) : (s.set i n).tcpOwner = update s.tcpOwner i n.owns := by
  funext j
  unfold Sys.tcpOwner Sys.set
  by_cases h : j = i
  · subst h
    simp
  · simp [h]

theorem kfree_owner (s : Sys) (i : Nat) : (s.kfree i).tcpOwner = update s.tcpOwner i none := by
  funext j
  unfold Sys.tcpOwner Sys.kfree
  by_cases h : j = i
  · subst h
    simp
  · simp [h]

theorem Sound.setUdp (h : Sound s) (hb : Books map (update s.udpOwner k u.owns)) :
    Sound (Sys.setUdp { s with udpMap := map } k u) := by
  refine ⟨?_, h.tcp⟩
  rw [setUdp_owner]
  exact hb

theorem Sound.set (h : Sound s) (hb : Books map (update s.tcpOwner i n.owns)) :
    Sound (Sys.set { s with tcpPortMap := map } i n) := by
  refine ⟨h.udp, ?_⟩
  rw [set_owner]
  exact hb

theorem Sound.move (h : Sound s) (w : Where) : Sound (s.move i w) := ⟨h.udp, h.tcp⟩

theorem Sound.setSock (h : Sound s) (f : Nat → Option Nat) : Sound { s with sock := f } := ⟨h.udp, h.tcp⟩

theorem Sound.sameUdp (h : Sound s) (hu : u.owns = s.udpOwner k) : Sound (s.setUdp k u) :=
  h.setUdp (h.udp.keep hu.symm)

theorem Sound.same (h : Sound s) (hn : n.owns = s.tcpOwner i) : Sound (s.set i n) :=
  h.set (h.tcp.keep hn.symm)

theorem Sound.grantUdp (h : Sound s) (hk : s.udpOwner k = none) (hl : s.udpMap l = false) (hu : u.owns = some l) :
    Sound (Sys.setUdp { s with udpMap := update s.udpMap l true } k u) := by
  refine h.setUdp ?_
  rw [hu]
  exact h.udp.grant hk hl

theorem Sound.grant (h : Sound s) (hi : s.tcpOwner i = none) (hl : s.tcpPortMap l = false) (hn : n.owns = some l) :
    Sound (Sys.set { s with tcpPortMap := update s.tcpPortMap l true } i n) := by
  refine h.set ?_
  rw [hn]
  exact h.tcp.grant hi hl

theorem ofUdp_sat {f : UdpPcb → Except Fault Sys} (h : ∀ u, s.udp k = some u → Sat (· = .put) (f u) Q) :
    Sat (· = .put) (s.ofUdp k >>= f) Q := by
  unfold Sys.ofUdp
  cases hk : s.udp k with
  | none => exact fun he => nomatch he
  | some u => exact h u hk

theorem ofSock_sat {f : Nat → Except Fault Sys} (h : ∀ i, s.sock k = some i → Sat (· = .put) (f i) Q) :
    Sat (· = .put) (s.ofSock k >>= f) Q := by
  unfold Sys.ofSock
  cases hk : s.sock k with
  | none => exact fun he => nomatch he
  | some i => exact h i hk

theorem deref_sat {f : TcpPcb → Except Fault Sys} (h : ∀ n, s.pcb i = some n → Sat (· = .put) (f n) Q) :
    Sat (· = .put) (s.deref i >>= f) Q := by
  unfold Sys.deref
  cases hi : s.pcb i with
  | none => exact fun he => nomatch he
  | some n => exact h n hi

theorem portGet_sat {f : Int × PortMap → Except Fault Sys}
    (hno : ∀ ret, ret < 0 → port ≠ 0 → m port = true → Sat (· = .put) (f (ret, m)) Q)
    (hyes : ∀ l, Gives m port l → Sat (· = .put) (f (l.toNat, update m l true)) Q) :
    Sat (· = .put) (portGet m port >>= f) Q := by
  cases hp : portGet m port with
  | error e =>
    cases portGet_error hp
    exact fun he => nomatch he
  | ok r =>
    obtain ⟨ret, m'⟩ := r
    rcases portGet_spec hp with ⟨hneg, h0, hm, rfl⟩ | ⟨l, hl, rfl, rfl⟩
    · exact hno ret hneg h0 hm
    · exact hyes l hl

theorem Books.put (h : Books m o) (hi : o i = some l) (h0 : l ≠ 0) : portPut m l = .ok (update m l false) := by
  unfold portPut
  rw [if_neg]
  rintro (h1 | h1)
  · exact h0 h1
  · exact h1 ((h.marked l).2 ⟨i, hi⟩)

theorem udpOwner_some (hk : s.udp k = some u) : s.udpOwner k = u.owns := by
  unfold Sys.udpOwner
  rw [hk]
  rfl

theorem tcpOwner_some (hi : s.pcb i = some n) : s.tcpOwner i = n.owns := by
  unfold Sys.tcpOwner
  rw [hi]
  rfl

theorem udpOwner_none (hk : s.udp k = some u) : s.udpOwner k = none ↔ u.ends.lport = 0 := by
  rw [udpOwner_some hk]
  unfold UdpPcb.owns
  split
  · rename_i h
    exact iff_of_false (fun h' => nomatch h') h
  · rename_i h
    exact iff_of_true rfl (not_not.1 h)

/-! ## The steps -/

/-- What every call needs: `port_get(0)` lands on a free port; a socket that binds has no port yet; and no pcb
`tcp_bind` would find has the port it gets. A TCP socket that takes a port is not one that was accepted. -/
def Proper (s : Sys) : Act → Prop
  | .udpBind k addr port => s.addrOk addr → (port = 0 → Lands s.udpMap) ∧ ∀ l, Gives s.udpMap port l → s.udpOwner k = none
  | .udpConnect k _ _ | .udpSend k => s.udpOwner k = none → Lands s.udpMap
  | .tcpBind k addr port => s.addrOk addr → (port = 0 → Lands s.tcpPortMap) ∧ ∀ l, Gives s.tcpPortMap port l →
      s.tcpFindPcb addr l = none ∧ ∀ i n, s.sock k = some i → s.pcb i = some n → n.ends.lport = 0 ∧ n.listener = none
  | .tcpConnect k addr port => ∀ i n, s.sock k = some i → s.pcb i = some n → n.state = .closed → ¬ ipAddrIsany addr → port ≠ 0 →
      n.ends.lport = 0 → Lands s.tcpPortMap ∧ n.listener = none
  | _ => True

theorem udpBind_sat (h : Sound s) (addr : IpAddr) (port : Number) :
    Sat (· = .put) (udpBind s k addr port) fun t => Proper s (.udpBind k addr port) → Sound t := by
  refine ofUdp_sat fun u hu => ?_
  by_cases ha : s.addrOk addr = true
  case neg =>
    rw [if_pos ha]
    exact fun _ => h
  rw [if_neg (not_not.2 ha)]
  refine portGet_sat (fun ret hret _ _ => ?_) fun l hl => ?_
  · dsimp only
    rw [if_pos hret]
    exact fun _ => h.sameUdp (udpOwner_some hu).symm
  · dsimp only
    rw [if_neg (by omega), ofInt_toNat]
    intro hp
    obtain ⟨hland, hnone⟩ := hp ha
    obtain ⟨hfree, h0⟩ := hl.free hland
    exact h.grantUdp (hnone l hl) hfree (if_pos h0)

theorem udpConnect_sat (h : Sound s) (addr : IpAddr) (port : Number) :
    Sat (· = .put) (udpConnect s k addr port) fun t => Proper s (.udpConnect k addr port) → Sound t := by
  refine ofUdp_sat fun u hu => ?_
  dsimp only
  split
  · rename_i h0
    have hnone := (udpOwner_none hu).2 h0
    refine portGet_sat (fun ret _ hne _ => absurd rfl hne) fun l hl => ?_
    rw [ofInt_toNat]
    intro hp
    obtain ⟨hfree, hl0⟩ := hl.free fun _ => hp hnone
    exact h.grantUdp hnone hfree (if_pos hl0)
  · exact fun _ => h.sameUdp (udpOwner_some hu).symm

theorem udpSendmsg_sat (h : Sound s) : Sat (· = .put) (udpSendmsg s k) fun t => Proper s (.udpSend k) → Sound t := by
  refine ofUdp_sat fun u hu => ?_
  split
  · rename_i h0
    have hnone := (udpOwner_none hu).2 h0
    exact (udpBind_sat h 0 0).mono fun t ht hp => ht fun _ => ⟨fun _ => hp hnone, fun _ _ => hnone⟩
  · exact fun _ => h

theorem udpClose_sat (h : Sound s) : Sat (· = .put) (udpClose s k) Sound := by
  refine ofUdp_sat fun u hu => ?_
  have hdrop : ∀ m, Books m (update s.udpOwner k none) → Sound { s with udpMap := m, udp := update s.udp k none } := by
    intro m hm
    refine ⟨?_, h.tcp⟩
    have ho : Sys.udpOwner { s with udpMap := m, udp := update s.udp k none } = update s.udpOwner k none := by
      funext j
      unfold Sys.udpOwner
      by_cases hj : j = k
      · subst hj
        simp
      · simp [hj]
    rw [ho]
    exact hm
  split
  · rename_i h0
    have hown : s.udpOwner k = some u.ends.lport := (udpOwner_some hu).trans (if_pos h0)
    rw [h.udp.put hown h0]
    exact hdrop _ (h.udp.release hown)
  · rename_i h0
    have hown : s.udpOwner k = none := (udpOwner_none hu).2 (not_not.1 h0)
    exact hdrop _ (h.udp.keep hown)

theorem tcpPcbPut_sat (h : Sound s) : Sat (· = .put) (tcpPcbPut s i) Sound := by
  refine deref_sat fun n hn => ?_
  have hdrop : ∀ m, Books m (update s.tcpOwner i none) → Sound (Sys.kfree { s with tcpPortMap := m } i) := by
    intro m hm
    refine ⟨h.udp, ?_⟩
    rw [kfree_owner]
    exact hm
  split
  · rename_i h0
    have hown : s.tcpOwner i = some n.ends.lport := (tcpOwner_some hn).trans (if_pos h0)
    rw [h.tcp.put hown h0.1]
    exact hdrop _ (h.tcp.release hown)
  · rename_i h0
    have hown : s.tcpOwner i = none := (tcpOwner_some hn).trans (if_neg h0)
    exact hdrop _ (h.tcp.keep hown)

theorem tcpClose_sat (h : Sound s) : Sat (· = .put) (tcpClose s k) Sound := by
  refine ofSock_sat fun i _ => deref_sat fun n hn => ?_
  have hs : Sound { s with sock := update s.sock k none } := h.setSock _
  have hown : n.owns = s.tcpOwner i := (tcpOwner_some hn).symm
  split
  · exact tcpPcbPut_sat hs
  · exact tcpPcbPut_sat hs
  · exact tcpPcbPut_sat hs
  · exact hs.same hown
  · exact hs.same hown
  · exact hs.same hown
  · exact hs

theorem tcpBind_sat (h : Sound s) (addr : IpAddr) (port : Number) :
    Sat (· = .put) (tcpBind s k addr port) fun t => Proper s (.tcpBind k addr port) → Sound t := by
  unfold tcpBind
  by_cases ha : s.addrOk addr = true
  case neg =>
    rw [if_pos ha]
    exact fun _ => h
  rw [if_neg (not_not.2 ha)]
  refine portGet_sat (fun ret hret _ _ => ?_) fun l hl => ?_
  · dsimp only
    rw [if_pos hret]
    exact fun _ => h
  · dsimp only
    rw [if_neg (by omega), ofInt_toNat]
    split
    · rename_i hfound
      exact fun hp => absurd (((hp ha).2 l hl).1) hfound
    · refine ofSock_sat fun i hi => deref_sat fun n hn => ?_
      intro hp
      obtain ⟨hland, hnone⟩ := hp ha
      obtain ⟨h0, hlis⟩ := (hnone l hl).2 i n hi hn
      obtain ⟨hfree, hl0⟩ := hl.free hland
      have hown : s.tcpOwner i = none := (tcpOwner_some hn).trans (if_neg fun hc => hc.1 h0)
      exact h.grant hown hfree (if_pos ⟨hl0, hlis⟩)

theorem tcpConnect_sat (h : Sound s) (addr : IpAddr) (port : Number) :
    Sat (· = .put) (tcpConnect s k addr port) fun t => Proper s (.tcpConnect k addr port) → Sound t := by
  refine ofSock_sat fun i hi => deref_sat fun n hn => ?_
  split
  · exact fun _ => h
  split
  · exact fun _ => h
  rename_i hst haddr
  dsimp only
  split
  · rename_i h0
    refine portGet_sat (fun ret _ hne _ => absurd rfl hne) fun l hl => ?_
    rw [ofInt_toNat]
    intro hp
    obtain ⟨hland, hlis⟩ := hp i n hi hn (not_not.1 hst) (fun ha => haddr (.inl ha)) (fun hp => haddr (.inr hp)) h0
    obtain ⟨hfree, hl0⟩ := hl.free fun _ => hland
    have hown : s.tcpOwner i = none := (tcpOwner_some hn).trans (if_neg fun hc => hc.1 h0)
    have howns : TcpPcb.owns ⟨{ n.ends with raddr := addr, rport := port, lport := l }, .synSent, n.listener⟩ = some l :=
      if_pos ⟨hl0, hlis⟩
    exact (h.grant hown hfree howns).move _
  · have hset : Sound (s.set i ⟨{ n.ends with raddr := addr, rport := port }, .synSent, n.listener⟩) :=
      h.same (tcpOwner_some hn).symm
    exact fun _ => hset.move _

theorem step_sat {a : Act} (h : Sound s) (he : enabled s a) : Sat (· = .put) (step s a) fun t => Proper s a → Sound t := by
  cases a with
  | udpSocket k =>
    refine fun _ => h.sameUdp ?_
    unfold Sys.udpOwner
    rw [he]
    rfl
  | udpBind k addr port => exact udpBind_sat h addr port
  | udpConnect k addr port => exact udpConnect_sat h addr port
  | udpSend k => exact udpSendmsg_sat h
  | udpClose k => exact (udpClose_sat h).mono fun _ ht _ => ht
  | tcpSocket k new =>
    refine fun _ => ((h.same ?_).move _).setSock _
    unfold Sys.tcpOwner
    rw [he.2]
    rfl
  | tcpBind k addr port => exact tcpBind_sat h addr port
  | tcpConnect k addr port => exact tcpConnect_sat h addr port
  | tcpListen k =>
    refine ofSock_sat fun i _ => deref_sat fun n hn => ?_
    split
    · exact fun _ => h
    · have hset : Sound (s.set i { n with state := .listen }) := h.same (tcpOwner_some hn).symm
      exact fun _ => hset.move _
  | tcpAccept k ns i j => exact fun _ => h.setSock _
  | tcpClose k => exact (tcpClose_sat h).mono fun _ ht _ => ht
  | arrive i new laddr raddr rport =>
    refine deref_sat fun n _ => fun _ => (h.same ?_).move _
    unfold Sys.tcpOwner
    rw [he]
    exact if_neg fun hc => nomatch hc.2
  | progress i state =>
    refine deref_sat fun n hn => fun _ => ?_
    have hset : Sound (s.set i { n with state := state }) := h.same (tcpOwner_some hn).symm
    split
    · exact hset.move _
    · exact hset
  | put i => exact (tcpPcbPut_sat h).mono fun _ ht _ => ht

/-! ## Runs -/

def Calls (s : Sys) (m : PortMap) : Act → Prop
  | .udpBind _ addr port => m = s.udpMap ∧ s.addrOk addr ∧ port = 0
  | .udpConnect k _ _ | .udpSend k => m = s.udpMap ∧ s.udpOwner k = none
  | .tcpBind _ addr port => m = s.tcpPortMap ∧ s.addrOk addr ∧ port = 0
  | .tcpConnect k addr port => m = s.tcpPortMap ∧ ¬ ipAddrIsany addr ∧ port ≠ 0 ∧
      ∃ i n, s.sock k = some i ∧ s.pcb i = some n ∧ n.state = .closed ∧ n.ends.lport = 0
  | _ => False

theorem Proper.lands {a : Act} (h : Proper s a) (hm : Calls s m a) : Lands m := by
  cases a with
  | udpBind k addr port =>
    obtain ⟨rfl, ha, h0⟩ := hm
    exact (h ha).1 h0
  | udpConnect k addr port =>
    obtain ⟨rfl, hk⟩ := hm
    exact h hk
  | udpSend k =>
    obtain ⟨rfl, hk⟩ := hm
    exact h hk
  | tcpBind k addr port =>
    obtain ⟨rfl, ha, h0⟩ := hm
    exact (h ha).1 h0
  | tcpConnect k addr port =>
    obtain ⟨rfl, ha, hp, i, n, hi, hn, hst, h0⟩ := hm
    exact (h i n hi hn hst ha hp h0).1
  | _ => exact hm.elim

theorem reach_sound (h : ports.Reach Proper s) : Sound s := by
  refine h.inv (fun s h0 => ?_) fun s a t hs hp hst => ((step_sat hs hst.1).of_ok hst.2) hp
  obtain ⟨own, rfl⟩ := h0
  have hempty : Books (fun _ => false) fun _ => none :=
    ⟨fun l => iff_of_false (by decide) fun ⟨_, hi⟩ => (nomatch hi), fun _ _ _ hi => (nomatch hi)⟩
  exact ⟨hempty, hempty⟩

/-- What holds of the ports after a run: the maps agree with the pcbs, no assertion of `port_put` fails, and
any port that is asked for is free and the only one marked. -/
structure Allotted (s : Sys) (ok : Act → Prop) : Prop where
  sound : Sound s
  put : ∀ a, enabled s a → step s a ≠ .error .put
  get : ∀ a m, ok a → Calls s m a → ∀ ret m', portGet m 0 = .ok (ret, m') →
    ∃ l, l ≠ 0 ∧ m l = false ∧ ret = l.toNat ∧ m' = Function.update m l true

instance (s : Sys) (a : Act) : Decidable (ports.enabled s a) := inferInstanceAs (Decidable (enabled s a))

end Onix.Port
