/-
Which pcb `tcp_find_pcb` returns for a segment. One lookup serves `tcp_input` and the query of `tcp_bind`,
which asks with the remote port 0 for any pcb at a local end. A segment with the source port 0 asks the
same, and gets a connection with another peer.
-/
import Mathlib.Data.BitVec

namespace Onix.Tcp

abbrev IpAddr := BitVec 32

def ipAddrIsany (a : IpAddr) : Bool := a = 0

def ipAddrCmp (a b : IpAddr) : Bool := a = b

structure Ends where
  laddr : IpAddr
  lport : BitVec 16
  raddr : IpAddr
  rport : BitVec 16
  deriving DecidableEq

/-- The three lists `tcp_find_pcb` goes through; a pcb is known by its block of memory, and its `node` is
on one list. -/
structure Lists where
  ends : Nat → Ends
  active : List Nat
  timewait : List Nat
  listen : List Nat
  apart : ∀ i ∈ listen, i ∉ active ∧ i ∉ timewait

def findIn (ends : Nat → Ends) (laddr : IpAddr) (lport : BitVec 16) (raddr : IpAddr) (rport : BitVec 16) : List Nat → Option Nat
  | [] => none
  | i :: rest =>
    let pcb := ends i
    if pcb.lport ≠ lport then findIn ends laddr lport raddr rport rest
    else if ¬ ipAddrIsany pcb.laddr ∧ ¬ ipAddrCmp pcb.laddr laddr then findIn ends laddr lport raddr rport rest
    else if rport = 0 then some i
    else if pcb.rport ≠ rport then findIn ends laddr lport raddr rport rest
    else if ¬ ipAddrIsany pcb.raddr ∧ ¬ ipAddrCmp pcb.raddr raddr then findIn ends laddr lport raddr rport rest
    else some i

def tcpFindPcb (s : Lists) (laddr : IpAddr) (lport : BitVec 16) (raddr : IpAddr) (rport : BitVec 16) : Option Nat :=
  match findIn s.ends laddr lport raddr rport s.active with
  | some i => some i
  | none =>
    match findIn s.ends laddr lport raddr rport s.timewait with
    | some i => some i
    | none => findIn s.ends laddr lport raddr 0 s.listen

/-- The addresses and ports of a segment, as `tcp_input` has them. -/
structure Header where
  src : IpAddr
  dst : IpAddr
  sport : BitVec 16
  dport : BitVec 16
  deriving DecidableEq

def Header.find (g : Header) (s : Lists) : Option Nat := tcpFindPcb s g.dst g.dport g.src g.sport

/-! ## Matching -/

def Local (g : Header) (e : Ends) : Prop := e.lport = g.dport ∧ (e.laddr = 0 ∨ e.laddr = g.dst)

def Full (g : Header) (e : Ends) : Prop := Local g e ∧ e.rport = g.sport ∧ (e.raddr = 0 ∨ e.raddr = g.src)

instance (g : Header) (e : Ends) : Decidable (Local g e) := inferInstanceAs (Decidable (_ ∧ _))
instance (g : Header) (e : Ends) : Decidable (Full g e) := inferInstanceAs (Decidable (_ ∧ _))

/-- The segment is for the pcb `i`: the connection it names, or a listener when there is none. -/
def Belongs (s : Lists) (g : Header) (i : Nat) : Prop :=
  Full g (s.ends i) ∨
    (i ∈ s.listen ∧ Local g (s.ends i) ∧ ∀ j, j ∈ s.active ∨ j ∈ s.timewait ∨ j ∈ s.listen → ¬ Full g (s.ends j))

/-- The pcbs a segment may be taken by before the listeners: those that match, or with the source port 0
those with the local end. -/
def Takes (g : Header) (e : Ends) : Prop := if g.sport = 0 then Local g e else Full g e

instance (g : Header) (e : Ends) : Decidable (Takes g e) := by
  unfold Takes
  infer_instance

theorem findIn_eq (ends : Nat → Ends) (g : Header) (rport : BitVec 16) (hr : rport = g.sport ∨ rport = 0) : ∀ l,
    findIn ends g.dst g.dport g.src rport l =
      l.find? fun i => if rport = 0 then decide (Local g (ends i)) else decide (Full g (ends i))
  | [] => rfl
  | i :: rest => by
    have ih := findIn_eq ends g rport hr rest
    unfold findIn
    dsimp only
    rw [List.find?_cons, ih]
    have hany : (¬ ipAddrIsany (ends i).laddr = true ∧ ¬ ipAddrCmp (ends i).laddr g.dst = true) ↔
        ¬ ((ends i).laddr = 0 ∨ (ends i).laddr = g.dst) := by
      simp [ipAddrIsany, ipAddrCmp]
    have hany' : (¬ ipAddrIsany (ends i).raddr = true ∧ ¬ ipAddrCmp (ends i).raddr g.src = true) ↔
        ¬ ((ends i).raddr = 0 ∨ (ends i).raddr = g.src) := by
      simp [ipAddrIsany, ipAddrCmp]
    by_cases hloc : Local g (ends i)
    case neg =>
      have hno : ¬ Full g (ends i) := fun h => hloc h.1
      rw [decide_eq_false hloc, decide_eq_false hno, ite_self]
      split
      · rfl
      · rw [if_pos (hany.2 fun h => hloc ⟨not_not.1 ‹_›, h⟩)]
    rw [if_neg (not_not.2 hloc.1), if_neg fun h => hany.1 h hloc.2, decide_eq_true hloc]
    by_cases h0 : rport = 0
    · rw [if_pos h0, if_pos h0]
    · rw [if_neg h0, if_neg h0]
      have hr := hr.resolve_right h0
      subst hr
      by_cases hfull : Full g (ends i)
      · rw [if_neg (not_not.2 hfull.2.1), if_neg fun h => hany'.1 h hfull.2.2, decide_eq_true hfull]
      · rw [decide_eq_false hfull]
        split
        · rfl
        · rw [if_pos (hany'.2 fun h => hfull ⟨hloc, not_not.1 ‹_›, h⟩)]

theorem find_eq (s : Lists) (g : Header) : g.find s =
    ((s.active ++ s.timewait).find? fun i => decide (Takes g (s.ends i))).or (s.listen.find? fun i => decide (Local g (s.ends i))) := by
  have htake : ∀ e, (if g.sport = 0 then decide (Local g e) else decide (Full g e)) = decide (Takes g e) := by
    unfold Takes
    split <;> simp [*]
  unfold Header.find tcpFindPcb
  rw [findIn_eq _ _ _ (.inl rfl), findIn_eq _ _ _ (.inl rfl), findIn_eq _ _ _ (.inr rfl), List.find?_append]
  simp only [htake, if_true]
  cases s.active.find? fun i => decide (Takes g (s.ends i)) with
  | some i => rfl
  | none =>
    cases s.timewait.find? fun i => decide (Takes g (s.ends i)) with
    | some i => rfl
    | none => rfl

/-- A segment with the source port 0 meets first a connection it belongs to, if it meets one; and of the
listeners with its local end the first one matches fully, unless none does. -/
structure Unambiguous (s : Lists) (g : Header) : Prop where
  port : g.sport = 0 → ∀ i, ((s.active ++ s.timewait).find? fun i => decide (Local g (s.ends i))) = some i → Full g (s.ends i)
  listener : (∀ i ∈ s.active ++ s.timewait, ¬ Takes g (s.ends i)) →
    ∀ i, (s.listen.find? fun i => decide (Local g (s.ends i))) = some i → Full g (s.ends i) ∨ ∀ j ∈ s.listen, ¬ Full g (s.ends j)

theorem takes_zero {g : Header} (h0 : g.sport = 0) (e : Ends) : decide (Takes g e) = decide (Local g e) := by
  rw [decide_eq_decide]
  unfold Takes
  rw [if_pos h0]

theorem Full.takes {g : Header} {e : Ends} (h : Full g e) : Takes g e := by
  unfold Takes
  split
  · exact h.1
  · exact h

/-- A segment gets to a pcb it belongs to, whatever pcbs there are, exactly when the lookup is unambiguous. -/
theorem demultiplexing (s : Lists) (g : Header) : (∀ i, g.find s = some i → Belongs s g i) ↔ Unambiguous s g := by
  rw [find_eq]
  constructor
  · intro h
    constructor
    · intro h0 i hi
      have hconn : i ∈ s.active ++ s.timewait := List.mem_of_find?_eq_some hi
      simp only [takes_zero h0] at h
      rcases h i (by rw [hi]; rfl) with hf | ⟨hl, -, -⟩
      · exact hf
      · obtain ⟨ha, ht⟩ := s.apart i hl
        exact absurd hconn (by simp [ha, ht])
    · intro hno i hi
      have hnone : ((s.active ++ s.timewait).find? fun i => decide (Takes g (s.ends i))) = none := by
        rw [List.find?_eq_none]
        exact fun j hj ht => hno j hj (of_decide_eq_true ht)
      rcases h i (by rw [hnone, hi]; rfl) with hf | ⟨-, -, hf⟩
      · exact .inl hf
      · exact .inr fun j hj => hf j (.inr (.inr hj))
  · intro hun i hi
    cases hc : (s.active ++ s.timewait).find? fun i => decide (Takes g (s.ends i)) with
    | some j =>
      rw [hc] at hi
      obtain rfl := Option.some.inj hi
      have ht : Takes g (s.ends j) := by simpa using List.find?_some hc
      by_cases h0 : g.sport = 0
      · refine .inl (hun.port h0 j ?_)
        simp only [takes_zero h0] at hc
        exact hc
      · unfold Takes at ht
        rw [if_neg h0] at ht
        exact .inl ht
    | none =>
      rw [hc] at hi
      have hno : ∀ j ∈ s.active ++ s.timewait, ¬ Takes g (s.ends j) := by
        rw [List.find?_eq_none] at hc
        exact fun j hj ht => hc j hj (decide_eq_true ht)
      have hloc : Local g (s.ends i) := by simpa using List.find?_some hi
      rcases hun.listener hno i hi with hf | hf
      · exact .inl hf
      · refine .inr ⟨List.mem_of_find?_eq_some hi, hloc, ?_⟩
        rintro j (hj | hj | hj) hfull
        · exact hno j (List.mem_append_left _ hj) hfull.takes
        · exact hno j (List.mem_append_right _ hj) hfull.takes
        · exact hf j hj hfull

/-- A segment from port 0 reaches a connection with the port 5000 of another host. -/
theorem port_zero_hits : ¬ ∀ (s : Lists) (g : Header) (i : Nat), g.find s = some i → Belongs s g i := by
  intro h
  have hb := h ⟨fun _ => ⟨0x0a000001, 80, 0x0a000002, 5000⟩, [1], [], [], by simp⟩ ⟨0x0a000003, 0x0a000001, 0, 80⟩ 1 (by decide)
  rcases hb with hf | ⟨hl, -⟩
  · exact absurd hf (by decide)
  · cases hl

end Onix.Tcp
