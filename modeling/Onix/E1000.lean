/-
The transmit ring of `e1000.c`: `send_packet`, called by the `neto` task alone, and `free_packet`, which
the interrupt handler calls. The device finishes descriptors in ring order, each at any time after it was
handed over. The walk of `free_packet` starts at the newest descriptor and stops at one that is not
finished, so finished descriptors behind it stay in the ring; when the ring comes round, `send_packet`
takes the next slot because its descriptor is done, and the pbuf it held is never released.
-/
import Onix.Lib.Loop
import Onix.Lib.Machine

namespace Onix.E1000

open Onix.Lib

/-! ## The ring -/

def txDescNr : Nat := 32

/-- A `tx_desc_t` with its place in `tx_pbuf`: the pbuf whose payload `addr` is, the pbuf noted, and whether
`status` has the done bit. -/
structure Slot where
  addr : Option Nat
  pbuf : Option Nat
  done : Bool
  deriving DecidableEq

structure Ring where
  slot : Nat → Slot
  txCur : Nat
  /-- the next descriptor the device finishes -/
  head : Nat
  /-- the pbuf of a call of `send_packet` that is blocked: `tx_waiter` is set -/
  waiting : Option Nat
  /-- the pbuf of one that was unblocked -/
  woken : Option Nat
  /-- the pbufs `send_packet` was called with -/
  handed : List Nat
  /-- the calls of `pbuf_put` -/
  released : List Nat

/-- `waiter`: the assertion of `send_packet`; `owner`: that of `free_packet`; `endless`: its walk goes round
more than once. -/
inductive Fault
  | waiter
  | owner
  | endless
  deriving DecidableEq

namespace Ring

def setSlot (s : Ring) (i : Nat) (d : Slot) : Ring := { s with slot := Function.update s.slot i d }

def put (s : Ring) (p : Nat) : Ring := { s.setSlot s.txCur ⟨some p, some p, false⟩ with txCur := (s.txCur + 1) % txDescNr }

/-- The loop of `send_packet`: it blocks while the descriptor is not done. -/
def sendPacket (s : Ring) (p : Nat) : Except Fault Ring :=
  if (s.slot s.txCur).done then .ok (s.put p)
  else if s.waiting ≠ none then .error .waiter
  else .ok { s with waiting := some p }

def freeLoop : Nat → Nat → Ring → Except Fault Ring
  | 0, _, _ => .error .endless
  | fuel + 1, cur, s =>
    let cur := (cur + txDescNr - 1) % txDescNr
    match (s.slot cur).addr with
    | none => .ok s
    | some p =>
      if (s.slot cur).done = false then .ok s
      else if (s.slot cur).pbuf ≠ some p then .error .owner
      else freeLoop fuel cur { s.setSlot cur ⟨none, none, true⟩ with released := s.released ++ [p] }

def freePacket (s : Ring) : Except Fault Ring := do
  let s ← freeLoop (txDescNr + 1) s.txCur s
  pure { s with woken := s.waiting.or s.woken, waiting := none }

end Ring

inductive Act
  | send (p : Nat)
  | resume
  | complete
  | interrupt
  deriving DecidableEq

def step (s : Ring) : Act → Except Fault Ring
  | .send p => Ring.sendPacket { s with handed := s.handed ++ [p] } p
  | .resume =>
    match s.woken with
    | some p => Ring.sendPacket { s with woken := none } p
    | none => .ok s
  | .complete => .ok { s.setSlot s.head { s.slot s.head with done := true } with head := (s.head + 1) % txDescNr }
  | .interrupt => s.freePacket

/-- The `neto` task calls `send_packet` again once a call is over; the device has descriptors it has not
finished. -/
def enabled (s : Ring) : Act → Prop
  | .send _ => s.waiting = none ∧ s.woken = none
  | .resume => s.woken ≠ none
  | .complete => (s.slot s.head).done = false
  | .interrupt => True

instance (s : Ring) : (a : Act) → Decidable (enabled s a)
  | .send _ => inferInstanceAs (Decidable (_ ∧ _))
  | .resume => inferInstanceAs (Decidable (_ ≠ _))
  | .complete => inferInstanceAs (Decidable (_ = _))
  | .interrupt => inferInstanceAs (Decidable True)

/-- From `e1000_reset` on: no descriptor has a buffer and all are done. -/
def ring : Machine Ring Act Fault where
  start s := s = ⟨fun _ => ⟨none, none, true⟩, 0, 0, none, none, [], []⟩
  enabled := enabled
  step := step

instance (s : Ring) (a : Act) : Decidable (ring.enabled s a) := inferInstanceAs (Decidable (enabled s a))

/-! ## The invariant -/

def age (s : Ring) (j : Nat) : Nat := (s.txCur + (txDescNr - 1) - j) % txDescNr

/-- The ring holds the pbufs `l`, the newest first; the first `m` are not finished. -/
structure Holds (s : Ring) (l : List Nat) (m : Nat) : Prop where
  cur : s.txCur < txDescNr
  length : l.length ≤ txDescNr
  pending : m ≤ l.length
  head : s.head = (s.txCur + txDescNr - m) % txDescNr
  slot : ∀ j < txDescNr, s.slot j = ⟨l[age s j]?, l[age s j]?, decide (m ≤ age s j)⟩

variable {s t : Ring} {l : List Nat} {m p : Nat}
variable {P : Ring → Act → Prop} {a : Act}

theorem setSlot_slot (s : Ring) (i j : Nat) (d : Slot) : (s.setSlot i d).slot j = if j = i then d else s.slot j := by
  by_cases h : j = i
  · subst h
    rw [if_pos rfl]
    exact Function.update_self ..
  · rw [if_neg h]
    exact Function.update_of_ne h ..

theorem Holds.next (h : Holds s l m) : s.slot s.txCur = ⟨l[31]?, l[31]?, decide (m ≤ 31)⟩ := by
  have hage : age s s.txCur = 31 := by
    unfold age txDescNr at *
    omega
  rw [h.slot _ h.cur, hage]

theorem Holds.put (h : Holds s l m) (hm : m ≤ 31) : Holds (s.put p) (p :: l.take 31) (m + 1) := by
  have hcur := h.cur
  have hpend := h.pending
  have hhead := h.head
  unfold txDescNr at *
  constructor
  · show (s.txCur + 1) % 32 < 32
    omega
  · simp only [List.length_cons, List.length_take, txDescNr]
    omega
  · simp only [List.length_cons, List.length_take]
    omega
  · show s.head = ((s.txCur + 1) % 32 + 32 - (m + 1)) % 32
    omega
  · intro j hj
    unfold txDescNr at hj
    show (s.setSlot s.txCur ⟨some p, some p, false⟩).slot j = _
    have hage : age (s.put p) j = ((s.txCur + 1) % 32 + 31 - j) % 32 := rfl
    rw [setSlot_slot, hage]
    by_cases hjc : j = s.txCur
    · have h0 : ((s.txCur + 1) % 32 + 31 - j) % 32 = 0 := by omega
      rw [if_pos hjc, h0]
      simp
    · have h1 : ((s.txCur + 1) % 32 + 31 - j) % 32 = age s j + 1 := by
        unfold age txDescNr
        omega
      have h2 : age s j < 31 := by
        omega
      rw [if_neg hjc, h1, h.slot j hj]
      simp [h2]

theorem Holds.complete (h : Holds s l m) (hd : (s.slot s.head).done = false) :
    Holds { s.setSlot s.head { s.slot s.head with done := true } with head := (s.head + 1) % txDescNr } l (m - 1) := by
  have hcur := h.cur
  have hpend := h.pending
  have hlen := h.length
  have hhead := h.head
  unfold txDescNr at *
  have hlt : s.head < 32 := by omega
  have hm : m ≠ 0 := by
    rintro rfl
    rw [h.slot _ hlt] at hd
    simp at hd
  have hage : age s s.head = m - 1 := by
    unfold age txDescNr
    omega
  refine ⟨hcur, hlen, by omega, ?_, ?_⟩
  · show (s.head + 1) % 32 = (s.txCur + 32 - (m - 1)) % 32
    omega
  · intro j hj
    show (s.setSlot s.head { s.slot s.head with done := true }).slot j = ⟨l[age s j]?, l[age s j]?, decide (m - 1 ≤ age s j)⟩
    rw [setSlot_slot]
    by_cases hjh : j = s.head
    · rw [if_pos hjh, hjh, h.slot _ hlt, hage]
      simp
    · have hne : age s j ≠ m - 1 := by
        have hj' : j < 32 := hj
        have hj1 : age s j = (s.txCur + 31 - j) % 32 := rfl
        omega
      rw [if_neg hjh, h.slot j hj]
      congr 1
      simp only [decide_eq_decide]
      omega

/-- The slots of the `i` newest pbufs of `l` are free already, and all descriptors are done. -/
def Partly (s : Ring) (l : List Nat) (i : Nat) : Prop :=
  ∀ j < txDescNr, s.slot j = if age s j < i then ⟨none, none, true⟩ else ⟨l[age s j]?, l[age s j]?, true⟩

theorem freeLoop_all : ∀ (n fuel i cur : Nat) (s : Ring), i + n = l.length → l.length ≤ txDescNr → txDescNr < fuel + i →
    s.txCur < txDescNr → cur = (s.txCur + txDescNr - i) % txDescNr → Partly s l i →
    ∃ f, Ring.freeLoop fuel cur s = .ok { s with slot := f, released := s.released ++ l.drop i } ∧ ∀ j < txDescNr, f j = ⟨none, none, true⟩
  | n, 0, i, cur, s, hn, hl, hf, _, _, _ => by omega
  | n, fuel + 1, i, cur, s, hn, hl, hf, hc, hcur, hs => by
    have hlt : (cur + txDescNr - 1) % txDescNr < txDescNr := by
      unfold txDescNr
      omega
    have hslot := hs _ hlt
    unfold Ring.freeLoop
    dsimp only
    cases n with
    | zero =>
      have hnone : ∀ j < txDescNr, s.slot j = ⟨none, none, true⟩ := by
        intro j hj
        rw [hs j hj]
        split
        · rfl
        · rw [List.getElem?_eq_none (by omega)]
      rw [hnone _ hlt]
      refine ⟨s.slot, ?_, hnone⟩
      rw [List.drop_eq_nil_of_le (by omega), List.append_nil]
    | succ n =>
      have hil : i < l.length := by omega
      have hage : age s ((cur + txDescNr - 1) % txDescNr) = i := by
        unfold age
        unfold txDescNr at *
        omega
      rw [hage, if_neg (Nat.lt_irrefl i), List.getElem?_eq_getElem hil] at hslot
      rw [hslot]
      simp only [reduceCtorEq, if_false, ne_eq, not_true_eq_false]
      generalize hj0 : (cur + txDescNr - 1) % txDescNr = j0 at *
      have hnext := freeLoop_all n fuel (i + 1) j0 { s.setSlot j0 ⟨none, none, true⟩ with released := s.released ++ [l[i]] }
        (by omega) hl (by omega) hc (by
          show j0 = (s.txCur + txDescNr - (i + 1)) % txDescNr
          unfold txDescNr at *
          omega) (by
          intro j hj
          show (s.setSlot j0 ⟨none, none, true⟩).slot j = if age s j < i + 1 then _ else ⟨l[age s j]?, l[age s j]?, true⟩
          rw [setSlot_slot]
          by_cases hjj : j = j0
          · rw [if_pos hjj, if_pos (by rw [hjj, hage]; omega)]
          · have hne : age s j ≠ i := by
              intro e
              apply hjj
              unfold age at e hage
              unfold txDescNr at *
              omega
            rw [if_neg hjj, hs j hj]
            by_cases hi : age s j < i
            · rw [if_pos hi, if_pos (by omega)]
            · rw [if_neg hi, if_neg (by omega)])
      obtain ⟨f, hf1, hf2⟩ := hnext
      refine ⟨f, hf1.trans ?_, hf2⟩
      show Except.ok { s with slot := f, released := (s.released ++ [l[i]]) ++ l.drop (i + 1) } = _
      rw [List.append_assoc, List.singleton_append, List.getElem_cons_drop]

theorem Holds.free (h : Holds s l m) : ∃ t, s.freePacket = .ok t ∧ t.handed = s.handed ∧ t.waiting = none ∧
    t.woken = s.waiting.or s.woken ∧
    ((m ≠ 0 ∧ t.slot = s.slot ∧ t.released = s.released ∧ Holds t l m) ∨
      (m = 0 ∧ (∀ j < txDescNr, t.slot j = ⟨none, none, true⟩) ∧ t.released = s.released ++ l ∧ Holds t [] 0)) := by
  have hcur := h.cur
  by_cases hm : m = 0
  · subst hm
    have hpart : Partly s l 0 := fun j hj => by
      rw [h.slot j hj, if_neg (Nat.not_lt_zero _)]
      simp
    obtain ⟨f, hf, hnone⟩ := freeLoop_all l.length (txDescNr + 1) 0 s.txCur s (Nat.zero_add _) h.length (by omega) hcur
      (by unfold txDescNr at *; omega) hpart
    refine ⟨{ s with slot := f, released := s.released ++ l, woken := s.waiting.or s.woken, waiting := none }, ?_, rfl, rfl, rfl,
      .inr ⟨rfl, hnone, rfl, hcur, Nat.zero_le _, Nat.le_refl _, h.head, ?_⟩⟩
    · unfold Ring.freePacket
      rw [hf]
      rfl
    · intro j hj
      simpa using hnone j hj
  · have hstop : Ring.freeLoop (txDescNr + 1) s.txCur s = .ok s := by
      have hpend := h.pending
      have hlt : (s.txCur + txDescNr - 1) % txDescNr < txDescNr := by
        unfold txDescNr
        omega
      have hage : age s ((s.txCur + txDescNr - 1) % txDescNr) = 0 := by
        unfold age
        unfold txDescNr at *
        omega
      unfold Ring.freeLoop
      dsimp only
      rw [h.slot _ hlt, hage, List.getElem?_eq_getElem (by omega)]
      simp [hm]
    refine ⟨{ s with woken := s.waiting.or s.woken, waiting := none }, ?_, rfl, rfl, rfl,
      .inl ⟨hm, rfl, rfl, hcur, h.length, h.pending, h.head, h.slot⟩⟩
    unfold Ring.freePacket
    rw [hstop]
    rfl

/-! ## What a step does to the pbufs -/

namespace Ring

def inRing (s : Ring) : List Nat :=
  (List.range txDescNr).filterMap fun k => (s.slot ((s.txCur + txDescNr - 1 - k) % txDescNr)).pbuf

def waits (s : Ring) : List Nat := s.waiting.toList ++ s.woken.toList

end Ring

theorem range_getElem (l : List Nat) : ∀ n, (List.range n).filterMap (fun k => l[k]?) = l.take n
  | 0 => rfl
  | n + 1 => by
    rw [List.range_succ, List.filterMap_append, range_getElem l n, List.take_add_one]
    cases h : l[n]? <;> simp [h]

theorem Holds.age_back (h : Holds s l m) {k : Nat} (hk : k < txDescNr) : (s.txCur + txDescNr - 1 - k) % txDescNr < txDescNr ∧
    age s ((s.txCur + txDescNr - 1 - k) % txDescNr) = k := by
  unfold age
  unfold txDescNr at *
  omega

theorem Holds.inRing (h : Holds s l m) : s.inRing = l := by
  have hslot : ∀ k ∈ List.range txDescNr, (s.slot ((s.txCur + txDescNr - 1 - k) % txDescNr)).pbuf = l[k]? := by
    intro k hk
    obtain ⟨hlt, hage⟩ := h.age_back (List.mem_range.1 hk)
    rw [h.slot _ hlt, hage]
  unfold Ring.inRing
  rw [List.filterMap_congr hslot, range_getElem, List.take_of_length_le h.length]

/-- A call of `send_packet` finds a free slot, or one it has to wait for. -/
def Room (s : Ring) : Act → Prop
  | .send _ | .resume => s.inRing.length < txDescNr ∨ (s.slot s.txCur).done = false
  | .complete | .interrupt => True

def Act.hands : Act → List Nat
  | .send p => [p]
  | _ => []

/-- A slot keeps its pbuf until it is released, which is after its descriptor is done; and when all are
done, the interrupt releases all. -/
structure Kept (s : Ring) (a : Act) (t : Ring) : Prop where
  slot : ∀ j < txDescNr, ∀ p, (s.slot j).pbuf = some p →
    (t.slot j).pbuf = some p ∨
      ((s.slot j).done = true ∧ (t.slot j).pbuf = none ∧ ∃ l, t.released = s.released ++ l ∧ p ∈ l)
  released : ∃ l, t.released = s.released ++ l ∧ ∀ p ∈ l, ∃ j < txDescNr, (s.slot j).pbuf = some p ∧ (s.slot j).done = true
  all : a = .interrupt → (∀ j < txDescNr, (s.slot j).done = true) → t.released = s.released ++ s.inRing

theorem sendPacket_holds (h : Holds s l m) (hw : s.waiting = none) : ∃ t l' m', s.sendPacket p = .ok t ∧ Holds t l' m' ∧
    t.handed = s.handed ∧ t.released = s.released ∧ t.woken = s.woken ∧
    (((l.length < txDescNr ∨ (s.slot s.txCur).done = false) ∧ (p :: l).Perm (l' ++ t.waiting.toList) ∧
      ∀ j < txDescNr, ∀ q, (s.slot j).pbuf = some q → (t.slot j).pbuf = some q) ∨
    ((¬ (l.length < txDescNr ∨ (s.slot s.txCur).done = false)) ∧ l'.length = l.length ∧ t.waiting = none)) := by
  have hnext := h.next
  unfold Ring.sendPacket
  cases hd : (s.slot s.txCur).done with
  | false =>
    rw [if_neg (by decide), if_neg (not_not.2 hw)]
    refine ⟨_, l, m, rfl, ⟨h.cur, h.length, h.pending, h.head, h.slot⟩, rfl, rfl, rfl, .inl ⟨.inr rfl, ?_, fun j _ q hq => hq⟩⟩
    exact (List.perm_append_singleton p l).symm
  | true =>
    have hm : m ≤ 31 := by
      rw [hnext] at hd
      simpa using hd
    have hput := h.put (p := p) hm
    by_cases hlen : l.length < txDescNr
    · have hlen' : l.length < 32 := hlen
      refine ⟨_, _, _, rfl, hput, rfl, rfl, rfl, .inl ⟨.inl hlen, ?_, fun j hj q hq => ?_⟩⟩
      · show (p :: l).Perm (p :: l.take 31 ++ s.waiting.toList)
        rw [hw, List.take_of_length_le (by omega)]
        simp
      · show ((s.setSlot s.txCur ⟨some p, some p, false⟩).slot j).pbuf = some q
        rw [setSlot_slot, if_neg]
        · exact hq
        · rintro rfl
          rw [hnext, List.getElem?_eq_none (by omega)] at hq
          cases hq
    · have hfull : l.length = 32 := by
        have hlen' : ¬ l.length < 32 := hlen
        have := h.length
        unfold txDescNr at this
        omega
      refine ⟨_, _, _, rfl, hput, rfl, rfl, rfl, .inr ⟨fun hr => hr.elim hlen nofun, ?_, hw⟩⟩
      simp [hfull]

/-- At most one call of `send_packet` is not over. -/
structure Inv (s : Ring) (l : List Nat) (m : Nat) : Prop where
  holds : Holds s l m
  single : s.waiting = none ∨ s.woken = none

def Ring.all (s : Ring) : List Nat := s.released ++ (s.inRing ++ s.waits)

def Lossless (s : Ring) (a : Act) (t : Ring) : Prop :=
  (Room s a ∧ (s.all ++ a.hands).Perm t.all ∧ Kept s a t) ∨ (¬ Room s a ∧ t.all.length + 1 = (s.all ++ a.hands).length)

theorem sendPacket_lossless {s' : Ring} (h : Holds s' l m) (hs : s'.waits = []) (hslot : s.slot = s'.slot)
    (hcur : s.txCur = s'.txCur) (hrel : s.released = s'.released) (ha : a = .send p ∧ s.waits = [] ∨ a = .resume ∧ s.waits = [p]) :
    ∃ t l' m', s'.sendPacket p = .ok t ∧ Inv t l' m' ∧ t.handed = s'.handed ∧ Lossless s a t := by
  have hw : s'.waiting = none ∧ s'.woken = none := by simpa [Ring.waits] using hs
  have hin : s.inRing = l := by
    rw [← h.inRing]
    unfold Ring.inRing
    rw [hslot, hcur]
  have hroom : Room s a ↔ l.length < txDescNr ∨ (s'.slot s'.txCur).done = false := by
    rw [← hin, ← hslot, ← hcur]
    rcases ha with ⟨rfl, -⟩ | ⟨rfl, -⟩ <;> rfl
  have hhands : s.waits ++ a.hands = [p] := by
    rcases ha with ⟨rfl, h0⟩ | ⟨rfl, h0⟩ <;> rw [h0] <;> rfl
  have hall : s.all ++ a.hands = s'.released ++ (l ++ [p]) := by
    unfold Ring.all
    rw [List.append_assoc, List.append_assoc, hhands, hin, hrel]
  obtain ⟨t, l', m', hok, ht, hh, hr, hwk, hcase⟩ := sendPacket_holds (p := p) h hw.1
  have htall : t.all = s'.released ++ (l' ++ t.waiting.toList) := by
    unfold Ring.all Ring.waits
    rw [ht.inRing, hr, hwk, hw.2]
    simp
  refine ⟨t, l', m', hok, ⟨ht, .inr (hwk.trans hw.2)⟩, hh, ?_⟩
  rcases hcase with ⟨hroom', hperm, hkept⟩ | ⟨hroom', hlen, hnone⟩
  · refine .inl ⟨hroom.2 hroom', ?_, ⟨?_, ?_, ?_⟩⟩
    · rw [hall, htall]
      exact ((List.perm_append_singleton p l).trans hperm).append_left _
    · intro j hj q hq
      rw [hslot] at hq
      exact .inl (hkept j hj q hq)
    · refine ⟨[], ?_, nofun⟩
      rw [hr, hrel, List.append_nil]
    · rintro rfl
      rcases ha with ⟨e, -⟩ | ⟨e, -⟩ <;> cases e
  · refine .inr ⟨fun hr => hroom' (hroom.1 hr), ?_⟩
    rw [hall, htall, hnone]
    simp only [List.length_append, List.length_cons, List.length_nil, Option.toList_none, hlen]
    omega

theorem Lossless.quiet (hroom : Room s a) (hhands : a.hands = []) (hall : s.all.Perm t.all) (hk : Kept s a t) :
    Lossless s a t := by
  refine .inl ⟨hroom, ?_, hk⟩
  rw [hhands, List.append_nil]
  exact hall

theorem complete_lossless (h : Inv s l m) (he : enabled s .complete) :
    ∃ t m', step s .complete = .ok t ∧ Inv t l m' ∧ t.handed = s.handed ∧ Lossless s .complete t := by
  have hc := h.holds.complete he
  refine ⟨_, _, rfl, ⟨hc, h.single⟩, rfl, .quiet trivial rfl ?_ ⟨?_, ⟨[], (List.append_nil _).symm, nofun⟩, nofun⟩⟩
  · have hin := h.holds.inRing.trans hc.inRing.symm
    unfold Ring.all
    rw [hin]
    exact .refl _
  · intro j hj q hq
    left
    rw [setSlot_slot]
    split
    · rename_i hjh
      rw [← hjh]
      exact hq
    · exact hq

theorem Holds.allDone (h : Holds s l m) (hd : ∀ j < txDescNr, (s.slot j).done = true) : m = 0 := by
  obtain ⟨hlt, hage⟩ := h.age_back (k := 0) (by decide)
  have h0 := hd _ hlt
  rw [h.slot _ hlt, hage] at h0
  simpa using h0

theorem interrupt_lossless (h : Inv s l m) : ∃ t l' m', step s .interrupt = .ok t ∧ Inv t l' m' ∧ t.handed = s.handed ∧
    Lossless s .interrupt t := by
  obtain ⟨t, hok, hh, hw, hwk, hcase⟩ := h.holds.free
  have hwaits : t.waits = s.waits := by
    unfold Ring.waits
    rw [hw, hwk]
    rcases h.single with e | e <;> rw [e]
    · rfl
    · cases s.waiting <;> rfl
  rcases hcase with ⟨hm, hslot, hrel, ht⟩ | ⟨rfl, hnone, hrel, ht⟩
  · refine ⟨t, l, m, hok, ⟨ht, .inl hw⟩, hh, .quiet trivial rfl ?_ ⟨?_, ?_, ?_⟩⟩
    · unfold Ring.all
      rw [hwaits, hrel, h.holds.inRing, ht.inRing]
    · intro j _ q hq
      rw [hslot]
      exact .inl hq
    · exact ⟨[], by rw [hrel, List.append_nil], nofun⟩
    · intro _ hd
      exact absurd (h.holds.allDone hd) hm
  · refine ⟨t, [], 0, hok, ⟨ht, .inl hw⟩, hh, .quiet trivial rfl ?_ ⟨?_, ?_, ?_⟩⟩
    · unfold Ring.all
      rw [hwaits, hrel, h.holds.inRing, ht.inRing, List.append_assoc, List.nil_append]
    · intro j hj q hq
      rw [h.holds.slot j hj] at hq
      refine .inr ⟨?_, ?_, l, hrel, List.mem_of_getElem? hq⟩
      · rw [h.holds.slot j hj]
        simp
      · rw [hnone j hj]
    · refine ⟨l, hrel, fun q hq => ?_⟩
      obtain ⟨k, hk, rfl⟩ := List.mem_iff_getElem.1 hq
      obtain ⟨hlt, hage⟩ := h.holds.age_back (Nat.lt_of_lt_of_le hk h.holds.length)
      refine ⟨_, hlt, ?_⟩
      rw [h.holds.slot _ hlt, hage]
      exact ⟨List.getElem?_eq_getElem hk, by simp⟩
    · intro _ _
      rw [hrel, h.holds.inRing]

/-- What a step does to the pbufs: none is lost and each slot keeps its own, unless `send_packet` meets a
full ring whose oldest descriptor is done. -/
theorem step_lossless (h : Inv s l m) (he : enabled s a) : ∃ t l' m', step s a = .ok t ∧ Inv t l' m' ∧
    t.handed = s.handed ++ a.hands ∧ Lossless s a t := by
  cases a with
  | send p =>
    have hs : Holds { s with handed := s.handed ++ [p] } l m :=
      ⟨h.holds.cur, h.holds.length, h.holds.pending, h.holds.head, h.holds.slot⟩
    have hw : s.waits = [] := by
      unfold Ring.waits
      rw [he.1, he.2]
      rfl
    exact sendPacket_lossless hs hw rfl rfl rfl (.inl ⟨rfl, hw⟩)
  | resume =>
    obtain ⟨p, hp⟩ := Option.ne_none_iff_exists'.1 he
    have hs : Holds { s with woken := none } l m := ⟨h.holds.cur, h.holds.length, h.holds.pending, h.holds.head, h.holds.slot⟩
    have hw : s.waiting = none := h.single.resolve_right he
    have h0 : Ring.waits { s with woken := none } = [] := by
      rw [hw]
      rfl
    have h1 : s.waits = [p] := by
      unfold Ring.waits
      rw [hw, hp]
      rfl
    have hstep : step s .resume = Ring.sendPacket { s with woken := none } p := by
      unfold step
      rw [hp]
    obtain ⟨t, l', m', hok, ht, hh, hl⟩ := sendPacket_lossless (s := s) (p := p) hs h0 rfl rfl rfl (.inr ⟨rfl, h1⟩)
    exact ⟨t, l', m', hstep.trans hok, ht, by rw [hh]; exact (List.append_nil _).symm, hl⟩
  | complete =>
    obtain ⟨t, m', hok, ht, hh, hl⟩ := complete_lossless h he
    exact ⟨t, l, m', hok, ht, by rw [hh]; exact (List.append_nil _).symm, hl⟩
  | interrupt =>
    obtain ⟨t, l', m', hok, ht, hh, hl⟩ := interrupt_lossless h
    exact ⟨t, l', m', hok, ht, by rw [hh]; exact (List.append_nil _).symm, hl⟩

/-! ## Whole runs -/

/-- Every pbuf handed over is released, or still in the ring or with a blocked call; each as often as it was
handed over. -/
def Conserved (s : Ring) : Prop := s.handed.Perm s.all

instance (s : Ring) : Decidable (Conserved s) := inferInstanceAs (Decidable (List.Perm _ _))

theorem boot_inv (h : ring.start s) : Inv s [] 0 := by
  subst h
  exact ⟨⟨by decide, Nat.zero_le _, Nat.le_refl _, rfl, fun _ _ => rfl⟩, .inl rfl⟩

theorem steps_lossless (h : ∃ l m, Inv s l m) (hs : ring.Steps s a t) :
    (∃ l m, Inv t l m) ∧ t.handed = s.handed ++ a.hands ∧ Lossless s a t := by
  obtain ⟨l, m, h⟩ := h
  obtain ⟨u, l', m', hok, hu, hh, hl⟩ := step_lossless h hs.1
  cases hok.symm.trans hs.2
  exact ⟨⟨l', m', hu⟩, hh, hl⟩

theorem reach_inv (h : ring.Reach P s) : ∃ l m, Inv s l m :=
  h.inv (I := fun s => ∃ l m, Inv s l m) (fun _ h0 => ⟨[], 0, boot_inv h0⟩) fun _ _ _ hi _ hs => (steps_lossless hi hs).1

theorem reach_conserved (h : ring.Reach Room s) : Conserved s := by
  refine (h.inv (I := fun s => (∃ l m, Inv s l m) ∧ Conserved s) (fun _ h0 => ⟨⟨[], 0, boot_inv h0⟩, ?_⟩)
    fun s a t hi hroom hs => ?_).2
  · subst h0
    exact .refl _
  · obtain ⟨ht, hh, hl⟩ := steps_lossless hi.1 hs
    refine ⟨ht, ?_⟩
    rcases hl with ⟨-, hperm, -⟩ | ⟨hn, -⟩
    · unfold Conserved
      rw [hh]
      exact (hi.2.append_right _).trans hperm
    · exact absurd hroom hn

theorem Lossless.length (h : Lossless s a t) (hh : t.handed = s.handed ++ a.hands) :
    t.all.length + s.handed.length ≤ s.all.length + t.handed.length := by
  have hlen : t.all.length ≤ (s.all ++ a.hands).length := by
    rcases h with ⟨-, hperm, -⟩ | ⟨-, h1⟩
    · exact Nat.le_of_eq hperm.length_eq.symm
    · omega
  rw [hh]
  simp only [List.length_append] at *
  omega

theorem run_missing (h : ring.Run P s t) (hs : ∃ l m, Inv s l m) (hlt : s.all.length < s.handed.length) :
    t.all.length < t.handed.length := by
  refine (h.inv (I := fun s => (∃ l m, Inv s l m) ∧ s.all.length < s.handed.length) (fun s a t hi _ hst => ?_) ⟨hs, hlt⟩).2
  obtain ⟨ht, hh, hl⟩ := steps_lossless hi.1 hst
  refine ⟨ht, ?_⟩
  have hle := hl.length hh
  omega

theorem reach_length (h : ring.Reach P s) : s.all.length ≤ s.handed.length := by
  refine (h.inv (I := fun s => (∃ l m, Inv s l m) ∧ s.all.length ≤ s.handed.length) (fun _ h0 => ⟨⟨[], 0, boot_inv h0⟩, ?_⟩)
    fun s a t hi _ hst => ?_).2
  · subst h0
    exact Nat.le_refl _
  · obtain ⟨ht, hh, hl⟩ := steps_lossless hi.1 hst
    refine ⟨ht, ?_⟩
    have hle := hl.length hh
    omega

/-- In a run whose calls all find a free slot or a pending one, each pbuf is released exactly once, after
its descriptor is done, and no slot is taken before; a call that finds the ring full with its oldest
descriptor done loses a pbuf for good. -/
theorem transmit_ring (s : Ring) :
    (ring.Reach Room s → Conserved s ∧ ∀ a, enabled s a → Room s a → ∃ t, step s a = .ok t ∧ Kept s a t) ∧
    (ring.Reach Machine.Any s → ∀ a t u, ¬ Room s a → ring.Steps s a t → ring.Run Machine.Any t u → ¬ Conserved u) := by
  refine ⟨fun h => ⟨reach_conserved h, fun a he hroom => ?_⟩, fun h a t u hroom hs hr hu => ?_⟩
  · obtain ⟨l, m, hi⟩ := reach_inv h
    obtain ⟨t, -, -, hok, -, -, hl⟩ := step_lossless hi he
    rcases hl with ⟨-, -, hk⟩ | ⟨hn, -⟩
    · exact ⟨t, hok, hk⟩
    · exact absurd hroom hn
  · obtain ⟨ht, hh, hl⟩ := steps_lossless (reach_inv h) hs
    have hlen := reach_length h
    have hmiss : t.all.length < t.handed.length := by
      rcases hl with ⟨hroom', -, -⟩ | ⟨-, h1⟩
      · exact absurd hroom' hroom
      · rw [hh]
        simp only [List.length_append] at *
        omega
    have hend := run_missing hr ht hmiss
    exact absurd hu.length_eq (Nat.ne_of_gt hend)

/-! ## A pbuf that is never released -/

def boot : Ring := ⟨fun _ => ⟨none, none, true⟩, 0, 0, none, none, [], []⟩

/-- The ring fills up; the oldest descriptor is done, and the walk of the interrupt stops at the newest. -/
def fillRing : List Act := (List.range 32).map .send ++ [.complete, .interrupt, .send 32]

theorem full_ring_loses : ¬ ∀ s, ring.Reach Machine.Any s → Conserved s := by
  intro h
  have htr : (ring.trace Machine.Any boot fillRing).map (fun s => decide (Conserved s)) = some false := by decide +kernel
  obtain ⟨s, hs, hc⟩ := Option.map_eq_some_iff.1 htr
  exact of_decide_eq_false hc (h s (Machine.trace_reach rfl hs))

end Onix.E1000
