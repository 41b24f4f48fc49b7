/-
`inet_aton` of `net/addr.c`: a string of decimal parts with dots between them is turned into an address. A pointer into the string is what
is left of it, its terminating zero left out; the place behind the zero is none of the string's.
-/
import Onix.Tcp.Find

namespace Onix.Addr

open List

open Onix.Tcp (IpAddr)

abbrev Char := BitVec 8

/-! ## The program -/

/-- `outside`: the byte behind the string is read; `overflow`: a number leaves the `int`. -/
inductive Fault
  | outside
  | overflow
  deriving DecidableEq

def EADDR : Int := 101

def dot : Char := 46

def isdigit (c : Char) : Bool := 48 ≤ c.toNat && c.toNat ≤ 57

def digit (c : Char) : Nat := c.toNat - 48

/-- The inner loop: where it stops, the value and the number of digits; `none` is `-EADDR`. -/
def partLoop : List Char → Nat → Nat → Except Fault (Option (List Char × Nat × Nat))
  | [], value, k => .ok (some ([], value, k))
  | c :: ptr, value, k =>
    if c = dot then .ok (some (c :: ptr, value, k))
    else if ¬ isdigit c then .ok none
    else if 2 ^ 31 ≤ value * 10 + digit c then .error .overflow
    else partLoop ptr (value * 10 + digit c) (k + 1)

def step : List Char → Option (List Char)
  | [] => none
  | _ :: ptr => some ptr

/-- The outer loop with `n` parts to go, up to the `parts`; a value is an `int` that is never negative. -/
def partsLoop : Nat → Nat → Option (List Char) → (Nat → BitVec 8) → Except Fault (Option (Nat → BitVec 8))
  | 0, _, _, parts => .ok (some parts)
  | _ + 1, _, none, _ => .error .outside
  | _ + 1, _, some [], parts => .ok (some parts)
  | n + 1, i, some (c :: ptr), parts =>
    match partLoop (c :: ptr) 0 0 with
    | .error e => .error e
    | .ok none => .ok none
    | .ok (some (ptr, value, k)) =>
      if k = 0 ∨ value > 255 then .ok none
      else partsLoop n (i + 1) (step ptr) (Function.update parts i (BitVec.ofNat 8 value))

def addrOf (parts : Nat → BitVec 8) : IpAddr := parts 3 ++ parts 2 ++ parts 1 ++ parts 0

/-- `inet_aton`: the result, and what is at `addr` after it; `parts` is what was on the stack. -/
def inetAton (str : List Char) (addr : IpAddr) (parts : Nat → BitVec 8) : Except Fault (Int × IpAddr) :=
  match partsLoop 4 0 (some str) parts with
  | .error e => .error e
  | .ok none => .ok (-EADDR, addr)
  | .ok (some parts) => .ok (0, addrOf parts)

/-! ## Addresses as text -/

def Digits (l : List Char) : Prop := ∀ c ∈ l, isdigit c = true

def numeralFrom (v : Nat) (l : List Char) : Nat := l.foldl (fun v c => v * 10 + digit c) v

def numeral (l : List Char) : Nat := numeralFrom 0 l

/-- A decimal number from 0 to 255. -/
structure Octet (l : List Char) : Prop where
  digits : Digits l
  some : l ≠ []
  le : numeral l ≤ 255

def Octets : Nat → List Char → List Nat → Prop
  | 0, _, _ => False
  | 1, s, vs => Octet s ∧ vs = [numeral s]
  | n + 1, s, vs => ∃ l r us, s = l ++ dot :: r ∧ Octet l ∧ Octets n r us ∧ vs = numeral l :: us

/-- A part at the beginning of `s` that is no octet, with digits that make a number of an `int`. -/
def BadStart (s : List Char) : Prop :=
  s ≠ [] ∧ ∃ l r, s = l ++ r ∧ Digits l ∧ numeral l < 2 ^ 31 ∧
    ((∃ c t, r = c :: t ∧ isdigit c = false ∧ c ≠ dot) ∨ (r = [] ∨ ∃ t, r = dot :: t) ∧ (l = [] ∨ 255 < numeral l))

/-- Of the first `n` parts one is no octet, and those before it are. -/
def Rejected : Nat → List Char → Prop
  | 0, _ => False
  | n + 1, s => BadStart s ∨ ∃ l r, s = l ++ dot :: r ∧ Octet l ∧ Rejected n r

variable {s l r : List Char} {v k n i : Nat} {parts : Nat → BitVec 8}

/-! ## A part -/

theorem le_numeralFrom (v : Nat) (l : List Char) : v ≤ numeralFrom v l := by
  induction l generalizing v with
  | nil => exact Nat.le_refl v
  | cons c l ih => exact Nat.le_trans (by omega) (ih (v * 10 + digit c))

theorem digit_ne_dot {c : Char} (h : isdigit c = true) : c ≠ dot := by
  rintro rfl
  cases h

theorem partLoop_digits (hd : Digits l) (h : numeralFrom v l < 2 ^ 31) (r : List Char) (k : Nat) :
    partLoop (l ++ r) v k = partLoop r (numeralFrom v l) (k + l.length) := by
  induction l generalizing v k with
  | nil => rfl
  | cons c l ih =>
    have hc := hd c (.head _)
    have hle := le_numeralFrom (v * 10 + digit c) l
    change numeralFrom (v * 10 + digit c) l < 2 ^ 31 at h
    rw [cons_append, partLoop, if_neg (digit_ne_dot hc), if_neg (not_not_intro hc), if_neg (by omega),
      ih (fun x hx => hd x (.tail _ hx)) h, length_cons, Nat.add_right_comm, Nat.add_assoc]
    rfl

theorem partLoop_overflow (hd : Digits l) (hv : v < 2 ^ 31) (h : 2 ^ 31 ≤ numeralFrom v l) (r : List Char) (k : Nat) :
    partLoop (l ++ r) v k = .error .overflow := by
  induction l generalizing v k with
  | nil => exact absurd hv (Nat.not_lt.2 h)
  | cons c l ih =>
    have hc := hd c (.head _)
    rw [cons_append, partLoop, if_neg (digit_ne_dot hc), if_neg (not_not_intro hc)]
    by_cases hlt : 2 ^ 31 ≤ v * 10 + digit c
    · rw [if_pos hlt]
    · rw [if_neg hlt]
      exact ih (fun x hx => hd x (.tail _ hx)) (Nat.not_le.1 hlt) h (k + 1)

theorem split_digits (s : List Char) : ∃ l r, s = l ++ r ∧ Digits l ∧ (r = [] ∨ ∃ c t, r = c :: t ∧ isdigit c = false) := by
  induction s with
  | nil => exact ⟨[], [], rfl, nofun, .inl rfl⟩
  | cons c s ih =>
    cases hc : isdigit c with
    | false => exact ⟨[], c :: s, rfl, nofun, .inr ⟨c, s, rfl, hc⟩⟩
    | true =>
      obtain ⟨l, r, rfl, hd, hr⟩ := ih
      refine ⟨c :: l, r, rfl, ?_, hr⟩
      rintro x hx
      rcases mem_cons.1 hx with rfl | hx
      · exact hc
      · exact hd x hx

/-! ## The parts -/

theorem partsLoop_some (hs : s ≠ []) : partsLoop (n + 1) i (some s) parts =
    match partLoop s 0 0 with
    | .error e => .error e
    | .ok none => .ok none
    | .ok (some (ptr, value, k)) =>
      if k = 0 ∨ value > 255 then .ok none else partsLoop n (i + 1) (step ptr) (Function.update parts i (BitVec.ofNat 8 value)) := by
  cases s with
  | nil => exact absurd rfl hs
  | cons c s => rfl

theorem partLoop_end (hd : Digits l) (h : numeral l < 2 ^ 31) (hr : r = [] ∨ ∃ t, r = dot :: t) :
    partLoop (l ++ r) 0 0 = .ok (some (r, numeral l, l.length)) := by
  rw [partLoop_digits hd h, Nat.zero_add]
  rcases hr with rfl | ⟨t, rfl⟩
  · rfl
  · rw [partLoop, if_pos rfl]
    rfl

theorem partsLoop_octet (h : Octet l) (hr : r = [] ∨ ∃ t, r = dot :: t) : partsLoop (n + 1) i (some (l ++ r)) parts =
    partsLoop n (i + 1) (step r) (Function.update parts i (BitVec.ofNat 8 (numeral l))) := by
  have hle := h.le
  have hlen : l.length ≠ 0 := fun e => h.some (length_eq_zero_iff.1 e)
  rw [partsLoop_some (append_ne_nil_of_left_ne_nil h.some r), partLoop_end h.digits (by omega) hr]
  exact if_neg (by omega)

theorem rejected_none : ∀ {n i : Nat} {s : List Char} {parts : Nat → BitVec 8}, Rejected n s → partsLoop n i (some s) parts = .ok none
  | n + 1, i, s, parts, .inl ⟨hs, l, r, he, hd, hlt, hr⟩ => by
    rw [partsLoop_some hs, he]
    rcases hr with ⟨c, t, rfl, hc, hdot⟩ | ⟨hend, hbad⟩
    · rw [partLoop_digits hd hlt, partLoop, if_neg hdot, if_pos (by simp [hc])]
    · rw [partLoop_end hd hlt hend]
      refine if_pos ?_
      rcases hbad with rfl | h
      · exact .inl rfl
      · exact .inr h
  | n + 1, i, s, parts, .inr ⟨l, r, he, ho, h⟩ => by
    rw [he, partsLoop_octet ho (.inr ⟨r, rfl⟩)]
    exact rejected_none h

theorem none_rejected : ∀ {n i : Nat} {s : List Char} {parts : Nat → BitVec 8}, partsLoop n i (some s) parts = .ok none → Rejected n s
  | 0, _, _, _, h => by
    cases h
  | n + 1, i, s, parts, h => by
    have hs : s ≠ [] := by
      rintro rfl
      cases h
    rw [partsLoop_some hs] at h
    obtain ⟨l, r, rfl, hd, hr⟩ := split_digits s
    by_cases hlt : numeral l < 2 ^ 31
    · -- a dot or the end after the digits, or something else
      have hcases : (∃ c t, r = c :: t ∧ isdigit c = false ∧ c ≠ dot) ∨ (r = [] ∨ ∃ t, r = dot :: t) := by
        rcases hr with rfl | ⟨c, t, rfl, hc⟩
        · exact .inr (.inl rfl)
        · by_cases hdot : c = dot
          · exact .inr (.inr ⟨t, hdot ▸ rfl⟩)
          · exact .inl ⟨c, t, rfl, hc, hdot⟩
      rcases hcases with hother | hend
      · exact .inl ⟨hs, l, r, rfl, hd, hlt, .inl hother⟩
      · rw [partLoop_end hd hlt hend] at h
        dsimp only at h
        by_cases hbad : l.length = 0 ∨ numeral l > 255
        · exact .inl ⟨hs, l, r, rfl, hd, hlt, .inr ⟨hend, hbad.imp_left length_eq_zero_iff.1⟩⟩
        · rw [if_neg hbad] at h
          have ho : Octet l := ⟨hd, fun e => hbad (.inl (congrArg length e)), by omega⟩
          rcases hend with rfl | ⟨t, rfl⟩
          · -- the string is over, and the next part is read behind it
            cases n with
            | zero => cases h
            | succ n => cases h
          · exact .inr ⟨l, t, rfl, ho, none_rejected h⟩
    · rw [partLoop_overflow hd (by decide) (Nat.not_lt.1 hlt)] at h
      cases h

def store (parts : Nat → BitVec 8) (i : Nat) : List Nat → Nat → BitVec 8
  | [] => parts
  | v :: vs => store (Function.update parts i (BitVec.ofNat 8 v)) (i + 1) vs

theorem octets_some : ∀ {n i : Nat} {s : List Char} {vs : List Nat} {parts : Nat → BitVec 8}, Octets n s vs →
    partsLoop n i (some s) parts = .ok (some (store parts i vs))
  | 1, i, s, vs, parts, ⟨ho, hv⟩ => by
    have h : partsLoop 1 i (some (s ++ [])) parts = _ := partsLoop_octet ho (.inl rfl)
    rw [append_nil] at h
    rw [h, hv]
    rfl
  | n + 2, i, s, vs, parts, ⟨l, r, us, he, ho, h, hv⟩ => by
    rw [he, partsLoop_octet ho (.inr ⟨r, rfl⟩), hv]
    exact octets_some h

theorem Octets.length : ∀ {n : Nat} {s : List Char} {vs : List Nat}, Octets n s vs → vs.length = n
  | 1, _, _, ⟨_, hv⟩ => hv ▸ rfl
  | n + 2, _, _, ⟨_, _, _, _, _, h, hv⟩ => by
    rw [hv, length_cons, Octets.length h]

theorem Digits.no_dot (h : Digits l) : l.count dot = 0 :=
  count_eq_zero.2 fun hm => digit_ne_dot (h _ hm) rfl

theorem Octets.dots : ∀ {n : Nat} {s : List Char} {vs : List Nat}, Octets n s vs → s.count dot + 1 = n
  | 1, _, _, ⟨ho, _⟩ => by
    rw [ho.digits.no_dot]
  | n + 2, _, _, ⟨_, _, _, he, ho, h, _⟩ => by
    have := Octets.dots h
    rw [he, count_append, count_cons_self, ho.digits.no_dot]
    omega

/-! ## Addresses -/

def octetsAddr (vs : List Nat) : IpAddr := addrOf fun i => BitVec.ofNat 8 (vs.getD i 0)

/-- `inet_aton` stays in the string and in the `int`, succeeds on four octets and stores them, and leaves the address alone when it fails. -/
def Reads (str : List Char) (addr : IpAddr) (parts : Nat → BitVec 8) : Prop :=
  ∃ ret a, inetAton str addr parts = .ok (ret, a) ∧ (ret = 0 ↔ ∃ vs, Octets 4 str vs) ∧ (∀ vs, Octets 4 str vs → a = octetsAddr vs) ∧
    (ret ≠ 0 → a = addr)

def ReadsWhen (str : List Char) : Prop := (∃ vs, Octets 4 str vs) ∨ Rejected 4 str

theorem inetAton_octets {vs : List Nat} (h : Octets 4 s vs) (addr : IpAddr) (parts : Nat → BitVec 8) : inetAton s addr parts = .ok (0, octetsAddr vs) := by
  have hlen := h.length
  unfold inetAton
  rw [octets_some h]
  match vs, hlen with
  | [a, b, c, d], _ => simp [store, addrOf, octetsAddr]

theorem inetAton_rejected (h : Rejected 4 s) (addr : IpAddr) (parts : Nat → BitVec 8) : inetAton s addr parts = .ok (-EADDR, addr) := by
  unfold inetAton
  rw [rejected_none h]

/-- Text is read as an address exactly so. -/
theorem text_parsing (str : List Char) (addr : IpAddr) (parts : Nat → BitVec 8) : Reads str addr parts ↔ ReadsWhen str := by
  constructor
  · rintro ⟨ret, a, h, hret, -, -⟩
    by_cases h0 : ret = 0
    · exact .inl (hret.1 h0)
    · right
      unfold inetAton at h
      cases hp : partsLoop 4 0 (some str) parts with
      | error e =>
        rw [hp] at h
        cases h
      | ok o =>
        rw [hp] at h
        cases o with
        | none => exact none_rejected hp
        | some parts' =>
          cases h
          exact absurd rfl h0
  · rintro (⟨vs, h⟩ | h)
    · refine ⟨0, octetsAddr vs, inetAton_octets h addr parts, iff_of_true rfl ⟨vs, h⟩, fun us hu => ?_, fun h0 => absurd rfl h0⟩
      -- the code is deterministic, so the octets are
      have := (inetAton_octets h addr parts).symm.trans (inetAton_octets hu addr parts)
      exact congrArg Prod.snd (Except.ok.inj this)
    · have hno : ∀ vs, ¬ Octets 4 str vs := fun vs hv => by
        cases (inetAton_rejected h addr parts).symm.trans (inetAton_octets hv addr parts)
      exact ⟨-EADDR, addr, inetAton_rejected h addr parts, iff_of_false (by decide) fun ⟨vs, hv⟩ => hno vs hv, fun vs hv => absurd hv (hno vs),
        fun _ => rfl⟩

def fiveParts : List Char := [49, 46, 50, 46, 51, 46, 52, 46, 53]

/-- A fifth part is not looked at. -/
theorem five_parts_read : inetAton fiveParts 0 (fun _ => 0) = .ok (0, 0x04030201) ∧ ¬ Reads fiveParts 0 fun _ => 0 := by
  have h : inetAton fiveParts 0 (fun _ => 0) = .ok (0, 0x04030201) := by decide
  refine ⟨h, ?_⟩
  rintro ⟨ret, a, hr, hret, -, -⟩
  cases h.symm.trans hr
  obtain ⟨vs, hv⟩ := hret.1 rfl
  -- four octets have three dots
  have hdots : fiveParts.count dot = 4 := by decide
  have := hv.dots
  omega

end Onix.Addr
