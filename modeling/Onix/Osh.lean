/-
The shell splits a command: `cmd_parse` in `builtin/osh.c`. The arguments are made in place: each is a pointer into the line, with a
zero written after it. A quote is a mode of the loop that looks for the next argument, which then skips all but a quote, the end of the
line included.
-/
import Mathlib.Data.List.TakeWhile
import Onix.Lib.Loop

namespace Onix.Osh

open List Function Onix.Lib

abbrev Byte := BitVec 8

def space : Byte := 0x20
def quote : Byte := 0x22

def maxArgNr : Nat := 16

/-- The line from `cmd` on, with the index of the zero that ends it, and the locals of `cmd_parse`. -/
structure Parse where
  cmd : Nat → Byte
  last : Nat
  argv : Nat → Option Nat
  next : Nat
  argc : Nat
  quot : Bool

/-- The byte `i` after the end of the line is read; an entry of `argv` is written that it does not have. -/
inductive Fault
  | past (i : Nat)
  | argv (i : Nat)
  | hang
  deriving DecidableEq

namespace Parse

def peek (s : Parse) : Except Fault Byte := if s.next ≤ s.last then .ok (s.cmd s.next) else .error (.past s.next)

def point (s : Parse) (i : Nat) (p : Option Nat) : Except Fault Parse :=
  if i < maxArgNr then .ok { s with argv := Function.update s.argv i p } else .error (.argv i)

def begin (s : Parse) : Except Fault Parse := do
  let s ← s.point s.argc (some s.next)
  pure { s with argc := s.argc + 1 }

def cut (s : Parse) : Parse := { s with cmd := Function.update s.cmd s.next 0, next := s.next + 1 }

def left (s : Parse) : Nat := s.last + 2 - s.next

end Parse

def advance (p : Byte → Bool) : Nat → Parse → Except Fault Parse
  | 0, _ => .error .hang
  | fuel + 1, s => do
    let ch ← s.peek
    if p ch then advance p fuel { s with next := s.next + 1 } else pure s

def skip (s : Parse) : Except Fault Parse := advance (fun ch => ch == space || s.quot && ch != quote) s.left s

def word (s : Parse) : Except Fault Parse := advance (fun ch => ch != 0 && ch != space) s.left s

def cmdLoop : Nat → Parse → Except Fault Parse
  | 0, _ => .error .hang
  | fuel + 1, s => do
    let ch ← s.peek
    if ch ≠ 0 ∧ s.argc < maxArgNr then
      let s ← skip s
      let ch ← s.peek
      if ch = 0 then pure s
      else if ch = quote then
        let s := { s with quot := !s.quot }
        if s.quot then
          let s ← Parse.begin { s with next := s.next + 1 }
          cmdLoop fuel s
        else cmdLoop fuel s.cut
      else
        let s ← s.begin
        let s ← word s
        let ch ← s.peek
        if ch ≠ 0 then cmdLoop fuel s.cut else cmdLoop fuel s
    else pure s

/-- `cmd_parse`: `argc`, `argv` and the line are read off the result. -/
def cmdParse (cmd : Nat → Byte) (last : Nat) (argv : Nat → Option Nat) : Except Fault Parse := do
  let s ← cmdLoop (last + 2) { cmd := cmd, last := last, argv := argv, next := 0, argc := 0, quot := false }
  s.point s.argc none

/-! ## What it should do -/

theorem length_after (p : Byte → Bool) (l : List Byte) : (l.dropWhile p).tail.length ≤ l.length := by
  rw [length_tail]
  exact Nat.le_trans (Nat.sub_le _ _) (dropWhile_suffix _).length_le

/-- The words of a line and its strings in quotes. A word ends at a space; a quote that no other one follows is a part of a word. -/
def arguments : List Byte → List (List Byte)
  | [] => []
  | ch :: l =>
    if ch = space then arguments l
    else if ch = quote ∧ quote ∈ l then l.takeWhile (· != quote) :: arguments (l.dropWhile (· != quote)).tail
    else (ch :: l.takeWhile (· != space)) :: arguments (l.dropWhile (· != space)).tail
termination_by l => l.length
decreasing_by
  · exact Nat.lt_succ_self _
  · exact Nat.lt_succ_of_le (length_after _ _)
  · exact Nat.lt_succ_of_le (length_after _ _)

def closed : List Byte → Bool
  | [] => true
  | ch :: l =>
    if ch = space then closed l
    else if ch = quote then decide (quote ∈ l) && closed (l.dropWhile (· != quote)).tail
    else closed (l.dropWhile (· != space)).tail
termination_by l => l.length
decreasing_by
  · exact Nat.lt_succ_self _
  · exact Nat.lt_succ_of_le (length_after _ _)
  · exact Nat.lt_succ_of_le (length_after _ _)

def Text (m : Nat → Byte) : Nat → List Byte → Prop
  | p, [] => m p = 0
  | p, ch :: l => m p = ch ∧ ch ≠ 0 ∧ Text m (p + 1) l

def Args (argv : Nat → Option Nat) (m : Nat → Byte) : Nat → List (List Byte) → Prop
  | _, [] => True
  | n, t :: ts => (∃ p, argv n = some p ∧ Text m p t) ∧ Args argv m (n + 1) ts

/-- The arguments of a line, and `NULL` after them. -/
structure Parsed (line : List Byte) (s : Parse) : Prop where
  argc : s.argc = (arguments line).length
  args : Args s.argv s.cmd 0 (arguments line)
  last : s.argv s.argc = none

/-! ## Text -/

variable {m m' : Nat → Byte} {p n i : Nat} {l t : List Byte} {s d : Parse}
variable {q : Byte → Bool}

theorem Text.congr : ∀ {l : List Byte} {p : Nat}, Text m p l → (∀ i, p ≤ i → i ≤ p + l.length → m' i = m i) → Text m' p l
  | [], p, h, he => (he p (Nat.le_refl _) (Nat.le_refl _)).trans h
  | ch :: l, p, ⟨h1, h2, h3⟩, he => by
    rw [length_cons] at he
    exact ⟨(he p (by omega) (by omega)).trans h1, h2, h3.congr fun i hi hl => he i (by omega) (by omega)⟩

theorem Text.drop : ∀ {t : List Byte} {p : Nat}, Text m p (t ++ l) → Text m (p + t.length) l
  | [], _, h => h
  | _ :: t, p, ⟨_, _, h⟩ => by
    rw [length_cons, show p + (t.length + 1) = p + 1 + t.length by omega]
    exact Text.drop h

theorem Text.cut : ∀ {t : List Byte} {p : Nat}, Text m p (t ++ l) → Text (update m (p + t.length) 0) p t
  | [], _, _ => update_self ..
  | ch :: t, p, ⟨h1, h2, h3⟩ => by
    rw [length_cons, show p + (t.length + 1) = p + 1 + t.length by omega]
    exact ⟨(update_of_ne (by omega) ..).trans h1, h2, Text.cut h3⟩

theorem Text.ne_zero : ∀ {l : List Byte} {p : Nat}, Text m p l → ∀ ch ∈ l, ch ≠ 0
  | _ :: _, _, ⟨_, h2, h3⟩, c, hc => by
    rcases mem_cons.1 hc with rfl | hc
    · exact h2
    · exact h3.ne_zero c hc

theorem Text.head (h : Text m p l) : m p = l.headD 0 := by
  cases l with
  | nil => exact h
  | cons ch l => exact h.1

/-- A text starts at `next`, up to the end of the line. -/
structure Rest (s : Parse) (l : List Byte) : Prop where
  text : Text s.cmd s.next l
  last : s.last = s.next + l.length

namespace Rest

theorem peek (h : Rest s l) : s.peek = .ok (l.headD 0) := by
  unfold Parse.peek
  rw [if_pos (by have := h.last; omega), h.text.head]

theorem step {ch : Byte} (h : Rest s (ch :: l)) : Rest { s with next := s.next + 1 } l := by
  refine ⟨h.text.2.2, ?_⟩
  have := h.last
  rw [length_cons] at this
  show s.last = s.next + 1 + l.length
  omega

theorem left_eq (h : Rest s l) : s.left = l.length + 2 := by
  have := h.last
  unfold Parse.left
  omega

theorem advance : ∀ {t : List Byte} {s : Parse}, Rest s (t ++ l) → (∀ ch ∈ t, q ch) → q (l.headD 0) = false →
    advance q s.left s = .ok { s with next := s.next + t.length } ∧ Rest { s with next := s.next + t.length } l
  | [], s, h, _, hq => by
    refine ⟨?_, h⟩
    rw [h.left_eq]
    unfold Osh.advance
    rw [h.peek]
    show (if q (l.headD 0) then _ else _) = _
    rw [hq]
    rfl
  | ch :: t, s, h, hp, hq => by
    obtain ⟨h1, h2⟩ := Rest.advance h.step (fun c hc => hp c (.tail _ hc)) hq
    have h3 : s.next + 1 + t.length = s.next + (ch :: t).length := by
      rw [length_cons]
      omega
    rw [h3] at h1 h2
    refine ⟨?_, h2⟩
    rw [h.step.left_eq] at h1
    rw [h.left_eq]
    unfold Osh.advance
    rw [h.peek]
    show (if q ch then _ else _) = _
    rw [if_pos (hp ch mem_cons_self)]
    exact h1

theorem advance_past (h0 : q 0) : ∀ {l : List Byte} {s : Parse}, Rest s l → (∀ ch ∈ l, q ch) →
    Osh.advance q s.left s = .error (.past (s.last + 1))
  | [], s, h, _ => by
    rw [h.left_eq]
    unfold Osh.advance
    rw [h.peek]
    show (if q 0 then _ else _) = _
    rw [if_pos h0]
    unfold Osh.advance Parse.peek
    rw [if_neg (by have := h.last; dsimp only [length_nil] at this ⊢; omega)]
    have := h.last
    rw [this]
    rfl
  | ch :: l, s, h, hp => by
    have h1 := advance_past h0 h.step fun c hc => hp c (.tail _ hc)
    rw [h.step.left_eq] at h1
    rw [h.left_eq]
    unfold Osh.advance
    rw [h.peek]
    show (if q ch then _ else _) = _
    rw [if_pos (hp ch mem_cons_self)]
    exact h1

end Rest

theorem split_at {c : Byte} (h : c ∈ l) : l = l.takeWhile (· != c) ++ c :: (l.dropWhile (· != c)).tail := by
  induction l with
  | nil => cases h
  | cons ch l ih =>
    by_cases hc : ch = c
    · subst hc
      simp
    · have h1 : (ch != c) = true := bne_iff_ne.2 hc
      rw [takeWhile_cons_of_pos (p := (· != c)) h1, dropWhile_cons_of_pos (p := (· != c)) h1]
      exact congrArg (ch :: ·) (ih ((mem_cons.1 h).resolve_left (Ne.symm hc)))

theorem not_mem_takeWhile (c : Byte) (l : List Byte) : ∀ ch ∈ l.takeWhile (· != c), ch ≠ c :=
  fun _ h => bne_iff_ne.1 (mem_takeWhile_imp (p := (· != c)) h)

/-! ## Rounds -/

variable {ch : Byte} {f : Nat}

def Parse.opened (s : Parse) (k : Nat) : Parse :=
  { s with next := s.next + k, argv := Function.update s.argv s.argc (some (s.next + k)), argc := s.argc + 1 }

theorem begin_ok (ha : s.argc < maxArgNr) : s.begin = .ok (s.opened 0) := by
  unfold Parse.begin Parse.point
  rw [if_pos ha]
  rfl

def found (fuel : Nat) (s : Parse) : Except Fault Parse := do
  let ch ← s.peek
  if ch = 0 then pure s
  else if ch = quote then
    let s := { s with quot := !s.quot }
    if s.quot then
      let s ← Parse.begin { s with next := s.next + 1 }
      cmdLoop fuel s
    else cmdLoop fuel s.cut
  else
    let s ← s.begin
    let s ← word s
    let ch ← s.peek
    if ch ≠ 0 then cmdLoop fuel s.cut else cmdLoop fuel s

theorem cmdLoop_succ : cmdLoop (f + 1) s = s.peek >>= fun ch => if ch ≠ 0 ∧ s.argc < maxArgNr then skip s >>= found f else .ok s := rfl

theorem cmdLoop_nil (h : Rest s []) : cmdLoop (f + 1) s = .ok s := by
  rw [cmdLoop_succ, h.peek]
  rfl

theorem cmdLoop_cons (h : Rest s (ch :: l)) (ha : s.argc < maxArgNr) : cmdLoop (f + 1) s = skip s >>= found f := by
  rw [cmdLoop_succ, h.peek]
  exact if_pos ⟨h.text.2.1, ha⟩

theorem skip_stop (h : Rest s l) (hl : (l.headD 0 == space || s.quot && l.headD 0 != quote) = false) : skip s = .ok s :=
  (h.advance (q := fun ch => ch == space || s.quot && ch != quote) (t := []) (fun _ hc => nomatch hc) hl).1

theorem found_nil (h : Rest s []) : found f s = .ok s := by
  unfold found
  rw [h.peek]
  rfl

theorem found_quote (h : Rest s (quote :: l)) :
    found f s = if s.quot then cmdLoop f { s with quot := false }.cut else Parse.begin { s with quot := true, next := s.next + 1 } >>= cmdLoop f := by
  unfold found
  rw [h.peek]
  cases hq : s.quot with
  | false => rfl
  | true => rfl

theorem found_word (h : Rest s (ch :: l)) (hc : ch ≠ quote) :
    found f s = s.begin >>= word >>= fun s => s.peek >>= fun ch => if ch ≠ 0 then cmdLoop f s.cut else cmdLoop f s := by
  unfold found
  rw [h.peek]
  refine (if_neg h.text.2.1).trans ((if_neg hc).trans ?_)
  rw [bind_assoc]

theorem cmdLoop_space (h : Rest s (space :: l)) (hq : s.quot = false) (ha : s.argc < maxArgNr) :
    cmdLoop (f + 1) s = cmdLoop (f + 1) { s with next := s.next + 1 } := by
  have h1 : skip s = skip { s with next := s.next + 1 } := by
    unfold skip
    rw [h.left_eq, h.step.left_eq, length_cons]
    conv_lhs => unfold advance
    rw [h.peek]
    rfl
  rw [cmdLoop_cons h ha, h1]
  cases l with
  | nil =>
    rw [cmdLoop_nil h.step, skip_stop h.step (by rw [hq]; rfl)]
    exact found_nil h.step
  | cons ch l => rw [cmdLoop_cons h.step ha]

theorem cmdLoop_open (h : Rest s (quote :: l)) (hq : s.quot = false) (ha : s.argc < maxArgNr) :
    cmdLoop (f + 1) s = cmdLoop f { s.opened 1 with quot := true } := by
  rw [cmdLoop_cons h ha, skip_stop h (by rw [hq]; rfl)]
  show found f s = _
  rw [found_quote h, hq, begin_ok (s := { s with quot := true, next := s.next + 1 }) ha]
  rfl

theorem cmdLoop_close (h : Rest s (t ++ quote :: l)) (hq : s.quot = true) (ht : ∀ ch ∈ t, ch ≠ quote) (ha : s.argc < maxArgNr) :
    cmdLoop (f + 1) s = cmdLoop f { s with next := s.next + t.length, quot := false }.cut := by
  have h1 : ∃ ch l', t ++ quote :: l = ch :: l' := by
    cases t with
    | nil => exact ⟨_, _, rfl⟩
    | cons ch t => exact ⟨_, _, rfl⟩
  obtain ⟨ch, l', he⟩ := h1
  have h2 := h.advance (q := fun ch => ch == space || s.quot && ch != quote)
    (fun ch hc => by
      rw [hq]
      exact Bool.or_eq_true_iff.2 (.inr (bne_iff_ne.2 (ht ch hc)))) (by rw [hq]; rfl)
  rw [he] at h
  rw [cmdLoop_cons h ha]
  unfold skip
  rw [h2.1]
  show found f _ = _
  rw [found_quote h2.2]
  exact if_pos hq

theorem cmdLoop_past (h : Rest s (ch :: l)) (hq : s.quot = true) (hl : ∀ c ∈ ch :: l, c ≠ quote) (ha : s.argc < maxArgNr) :
    cmdLoop (f + 1) s = .error (.past (s.last + 1)) := by
  rw [cmdLoop_cons h ha]
  unfold skip
  rw [h.advance_past (q := fun ch => ch == space || s.quot && ch != quote) (by rw [hq]; rfl) fun c hc => by
    rw [hq]
    exact Bool.or_eq_true_iff.2 (.inr (bne_iff_ne.2 (hl c hc)))]
  rfl

def Parse.taken (s : Parse) (k : Nat) : Parse := { s.opened 0 with next := s.next + k }

theorem cmdLoop_word (h : Rest s (ch :: t ++ l)) (hq : s.quot = false) (hs : ch ≠ space) (hc : ch ≠ quote) (ht : ∀ c ∈ t, c ≠ space)
    (hl : l.headD 0 = 0 ∨ l.headD 0 = space) (ha : s.argc < maxArgNr) : Rest (s.taken (t.length + 1)) l ∧
    cmdLoop (f + 1) s = if l.headD 0 ≠ 0 then cmdLoop f (s.taken (t.length + 1)).cut else cmdLoop f (s.taken (t.length + 1)) := by
  have h0 : Rest (s.opened 0) (ch :: t ++ l) := ⟨h.text, h.last⟩
  have h1 : ∀ c ∈ ch :: t, (c != 0 && c != space) = true := fun c hm => by
    have h2 : Text s.cmd s.next ((ch :: t) ++ l) := h.text
    refine Bool.and_eq_true_iff.2 ⟨bne_iff_ne.2 (h2.ne_zero c (mem_append_left _ hm)), bne_iff_ne.2 ?_⟩
    rcases mem_cons.1 hm with rfl | hm
    · exact hs
    · exact ht c hm
  have h2 := h0.advance (t := ch :: t) h1 (by rcases hl with hl | hl <;> rw [hl] <;> rfl)
  refine ⟨h2.2, ?_⟩
  have h3 : skip s = .ok s := skip_stop h (by
    rw [hq]
    exact Bool.or_eq_false_iff.2 ⟨beq_false_of_ne hs, rfl⟩)
  rw [cmdLoop_cons h ha, h3]
  show found f s = _
  rw [found_word h hc, begin_ok ha]
  show word (s.opened 0) >>= _ = _
  unfold word
  rw [h2.1]
  show (Parse.peek _ >>= _) = _
  rw [h2.2.peek]
  rfl

/-! ## Runs -/

/-- The arguments `ts` were added; what lies before is kept. -/
structure Added (s d : Parse) (ts : List (List Byte)) : Prop where
  argc : d.argc = s.argc + ts.length
  args : Args d.argv d.cmd s.argc ts
  cmd : ∀ i < s.next, d.cmd i = s.cmd i
  argv : ∀ i < s.argc, d.argv i = s.argv i

variable {s' : Parse} {ts : List (List Byte)}

theorem Added.refl (s : Parse) : Added s s [] := ⟨rfl, trivial, fun _ _ => rfl, fun _ _ => rfl⟩

theorem Added.cons (h : Added s' d ts) (ha : s'.argc = s.argc + 1) (hv : s'.argv = update s.argv s.argc (some p))
    (ht : Text d.cmd p t) (hn : s.next ≤ s'.next) (hc : ∀ i < s.next, s'.cmd i = s.cmd i) : Added s d (t :: ts) where
  argc := by
    rw [h.argc, ha, length_cons]
    omega
  args := by
    refine ⟨⟨p, ?_, ht⟩, by rw [← ha]; exact h.args⟩
    rw [h.argv _ (by omega), hv, update_self]
  cmd i hi := (h.cmd i (by omega)).trans (hc i hi)
  argv i hi := by
    rw [h.argv i (by omega), hv, update_of_ne (by omega)]

theorem Added.text (h : Added s d ts) (ht : Text s.cmd p t) (hp : p + t.length < s.next) : Text d.cmd p t :=
  ht.congr fun i _ hi => h.cmd i (by omega)

theorem Rest.cut (h : Rest s (ch :: l)) : Rest s.cut l := by
  refine ⟨h.text.2.2.congr fun i hi _ => update_of_ne (by omega) .., ?_⟩
  have := h.last
  rw [length_cons] at this
  show s.last = s.next + 1 + l.length
  omega

theorem closed_quote (hl : quote ∈ l) : closed (quote :: l) = closed (l.dropWhile (· != quote)).tail := by
  rw [closed, if_neg (by decide), if_pos rfl, decide_eq_true hl, Bool.true_and]

theorem closed_word (hs : ch ≠ space) (hc : ch ≠ quote) : closed (ch :: l) = closed (l.dropWhile (· != space)).tail := by
  rw [closed, if_neg hs, if_neg hc]

theorem word_parts (l : List Byte) : ∃ r, l = l.takeWhile (· != space) ++ r ∧
    (r = [] ∧ (l.dropWhile (· != space)).tail = [] ∨ r = space :: (l.dropWhile (· != space)).tail) := by
  by_cases h : space ∈ l
  · exact ⟨_, split_at h, .inr rfl⟩
  · have h1 : ∀ c ∈ l, (c != space) = true := fun c hc => bne_iff_ne.2 fun he => h (he ▸ hc)
    refine ⟨[], ?_, .inl ⟨rfl, ?_⟩⟩
    · rw [append_nil, takeWhile_eq_self_iff.2 h1]
    · rw [dropWhile_eq_nil_iff.2 h1]
      rfl

/-- The argument `t` was taken, and `l` is left. -/
structure Takes (s s' : Parse) (t l : List Byte) : Prop where
  rest : Rest s' l
  quot : s'.quot = false
  argc : s'.argc = s.argc + 1
  next : s.next ≤ s'.next
  cmd : ∀ i < s.next, s'.cmd i = s.cmd i
  text : ∃ p, s'.argv = Function.update s.argv s.argc (some p) ∧ Text s'.cmd p t ∧ (p + t.length < s'.next ∨ l = [])

theorem Takes.added (h : Takes s s' t l) (hf : cmdLoop f s' = .ok d) (hd : Added s' d ts) : Added s d (t :: ts) := by
  obtain ⟨p, hp, ht, he⟩ := h.text
  refine hd.cons h.argc hp ?_ h.next h.cmd
  rcases he with he | rfl
  · exact hd.text ht he
  · -- nothing is written after the end of the line
    cases f with
    | zero => cases hf
    | succ f =>
      rw [cmdLoop_nil h.rest] at hf
      cases hf
      exact ht

theorem cmdLoop_string (h : Rest s (quote :: l)) (hq : s.quot = false) (hm : quote ∈ l) (ha : s.argc + 1 < maxArgNr) :
    ∃ s', Takes s s' (l.takeWhile (· != quote)) (l.dropWhile (· != quote)).tail ∧ ∀ f, cmdLoop (f + 2) s = cmdLoop f s' := by
  have h1 : Rest { s.opened 1 with quot := true } (l.takeWhile (· != quote) ++ quote :: (l.dropWhile (· != quote)).tail) := by
    rw [← split_at hm]
    exact ⟨h.step.text, h.step.last⟩
  have h2 : Rest { s.opened 1 with next := s.next + 1 + (l.takeWhile (· != quote)).length, quot := false }
      (quote :: (l.dropWhile (· != quote)).tail) := by
    refine ⟨h1.text.drop, h1.last.trans ?_⟩
    rw [length_append]
    exact (Nat.add_assoc ..).symm
  refine ⟨_, ⟨h2.cut, rfl, rfl, ?_, fun i hi => update_of_ne ?_ .., s.next + 1, rfl, h1.text.cut, .inl ?_⟩, fun f => ?_⟩
  · show s.next ≤ s.next + 1 + (l.takeWhile (· != quote)).length + 1
    omega
  · show i ≠ s.next + 1 + (l.takeWhile (· != quote)).length
    omega
  · exact Nat.lt_succ_self _
  · rw [cmdLoop_open h hq (by omega)]
    exact cmdLoop_close h1 rfl (not_mem_takeWhile _ _) ha

theorem cmdLoop_taken (h : Rest s (ch :: l)) (hq : s.quot = false) (hs : ch ≠ space) (hc : ch ≠ quote) (ha : s.argc < maxArgNr) :
    ∃ s', Takes s s' (ch :: l.takeWhile (· != space)) (l.dropWhile (· != space)).tail ∧ ∀ f, cmdLoop (f + 1) s = cmdLoop f s' := by
  obtain ⟨r, hr, h1⟩ := word_parts l
  have h2 : Rest s (ch :: l.takeWhile (· != space) ++ r) := by
    rw [cons_append, ← hr]
    exact h
  have h3 : r.headD 0 = 0 ∨ r.headD 0 = space := by
    rcases h1 with ⟨rfl, _⟩ | h1
    · exact .inl rfl
    · rw [h1]
      exact .inr rfl
  have h4 := fun f => cmdLoop_word (f := f) h2 hq hs hc (not_mem_takeWhile _ _) h3 ha
  rcases h1 with ⟨rfl, h1⟩ | h1
  · refine ⟨s.taken _, ⟨?_, hq, rfl, Nat.le_add_right .., fun _ _ => rfl, s.next, rfl, ?_, .inr h1⟩, fun f => (h4 f).2⟩
    · rw [h1]
      exact (h4 0).1
    · rw [append_nil] at h2
      exact h2.text
  · rw [h1] at h2 h4
    refine ⟨_, ⟨(h4 0).1.cut, hq, rfl, ?_, fun i hi => update_of_ne ?_ .., s.next, rfl, h2.text.cut, .inl ?_⟩, fun f => (h4 f).2⟩
    · show s.next ≤ s.next + _ + 1
      omega
    · show i ≠ s.next + ((l.takeWhile (· != space)).length + 1)
      omega
    · exact Nat.lt_succ_self _

theorem run_closed (l : List Byte) : ∀ (f : Nat) (s : Parse), Rest s l → s.quot = false → closed l = true →
    s.argc + (arguments l).length < maxArgNr → l.length < f → ∃ d, cmdLoop f s = .ok d ∧ Added s d (arguments l) := by
  induction l using arguments.induct with
  | case1 =>
    intro f s h _ _ _ hf
    obtain ⟨f, rfl⟩ := Nat.exists_eq_add_one.2 hf
    rw [arguments]
    exact ⟨s, cmdLoop_nil h, .refl s⟩
  | case2 l ih =>
    intro f s h hq hc ha hf
    rw [arguments, if_pos rfl] at ha ⊢
    rw [closed, if_pos rfl] at hc
    rw [length_cons] at hf
    obtain ⟨f, rfl⟩ := Nat.exists_eq_add_one.2 (Nat.zero_lt_of_lt hf)
    rw [cmdLoop_space h hq (by omega)]
    obtain ⟨d, hd, h1⟩ := ih (f + 1) _ h.step hq hc ha (by omega)
    exact ⟨d, hd, h1.argc, h1.args, fun i hi => h1.cmd i (Nat.lt_succ_of_lt hi), h1.argv⟩
  | case3 ch l hs hr ih =>
    intro f s h hq hc ha hf
    obtain ⟨rfl, hm⟩ := hr
    rw [arguments, if_neg hs, if_pos ⟨rfl, hm⟩] at ha ⊢
    rw [closed_quote hm] at hc
    rw [length_cons] at ha hf
    obtain ⟨f, rfl⟩ := Nat.exists_eq_add_of_le' (show 2 ≤ f by have := length_pos_of_mem hm; omega)
    obtain ⟨s', ht, he⟩ := cmdLoop_string h hq hm (by omega)
    have hl : (l.dropWhile (· != quote)).tail.length < l.length := by
      conv_rhs => rw [split_at hm]
      rw [length_append, length_cons]
      omega
    obtain ⟨d, hd, h1⟩ := ih f s' ht.rest ht.quot hc (by rw [ht.argc]; omega) (by omega)
    exact ⟨d, (he f).trans hd, ht.added hd h1⟩
  | case4 ch l hs hr ih =>
    intro f s h hq hc ha hf
    have hn : ch ≠ quote := by
      rintro rfl
      rw [closed, if_neg hs, if_pos rfl, Bool.and_eq_true, decide_eq_true_iff] at hc
      exact hr ⟨rfl, hc.1⟩
    rw [arguments, if_neg hs, if_neg hr] at ha ⊢
    rw [closed_word hs hn] at hc
    rw [length_cons] at ha hf
    obtain ⟨f, rfl⟩ := Nat.exists_eq_add_one.2 (Nat.zero_lt_of_lt hf)
    obtain ⟨s', ht, he⟩ := cmdLoop_taken h hq hs hn (by omega)
    have hl := length_after (· != space) l
    obtain ⟨d, hd, h1⟩ := ih f s' ht.rest ht.quot hc (by rw [ht.argc]; omega) (by omega)
    exact ⟨d, (he f).trans hd, ht.added hd h1⟩

/-- Where the arguments are found, each quote is closed: after one that is not, the end of the line is passed, or it starts an argument
that is empty. -/
theorem run_ok (l : List Byte) : ∀ (f : Nat) (s d : Parse), Rest s l → s.quot = false → cmdLoop f s = .ok d →
    d.argc = s.argc + (arguments l).length → d.argc < maxArgNr → Args d.argv d.cmd s.argc (arguments l) → closed l = true := by
  induction l using arguments.induct with
  | case1 =>
    intro f s d _ _ _ _ _ _
    rw [closed]
  | case2 l ih =>
    intro f s d h hq hd ha hm hp
    rw [arguments, if_pos rfl] at ha hp
    rw [closed, if_pos rfl]
    cases f with
    | zero => cases hd
    | succ f =>
      rw [cmdLoop_space h hq (by omega)] at hd
      exact ih (f + 1) _ d h.step hq hd ha hm hp
  | case3 ch l hs hr ih =>
    intro f s d h hq hd ha hm hp
    obtain ⟨rfl, hl⟩ := hr
    rw [arguments, if_neg hs, if_pos ⟨rfl, hl⟩] at ha hp
    rw [length_cons] at ha
    rw [closed_quote hl]
    obtain ⟨s', ht, he⟩ := cmdLoop_string h hq hl (by omega)
    match f with
    | 0 => cases hd
    | 1 =>
      rw [cmdLoop_open h hq (by omega)] at hd
      cases hd
    | f + 2 =>
      rw [he] at hd
      refine ih f s' d ht.rest ht.quot hd (by rw [ht.argc]; omega) hm ?_
      rw [ht.argc]
      exact hp.2
  | case4 ch l hs hr ih =>
    intro f s d h hq hd ha hm hp
    rw [arguments, if_neg hs, if_neg hr] at ha hp
    rw [length_cons] at ha
    cases f with
    | zero => cases hd
    | succ f =>
      by_cases hn : ch = quote
      · subst hn
        have hl : quote ∉ l := fun hl => hr ⟨rfl, hl⟩
        rw [cmdLoop_open h hq (by omega)] at hd
        have h1 : Rest { s.opened 1 with quot := true } l := ⟨h.step.text, h.step.last⟩
        cases f with
        | zero => cases hd
        | succ f =>
          cases l with
          | nil =>
            rw [cmdLoop_nil h1] at hd
            cases hd
            obtain ⟨⟨p, he, ht⟩, _⟩ := hp
            have h2 : update s.argv s.argc (some (s.next + 1)) s.argc = some p := he
            rw [update_self, Option.some_inj] at h2
            have h3 : s.cmd (s.next + 1) = 0 := h1.text
            rw [h2] at h3
            exact absurd (ht.1.symm.trans h3) (by decide)
          | cons c l =>
            rw [cmdLoop_past h1 rfl (fun c hc he => hl (he ▸ hc)) (show s.argc + 1 < maxArgNr by omega)] at hd
            cases hd
      · rw [closed_word hs hn]
        obtain ⟨s', ht, he⟩ := cmdLoop_taken h hq hs hn (by omega)
        rw [he] at hd
        refine ih f s' d ht.rest ht.quot hd (by rw [ht.argc]; omega) hm ?_
        rw [ht.argc]
        exact hp.2

/-! ## Rounds are enough -/

theorem advance_ends : ∀ (fuel : Nat) (s : Parse), s.next ≤ s.last + 1 → s.left ≤ fuel →
    Sat (· = .hang) (advance q fuel s) fun d => d.last = s.last ∧ s.next ≤ d.next
  | 0, s, h1, h2 => by
    unfold Parse.left at h2
    omega
  | fuel + 1, s, h1, h2 => by
    refine Sat.bind (Q := fun _ => s.next ≤ s.last) ?_ fun ch _ hn => sat_ite (fun _ => ?_) fun _ => ⟨rfl, Nat.le_refl _⟩
    · exact sat_ite (fun h => h) fun _ => Sat.error (by rintro ⟨⟩)
    · refine (advance_ends fuel { s with next := s.next + 1 } (Nat.succ_le_succ hn) ?_).mono fun d hd => ⟨hd.1, Nat.le_of_succ_le hd.2⟩
      unfold Parse.left at h2 ⊢
      dsimp only
      omega

theorem cmdLoop_ends : ∀ (fuel : Nat) (s : Parse), s.next ≤ s.last + 1 → s.left ≤ fuel → Sat (· = .hang) (cmdLoop fuel s) fun _ => True
  | 0, s, h1, h2 => by
    unfold Parse.left at h2
    omega
  | fuel + 1, s, h1, h2 => by
    have hp : ∀ s : Parse, Sat (· = .hang) s.peek fun _ => s.next ≤ s.last := fun s =>
      sat_ite (fun h => h) fun _ => Sat.error (by rintro ⟨⟩)
    have hb : ∀ s : Parse, Sat (· = .hang) s.begin fun d => d.last = s.last ∧ d.next = s.next := fun s => by
      refine Sat.bind (Q := fun d => d.last = s.last ∧ d.next = s.next) ?_ fun d _ hd => Sat.ok hd
      exact sat_ite (fun _ => ⟨rfl, rfl⟩) fun _ => Sat.error (by rintro ⟨⟩)
    -- a round that has gone on by one byte at least
    have hr : ∀ d : Parse, d.last = s.last → s.next + 1 ≤ d.next → d.next ≤ s.last + 1 → Sat (· = .hang) (cmdLoop fuel d) fun _ => True :=
      fun d h3 h4 h5 => cmdLoop_ends fuel d (by rw [h3]; exact h5) (by unfold Parse.left at h2 ⊢; rw [h3]; omega)
    refine (hp s).bind fun ch _ h3 => sat_ite (fun _ => ?_) fun _ => trivial
    refine (advance_ends s.left s h1 (Nat.le_refl _)).bind fun d _ hd => ?_
    refine (hp d).bind fun ch _ h4 => sat_ite (fun _ => trivial) fun _ => sat_ite (fun _ => ?_) fun _ => ?_
    · refine sat_ite (fun _ => (hb _).bind fun e _ he => ?_) fun _ => hr _ hd.1 (Nat.succ_le_succ hd.2) ?_
      · exact hr e (he.1.trans hd.1) (by rw [he.2]; exact Nat.succ_le_succ hd.2) (by rw [he.2]; show d.next + 1 ≤ _; omega)
      · show d.next + 1 ≤ _
        omega
    · refine (hb d).bind fun e _ he => ?_
      have h5 : e.next ≤ e.last + 1 := by rw [he.1, he.2]; omega
      refine (advance_ends e.left e h5 (Nat.le_refl _)).bind fun g _ hg => ?_
      refine (Sat.imp (hp g) fun ch hch hn => And.intro hch hn).bind fun ch _ hch => sat_ite (fun _ => ?_) fun hz => ?_
      · exact hr g.cut (hg.1.trans (he.1.trans hd.1)) (by show s.next + 1 ≤ g.next + 1; omega) (by show g.next + 1 ≤ _; omega)
      · -- at the end of the line the next round is the last one
        obtain ⟨f, rfl⟩ := Nat.exists_eq_add_one.2 (show 0 < fuel by unfold Parse.left at h2; omega)
        rw [cmdLoop_succ, hch.1]
        exact sat_ite (fun h => absurd h.1 hz) fun _ => trivial

theorem Args.congr {argv argv' : Nat → Option Nat} : ∀ {ts : List (List Byte)} {n : Nat}, Args argv m n ts →
    (∀ i < n + ts.length, argv' i = argv i) → Args argv' m n ts
  | [], _, _, _ => trivial
  | t :: ts, n, ⟨⟨p, hp, ht⟩, h⟩, he => by
    rw [length_cons] at he
    exact ⟨⟨p, (he n (by omega)).trans hp, ht⟩, h.congr fun i hi => he i (by omega)⟩

/-- A line is split as it should be just when each of its quotes is closed and `argv` has an entry for the `NULL`; splitting ends. -/
theorem cmdParse_arguments {line : List Byte} (h : Text m 0 line) (argv : Nat → Option Nat) : cmdParse m line.length argv ≠ .error .hang ∧
    ((∃ d, cmdParse m line.length argv = .ok d ∧ Parsed line d) ↔ closed line = true ∧ (arguments line).length < maxArgNr) := by
  have h0 : Rest { cmd := m, last := line.length, argv := argv, next := 0, argc := 0, quot := false } line :=
    ⟨h, (Nat.zero_add _).symm⟩
  refine ⟨fun he => ?_, fun ⟨d, hd, hp⟩ => ?_, fun ⟨hc, ha⟩ => ?_⟩
  · suffices h1 : Sat (· = .hang) (cmdParse m line.length argv) fun _ => True from h1.not_bad he rfl
    refine (cmdLoop_ends (line.length + 2) { cmd := m, last := line.length, argv := argv, next := 0, argc := 0, quot := false }
      (Nat.zero_le _) (Nat.le_refl _)).bind fun _ _ _ => ?_
    exact sat_ite (fun _ => trivial) fun _ => Sat.error (by rintro ⟨⟩)
  · obtain ⟨s, hs, hd⟩ := bind_ok hd
    unfold Parse.point at hd
    split at hd
    · rename_i hm
      cases hd
      have h1 : s.argc = (arguments line).length := hp.argc
      refine ⟨run_ok line _ _ s h0 rfl hs (by rw [h1]; exact (Nat.zero_add _).symm) hm (hp.args.congr fun i hi => ?_), h1 ▸ hm⟩
      exact (Function.update_of_ne (by omega) ..).symm
    · cases hd
  · obtain ⟨s, hs, hd⟩ := run_closed line (line.length + 2) _ h0 rfl hc (by rw [Nat.zero_add]; exact ha) (by omega)
    have h1 : s.argc = (arguments line).length := hd.argc.trans (Nat.zero_add _)
    have h2 : Args s.argv s.cmd 0 (arguments line) := hd.args
    refine ⟨{ s with argv := Function.update s.argv s.argc none }, ?_, h1, h2.congr fun i hi => Function.update_of_ne ?_ ..,
      Function.update_self ..⟩
    · unfold cmdParse
      rw [hs]
      exact if_pos (h1 ▸ ha)
    · omega

/-! ## Lines -/

def bytes (line : List Byte) (i : Nat) : Byte := line.getD i 0

theorem text_bytes : ∀ (pre line : List Byte), (∀ ch ∈ line, ch ≠ 0) → Text (bytes (pre ++ line)) pre.length line
  | pre, [], _ => by
    show (pre ++ []).getD pre.length 0 = 0
    simp
  | pre, ch :: line, h => by
    refine ⟨?_, h ch mem_cons_self, ?_⟩
    · show (pre ++ ch :: line).getD pre.length 0 = ch
      simp
    · have h1 := text_bytes (pre ++ [ch]) line fun c hc => h c (.tail _ hc)
      rw [append_assoc, length_append] at h1
      exact h1

/-- `ls "a b"` -/
theorem cmdParse_ls : ∃ d, cmdParse (bytes [0x6C, 0x73, 0x20, 0x22, 0x61, 0x20, 0x62, 0x22]) 8 (fun _ => none) = .ok d ∧
    Parsed [0x6C, 0x73, 0x20, 0x22, 0x61, 0x20, 0x62, 0x22] d :=
  (cmdParse_arguments (text_bytes [] [0x6C, 0x73, 0x20, 0x22, 0x61, 0x20, 0x62, 0x22] (by decide)) fun _ => none).2.2
    ⟨by simp [closed, space, quote], by simp [arguments, space, quote, maxArgNr]⟩

/-- A quote that is not closed takes the parser past the end of the line; sixteen words take it past the end of `argv`. -/
theorem cmdParse_past : cmdParse (bytes [0x22, 0x61]) 2 (fun _ => none) = .error (.past 3) ∧
    (¬ ∃ d, cmdParse (bytes [0x22, 0x61]) 2 (fun _ => none) = .ok d ∧ Parsed [0x22, 0x61] d) ∧
    cmdParse (bytes (List.replicate 16 [0x61, 0x20]).flatten) 32 (fun _ => none) = .error (.argv 16) :=
  ⟨rfl, fun ⟨_, hd, _⟩ => (nomatch hd), rfl⟩

end Onix.Osh
