/-
The byte ring buffer of `lib/fifo.c`: `head` is the next free cell, `tail` the oldest byte, and
one cell stays free so that `head = tail` means empty. The contents are the bytes from `tail` up
to `head`; on a ring of at least two cells a put on a ring that is not full appends to them and a
get on a ring that is not empty takes their first byte.
-/
import Mathlib.Data.List.Basic

namespace Onix

open List

abbrev Byte := UInt8

structure Fifo where
  buf : Nat → Byte
  length : Nat
  head : Nat
  tail : Nat

def fifoNext (f : Fifo) (pos : Nat) : Nat := (pos + 1) % f.length

def fifoInit (buf : Nat → Byte) (length : Nat) : Fifo := ⟨buf, length, 0, 0⟩

def fifoFull (f : Fifo) : Bool := fifoNext f f.head == f.tail

def fifoEmpty (f : Fifo) : Bool := f.head == f.tail

/-- `fifo_get`; `none` when its assertion that the fifo is not empty fails. -/
def fifoGet (f : Fifo) : Option (Byte × Fifo) :=
  if fifoEmpty f then none else some (f.buf f.tail, { f with tail := fifoNext f f.tail })

/-- The `while (fifo_full(fifo)) fifo_get(fifo)` loop of `fifo_put`, with fuel. -/
def fifoMakeRoom : Nat → Fifo → Option Fifo
  | 0, f => if fifoFull f then none else some f
  | n + 1, f => if fifoFull f then (fifoGet f).bind fun r => fifoMakeRoom n r.2 else some f

/-- `fifo_put`. One get makes room on every ring of two cells or more, so `length` rounds are
more than the loop needs there. -/
def fifoPut (f : Fifo) (byte : Byte) : Option Fifo :=
  (fifoMakeRoom f.length f).map fun f =>
    { f with buf := fun i => if i = f.head then byte else f.buf i, head := fifoNext f f.head }

/-! ## The contents -/

namespace Fifo

/-- The ring has two cells at least and both positions are inside it. -/
structure WF (f : Fifo) : Prop where
  two : 2 ≤ f.length
  head : f.head < f.length
  tail : f.tail < f.length

def count (f : Fifo) : Nat := if f.tail ≤ f.head then f.head - f.tail else f.head + f.length - f.tail

def contents (f : Fifo) : List Byte := (List.range (count f)).map fun k => f.buf ((f.tail + k) % f.length)

@[simp] theorem contents_length (f : Fifo) : (contents f).length = count f := by simp [contents]

theorem init_wf (buf : Nat → Byte) {n : Nat} (h : 2 ≤ n) : WF (fifoInit buf n) :=
  ⟨h, by simp [fifoInit]; omega, by simp [fifoInit]; omega⟩

@[simp] theorem contents_init (buf : Nat → Byte) (n : Nat) : contents (fifoInit buf n) = [] := by
  simp [contents, count, fifoInit]

theorem add_mod_lap {a k n : Nat} (ha : a < n) (hk : k < n) :
    (a + k) % n = if a + k < n then a + k else a + k - n := by
  split
  · rename_i h; exact Nat.mod_eq_of_lt h
  · rename_i h
    rw [Nat.mod_eq_sub_mod (by omega)]
    exact Nat.mod_eq_of_lt (by omega)

variable {f : Fifo}

theorem next_eq (hw : WF f) {pos : Nat} (h : pos < f.length) :
    fifoNext f pos = if pos + 1 < f.length then pos + 1 else 0 := by
  have := hw.two
  unfold fifoNext
  rw [add_mod_lap h (by omega)]
  split <;> omega

theorem count_lt (hw : WF f) : count f < f.length := by
  have := hw.head; have := hw.tail
  unfold count; split <;> omega

theorem fifoEmpty_iff (hw : WF f) : fifoEmpty f = true ↔ contents f = [] := by
  have := hw.head; have := hw.tail
  rw [← length_eq_zero_iff, contents_length]
  unfold fifoEmpty count
  rw [beq_iff_eq]
  split <;> omega

theorem fifoFull_iff (hw : WF f) : fifoFull f = true ↔ (contents f).length + 1 = f.length := by
  have := hw.head; have := hw.tail; have := hw.two
  rw [contents_length]
  unfold fifoFull count
  rw [beq_iff_eq, next_eq hw hw.head]
  split <;> split <;> omega

theorem fifoGet_none : fifoGet f = none ↔ fifoEmpty f = true := by
  unfold fifoGet; split <;> simp_all

theorem get_count (hw : WF f) (h : fifoEmpty f = false) :
    count f = count { f with tail := fifoNext f f.tail } + 1 := by
  have := hw.head; have := hw.tail
  have hne : f.head ≠ f.tail := by simpa [fifoEmpty] using h
  unfold count
  simp only [next_eq hw hw.tail]
  split_ifs <;> omega

theorem fifoGet_spec (hw : WF f) (h : fifoEmpty f = false) :
    ∃ b f', fifoGet f = some (b, f') ∧ WF f' ∧ contents f = b :: contents f' ∧ f'.length = f.length := by
  refine ⟨f.buf f.tail, { f with tail := fifoNext f f.tail }, by simp [fifoGet, h], ?_, ?_, rfl⟩
  · exact ⟨hw.two, hw.head, Nat.mod_lt _ (by have := hw.two; omega)⟩
  · unfold contents
    rw [get_count hw h, range_succ_eq_map, map_cons, map_map]
    simp only [Nat.add_zero, Nat.mod_eq_of_lt hw.tail]
    congr 1
    refine map_congr_left fun k _ => ?_
    simp only [Function.comp, fifoNext, Nat.succ_eq_add_one]
    congr 1
    rw [Nat.mod_add_mod]
    congr 1; omega

theorem put_count (hw : WF f) (h : fifoFull f = false) :
    count { f with head := fifoNext f f.head } = count f + 1 := by
  have := hw.head; have := hw.tail
  have hne : fifoNext f f.head ≠ f.tail := by simpa [fifoFull] using h
  rw [next_eq hw hw.head] at hne
  unfold count
  simp only [next_eq hw hw.head]
  split_ifs at hne ⊢ <;> omega

theorem put_index (hw : WF f) {k : Nat} (hk : k ≤ count f) :
    (f.tail + k) % f.length = f.head ↔ k = count f := by
  have h1 := hw.head; have h2 := hw.tail; have h3 := count_lt hw
  rw [add_mod_lap h2 (by omega)]
  unfold count at hk h3 ⊢
  split_ifs at hk h3 ⊢ <;> omega

theorem fifoPut_spec (hw : WF f) (h : fifoFull f = false) (b : Byte) :
    ∃ f', fifoPut f b = some f' ∧ WF f' ∧ contents f' = contents f ++ [b] ∧ f'.length = f.length := by
  have hroom : fifoMakeRoom f.length f = some f := by
    cases hl : f.length <;> simp [fifoMakeRoom, h]
  refine ⟨{ f with buf := fun i => if i = f.head then b else f.buf i, head := fifoNext f f.head },
    by rw [fifoPut, hroom, Option.map_some], ?_, ?_, rfl⟩
  · exact ⟨hw.two, Nat.mod_lt _ (by have := hw.two; omega), hw.tail⟩
  · have hc : count { f with buf := fun i => if i = f.head then b else f.buf i, head := fifoNext f f.head } =
        count f + 1 := put_count hw h
    unfold contents
    rw [hc, range_succ, map_append, map_cons, map_nil]
    congr 1
    · refine map_congr_left fun k hk => ?_
      have hk := mem_range.1 hk
      refine if_neg fun he => ?_
      have := (put_index hw (by omega)).1 he
      omega
    · exact congrArg (· :: []) (if_pos ((put_index hw (Nat.le_refl _)).2 rfl))

theorem fifoPut_full (hw : WF f) (h : fifoFull f = true) (b : Byte) :
    ∃ f' c rest, fifoPut f b = some f' ∧ WF f' ∧ contents f = c :: rest ∧ contents f' = rest ++ [b] ∧
      f'.length = f.length := by
  have hlen := (fifoFull_iff hw).1 h
  have hne : fifoEmpty f = false := by
    cases he : fifoEmpty f
    · rfl
    · rw [(fifoEmpty_iff hw).1 he] at hlen
      have := hw.two; simp at hlen; omega
  obtain ⟨c, g, hg, hwg, hcg, hgl⟩ := fifoGet_spec hw hne
  have hgf : fifoFull g = false := by
    cases hf : fifoFull g
    · rfl
    · have := (fifoFull_iff hwg).1 hf
      rw [hcg] at hlen; simp at hlen this; omega
  obtain ⟨f', hp, hwf', hcf', hl'⟩ := fifoPut_spec hwg hgf b
  refine ⟨f', c, contents g, ?_, hwf', hcg, hcf', hl'.trans hgl⟩
  obtain ⟨n, hn⟩ : ∃ n, f.length = n + 1 := ⟨f.length - 1, by have := hw.two; omega⟩
  have h1 : fifoMakeRoom f.length f = some g := by
    rw [hn, fifoMakeRoom, if_pos h, hg, Option.bind_some]
    cases n <;> simp [fifoMakeRoom, hgf]
  have h2 : fifoMakeRoom g.length g = some g := by
    cases hl : g.length <;> simp [fifoMakeRoom, hgf]
  unfold fifoPut at hp ⊢
  rw [h1]; rw [h2] at hp; exact hp

/-! ## Runs -/

inductive Call
  | put (byte : Byte)
  | get

/-- The calls one after the other, with what each returns; `none` when one fails. -/
def runCalls {σ : Type} (step : σ → Call → Option (Option Byte × σ)) : σ → List Call → Option (List (Option Byte) × σ)
  | s, [] => some ([], s)
  | s, a :: as => (step s a).bind fun r => (runCalls step r.2 as).map fun q => (r.1 :: q.1, q.2)

def fifoCall (f : Fifo) : Call → Option (Option Byte × Fifo)
  | .put byte => (fifoPut f byte).map fun g => (none, g)
  | .get => (fifoGet f).map fun r => (some r.1, r.2)

/-- A queue of `cap` bytes: a put on a full one drops the oldest byte, a get takes the oldest. -/
def queueCall (cap : Nat) : List Byte → Call → Option (Option Byte × List Byte)
  | q, .put byte => some (none, (if q.length = cap then q.tail else q) ++ [byte])
  | [], .get => none
  | b :: q, .get => some (some b, q)

theorem fifoCall_queue (hw : WF f) (a : Call) :
    (fifoCall f a).map (Prod.map id contents) = queueCall (f.length - 1) (contents f) a ∧
      ∀ r, fifoCall f a = some r → WF r.2 ∧ r.2.length = f.length := by
  have hfull := fifoFull_iff hw
  cases a with
  | put byte =>
    show (Option.map _ ((fifoPut f byte).map _) = some _) ∧ ∀ r, (fifoPut f byte).map _ = some r → _
    cases hf : fifoFull f with
    | true =>
      obtain ⟨g, c, rest, hp, hwg, hc, hcg, hl⟩ := fifoPut_full hw hf byte
      have hlen := hfull.1 hf
      rw [hp, if_pos (by omega), hc]
      refine ⟨by simp [hcg], fun r hr => ?_⟩
      cases hr
      exact ⟨hwg, hl⟩
    | false =>
      obtain ⟨g, hp, hwg, hcg, hl⟩ := fifoPut_spec hw hf byte
      have hlen : (contents f).length + 1 ≠ f.length := fun e => by
        rw [hfull.2 e] at hf
        cases hf
      rw [hp, if_neg (by have := hw.two; omega)]
      refine ⟨by simp [hcg], fun r hr => ?_⟩
      cases hr
      exact ⟨hwg, hl⟩
  | get =>
    show (Option.map _ ((fifoGet f).map _) = _) ∧ ∀ r, (fifoGet f).map _ = some r → _
    cases he : fifoEmpty f with
    | true =>
      rw [fifoGet_none.2 he, (fifoEmpty_iff hw).1 he]
      exact ⟨rfl, nofun⟩
    | false =>
      obtain ⟨b, g, hg, hwg, hc, hl⟩ := fifoGet_spec hw he
      rw [hg, hc]
      refine ⟨rfl, fun r hr => ?_⟩
      cases hr
      exact ⟨hwg, hl⟩

theorem runCalls_queue : ∀ (as : List Call) (f : Fifo), WF f →
    (runCalls fifoCall f as).map (Prod.map id contents) = runCalls (queueCall (f.length - 1)) (contents f) as ∧
      ∀ r, runCalls fifoCall f as = some r → WF r.2 ∧ r.2.length = f.length
  | [], f, hw => ⟨rfl, fun r hr => by cases hr; exact ⟨hw, rfl⟩⟩
  | a :: as, f, hw => by
    obtain ⟨h1, h2⟩ := fifoCall_queue hw a
    unfold runCalls
    rw [← h1]
    cases ha : fifoCall f a with
    | none => exact ⟨rfl, nofun⟩
    | some r =>
      obtain ⟨hwr, hl⟩ := h2 r ha
      obtain ⟨h3, h4⟩ := runCalls_queue as r.2 hwr
      rw [hl] at h3 h4
      simp only [Option.map_some, Option.bind_some, Prod.map_fst, Prod.map_snd, id_eq, ← h3]
      cases hr : runCalls fifoCall r.2 as with
      | none => exact ⟨rfl, nofun⟩
      | some q => exact ⟨rfl, fun x hx => by cases hx; exact h4 q hr⟩

/-- From `fifo_init` on, any calls in any order do on the ring what they do on a queue of one byte less than its cells,
and fail only where a get finds the queue empty; a position is below a length of 32 bits, so the next one does not wrap. -/
theorem fifo_queue (buf : Nat → Byte) {n : Nat} (hn : 2 ≤ n) (as : List Call) :
    (runCalls fifoCall (fifoInit buf n) as).map (Prod.map id contents) = runCalls (queueCall (n - 1)) [] as ∧
      ∀ out f, runCalls fifoCall (fifoInit buf n) as = some (out, f) →
        f.head < n ∧ f.tail < n ∧ (contents f).length ≤ n - 1 ∧
          (fifoFull f = true ↔ (contents f).length = n - 1) ∧ (fifoEmpty f = true ↔ (contents f).length = 0) := by
  obtain ⟨h1, h2⟩ := runCalls_queue as (fifoInit buf n) (init_wf buf hn)
  refine ⟨h1, fun out f hf => ?_⟩
  obtain ⟨hw, hlen⟩ : WF f ∧ f.length = n := h2 _ hf
  have hcount := count_lt hw
  have hfull := fifoFull_iff hw
  rw [contents_length, hlen] at hfull
  have hhead := hw.head
  have htail := hw.tail
  rw [fifoEmpty_iff hw, List.length_eq_zero_iff, contents_length, hfull]
  exact ⟨by omega, by omega, by omega, by omega, Iff.rfl⟩

/-- Three bytes put in a ring of three cells: the first is dropped. -/
theorem fifo_queue_three : ∃ f, runCalls fifoCall (fifoInit (fun _ => 0) 3) [.put 1, .put 2, .put 3, .get] = some ([none, none, none, some 2], f) ∧
    contents f = [3] ∧ f.head < 3 := by
  obtain ⟨h1, h2⟩ := fifo_queue (fun _ => 0) (show 2 ≤ 3 by decide) [.put 1, .put 2, .put 3, .get]
  obtain ⟨⟨out, f⟩, hr, he⟩ := Option.map_eq_some_iff.1 (h1.trans rfl)
  obtain ⟨rfl, hc⟩ := Prod.mk.inj he
  exact ⟨f, hr, hc, (h2 _ f hr).1⟩

end Fifo

end Onix
