/-
The frame of a delivery: where it lies, what may be written without touching it, what `task_signal` leaves in it and how the instructions
of the restorer read it back.
-/
import Onix.Signal.Model

namespace Onix.Signal

open Onix.Lib

variable {d : Delivery} {ds : List Delivery} {r r' : Regs} {m m' : ByteMem} {u v : User} {x : Action} {i k : Nat}

/-! ## The invariant -/

def Stage.exact : Stage → Option Nat
  | .handler => none
  | .skipSig => some 1
  | .call => some 2
  | .calling => none
  | .called => none
  | .skipMask => some 2
  | st => some st.low

/-- A delivery and the registers it goes on with: the frame holds what is still needed, and what was popped is in the registers. -/
structure Stands (m : ByteMem) (r : Regs) (d : Delivery) : Prop where
  room : 32 ≤ d.regs.esp.toNat
  words : ∀ i (h : i < 8), d.stage.keeps i = true → m.load (d.slot i) = d.words[i]
  low : r.esp.toNat ≤ d.frame.toNat + 4 * d.stage.low
  exact : ∀ k, d.stage.exact = some k → r.esp = d.slot k
  code : ∀ k, d.stage.code = some k → r.eip = d.restorer + k
  flags : fixedFlags r.eflags = fixedFlags d.regs.eflags
  eax : 4 ≤ d.stage.low → r.eax = d.regs.eax
  ecx : 5 ≤ d.stage.low → r.ecx = d.regs.ecx
  edx : 6 ≤ d.stage.low → r.edx = d.regs.edx
  eflags : 7 ≤ d.stage.low → r.eflags = d.regs.eflags

def Chain (m : ByteMem) : Regs → List Delivery → Prop
  | _, [] => True
  | r, d :: ds => Stands m r d ∧ Chain m d.regs ds

/-! ## Addresses in a frame -/

theorem Stands.frame (h : Stands m r d) : d.frame.toNat + 32 = d.regs.esp.toNat := by
  have h1 := h.room
  unfold Delivery.frame
  rw [BitVec.toNat_sub_of_le (show (32 : Word) ≤ d.regs.esp from h1)]
  exact Nat.sub_add_cancel h1

theorem slot_succ (d : Delivery) (i : Nat) : d.slot i + 4 = d.slot (i + 1) := by
  unfold Delivery.slot
  rw [BitVec.add_assoc, show (4 : Word) = BitVec.ofNat 32 4 from rfl, ← BitVec.ofNat_add, Nat.mul_succ]

theorem slot_pred (d : Delivery) (i : Nat) : d.slot (i + 1) - 4 = d.slot i := by
  rw [← slot_succ, BitVec.add_sub_cancel]

theorem slot_last (d : Delivery) : d.slot 8 = d.regs.esp := BitVec.sub_add_cancel _ _

theorem Stands.slot (h : Stands m r d) (hi : i < 8) : (d.slot i).toNat = d.frame.toNat + 4 * i := by
  have h1 := h.frame
  exact ByteMem.toNat_offset (by omega)

theorem keeps_low {st : Stage} (h : st.keeps i = true) : st.low ≤ i := by
  cases st <;> simp [Stage.keeps] at h <;> simp [Stage.low] <;> omega

theorem Chain.above (h : Chain m r ds) (hd : d ∈ ds) (hi : i < 8) (hk : d.stage.keeps i = true) :
    r.esp.toNat ≤ (d.slot i).toNat ∧ (d.slot i).toNat + 4 ≤ 2 ^ 32 := by
  induction ds generalizing r with
  | nil => cases hd
  | cons e ds ih =>
    obtain ⟨h1, h2⟩ := h
    have hf := h1.frame
    have hlow := h1.low
    rcases List.mem_cons.1 hd with rfl | hd
    · have hs := h1.slot hi
      have := keeps_low hk
      constructor <;> omega
    · obtain ⟨h3, h4⟩ := ih h2 hd
      have : e.stage.low ≤ 8 := by cases e.stage <;> simp [Stage.low]
      omega

/-! ## What keeps the chain -/

theorem Stands.mem (h : Stands m r d) (hm : ∀ i < 8, d.stage.keeps i = true → m'.load (d.slot i) = m.load (d.slot i)) : Stands m' r d := by
  refine { h with words := ?_ }
  intro i hi hk
  rw [hm i hi hk]
  exact h.words i hi hk

theorem Chain.kept (h : Chain m r ds) (hm : Kept m m' ds) : Chain m' r ds := by
  induction ds generalizing r with
  | nil => trivial
  | cons d ds ih =>
    obtain ⟨h1, h2⟩ := h
    refine ⟨h1.mem (hm d List.mem_cons_self), ih h2 ?_⟩
    intro e he
    exact hm e (List.mem_cons_of_mem d he)

theorem Chain.storeWords {a : Word} (h : Chain m r ds) (ws : List Word) (ha : a.toNat + 4 * ws.length ≤ r.esp.toNat) :
    Kept m (m.storeWords a ws) ds := by
  intro d hd i hi hk
  obtain ⟨h1, h2⟩ := h.above hd hi hk
  exact ByteMem.load_storeWords_ne (by omega) (by omega) h2

theorem Stands.free (h : Stands m r d) (hfree : d.stage.free = true) (hlow : r'.esp.toNat ≤ d.frame.toNat + 4 * d.stage.low)
    (hflags : fixedFlags r'.eflags = fixedFlags r.eflags) : Stands m r' d := by
  have hst : d.stage = .handler ∨ d.stage = .calling ∨ d.stage = .called := by
    revert hfree
    cases d.stage <;> simp [Stage.free]
  have hlow1 : d.stage.low ≤ 1 := by
    rcases hst with hst | hst | hst <;> rw [hst] <;> simp [Stage.low]
  refine { h with low := hlow, exact := ?_, code := ?_, flags := hflags.trans h.flags, eax := ?_, ecx := ?_, edx := ?_, eflags := ?_ }
  · intro k hk
    rcases hst with hst | hst | hst <;> rw [hst] at hk <;> cases hk
  · intro k hk
    rcases hst with hst | hst | hst <;> rw [hst] at hk <;> cases hk
  all_goals
    omega

theorem Chain.free (h : Chain m r ds) (hfree : ∀ d ∈ ds.head?, d.stage.free = true ∧ r'.esp.toNat ≤ d.frame.toNat + 4 * d.stage.low)
    (hflags : fixedFlags r'.eflags = fixedFlags r.eflags) : Chain m r' ds := by
  cases ds with
  | nil => trivial
  | cons d ds =>
    obtain ⟨h1, h2⟩ := hfree d rfl
    exact ⟨h.1.free h1 h2 hflags, h.2⟩

theorem Chain.eax (h : Chain m r ds) (hd : ∀ d ∈ ds.head?, d.stage = .handler) (v : Word) : Chain m { r with eax := v } ds := by
  cases ds with
  | nil => trivial
  | cons d ds =>
    refine ⟨h.1.free ?_ h.1.low rfl, h.2⟩
    rw [hd d rfl]
    rfl

/-! ## The delivery -/

theorem SIGMASK_bit (sig i : Nat) : (SIGMASK sig).getLsbD i = (decide (i < 32) && decide (i = sig - 1)) := by
  unfold SIGMASK
  by_cases h1 : i < 32 <;> by_cases h2 : i < sig - 1 <;> simp [h1, h2, BitVec.getLsbD_one] <;> omega

theorem signalLoop_spec (map : Word) (n sig : Nat) :
    signalLoop map n sig < sig + n ∨ ∀ k, sig ≤ k → k < sig + n → map &&& SIGMASK k = 0 := by
  induction n generalizing sig with
  | zero =>
    right
    omega
  | succ n ih =>
    unfold signalLoop
    split
    · left
      omega
    · rename_i h0
      rcases ih (sig + 1) with h | h
      · left
        omega
      · right
        intro k h1 h2
        by_cases hk : k = sig
        · rw [hk]
          exact not_not.1 h0
        · exact h k (by omega) (by omega)

theorem signalLoop_bound {map : Word} (h31 : map.getLsbD 31 = false) (h0 : map ≠ 0) : ¬ MAXSIG < signalLoop map MAXSIG MINSIG := by
  rcases signalLoop_spec map MAXSIG MINSIG with h | h
  · unfold MAXSIG MINSIG at *
    omega
  · exfalso
    apply h0
    apply BitVec.eq_of_getLsbD_eq
    intro i hi
    by_cases hi31 : i = 31
    · rw [hi31, h31]
      rfl
    · have := h (i + 1) (by unfold MINSIG; omega) (by unfold MINSIG MAXSIG; omega)
      have hbit : (map &&& SIGMASK (i + 1)).getLsbD i = (0 : Word).getLsbD i := by rw [this]
      rw [BitVec.getLsbD_and, SIGMASK_bit] at hbit
      simpa [hi] using hbit

theorem bounds_not (h : u.task.signal.getLsbD 31 = false) (h0 : u.task.signal &&& ~~~u.task.blocked ≠ 0) :
    ¬ MAXSIG < signalLoop (u.task.signal &&& ~~~u.task.blocked) MAXSIG MINSIG := by
  apply signalLoop_bound _ h0
  rw [BitVec.getLsbD_and, h, Bool.false_and]

def User.taken (u : User) (sig : Nat) : User := { u with task := { u.task with signal := u.task.signal &&& ~~~SIGMASK sig } }

theorem taskSignal_ok {o : Option Action} (h : taskSignal u = .ok (v, o)) :
    (o = none ∧ (v = u ∨ ∃ sig, v = u.taken sig)) ∨ ∃ sig x, o = some x ∧ v = putFrame (u.taken sig) sig x := by
  unfold taskSignal at h
  dsimp only at h
  split at h
  · cases h
    exact .inl ⟨rfl, .inl rfl⟩
  · split at h
    · cases h
    · split at h
      · cases h
      · split at h
        · cases h
          exact .inl ⟨rfl, .inr ⟨_, rfl⟩⟩
        · split at h
          · cases h
            exact .inl ⟨rfl, .inr ⟨_, rfl⟩⟩
          · split at h
            · cases h
            · cases h
              exact .inr ⟨_, _, rfl, rfl⟩

theorem taskSignal_error {e : Stop} (huid : u.task.uid ≠ 0) (h31 : u.task.signal.getLsbD 31 = false) (h : taskSignal u = .error e) :
    ∃ status, e = .exit status := by
  unfold taskSignal at h
  dsimp only at h
  split at h
  · cases h
  · rename_i h0
    rw [if_neg (bounds_not h31 h0)] at h
    split at h
    · cases h
    · split at h
      · cases h
      · split at h
        · cases h
          exact ⟨_, rfl⟩
        · cases h

theorem putFrame_uid (u : User) (sig : Nat) (x : Action) : (putFrame u sig x).task.uid = u.task.uid := by
  unfold putFrame
  split <;> rfl

theorem putFrame_signal (u : User) (sig : Nat) (x : Action) : (putFrame u sig x).task.signal = u.task.signal := by
  unfold putFrame
  split <;> rfl

theorem putFrame_kept {sig : Nat} (h : Chain u.mem u.regs ds) (hesp : 32 ≤ u.regs.esp.toNat) : Kept u.mem (putFrame u sig x).mem ds := by
  apply h.storeWords (frameOf u sig x).words
  rw [BitVec.toNat_sub_of_le (show (32 : Word) ≤ u.regs.esp from hesp)]
  exact Nat.le_of_eq (Nat.sub_add_cancel hesp)

theorem frameOf_words {sig : Nat} (hi : i < 8) (hk : Stage.handler.keeps i = true) :
    (frameOf u sig x).words[i] = (Delivery.of u x).words[i] := by
  match i, hi with
  | 0, _ => rfl
  | 1, _ => cases hk
  | 2, _ | 3, _ | 4, _ | 5, _ | 6, _ | 7, _ => rfl

theorem frameOf_length (u : User) (sig : Nat) (x : Action) : (frameOf u sig x).words.length = 8 := rfl

theorem putFrame_stands {sig : Nat} (hesp : 32 ≤ u.regs.esp.toNat) : Stands (putFrame u sig x).mem (putFrame u sig x).regs (.of u x) := by
  have hframe : (u.regs.esp - 32).toNat + 32 = u.regs.esp.toNat := by
    rw [BitVec.toNat_sub_of_le (show (32 : Word) ≤ u.regs.esp from hesp)]
    exact Nat.sub_add_cancel hesp
  refine ⟨hesp, ?_, Nat.le_refl _, ?_, ?_, rfl, ?_, ?_, ?_, ?_⟩
  · intro i hi hk
    have hload : (putFrame u sig x).mem.load ((Delivery.of u x).slot i) = (frameOf u sig x).words[i] :=
      ByteMem.load_storeWords hi (by rw [frameOf_length]; omega)
    rw [hload]
    exact frameOf_words hi hk
  · rintro k ⟨⟩
  · rintro k ⟨⟩
  all_goals
    intro h4
    simp [Delivery.of, Stage.low] at h4

/-! ## The way back -/

theorem popf_flags {e w : Word} (h : fixedFlags e = fixedFlags w) : e &&& ~~~userFlags ||| w &&& userFlags = w := by
  unfold fixedFlags at h
  rw [h, ← BitVec.and_or_distrib_left, BitVec.not_or_self, BitVec.and_allOnes]

theorem Stands.advance {st : Stage} (h : Stands m r d) (hkeeps : ∀ i, st.keeps i = true → d.stage.keeps i = true)
    (hexact : st.exact = some k) (hk : k ≤ st.low) (hesp : r'.esp = d.slot k) (hcode : ∀ c, st.code = some c → r'.eip = d.restorer + c)
    (hflags : fixedFlags r'.eflags = fixedFlags d.regs.eflags) (heax : 4 ≤ st.low → r'.eax = d.regs.eax)
    (hecx : 5 ≤ st.low → r'.ecx = d.regs.ecx) (hedx : 6 ≤ st.low → r'.edx = d.regs.edx)
    (heflags : 7 ≤ st.low → r'.eflags = d.regs.eflags) : Stands m r' { d with stage := st } := by
  refine ⟨h.room, ?_, ?_, ?_, hcode, hflags, heax, hecx, hedx, heflags⟩
  · intro i hi hi'
    exact h.words i hi (hkeeps i hi')
  · have hlow : st.low < 8 := by cases st <;> simp [Stage.low]
    rw [hesp, h.slot (by omega)]
    exact Nat.add_le_add_left (Nat.mul_le_mul_left 4 hk) _
  · intro j hj
    cases hexact.symm.trans hj
    exact hesp

theorem Stands.called {entry : Word} (h : Stands m r d) (hst : d.stage = .call) :
    Stands (m.store (r.esp - 4) (r.eip + 5)) { r with esp := r.esp - 4, eip := entry } { d with stage := .calling } := by
  have hesp : r.esp - 4 = d.slot 1 := by rw [h.exact 2 (by rw [hst]; rfl), slot_pred]
  have heip : r.eip + 5 = d.restorer + 8 := by
    rw [h.code 3 (by rw [hst]; rfl), BitVec.add_assoc]
    rfl
  have hframe := h.frame
  have hslot := h.slot (show 1 < 8 by decide)
  rw [hesp, heip]
  refine ⟨h.room, ?_, ?_, ?_, ?_, h.flags, ?_, ?_, ?_, ?_⟩
  · intro i hi hk
    change (m.store (d.slot 1) (d.restorer + 8)).load (d.slot i) = d.words[i]
    by_cases h1 : i = 1
    · subst h1
      exact ByteMem.load_store _ _ _
    · have hi2 : 2 ≤ i := by
        simp [Stage.keeps] at hk
        omega
      have hsloti := h.slot hi
      rw [ByteMem.load_store_ne (by omega) (by omega) (by omega)]
      exact h.words i hi (by rw [hst]; simpa [Stage.keeps] using hi2)
  · exact Nat.le_of_eq hslot
  · rintro k ⟨⟩
  · rintro k ⟨⟩
  all_goals
    intro h4
    simp [Stage.low] at h4

theorem keeps_next {st st' : Stage} (h : st.next = some st') (hcall : st ≠ .call) (hk : st'.keeps i = true) : st.keeps i = true := by
  cases st <;> cases h
  case call => exact absurd rfl hcall
  all_goals
    simp [Stage.keeps] at hk ⊢
    omega

theorem Stands.next {entry : Word} {st : Stage} (h : Stands m r d) (hst : d.stage.next = some st) (hcalling : d.stage ≠ .calling)
    (hhandler : d.stage = .handler → r.esp = d.slot 0) (hcalled : d.stage = .called → r.esp = d.slot 1) :
    Stands (instruction entry r m d.stage).2 (instruction entry r m d.stage).1 { d with stage := st } := by
  by_cases hcall : d.stage = .call
  · rw [hcall] at hst ⊢
    cases hst
    exact h.called hcall
  -- the word on top of the stack, and the code after the instruction
  have htop : ∀ k, d.stage.exact = some k → ∀ hk : k < 8, d.stage.keeps k = true → m.load r.esp = d.words[k] := by
    intro k hk h8 hkeeps
    rw [h.exact k hk]
    exact h.words k h8 hkeeps
  have hesp : ∀ k, d.stage.exact = some k → r.esp + 4 = d.slot (k + 1) := by
    intro k hk
    rw [h.exact k hk]
    exact slot_succ d k
  have hcode : ∀ c n, d.stage.code = some c → r.eip + n = d.restorer + (c + n) := by
    intro c n hc
    rw [h.code c hc]
    exact BitVec.add_assoc _ _ _
  have hkeeps : ∀ i, st.keeps i = true → d.stage.keeps i = true := fun i => keeps_next hst hcall
  have heax := h.eax
  have hecx := h.ecx
  have hedx := h.edx
  cases hs : d.stage <;> rw [hs] at hst htop hesp hcode heax hecx hedx
  case ret => cases hst
  case call => exact absurd hs hcall
  case calling => exact absurd hs hcalling
  case handler =>
    cases hst
    have h0 := hhandler hs
    apply h.advance hkeeps (k := 1) rfl (by decide)
    · change r.esp + 4 = _
      rw [h0]
      exact slot_succ d 0
    · rintro c ⟨⟩
      change m.load r.esp = _
      rw [h0, h.words 0 (by decide) (by rw [hs]; rfl)]
      exact (BitVec.add_zero _).symm
    · exact h.flags
    all_goals simp [Stage.low]
  case skipSig =>
    cases hst
    apply h.advance hkeeps (k := 2) rfl (by decide)
    · exact hesp 1 rfl
    · rintro c ⟨⟩
      exact hcode 0 3 rfl
    · exact h.flags
    all_goals simp [Stage.low]
  case called =>
    cases hst
    have h1 := hcalled hs
    apply h.advance hkeeps (k := 2) rfl (by decide)
    · change r.esp + 4 = _
      rw [h1]
      exact slot_succ d 1
    · rintro c ⟨⟩
      change m.load r.esp = _
      rw [h1]
      exact h.words 1 (by decide) (by rw [hs]; rfl)
    · exact h.flags
    all_goals simp [Stage.low]
  case skipMask =>
    cases hst
    apply h.advance hkeeps (k := 3) rfl (by decide)
    · exact hesp 2 rfl
    · rintro c ⟨⟩
      exact hcode 8 3 rfl
    · exact h.flags
    all_goals simp [Stage.low]
  case popEax =>
    cases hst
    apply h.advance hkeeps (k := 4) rfl (by decide)
    · exact hesp 3 rfl
    · rintro c ⟨⟩
      exact hcode 11 1 rfl
    · exact h.flags
    · intro _
      exact htop 3 rfl (by decide) rfl
    all_goals simp [Stage.low]
  case popEcx =>
    cases hst
    apply h.advance hkeeps (k := 5) rfl (by decide)
    · exact hesp 4 rfl
    · rintro c ⟨⟩
      exact hcode 12 1 rfl
    · exact h.flags
    · intro _
      exact heax (by decide)
    · intro _
      exact htop 4 rfl (by decide) rfl
    all_goals simp [Stage.low]
  case popEdx =>
    cases hst
    apply h.advance hkeeps (k := 6) rfl (by decide)
    · exact hesp 5 rfl
    · rintro c ⟨⟩
      exact hcode 13 1 rfl
    · exact h.flags
    · intro _
      exact heax (by decide)
    · intro _
      exact hecx (by decide)
    · intro _
      exact htop 5 rfl (by decide) rfl
    · simp [Stage.low]
  case popf =>
    cases hst
    have hflags : r.eflags &&& ~~~userFlags ||| m.load r.esp &&& userFlags = d.regs.eflags := by
      rw [htop 6 rfl (by decide) rfl]
      exact popf_flags h.flags
    apply h.advance hkeeps (k := 7) rfl (by decide)
    · exact hesp 6 rfl
    · rintro c ⟨⟩
      exact hcode 14 1 rfl
    · exact congrArg fixedFlags hflags
    · intro _
      exact heax (by decide)
    · intro _
      exact hecx (by decide)
    · intro _
      exact hedx (by decide)
    · intro _
      exact hflags

theorem Stands.last (h : Stands m r d) (hst : d.stage = .ret) : ret r m = d.regs := by
  have hesp := h.exact 7 (by rw [hst]; rfl)
  have heip := h.words 7 (by decide) (by rw [hst]; rfl)
  have heax := h.eax (by rw [hst]; decide)
  have hecx := h.ecx (by rw [hst]; decide)
  have hedx := h.edx (by rw [hst]; decide)
  have heflags := h.eflags (by rw [hst]; decide)
  unfold ret
  rw [heax, hecx, hedx, heflags, hesp, heip, slot_succ, slot_last]
  rfl

end Onix.Signal
