/-
The stack a program starts with: the number of its arguments, the pointers to them and to its environment, and the strings they point to.
The assertion of `copy_argv_envp` wants a byte of the four pages to be left.
-/
import Onix.Exec.Args
import Onix.Exec.Load

namespace Onix.Exec.Args

open List Onix.Lib
open Memory (userStackTop userStackBottom)

variable {I : Type} {e : Env} {kp : Kpages} {s t : State I} {m mem : Nat → Byte} {l l' : List (List Byte)} {top filename : List Byte}
  {argv envp : List (List Byte)} {a n : Nat}

/-- The size of the block: the number of arguments, the pointers with two zeros, and the strings with their ends. -/
def blockSize (filename : List Byte) (argv envp : List (List Byte)) : Nat :=
  4 + 4 * (argv.length + 2) + 4 * (envp.length + 1) + ((filename :: (argv ++ envp)).map fun x => x.length + 1).sum

/-- Where the string `j` is said to be; between the pointers to the arguments and those to the environment is a zero. -/
def place (byte : Nat → Byte) (top argc j : Nat) : Nat := number byte (top + 4 + 4 * if j < argc then j else j + 1) 4

structure Layout (byte : Nat → Byte) (top : Nat) (filename : List Byte) (argv envp : List (List Byte)) : Prop where
  argc : number byte top 4 = argv.length + 1
  argvEnd : number byte (top + 4 + 4 * (argv.length + 1)) 4 = 0
  envpEnd : number byte (top + 4 + 4 * (argv.length + 2 + envp.length)) 4 = 0
  string : ∀ j (h : j < (filename :: (argv ++ envp)).length),
    Lies ((filename :: (argv ++ envp))[j] ++ [0]) (place byte top (argv.length + 1) j) byte
  inside : ∀ j (h : j < (filename :: (argv ++ envp)).length), top + 4 * (argv.length + envp.length + 4) ≤ place byte top (argv.length + 1) j ∧
    place byte top (argv.length + 1) j + ((filename :: (argv ++ envp))[j].length + 1) ≤ userStackTop
  apart : ∀ i j (hij : i < j) (h : j < (filename :: (argv ++ envp)).length),
    place byte top (argv.length + 1) i + ((filename :: (argv ++ envp))[i].length + 1) ≤ place byte top (argv.length + 1) j

/-! ## Words -/

theorem number_wordBytes (h : Lies (wordBytes n) a m) (hn : n < 2 ^ 32) : number m a 4 = n := by
  have h0 : m a = UInt8.ofNat n := h 0 (by simp)
  have h1 : m (a + 1) = UInt8.ofNat (n / 2 ^ 8) := h 1 (by simp)
  have h2 : m (a + 1 + 1) = UInt8.ofNat (n / 2 ^ 16) := h 2 (by simp)
  have h3 : m (a + 1 + 1 + 1) = UInt8.ofNat (n / 2 ^ 24) := h 3 (by simp)
  simp only [number, h0, h1, h2, h3, UInt8.toNat_ofNat']
  omega

theorem lies_words : ∀ {ps : List Nat} {a : Nat}, Lies (ps.flatMap wordBytes) a m → ∀ i (h : i < ps.length), Lies (wordBytes ps[i]) (a + 4 * i) m
  | p :: ps, a, hl, i, h => by
    rw [flatMap_cons, lies_append, wordBytes_length] at hl
    cases i with
    | zero => exact hl.1
    | succ i =>
      have hnext : a + 4 * (i + 1) = a + 4 + 4 * i := by omega
      rw [hnext]
      exact lies_words hl.2 i (Nat.lt_of_succ_lt_succ h)

/-! ## Strings -/

theorem pushStrings_append (l l' : List (List Byte)) (top : List Byte) : pushStrings (l ++ l') top =
    ((pushStrings l (pushStrings l' top).2).1 ++ (pushStrings l' top).1, (pushStrings l (pushStrings l' top).2).2) := by
  induction l with
  | nil => rfl
  | cons x l ih => rw [cons_append, pushStrings_cons, ih, pushStrings_cons, cons_append]

theorem pushStrings_size (l : List (List Byte)) (top : List Byte) :
    (pushStrings l top).2.length = (l.map fun x => x.length + 1).sum + top.length := by
  induction l with
  | nil => exact (Nat.zero_add _).symm
  | cons x l ih => rw [pushStrings_cons, pushed_length, ih, map_cons, sum_cons]; omega

theorem pushStrings_first {x : List Byte} (hfit : (pushStrings (x :: l) top).2.length ≤ userStackTop)
    (h : Lies (pushStrings (x :: l) top).2 (userStackTop - (pushStrings (x :: l) top).2.length) m) :
    Lies (x ++ [0]) (userStackTop - (pushStrings (x :: l) top).2.length) m ∧
      Lies (pushStrings l top).2 (userStackTop - (pushStrings l top).2.length) m ∧
      userStackTop - (pushStrings (x :: l) top).2.length + (x.length + 1) = userStackTop - (pushStrings l top).2.length := by
  have hlen : (pushStrings (x :: l) top).2.length = x.length + 1 + (pushStrings l top).2.length := pushed_length x _
  have hnext : userStackTop - (pushStrings (x :: l) top).2.length + (x.length + 1) = userStackTop - (pushStrings l top).2.length := by
    omega
  have hx : (x ++ [0]).length = x.length + 1 := by rw [length_append, length_singleton]
  have hsplit : (pushStrings (x :: l) top).2 = x ++ [0] ++ (pushStrings l top).2 := rfl
  refine ⟨?_, ?_, hnext⟩
  · rw [hsplit, lies_append, ← hsplit] at h
    exact h.1
  · rw [hsplit, lies_append, ← hsplit, hx, hnext] at h
    exact h.2

theorem pushStrings_lie : ∀ {l : List (List Byte)}, (pushStrings l top).2.length ≤ userStackTop →
    Lies (pushStrings l top).2 (userStackTop - (pushStrings l top).2.length) m →
    ∀ j (h : j < l.length) (hp : j < (pushStrings l top).1.length), Lies (l[j] ++ [0]) (pushStrings l top).1[j] m ∧
      userStackTop - (pushStrings l top).2.length ≤ (pushStrings l top).1[j] ∧
      (pushStrings l top).1[j] + (l[j].length + 1) ≤ userStackTop - top.length
  | x :: l, hfit, hl, j, h, hp => by
    have hsize := pushStrings_le l top
    obtain ⟨hx, hl, hnext⟩ := pushStrings_first hfit hl
    have hle := Nat.le_trans pushStrings_cons_le hfit
    cases j with
    | zero =>
      refine ⟨hx, Nat.le_refl _, ?_⟩
      show userStackTop - (pushStrings (x :: l) top).2.length + (x.length + 1) ≤ _
      omega
    | succ j =>
      obtain ⟨h1, h2, h3⟩ := pushStrings_lie (l := l) hle hl j (Nat.lt_of_succ_lt_succ h)
        (by rw [pushStrings_length]; exact Nat.lt_of_succ_lt_succ h)
      refine ⟨h1, Nat.le_trans ?_ h2, h3⟩
      rw [← hnext]
      exact Nat.le_add_right _ _

theorem pushStrings_apart : ∀ {l : List (List Byte)}, (pushStrings l top).2.length ≤ userStackTop →
    Lies (pushStrings l top).2 (userStackTop - (pushStrings l top).2.length) m →
    ∀ i j (hij : i < j) (h : j < l.length) (hp : j < (pushStrings l top).1.length),
      (pushStrings l top).1[i] + (l[i].length + 1) ≤ (pushStrings l top).1[j]
  | x :: l, hfit, hl, i, j + 1, hij, h, hp => by
    obtain ⟨hx, hl, hnext⟩ := pushStrings_first hfit hl
    have hle := Nat.le_trans pushStrings_cons_le hfit
    have hp' : j < (pushStrings l top).1.length := by
      rw [pushStrings_length]
      exact Nat.lt_of_succ_lt_succ h
    cases i with
    | zero =>
      have h2 := (pushStrings_lie (l := l) hle hl j (Nat.lt_of_succ_lt_succ h) hp').2.1
      exact hnext ▸ h2
    | succ i =>
      exact pushStrings_apart (l := l) hle hl i j (by omega) (Nat.lt_of_succ_lt_succ h) hp'

/-! ## The block -/

theorem argPointers_eq (filename : List Byte) (argv envp : List (List Byte)) : ∃ ps qs, argPointers filename argv envp =
      (ps ++ 0 :: (qs ++ [0]), (pushStrings (filename :: (argv ++ envp)) []).2) ∧
    (pushStrings (filename :: (argv ++ envp)) []).1 = ps ++ qs ∧ ps.length = argv.length + 1 ∧ qs.length = envp.length := by
  have happ := pushStrings_append (filename :: argv) envp []
  rw [cons_append] at happ
  rw [happ]
  exact ⟨_, _, rfl, rfl, pushStrings_length _ _, pushStrings_length _ _⟩

theorem argBlock_length (filename : List Byte) (argv envp : List (List Byte)) :
    (argBlock filename argv envp).length = blockSize filename argv envp := by
  obtain ⟨ps, qs, hargs, -, hps, hqs⟩ := argPointers_eq filename argv envp
  unfold argBlock blockSize
  rw [hargs, length_append, length_append, words_length, pushStrings_size]
  simp only [wordBytes_length, length_append, length_cons, length_nil, hps, hqs]
  omega

theorem argBlock_layout (hptr : argv.length + envp.length + 3 ≤ 1024) (hfit : blockSize filename argv envp < 4 * pageSize)
    (h : Lies (argBlock filename argv envp) (userStackTop - blockSize filename argv envp) m) :
    Layout m (userStackTop - blockSize filename argv envp) filename argv envp := by
  obtain ⟨ps, qs, hargs, hptrs, hps, hqs⟩ := argPointers_eq filename argv envp
  obtain ⟨a, ha⟩ : ∃ a, userStackTop - blockSize filename argv envp = a := ⟨_, rfl⟩
  have hsize := pushStrings_size (filename :: (argv ++ envp)) []
  have hblock : argBlock filename argv envp = wordBytes (argv.length + 1) ++
      ((ps ++ 0 :: (qs ++ [0])).flatMap wordBytes ++ (pushStrings (filename :: (argv ++ envp)) []).2) := by
    unfold argBlock
    rw [hargs]
  have hstart : a + 4 + 4 * (argv.length + envp.length + 3) = userStackTop - (pushStrings (filename :: (argv ++ envp)) []).2.length ∧
      (pushStrings (filename :: (argv ++ envp)) []).2.length ≤ userStackTop := by
    rw [hsize, length_nil]
    unfold blockSize at ha hfit
    unfold pageSize at hfit
    unfold userStackTop at ha ⊢
    omega
  rw [ha, hblock, lies_append, lies_append, words_length, wordBytes_length] at h
  have hcount : (ps ++ 0 :: (qs ++ [0])).length = argv.length + envp.length + 3 := by
    simp only [length_append, length_cons, length_nil, hps, hqs]
    omega
  rw [hcount, hstart.1] at h
  obtain ⟨hargc, hwords, hstr⟩ := h
  have hword : ∀ i (hi : i < (ps ++ 0 :: (qs ++ [0])).length), (ps ++ 0 :: (qs ++ [0]))[i] < 2 ^ 32 →
      number m (a + 4 + 4 * i) 4 = (ps ++ 0 :: (qs ++ [0]))[i] := fun i hi =>
    number_wordBytes (lies_words hwords i hi)
  have hcl : (pushStrings (filename :: (argv ++ envp)) []).1.length = (filename :: (argv ++ envp)).length := pushStrings_length _ _
  have hlie := pushStrings_lie hstart.2 hstr
  -- a pointer is the one that was computed for its string
  have hplace : ∀ j (hj : j < (filename :: (argv ++ envp)).length),
      place m a (argv.length + 1) j = (pushStrings (filename :: (argv ++ envp)) []).1[j] := by
    intro j hj
    have hj' := hj
    rw [length_cons, length_append] at hj'
    obtain ⟨-, h1, h2⟩ := hlie j hj (hcl ▸ hj)
    have hlt : (pushStrings (filename :: (argv ++ envp)) []).1[j] < 2 ^ 32 := by
      unfold userStackTop at h2
      omega
    unfold place
    simp only [hptrs] at hlt ⊢
    by_cases hc : j < argv.length + 1
    · have hl : j < (ps ++ 0 :: (qs ++ [0])).length := by omega
      have hr : j < (ps ++ qs).length := by rw [length_append]; omega
      have hget : (ps ++ 0 :: (qs ++ [0]))[j] = (ps ++ qs)[j] := by
        rw [getElem_append_left (by omega), getElem_append_left (by omega)]
      rw [if_pos hc, hword j hl (by rwa [hget]), hget]
    · obtain ⟨d, rfl⟩ : ∃ d, j = argv.length + 1 + d := ⟨j - (argv.length + 1), by omega⟩
      have hl : argv.length + 1 + d + 1 < (ps ++ 0 :: (qs ++ [0])).length := by omega
      have hr : argv.length + 1 + d < (ps ++ qs).length := by rw [length_append]; omega
      have hget : (ps ++ 0 :: (qs ++ [0]))[argv.length + 1 + d + 1] = (ps ++ qs)[argv.length + 1 + d] := by
        rw [getElem_append_right (by omega), getElem_append_right (by omega)]
        have h3 : argv.length + 1 + d + 1 - ps.length = d + 1 := by omega
        have h4 : argv.length + 1 + d - ps.length = d := by omega
        simp only [h3, h4, getElem_cons_succ]
        exact getElem_append_left (by omega)
      rw [if_neg hc, hword _ hl (by rwa [hget]), hget]
  rw [ha]
  constructor
  · exact number_wordBytes hargc (by omega)
  · have hl : argv.length + 1 < (ps ++ 0 :: (qs ++ [0])).length := by omega
    have hget : (ps ++ 0 :: (qs ++ [0]))[argv.length + 1] = 0 := by
      simp [hps]
    rw [hword _ hl (by rw [hget]; decide), hget]
  · have hl : argv.length + 2 + envp.length < (ps ++ 0 :: (qs ++ [0])).length := by omega
    have hget : (ps ++ 0 :: (qs ++ [0]))[argv.length + 2 + envp.length] = 0 := by
      have h3 : argv.length + 2 + envp.length - ps.length = envp.length + 1 := by omega
      rw [getElem_append_right (by omega)]
      simp [h3, hqs]
    rw [hword _ hl (by rw [hget]; decide), hget]
  · intro j hj
    rw [hplace j hj]
    exact (hlie j hj (hcl ▸ hj)).1
  · intro j hj
    rw [hplace j hj]
    obtain ⟨-, h1, h2⟩ := hlie j hj (hcl ▸ hj)
    exact ⟨by omega, h2⟩
  · intro i j hij hj
    rw [hplace j hj, hplace i (Nat.lt_trans hij hj)]
    exact pushStrings_apart hstart.2 hstr i j hij hj (hcl ▸ hj)

/-! ## The stack of the user -/

theorem storeBytes_stack : ∀ {l : List Byte} {a : Nat} {s : State I}, userStackBottom ≤ a →
    (∃ t, storeBytes e l a s = .ok t) ∨ storeBytes e l a s = .error .panic ∧ ∃ n, e.available n = false
  | [], _, s, _ => .inl ⟨s, rfl⟩
  | b :: l, a, s, ha => by
    have htouch : (∃ t, touch e s a = .ok t) ∨ touch e s a = .error .panic ∧ ∃ n, e.available n = false := by
      unfold touch pageFault linkPage
      rw [if_pos (.inr ha : a < s.brk ∨ userStackBottom ≤ a)]
      split
      · exact .inl ⟨s, rfl⟩
      · cases hav : e.available s.linked with
        | true => exact .inl ⟨_, rfl⟩
        | false => exact .inr ⟨rfl, _, hav⟩
    unfold storeBytes storeByte
    rcases htouch with ⟨t, ht⟩ | ⟨ht, hn⟩
    · rw [ht]
      exact storeBytes_stack (Nat.le_succ_of_le ha)
    · rw [ht]
      exact .inr ⟨rfl, hn⟩

/-- The arguments of a program, if they leave a byte of the four pages, are laid out at the top of its stack, and the rest of its memory
stays; or there is no frame for a page of the stack. -/
theorem argument_stack (e : Env) (kp : Kpages) (mem : Nat → Byte) (s : State I) (hptr : argv.length + envp.length + 3 ≤ 1024)
    (hfit : blockSize filename argv envp < 4 * pageSize) :
    (∃ t, copyArgvEnvp e kp mem filename argv envp s = .ok (userStackTop - blockSize filename argv envp, t) ∧
      Layout t.byte (userStackTop - blockSize filename argv envp) filename argv envp ∧
      ∀ x, (s.page (x / pageSize)).isSome → (x < userStackTop - blockSize filename argv envp ∨ userStackTop ≤ x) → t.byte x = s.byte x) ∨
    copyArgvEnvp e kp mem filename argv envp s = .error .panic ∧ ∃ n, e.available n = false := by
  have hlen := argBlock_length filename argv envp
  have hptr' : (argPointers filename argv envp).1.length ≤ 1024 := by
    obtain ⟨ps, qs, hargs, -, hps, hqs⟩ := argPointers_eq filename argv envp
    rw [hargs]
    simp only [List.length_append, List.length_cons, List.length_nil, hps, hqs]
    omega
  have hbottom : userStackBottom ≤ userStackTop - blockSize filename argv envp := by
    unfold pageSize at hfit
    unfold userStackBottom userStackTop
    omega
  rw [copyArgvEnvp_eq hptr' (by omega)]
  unfold Exec.copyArgvEnvp
  rw [if_neg (by omega), hlen, assert, if_pos hfit]
  rcases storeBytes_stack (e := e) (l := argBlock filename argv envp) (s := s) hbottom with ⟨t, ht⟩ | ⟨ht, hn⟩
  · have hw := storeBytes_wrote ht
    refine .inl ⟨t, by rw [ht]; rfl, argBlock_layout hptr hfit fun k hk => ?_, fun x hx hout => hw.byte x hx ?_⟩
    · exact (hw.new _ _ (laid_some.2 ⟨k, rfl, List.getElem?_eq_getElem hk⟩)).2
    · refine Option.eq_none_iff_forall_ne_some.2 fun b hb => ?_
      obtain ⟨k, rfl, hk⟩ := laid_some.1 hb
      have := (List.getElem?_eq_some_iff.1 hk).1
      unfold pageSize at hfit
      unfold userStackTop at hout
      omega
  · exact .inr ⟨by rw [ht]; rfl, hn⟩

/-! ## Two stacks -/

def fivePages : Kpages := ⟨0x200000, 0x204000, .inl (by decide), by decide⟩

def blank : State Nat := ⟨1, fun _ => 0, 0x1000000, 0x1000000, 0, 0, none, fun _ => none, fun _ => 0, fun _ => 0, 0⟩

def plenty : Env := ⟨fun _ => true, fun _ _ => 0, fun _ => true⟩

theorem argument_stack_echo : blockSize [0x65] [[0x68, 0x69]] [] = 25 ∧
    ((∃ t, copyArgvEnvp plenty fivePages (fun _ => 0) [0x65] [[0x68, 0x69]] [] blank = .ok (userStackTop - 25, t) ∧
      Layout t.byte (userStackTop - 25) [0x65] [[0x68, 0x69]] [] ∧
      ∀ x, (blank.page (x / pageSize)).isSome → (x < userStackTop - 25 ∨ userStackTop ≤ x) → t.byte x = blank.byte x) ∨
    copyArgvEnvp plenty fivePages (fun _ => 0) [0x65] [[0x68, 0x69]] [] blank = .error .panic ∧ ∃ n, plenty.available n = false) :=
  ⟨by decide, argument_stack plenty fivePages (fun _ => 0) blank (by decide) (by decide)⟩

/-- One string of the environment that fills the pages. -/
theorem full_pages_refused : (∃ x : List Byte, x = List.replicate 16362 0x61 ∧ blockSize [] [] [x] = 4 * pageSize ∧
    (argPointers [] [] [x]).1.length ≤ 1024 ∧ copyArgvEnvp plenty fivePages (fun _ => 0) [] [] [x] blank = .error .assertion) := by
  obtain ⟨x, hx⟩ : ∃ x : List Byte, x = List.replicate 16362 0x61 := ⟨_, rfl⟩
  have hlen : x.length = 16362 := by rw [hx, List.length_replicate]
  have hsize : blockSize [] [] [x] = 4 * pageSize := by
    simp [blockSize, hlen, pageSize]
  have hptr : (argPointers [] [] [x]).1.length ≤ 1024 := by
    simp [argPointers, pushStrings]
  refine ⟨x, hx, hsize, hptr, ?_⟩
  have hblock := (argBlock_length [] [] [x]).trans hsize
  have hfull : ¬ 4 * pageSize < 4 * pageSize := Nat.lt_irrefl _
  rw [copyArgvEnvp_eq hptr (Nat.le_of_eq hblock)]
  unfold Exec.copyArgvEnvp
  rw [if_neg (Nat.not_lt.2 hptr), hblock, assert, if_neg hfull]
  rfl

end Onix.Exec.Args
