/-
`copy_argv_envp` of `kernel/execve.c` with its two cursors: the strings go into four kernel pages from the end on, beside each the address
it will have in the user's stack is computed and put into a fifth page, and what lies above the kernel's cursor is copied at last. What it
copies is the block of `Onix.Exec.argBlock`.
-/
import Onix.Exec.Model
import Onix.Lib.Spread

namespace Onix.Exec.Args

open List Onix.Lib
open Memory (userStackTop userStackBottom)

variable {I : Type}

/-! ## The cursors -/

/-- What `alloc_kpage` gives: four pages for the strings and one for the pointers. -/
structure Kpages where
  pages : Nat
  argvk : Nat
  apart : pages + 4 * pageSize ≤ argvk ∨ argvk + pageSize ≤ pages
  high : pages + 4 * pageSize < 2 ^ 32

def Kpages.pagesEnd (kp : Kpages) : Nat := kp.pages + 4 * pageSize

def back (top len : Nat) : Nat := (top + (2 ^ 32 - len % 2 ^ 32)) % 2 ^ 32

/-- The memory of the kernel, its top, and the top of the user's stack. -/
structure Tops where
  mem : Nat → Byte
  ktop : Nat
  utop : Nat

def pushString (x : List Byte) (slot : Nat) (t : Tops) : Tops :=
  let len := x.length + 1
  let ktop := back t.ktop len
  let utop := back t.utop len
  ⟨spread (wordBytes utop) slot (spread (x ++ [0]) ktop t.mem), ktop, utop⟩

/-- The loops over `envp` and `argv`, from the last string to the first; `slot` is the pointer of the first. -/
def pushAll : Nat → List (List Byte) → Tops → Tops
  | _, [], t => t
  | slot, x :: l, t => pushString x slot (pushAll (slot + 4) l t)

def pushArgs (kp : Kpages) (mem : Nat → Byte) (filename : List Byte) (argv envp : List (List Byte)) : Tops :=
  let argc := argv.length + 1
  let envc := envp.length
  let mem := spread (wordBytes 0) (kp.argvk + 4 * argc) mem
  let envpk := kp.argvk + 4 * (argc + 1)
  let mem := spread (wordBytes 0) (envpk + 4 * envc) mem
  let t := pushAll envpk envp ⟨mem, kp.pagesEnd, userStackTop⟩
  let t := pushAll (kp.argvk + 4) argv t
  pushString filename kp.argvk t

def pushWords (a n : Nat) (t : Tops) : Tops :=
  let ktop := back t.ktop n
  { t with mem := spread (gather t.mem a n) ktop t.mem, ktop := ktop }

def copyArgvEnvp (e : Env) (kp : Kpages) (mem : Nat → Byte) (filename : List Byte) (argv envp : List (List Byte)) (s : State I) :
    Except Stop (Nat × State I) := do
  let argc := argv.length + 1
  let envc := envp.length
  let t := pushArgs kp mem filename argv envp
  let t := pushWords (kp.argvk + 4 * (argc + 1)) ((envc + 1) * 4) t
  let t := pushWords kp.argvk ((argc + 1) * 4) t
  let ktop := back t.ktop 4
  let mem := spread (wordBytes argc) ktop t.mem
  assert (kp.pages < ktop)
  let len := kp.pagesEnd - ktop
  let s ← storeBytes e (gather mem ktop len) (userStackTop - len) s
  .ok (userStackTop - len, s)

/-! ## The block above the top -/

variable {kp : Kpages} {t : Tops} {l : List (List Byte)} {x : List Byte} {top : List Byte} {slot n : Nat}

theorem back_of_le (h : n ≤ slot) (hs : slot < 2 ^ 32) : back slot n = slot - n := by
  unfold back
  rcases Nat.eq_zero_or_pos n with rfl | hn
  · omega
  · rw [Nat.mod_eq_of_lt (by omega : n < 2 ^ 32)]
    omega

@[simp] theorem wordBytes_length (n : Nat) : (wordBytes n).length = 4 := rfl

@[simp] theorem words_length (ps : List Nat) : (ps.flatMap wordBytes).length = 4 * ps.length := by
  induction ps with
  | nil => rfl
  | cons p ps ih => rw [flatMap_cons, length_append, ih, length_cons, wordBytes_length]; omega

theorem pushStrings_length (l : List (List Byte)) (top : List Byte) : (pushStrings l top).1.length = l.length := by
  induction l with
  | nil => rfl
  | cons x l ih => exact congrArg (· + 1) ih

theorem pushStrings_cons (x : List Byte) (l : List (List Byte)) (top : List Byte) :
    pushStrings (x :: l) top =
      ((userStackTop - (x ++ [0] ++ (pushStrings l top).2).length) :: (pushStrings l top).1, x ++ [0] ++ (pushStrings l top).2) := rfl

theorem pushed_length (x top : List Byte) : (x ++ [0] ++ top).length = x.length + 1 + top.length := by
  rw [length_append, length_append, length_singleton]

theorem pushStrings_cons_le : (pushStrings l top).2.length ≤ (pushStrings (x :: l) top).2.length := by
  rw [pushStrings_cons, pushed_length]
  omega

theorem pushStrings_le (l : List (List Byte)) (top : List Byte) : top.length ≤ (pushStrings l top).2.length := by
  induction l with
  | nil => exact le_refl _
  | cons x l ih => exact le_trans ih pushStrings_cons_le

/-- What was pushed lies between the top and the end of the pages. -/
structure Pushed (kp : Kpages) (top : List Byte) (t : Tops) : Prop where
  fits : top.length ≤ 4 * pageSize
  ktop : t.ktop = kp.pagesEnd - top.length
  lies : Lies top t.ktop t.mem

/-- The strings will lie as far below the top of the stack. -/
structure Built (kp : Kpages) (top : List Byte) (t : Tops) : Prop extends Pushed kp top t where
  utop : t.utop = userStackTop - top.length

def Kpages.Slot (kp : Kpages) (a n : Nat) : Prop := kp.argvk ≤ a ∧ a + n ≤ kp.argvk + pageSize

theorem Kpages.Slot.off (h : kp.Slot slot n) : slot + n ≤ kp.pages ∨ kp.pagesEnd ≤ slot := by
  have := kp.apart
  unfold Kpages.pagesEnd
  unfold Kpages.Slot at h
  omega

theorem Built.next (hb : Built kp top t) (hfit : (x ++ [0] ++ top).length ≤ 4 * pageSize) :
    back t.ktop (x.length + 1) = kp.pagesEnd - (x ++ [0] ++ top).length ∧
      back t.utop (x.length + 1) = userStackTop - (x ++ [0] ++ top).length := by
  have hhigh := kp.high
  rw [pushed_length] at hfit ⊢
  constructor
  · rw [hb.ktop, back_of_le (by unfold Kpages.pagesEnd; omega) (by unfold Kpages.pagesEnd; omega)]
    omega
  · unfold pageSize at hfit
    rw [hb.utop, back_of_le (by unfold userStackTop; omega) (by unfold userStackTop; omega)]
    omega

theorem pushString_built (hb : Built kp top t) (hfit : (x ++ [0] ++ top).length ≤ 4 * pageSize) (hs : kp.Slot slot 4) :
    Built kp (x ++ [0] ++ top) (pushString x slot t) := by
  obtain ⟨hk, hu⟩ := hb.next hfit
  have hoff := hs.off
  have hkt := hb.ktop
  have hlen := pushed_length x top
  refine ⟨⟨hfit, hk, ?_⟩, hu⟩
  show Lies _ (back t.ktop (x.length + 1)) _
  have hnext : back t.ktop (x.length + 1) + (x ++ [0]).length = t.ktop := by
    rw [length_append, length_singleton]
    unfold Kpages.pagesEnd at hk hkt
    omega
  -- the string lies below what was there, and the pointer elsewhere
  refine Lies.spread (lies_append.2 ⟨spread_lies _ _ _, ?_⟩) ?_
  · rw [hnext]
    exact hb.lies.spread (.inr (le_of_eq hnext))
  · unfold Kpages.pagesEnd at hk hoff
    rw [wordBytes_length]
    omega

theorem pushString_pointer (hb : Built kp top t) (hfit : (x ++ [0] ++ top).length ≤ 4 * pageSize) :
    Lies (wordBytes (userStackTop - (x ++ [0] ++ top).length)) slot (pushString x slot t).mem := by
  rw [← (hb.next hfit).2]
  exact spread_lies _ _ _

theorem pushString_frame {p : List Byte} {a : Nat} (hb : Built kp top t) (hfit : (x ++ [0] ++ top).length ≤ 4 * pageSize)
    (ha : kp.Slot a p.length) (hs : a + p.length ≤ slot ∨ slot + 4 ≤ a) (hp : Lies p a t.mem) : Lies p a (pushString x slot t).mem := by
  obtain ⟨hk, -⟩ := hb.next hfit
  have hoff := ha.off
  have hlen := pushed_length x top
  have hlen' : (x ++ [0]).length = x.length + 1 := by rw [length_append, length_singleton]
  unfold Kpages.pagesEnd at hk hoff
  exact (hp.spread (by omega)).spread hs

theorem pushAll_built : ∀ {slot : Nat} {l : List (List Byte)}, Built kp top t → (pushStrings l top).2.length ≤ 4 * pageSize →
    kp.Slot slot (4 * l.length) → Built kp (pushStrings l top).2 (pushAll slot l t) ∧
      Lies ((pushStrings l top).1.flatMap wordBytes) slot (pushAll slot l t).mem
  | _, [], hb, _, _ => ⟨hb, .nil⟩
  | slot, x :: l, hb, hfit, hs => by
    have hs4 : kp.Slot slot 4 ∧ kp.Slot (slot + 4) (4 * l.length) := by
      unfold Kpages.Slot at hs ⊢
      rw [length_cons] at hs
      omega
    obtain ⟨h1, h2⟩ := pushAll_built hb (le_trans pushStrings_cons_le hfit) hs4.2
    refine ⟨pushString_built h1 hfit hs4.1, ?_⟩
    show Lies (wordBytes _ ++ (pushStrings l top).1.flatMap wordBytes) slot _
    rw [lies_append, wordBytes_length]
    refine ⟨pushString_pointer h1 hfit, pushString_frame h1 hfit ?_ (.inr (le_refl _)) h2⟩
    rw [words_length, pushStrings_length]
    exact hs4.2

theorem pushAll_frame {p : List Byte} {a : Nat} : ∀ {slot : Nat} {l : List (List Byte)}, Built kp top t →
    (pushStrings l top).2.length ≤ 4 * pageSize → kp.Slot slot (4 * l.length) → kp.Slot a p.length →
    (a + p.length ≤ slot ∨ slot + 4 * l.length ≤ a) → Lies p a t.mem → Lies p a (pushAll slot l t).mem
  | _, [], _, _, _, _, _, hp => hp
  | slot, x :: l, hb, hfit, hs, ha, hap, hp => by
    have hle := le_trans pushStrings_cons_le hfit
    rw [length_cons] at hap
    have hs4 : kp.Slot (slot + 4) (4 * l.length) := by
      unfold Kpages.Slot at hs ⊢
      rw [length_cons] at hs
      omega
    exact pushString_frame (pushAll_built hb hle hs4).1 hfit ha (by omega) (pushAll_frame hb hle hs4 ha (by omega) hp)

theorem argPointers_parts (filename : List Byte) (argv envp : List (List Byte)) : ∃ envk argk, pushStrings envp [] = envk ∧
    pushStrings (filename :: argv) envk.2 = argk ∧ argPointers filename argv envp = (argk.1 ++ 0 :: (envk.1 ++ [0]), argk.2) ∧
    argk.1.length = argv.length + 1 ∧ envk.1.length = envp.length :=
  ⟨_, _, rfl, rfl, rfl, pushStrings_length _ _, pushStrings_length _ _⟩

theorem pushArgs_built {mem : Nat → Byte} {filename : List Byte} {argv envp : List (List Byte)}
    (hptr : (argPointers filename argv envp).1.length ≤ 1024) (hfit : (argPointers filename argv envp).2.length ≤ 4 * pageSize) :
    Built kp (argPointers filename argv envp).2 (pushArgs kp mem filename argv envp) ∧
      Lies ((argPointers filename argv envp).1.flatMap wordBytes) kp.argvk (pushArgs kp mem filename argv envp).mem := by
  obtain ⟨envk, argk, he, ha, hargs, hal, hel⟩ := argPointers_parts filename argv envp
  have hle : envk.2.length ≤ argk.2.length := by
    rw [← ha]
    exact pushStrings_le _ _
  rw [hargs] at hptr hfit ⊢
  dsimp only at hptr hfit ⊢
  simp only [length_append, length_cons, length_nil, hel, hal] at hptr
  -- the two ends of the lists of pointers
  obtain ⟨m0, hm0⟩ : ∃ m, spread (wordBytes 0) (kp.argvk + 4 * (argv.length + 1)) mem = m := ⟨_, rfl⟩
  obtain ⟨m1, hm1⟩ : ∃ m, spread (wordBytes 0) (kp.argvk + 4 * (argv.length + 1 + 1) + 4 * envp.length) m0 = m := ⟨_, rfl⟩
  obtain ⟨t1, ht1⟩ : ∃ t, pushAll (kp.argvk + 4 * (argv.length + 1 + 1)) envp ⟨m1, kp.pagesEnd, userStackTop⟩ = t := ⟨_, rfl⟩
  have hpush : pushArgs kp mem filename argv envp = pushAll kp.argvk (filename :: argv) t1 := by
    rw [← ht1, ← hm1, ← hm0]
    rfl
  have hend1 : Lies (wordBytes 0) (kp.argvk + 4 * (argv.length + 1 + 1) + 4 * envp.length) m1 := hm1 ▸ spread_lies _ _ _
  have hend0 : Lies (wordBytes 0) (kp.argvk + 4 * (argv.length + 1)) m1 := by
    rw [← hm1]
    exact (hm0 ▸ spread_lies _ _ _ : Lies (wordBytes 0) _ m0).spread (.inl (by rw [wordBytes_length]; omega))
  have hslot : ∀ a n, a + n ≤ 1024 → kp.Slot (kp.argvk + 4 * a) (4 * n) := by
    unfold Kpages.Slot pageSize
    omega
  have hb0 : Built kp [] ⟨m1, kp.pagesEnd, userStackTop⟩ := ⟨⟨Nat.zero_le _, rfl, .nil⟩, rfl⟩
  have hs1 := hslot (argv.length + 1 + 1) envp.length (by omega)
  have hfit1 : (pushStrings envp []).2.length ≤ 4 * pageSize := by
    rw [he]
    omega
  obtain ⟨hb1, hp1⟩ := pushAll_built hb0 hfit1 hs1
  have hend0' := pushAll_frame hb0 hfit1 hs1 (hslot (argv.length + 1) 1 (by omega)) (.inl (by rw [wordBytes_length]; omega)) hend0
  have hsend : kp.Slot (kp.argvk + 4 * (argv.length + 1 + 1) + 4 * envp.length) 4 := by
    rw [add_assoc, ← Nat.mul_add]
    exact hslot _ 1 (by omega)
  have hend1' := pushAll_frame hb0 hfit1 hs1 hsend (.inr (le_refl _)) hend1
  rw [ht1, he] at hb1 hp1
  rw [ht1] at hend0' hend1'
  have hs2 : kp.Slot kp.argvk (4 * (filename :: argv).length) := hslot 0 _ (by rw [length_cons]; omega)
  have hfit2 : (pushStrings (filename :: argv) envk.2).2.length ≤ 4 * pageSize := by rwa [ha]
  obtain ⟨hb2, hp2⟩ := pushAll_built hb1 hfit2 hs2
  have hframe : ∀ {p : List Byte} {a : Nat}, kp.Slot a p.length → kp.argvk + 4 * (argv.length + 1) ≤ a → Lies p a t1.mem →
      Lies p a (pushAll kp.argvk (filename :: argv) t1).mem := fun hs hle hp =>
    pushAll_frame hb1 hfit2 hs2 hs (.inr hle) hp
  rw [ha] at hb2 hp2
  rw [hpush]
  refine ⟨hb2, ?_⟩
  rw [flatMap_append, flatMap_cons, flatMap_append, lies_append, lies_append, lies_append]
  simp only [flatMap_cons, flatMap_nil, append_nil, words_length, wordBytes_length, hal, hel]
  refine ⟨hp2, hframe (hslot _ 1 (by omega)) (le_refl _) hend0', hframe ?_ (by omega) hp1, hframe hsend (by omega) hend1'⟩
  rw [words_length, hel]
  exact hs1

/-! ## The copy -/

theorem pushWords_pushed {p : List Byte} {a : Nat} (h : Pushed kp top t) (hfit : (p ++ top).length ≤ 4 * pageSize)
    (hp : Lies p a t.mem) : Pushed kp (p ++ top) (pushWords a p.length t) ∧
      ∀ {q : List Byte} {b : Nat}, kp.Slot b q.length → Lies q b t.mem → Lies q b (pushWords a p.length t).mem := by
  have hhigh := kp.high
  have hkt := h.ktop
  rw [length_append] at hfit
  have hk : back t.ktop p.length = kp.pagesEnd - (p ++ top).length := by
    rw [hkt, length_append, back_of_le (by unfold Kpages.pagesEnd; omega) (by unfold Kpages.pagesEnd; omega)]
    omega
  have hnext : back t.ktop p.length + p.length = t.ktop := by
    rw [hk, hkt, length_append]
    unfold Kpages.pagesEnd
    omega
  refine ⟨⟨by rwa [length_append], hk, ?_⟩, fun hs hq => ?_⟩
  · show Lies _ (back t.ktop p.length) (spread (gather t.mem a p.length) _ _)
    rw [gather_eq hp, lies_append]
    refine ⟨spread_lies _ _ _, ?_⟩
    rw [hnext]
    exact h.lies.spread (.inr (le_of_eq hnext))
  · show Lies _ _ (spread (gather t.mem a p.length) (back t.ktop p.length) _)
    rw [gather_eq hp]
    refine hq.spread ?_
    have hoff := hs.off
    rw [length_append] at hk
    unfold Kpages.pagesEnd at hk hoff
    omega

theorem argPointers_split (filename : List Byte) (argv envp : List (List Byte)) : ∃ as es, (argPointers filename argv envp).1 = as ++ es ∧
    as.length = argv.length + 2 ∧ es.length = envp.length + 1 := by
  obtain ⟨envk, argk, -, -, hargs, hal, hel⟩ := argPointers_parts filename argv envp
  refine ⟨argk.1 ++ [0], envk.1 ++ [0], ?_, by simp [hal], by simp [hel]⟩
  rw [hargs]
  simp

theorem copyArgvEnvp_eq {e : Env} {mem : Nat → Byte} {filename : List Byte} {argv envp : List (List Byte)} {s : State I}
    (hptr : (argPointers filename argv envp).1.length ≤ 1024) (hfit : (argBlock filename argv envp).length ≤ 4 * pageSize) :
    copyArgvEnvp e kp mem filename argv envp s = Exec.copyArgvEnvp e filename argv envp s := by
  obtain ⟨as, es, hsplit, has, hes⟩ := argPointers_split filename argv envp
  obtain ⟨strings, hstr⟩ : ∃ x, (argPointers filename argv envp).2 = x := ⟨_, rfl⟩
  have hblock : argBlock filename argv envp =
      wordBytes (argv.length + 1) ++ (as.flatMap wordBytes ++ (es.flatMap wordBytes ++ strings)) := by
    unfold argBlock
    dsimp only
    rw [hsplit, hstr, flatMap_append, append_assoc]
  have hhigh := kp.high
  have hsize := hfit
  rw [hblock, length_append, length_append, length_append] at hsize
  obtain ⟨hb, hp⟩ := @pushArgs_built kp mem filename argv envp hptr (by rw [hstr]; omega)
  rw [hstr] at hb
  rw [hsplit, flatMap_append, lies_append] at hp
  have hal : (as.flatMap wordBytes).length = (argv.length + 1 + 1) * 4 := by rw [words_length, has]; omega
  have hel : (es.flatMap wordBytes).length = (envp.length + 1) * 4 := by rw [words_length, hes]; omega
  have hslot : kp.Slot kp.argvk (as.flatMap wordBytes).length := by
    rw [hsplit, length_append] at hptr
    unfold Kpages.Slot pageSize
    omega
  -- the pointers to the environment, those to the arguments, and their number
  obtain ⟨h1, f1⟩ := pushWords_pushed hb.toPushed (by rw [length_append]; omega) hp.2
  obtain ⟨h2, -⟩ := pushWords_pushed h1 (by rw [length_append, length_append]; omega) (f1 hslot hp.1)
  rw [hal, hel] at h2
  have hplace : kp.argvk + (argv.length + 1 + 1) * 4 = kp.argvk + 4 * (argv.length + 1 + 1) := by omega
  rw [hplace] at h2
  obtain ⟨t, ht⟩ : ∃ t, pushWords kp.argvk ((argv.length + 1 + 1) * 4)
      (pushWords (kp.argvk + 4 * (argv.length + 1 + 1)) ((envp.length + 1) * 4) (pushArgs kp mem filename argv envp)) = t := ⟨_, rfl⟩
  rw [ht] at h2
  have hkt := h2.ktop
  rw [length_append, length_append] at hkt
  unfold Kpages.pagesEnd at hkt
  have hk : back t.ktop 4 = t.ktop - 4 := back_of_le (by rw [wordBytes_length] at hsize; omega) (by omega)
  have hlies : Lies (argBlock filename argv envp) (back t.ktop 4) (spread (wordBytes (argv.length + 1)) (back t.ktop 4) t.mem) := by
    rw [hblock, lies_append]
    refine ⟨spread_lies _ _ _, ?_⟩
    have hnext : back t.ktop 4 + (wordBytes (argv.length + 1)).length = t.ktop := by
      rw [wordBytes_length] at hsize ⊢
      omega
    rw [hnext]
    exact h2.lies.spread (.inr (le_of_eq hnext))
  have hlen : kp.pagesEnd - back t.ktop 4 = (argBlock filename argv envp).length := by
    rw [hblock, length_append, length_append, length_append, hk]
    rw [wordBytes_length] at hsize ⊢
    unfold Kpages.pagesEnd
    omega
  have hover : ¬ 1024 < (argPointers filename argv envp).1.length := by omega
  have hassert : kp.pages < back t.ktop 4 ↔ (argBlock filename argv envp).length < 4 * pageSize := by
    rw [← hlen]
    unfold Kpages.pagesEnd
    omega
  unfold copyArgvEnvp Exec.copyArgvEnvp
  dsimp only
  rw [ht, if_neg hover, hlen, gather_eq hlies]
  simp only [hassert]

end Onix.Exec.Args
