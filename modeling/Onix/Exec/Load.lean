/-
What the stores of the kernel and `load_elf` leave in user memory: the pages that were there and those they add, and of the bytes that were
there all but those they write.
-/
import Onix.Exec.Image

namespace Onix.Exec

open Onix.Lib
open Memory (userExecAddr userMmapAddr userStackTop userStackBottom)

variable {I : Type} {e : Env} {f : File} {s t u : State I} {P Q : Nat → Prop} {v w : Nat → Option Byte} {l : List Byte}
variable {c d : Nat → Byte}
  {a b n p i k ptr : Nat}

/-! ## Pages and bytes -/

/-- The pages `P` are added, and nothing is done to the heap and to what the task holds. -/
structure Grown (P : Nat → Prop) (s t : State I) : Prop where
  brk : t.brk = s.brk
  endAddr : s.endAddr ≤ t.endAddr
  iexec : t.iexec = s.iexec
  count : t.count = s.count
  page : ∀ p, (t.page p).isSome ↔ (s.page p).isSome ∨ P p

/-- The bytes `w` are written besides. -/
structure Wrote (P : Nat → Prop) (w : Nat → Option Byte) (s t : State I) : Prop extends Grown P s t where
  byte : ∀ x, (s.page (x / pageSize)).isSome → w x = none → t.byte x = s.byte x
  new : ∀ x b, w x = some b → (t.page (x / pageSize)).isSome ∧ t.byte x = b

theorem Grown.refl (s : State I) : Grown (fun _ => False) s s :=
  ⟨rfl, Nat.le_refl _, rfl, rfl, fun _ => (or_iff_left id).symm⟩

theorem Grown.trans (h1 : Grown P s t) (h2 : Grown Q t u) : Grown (fun p => P p ∨ Q p) s u :=
  ⟨h2.brk.trans h1.brk, Nat.le_trans h1.endAddr h2.endAddr, h2.iexec.trans h1.iexec, h2.count.trans h1.count, fun p => by
    rw [h2.page, h1.page, or_assoc]⟩

theorem Grown.congr (h : Grown P s t) (hP : ∀ p, P p ↔ Q p) : Grown Q s t :=
  ⟨h.brk, h.endAddr, h.iexec, h.count, fun p => by rw [h.page, hP]⟩

theorem Grown.nothing {l : List Phdr} (hl : l = []) : Grown (fun p => ∃ g ∈ l, g.Links f p) s s := by
  subst hl
  refine (Grown.refl s).congr fun p => ⟨False.elim, ?_⟩
  rintro ⟨g, hg, -⟩
  cases hg

theorem Wrote.refl (s : State I) : Wrote (fun _ => False) (fun _ => none) s s :=
  ⟨.refl s, fun _ _ _ => rfl, fun _ _ h => nomatch h⟩

theorem Wrote.trans (h1 : Wrote P v s t) (h2 : Wrote Q w t u) : Wrote (fun p => P p ∨ Q p) (fun x => (w x).or (v x)) s u := by
  refine ⟨h1.toGrown.trans h2.toGrown, fun x hx hn => ?_, fun x b hb => ?_⟩
  · obtain ⟨hw, hv⟩ := Option.or_eq_none_iff.1 hn
    rw [h2.byte x ((h1.page _).2 (.inl hx)) hw, h1.byte x hx hv]
  · cases hw : w x with
    | some c =>
      rw [hw] at hb
      cases hb
      exact h2.new x _ hw
    | none =>
      rw [hw] at hb
      obtain ⟨h3, h4⟩ := h1.new x b hb
      exact ⟨(h2.page _).2 (.inl h3), (h2.byte x h3 hw).trans h4⟩

theorem Wrote.congr (h : Wrote P v s t) (hP : ∀ p, P p ↔ Q p) (hw : ∀ x, v x = w x) : Wrote Q w s t := by
  obtain rfl : v = w := funext hw
  exact ⟨h.toGrown.congr hP, h.byte, h.new⟩

theorem Wrote.stays (h : Wrote P w s t) {x : Nat} (hx : (s.page (x / pageSize)).isSome) (hw : ∀ b, w x = some b → b = s.byte x) :
    (t.page (x / pageSize)).isSome ∧ t.byte x = s.byte x := by
  refine ⟨(h.page _).2 (.inl hx), ?_⟩
  cases hb : w x with
  | none => exact h.byte x hx hb
  | some b => rw [(h.new x b hb).2, hw b hb]

theorem touched_or : Touched (fun x => (w x).or (v x)) p ↔ Touched v p ∨ Touched w p := by
  constructor
  · rintro ⟨x, hx, rfl⟩
    rw [Option.isSome_or, Bool.or_eq_true] at hx
    rcases hx with hx | hx
    · exact .inr ⟨x, hx, rfl⟩
    · exact .inl ⟨x, hx, rfl⟩
  · rintro (⟨x, hx, rfl⟩ | ⟨x, hx, rfl⟩)
    · exact ⟨x, by rw [Option.isSome_or, hx, Bool.or_true], rfl⟩
    · exact ⟨x, by rw [Option.isSome_or, hx, Bool.true_or], rfl⟩

/-! ## Stores -/

theorem assert_ok {c : Prop} [Decidable c] {x : Unit} (h : assert c = .ok x) : c := by
  unfold assert at h
  split at h
  · assumption
  · cases h

theorem linkPage_wrote (h : linkPage e s p = .ok t) : Wrote (· = p) (fun _ => none) s t := by
  unfold linkPage at h
  split at h
  · rename_i hp
    cases h
    refine ⟨⟨rfl, Nat.le_refl _, rfl, rfl, fun q => ⟨.inl, ?_⟩⟩, fun _ _ _ => rfl, fun _ _ h => nomatch h⟩
    rintro (hq | rfl)
    · exact hq
    · exact hp
  · rename_i hp
    split at h
    · cases h
      refine ⟨⟨rfl, Nat.le_refl _, rfl, rfl, fun q => ?_⟩, fun x hx _ => ?_, fun _ _ h => nomatch h⟩
      · dsimp only
        by_cases hq : q = p
        · simp [hq]
        · simp [hq]
      · have hne : x / pageSize ≠ p := fun he => hp (he ▸ hx)
        exact if_neg hne
    · cases h

theorem storeByte_wrote {c : Byte} (h : storeByte e s a c = .ok t) :
    Wrote (fun p => a / pageSize = p) (fun x => if x = a then some c else none) s t := by
  obtain ⟨u, hu, h⟩ := bind_ok h
  cases h
  have hu : Wrote (fun p => a / pageSize = p) (fun _ => none) s u := by
    unfold touch at hu
    split at hu
    · rename_i hp
      cases hu
      refine ⟨⟨rfl, Nat.le_refl _, rfl, rfl, fun q => ⟨.inl, ?_⟩⟩, fun _ _ _ => rfl, fun _ _ h => nomatch h⟩
      rintro (hq | rfl)
      · exact hq
      · exact hp
    · unfold pageFault at hu
      split at hu
      · exact (linkPage_wrote hu).congr (fun q => eq_comm) fun _ => rfl
      · cases hu
  refine ⟨⟨hu.brk, hu.endAddr, hu.iexec, hu.count, hu.page⟩, fun x hx hn => ?_, fun x b hb => ?_⟩
  · have hne : x ≠ a := by
      rintro rfl
      rw [if_pos rfl] at hn
      cases hn
    exact (if_neg hne).trans (hu.byte x hx rfl)
  · split at hb
    · rename_i hx
      cases hb
      subst hx
      exact ⟨(hu.page _).2 (.inr rfl), if_pos rfl⟩
    · cases hb

theorem laid_nil (a x : Nat) : laid [] a x = none := by
  unfold laid
  split <;> rfl

theorem laid_cons (c : Byte) (l : List Byte) (a x : Nat) :
    laid (c :: l) a x = (laid l (a + 1) x).or (if x = a then some c else none) := by
  unfold laid
  by_cases h : x = a
  · subst h
    have h3 : ¬ x + 1 ≤ x := by omega
    rw [if_pos (Nat.le_refl x), if_neg h3, if_pos rfl, Nat.sub_self]
    rfl
  · by_cases hle : a ≤ x
    · obtain ⟨d, rfl⟩ : ∃ d, x = a + 1 + d := ⟨x - (a + 1), by omega⟩
      have h1 : a + 1 + d - a = d + 1 := by omega
      have h2 : a + 1 + d - (a + 1) = d := by omega
      have h3 : a + 1 ≤ a + 1 + d := by omega
      rw [if_pos hle, if_pos h3, if_neg h, h1, h2, List.getElem?_cons_succ, Option.or_none]
    · have h3 : ¬ a + 1 ≤ x := by omega
      rw [if_neg hle, if_neg h3, if_neg h]
      rfl

theorem storeBytes_wrote : ∀ {l : List Byte} {a : Nat} {s : State I}, storeBytes e l a s = .ok t →
    Wrote (Touched (laid l a)) (laid l a) s t
  | [], a, s, h => by
    cases h
    refine (Wrote.refl _).congr (fun p => ⟨False.elim, ?_⟩) fun x => (laid_nil a x).symm
    rintro ⟨x, hx, -⟩
    rw [laid_nil] at hx
    cases hx
  | c :: l, a, s, h => by
    obtain ⟨u, hu, h⟩ := bind_ok h
    have hcons : laid (c :: l) a = fun x => (laid l (a + 1) x).or (if x = a then some c else none) := funext (laid_cons c l a)
    rw [hcons]
    refine ((storeByte_wrote hu).trans (storeBytes_wrote h)).congr (fun p => ?_) fun _ => rfl
    rw [touched_or]
    refine or_congr_left ⟨?_, ?_⟩
    · rintro rfl
      exact ⟨a, by simp, rfl⟩
    · rintro ⟨x, hx, rfl⟩
      have hxa : x = a := by simpa using hx
      rw [hxa]

theorem laid_some {x : Nat} {c : Byte} : laid l a x = some c ↔ ∃ k, x = a + k ∧ l[k]? = some c := by
  unfold laid
  constructor
  · intro h
    split at h
    · exact ⟨x - a, by omega, h⟩
    · cases h
  · rintro ⟨k, rfl, hk⟩
    rw [if_pos (Nat.le_add_right a k), Nat.add_sub_cancel_left]
    exact hk

theorem linkPages_wrote : ∀ {n a : Nat} {s : State I}, linkPages e n a s = .ok t →
    Wrote (fun p => a / pageSize ≤ p ∧ p < a / pageSize + n) (fun _ => none) s t
  | 0, a, s, h => by
    cases h
    exact (Wrote.refl _).congr (fun p => ⟨False.elim, fun hp => by omega⟩) fun _ => rfl
  | n + 1, a, s, h => by
    obtain ⟨_, -, h⟩ := bind_ok h
    obtain ⟨u, hu, h⟩ := bind_ok h
    refine ((linkPage_wrote hu).trans (linkPages_wrote h)).congr (fun p => ?_) fun _ => rfl
    have hnext : (a + pageSize) / pageSize = a / pageSize + 1 := Nat.add_div_right a (by decide)
    omega

theorem read_wrote {x : Int × State I} (h : read e f a n k s = .ok x) :
    Wrote (Touched (laid ((f.data.drop k).take n) a)) (laid ((f.data.drop k).take n) a) s x.2 ∧
      (k < f.data.length → x.1 = ((f.data.drop k).take n).length) := by
  unfold read at h
  split at h
  · rename_i hk
    cases h
    rw [List.drop_eq_nil_of_le hk, List.take_nil]
    exact ⟨storeBytes_wrote (e := e) rfl, fun hlt => absurd hlt (by omega)⟩
  · obtain ⟨_, -, h⟩ := bind_ok h
    obtain ⟨u, hu, h⟩ := bind_ok h
    cases h
    exact ⟨storeBytes_wrote hu, fun _ => rfl⟩

/-! ## Numbers in memory -/

theorem number_congr {a b : Nat} : ∀ {n : Nat}, (∀ k < n, c (a + k) = d (b + k)) → number c a n = number d b n
  | 0, _ => rfl
  | n + 1, h => by
    have h0 : c a = d b := h 0 (Nat.succ_pos n)
    have hrest : number c (a + 1) n = number d (b + 1) n := number_congr fun k hk => by
      have := h (k + 1) (Nat.succ_lt_succ hk)
      rwa [Nat.add_assoc, Nat.add_assoc, Nat.add_comm 1 k]
    unfold number
    rw [h0, hrest]

theorem number_lt (c : Nat → Byte) (a : Nat) : ∀ n, number c a n < 256 ^ n
  | 0 => Nat.one_pos
  | n + 1 => by
    have h1 := (c a).toNat_lt
    have h2 := number_lt c (a + 1) n
    unfold number
    omega

theorem word_ok (h : s.word a = .ok n) : (s.page (a / pageSize)).isSome ∧ n = number s.byte a 4 := by
  unfold State.word at h
  split at h
  · cases h
    exact ⟨‹_›, rfl⟩
  · cases h

theorem phdrAt_congr {a b : Nat} (h : ∀ k < phdrSize, c (a + k) = d (b + k)) : phdrAt c a = phdrAt d b := by
  have hnum : ∀ j n, j + n ≤ phdrSize → number c (a + j) n = number d (b + j) n := fun j n hj => number_congr fun k hk => by
    rw [Nat.add_assoc, Nat.add_assoc]
    exact h _ (by omega)
  have h0 := hnum 0 4 (by decide)
  unfold phdrAt
  rw [Nat.add_zero, Nat.add_zero] at h0
  rw [h0, hnum 4 4 (by decide), hnum 8 4 (by decide), hnum 16 4 (by decide), hnum 20 4 (by decide), hnum 24 4 (by decide),
    hnum 28 4 (by decide)]

/-! ## `load_segment` -/

theorem protect_wrote (s : State I) (p n : Nat) : Wrote (fun _ => False) (fun _ => none) s (protect s p n) := by
  refine ⟨⟨rfl, Nat.le_refl _, rfl, rfl, fun q => ?_⟩, fun _ _ _ => rfl, fun _ _ h => nomatch h⟩
  unfold protect
  dsimp only
  split
  · simp
  · simp

theorem setStart_wrote (s : State I) (n a : Nat) : Wrote (fun _ => False) (fun _ => none) s (setStart s n a) := by
  have hsame : ∀ t : State I, t.brk = s.brk → t.endAddr = s.endAddr → t.iexec = s.iexec → t.count = s.count → t.page = s.page →
      t.byte = s.byte → Wrote (fun _ => False) (fun _ => none) s t := fun t h1 h2 h3 h4 h5 h6 =>
    ⟨⟨h1, Nat.le_of_eq h2.symm, h3, h4, fun p => by rw [h5, or_iff_left id]⟩, fun x _ _ => by rw [h6], fun _ _ h => nomatch h⟩
  unfold setStart
  split
  · exact hsame _ rfl rfl rfl rfl rfl rfl
  · split
    · exact hsame _ rfl rfl rfl rfl rfl rfl
    · exact .refl s

theorem clear_wrote {filesz memsz : Nat} (h : clear e a filesz memsz s = .ok t) :
    Wrote (Touched (laid (List.replicate (memsz - filesz) 0) (a + filesz))) (laid (List.replicate (memsz - filesz) 0) (a + filesz)) s t := by
  unfold clear at h
  split at h
  · exact storeBytes_wrote h
  · cases h
    rw [Nat.sub_eq_zero_of_le (by omega)]
    exact storeBytes_wrote (e := e) rfl

theorem Phdr.wrote_of_file {g : Phdr} {x : Nat} {c : Byte} (h : laid ((f.data.drop g.offset).take g.filesz) g.vaddr x = some c) :
    g.wrote f x = some c := by
  obtain ⟨k, rfl, hk⟩ := laid_some.1 h
  have hlt : k < g.filesz := by
    have h1 := (List.getElem?_eq_some_iff.1 hk).1
    rw [List.length_take] at h1
    omega
  unfold Phdr.wrote
  have hzero : laid (List.replicate (g.memsz - g.filesz) 0) (g.vaddr + g.filesz) (g.vaddr + k) = none := if_neg (by omega)
  rw [hzero, h]
  rfl

def Stays (f : File) (ptr : Nat) (s : State I) : Prop :=
  ∀ k < phdrSize, (s.page ((ptr + k) / pageSize)).isSome ∧ ∀ b, (phdrAt s.byte ptr).wrote f (ptr + k) = some b → b = s.byte (ptr + k)

theorem Stays.phdr (h : Stays f ptr s) (hw : Wrote P w s t) (hsub : ∀ x b, w x = some b → (phdrAt s.byte ptr).wrote f x = some b) :
    phdrAt t.byte ptr = phdrAt s.byte ptr :=
  phdrAt_congr fun k hk => (hw.stays (h k hk).1 fun b hb => (h k hk).2 b (hsub _ b hb)).2

theorem loadSegment_wrote (hs : Stays f ptr s) (h : loadSegment e f ptr s = .ok t) :
    Wrote ((phdrAt s.byte ptr).Links f) ((phdrAt s.byte ptr).wrote f) s t := by
  obtain ⟨g, hg⟩ : ∃ g, phdrAt s.byte ptr = g := ⟨_, rfl⟩
  obtain ⟨align, -, h⟩ := bind_ok h
  obtain ⟨_, -, h⟩ := bind_ok h
  obtain ⟨vaddr, hv, h⟩ := bind_ok h
  obtain ⟨_, -, h⟩ := bind_ok h
  obtain ⟨memsz, hm, h⟩ := bind_ok h
  obtain ⟨filesz, hf, h⟩ := bind_ok h
  obtain ⟨s1, h1, h⟩ := bind_ok h
  obtain ⟨filesz', hf', h⟩ := bind_ok h
  obtain ⟨offset, ho, h⟩ := bind_ok h
  obtain ⟨⟨n, s2⟩, h2, h⟩ := bind_ok h
  obtain ⟨filesz'', hf'', h⟩ := bind_ok h
  obtain ⟨memsz', hm', h⟩ := bind_ok h
  obtain ⟨s3, h3, h⟩ := bind_ok h
  obtain ⟨flags, -, h⟩ := bind_ok h
  cases h
  -- the fields are those of the header at each time
  obtain rfl : vaddr = g.vaddr := (word_ok hv).2.trans (congrArg Phdr.vaddr hg)
  obtain rfl : memsz = g.memsz := (word_ok hm).2.trans (congrArg Phdr.memsz hg)
  obtain rfl : filesz = g.filesz := (word_ok hf).2.trans (congrArg Phdr.filesz hg)
  have w1 := linkPages_wrote h1
  have hg1 : phdrAt s1.byte ptr = g := (hs.phdr w1 fun _ _ hn => nomatch hn).trans hg
  obtain rfl : filesz' = g.filesz := (word_ok hf').2.trans (congrArg Phdr.filesz hg1)
  obtain rfl : offset = g.offset := (word_ok ho).2.trans (congrArg Phdr.offset hg1)
  have w2 := w1.trans (read_wrote h2).1
  have hg2 : phdrAt s2.byte ptr = g := by
    refine (hs.phdr w2 fun x b hb => ?_).trans hg
    rw [Option.or_none] at hb
    rw [hg]
    exact Phdr.wrote_of_file hb
  obtain rfl : filesz'' = g.filesz := (word_ok hf'').2.trans (congrArg Phdr.filesz hg2)
  obtain rfl : memsz' = g.memsz := (word_ok hm').2.trans (congrArg Phdr.memsz hg2)
  have w3 := w2.trans (clear_wrote h3)
  have w4 : Wrote (fun _ => False) (fun _ => none) s3
      (setStart (if flags &&& PF_W = 0 then protect s3 (g.vaddr / pageSize) (divRoundUp (max g.memsz g.filesz)) else s3) flags g.vaddr) := by
    split
    · exact ((protect_wrote s3 _ _).trans (setStart_wrote _ flags g.vaddr)).congr (fun p => or_self_iff) fun _ => rfl
    · exact setStart_wrote s3 flags g.vaddr
  have w := (w3.trans w4).congr (Q := g.Links f) (w := g.wrote f) (fun p => ?_) fun x => ?_
  · rw [hg]
    exact ⟨⟨w.brk, Nat.le_trans w.endAddr (Nat.le_max_left _ _), w.iexec, w.count, w.page⟩, w.byte, w.new⟩
  · unfold Phdr.Links Phdr.wrote
    rw [touched_or]
    simp only [or_false, or_assoc]
  · unfold Phdr.wrote
    rw [Option.or_none, Option.none_or]

/-! ## `load_elf` -/

def HeadIn (f : File) (s : State I) : Prop :=
  ∀ k < f.headSize, (s.page ((userExecAddr + k) / pageSize)).isSome ∧ s.byte (userExecAddr + k) = f.head k

def phdrPlace (k : Nat) : Nat := userExecAddr + ehdrSize + phdrSize * k

theorem File.length_phdrs (f : File) : f.phdrs.length = f.phnum := by
  unfold File.phdrs
  rw [List.length_map, List.length_range]

theorem File.drop_phdrs (hk : k < f.phnum) :
    f.phdrs.drop k = phdrAt f.byte (f.phoff + phdrSize * k) :: f.phdrs.drop (k + 1) := by
  have hk' : k < f.phdrs.length := by rwa [f.length_phdrs]
  have hget : f.phdrs[k] = phdrAt f.byte (f.phoff + phdrSize * k) := by simp [File.phdrs]
  rw [List.drop_eq_getElem_cons hk', hget]

theorem number_head {j n : Nat} (h : HeadIn f s) (hj : j + n ≤ ehdrSize) : number s.byte (userExecAddr + j) n = number f.byte (0 + j) n :=
  number_congr fun k hk => by
    have hlt : j + k < f.headSize := by
      unfold File.headSize
      omega
    have hin : j + k < ehdrSize := by omega
    rw [Nat.add_assoc, (h _ hlt).2, Nat.zero_add]
    exact if_pos hin

theorem HeadIn.phnum (h : HeadIn f s) : ePhnum s.byte userExecAddr = f.phnum := number_head h (by decide)

theorem HeadIn.place (hk : k < f.phnum) {j : Nat} (hj : j < phdrSize) :
    ehdrSize + phdrSize * k + j < f.headSize ∧ phdrPlace k + j = userExecAddr + (ehdrSize + phdrSize * k + j) := by
  unfold File.headSize phdrPlace
  have : phdrSize * (k + 1) ≤ phdrSize * f.phnum := Nat.mul_le_mul_left _ hk
  rw [Nat.mul_succ] at this
  omega

theorem HeadIn.phdr (h : HeadIn f s) (hk : k < f.phnum) : phdrAt s.byte (phdrPlace k) = phdrAt f.byte (f.phoff + phdrSize * k) :=
  phdrAt_congr fun j hj => by
    obtain ⟨hlt, he⟩ := HeadIn.place hk hj
    have hno : ¬ ehdrSize + phdrSize * k + j < ehdrSize := by omega
    rw [he, (h _ hlt).2]
    unfold File.head
    rw [if_neg hno]
    congr 1
    omega

theorem HeadIn.wrote {g : Phdr} (hi : Intact f) (h : HeadIn f s) (hg : g ∈ f.leading) (hw : Wrote P (g.wrote f) s t) : HeadIn f t := by
  intro k hk
  obtain ⟨h1, h2⟩ := h k hk
  obtain ⟨h3, h4⟩ := hw.stays h1 fun b hb => by rw [h2]; exact hi.kept g hg k hk b hb
  exact ⟨h3, h4.trans h2⟩

theorem HeadIn.stays (hi : Intact f) (h : HeadIn f s) (hk : k < f.phnum) (hg : phdrAt f.byte (f.phoff + phdrSize * k) ∈ f.leading) :
    Stays f (phdrPlace k) s := by
  intro j hj
  obtain ⟨hlt, he⟩ := HeadIn.place hk hj
  rw [h.phdr hk, he]
  exact ⟨(h _ hlt).1, fun b hb => by rw [(h _ hlt).2]; exact hi.kept _ hg _ hlt b hb⟩

theorem loadHeaders_stuck (hw : s.word ptr = .ok a) (ha : a ≠ PT_LOAD) : ∀ {n i : Nat}, loadHeaders e f n i ptr s = .ok t → t = s
  | 0, _, h => by
    cases h
    rfl
  | n + 1, i, h => by
    unfold loadHeaders at h
    split at h
    · rw [hw] at h
      obtain ⟨b, hb, h⟩ := bind_ok h
      cases hb
      rw [if_pos ha] at h
      exact loadHeaders_stuck hw ha h
    · cases h
      rfl

theorem loadHeaders_grown (hi : Intact f) : ∀ {n k : Nat} {s : State I}, HeadIn f s → f.phnum - k ≤ n →
    (∀ g ∈ (f.phdrs.drop k).takeWhile fun h => h.type = PT_LOAD, g ∈ f.leading) → loadHeaders e f n k (phdrPlace k) s = .ok t →
    Grown (fun p => ∃ g ∈ (f.phdrs.drop k).takeWhile fun h => h.type = PT_LOAD, g.Links f p) s t ∧ HeadIn f t
  | 0, k, s, hs, hn, _, h => by
    cases h
    have hnil : f.phdrs.drop k = [] := List.drop_eq_nil_of_le (by rw [f.length_phdrs]; omega)
    exact ⟨Grown.nothing (by rw [hnil]; rfl), hs⟩
  | n + 1, k, s, hs, hn, hlead, h => by
    unfold loadHeaders at h
    rw [hs.phnum] at h
    by_cases hk : k < f.phnum
    · rw [if_pos hk] at h
      obtain ⟨type, hw, h⟩ := bind_ok h
      have htype : type = (phdrAt f.byte (f.phoff + phdrSize * k)).type :=
        (word_ok hw).2.trans (congrArg Phdr.type (hs.phdr hk))
      rw [File.drop_phdrs hk] at hlead ⊢
      by_cases hl : type = PT_LOAD
      · rw [if_neg (not_not_intro hl)] at h
        obtain ⟨u, hu, h⟩ := bind_ok h
        rw [List.takeWhile_cons_of_pos (by simpa [← htype] using hl)] at hlead ⊢
        have hg := hlead _ (.head _)
        have hw1 := loadSegment_wrote (hs.stays hi hk hg) hu
        rw [hs.phdr hk] at hw1
        obtain ⟨h1, h2⟩ := loadHeaders_grown hi (hs.wrote hi hg hw1) (by omega) (fun g hg => hlead g (.tail _ hg)) h
        refine ⟨(hw1.toGrown.trans h1).congr fun p => ?_, h2⟩
        simp only [List.mem_cons, exists_eq_or_imp]
      · rw [if_pos hl] at h
        cases loadHeaders_stuck hw hl h
        exact ⟨Grown.nothing (List.takeWhile_cons_of_neg (by simpa [← htype] using hl)), hs⟩
    · rw [if_neg hk] at h
      cases h
      have hnil : f.phdrs.drop k = [] := List.drop_eq_nil_of_le (by rw [f.length_phdrs]; omega)
      exact ⟨Grown.nothing (by rw [hnil]; rfl), hs⟩

theorem touched_laid : Touched (laid l a) p ↔ ∃ k < l.length, (a + k) / pageSize = p := by
  constructor
  · rintro ⟨x, hx, rfl⟩
    obtain ⟨c, hc⟩ := Option.isSome_iff_exists.1 hx
    obtain ⟨k, rfl, hk⟩ := laid_some.1 hc
    exact ⟨k, (List.getElem?_eq_some_iff.1 hk).1, rfl⟩
  · rintro ⟨k, hk, rfl⟩
    refine ⟨a + k, ?_, rfl⟩
    rw [laid_some.2 ⟨k, rfl, List.getElem?_eq_getElem hk⟩]
    rfl

theorem elfValidate_congr {a b : Nat} (h : ∀ k < ehdrSize, c (a + k) = d (b + k)) :
    elfValidate c a = elfValidate d b := by
  have hnum : ∀ j n, j + n ≤ ehdrSize → number c (a + j) n = number d (b + j) n := fun j n hj => number_congr fun k hk => by
    rw [Nat.add_assoc, Nat.add_assoc]
    exact h _ (by omega)
  have hident : (List.range 7).map (fun k => c (a + k)) = (List.range 7).map fun k => d (b + k) :=
    List.map_congr_left fun k hk => h k (Nat.lt_trans (List.mem_range.1 hk) (by decide))
  unfold elfValidate eType eMachine eVersion ePhentsize
  rw [hident, hnum 16 2 (by decide), hnum 18 2 (by decide), hnum 20 4 (by decide), hnum 42 2 (by decide)]

theorem File.byte_eq (hk : k < f.data.length) : f.byte k = f.data[k] := by
  unfold File.byte
  rw [List.getD_eq_getElem?_getD, List.getElem?_eq_getElem hk]
  rfl

theorem readHead {x : Int × State I} (h : read e f userExecAddr ehdrSize 0 s = .ok x) (hn : x.1 = ehdrSize) :
    Wrote (fun p => ∃ k < ehdrSize, (userExecAddr + k) / pageSize = p) (laid (f.data.take ehdrSize) userExecAddr) s x.2 ∧
      ∀ k < ehdrSize, (x.2.page ((userExecAddr + k) / pageSize)).isSome ∧ x.2.byte (userExecAddr + k) = f.byte k := by
  obtain ⟨hw, hlen⟩ := read_wrote h
  have hpos : 0 < f.data.length := by
    by_contra hno
    unfold read at h
    rw [if_pos (by omega)] at h
    cases h
    cases hn
  have hle : (f.data.take ehdrSize).length = ehdrSize := by
    have h1 := (hlen hpos).symm.trans hn
    exact Int.ofNat.inj h1
  rw [List.drop_zero] at hw
  refine ⟨hw.congr (fun p => ?_) fun _ => rfl, fun k hk => ?_⟩
  · rw [touched_laid, hle]
  · have hk' : k < (f.data.take ehdrSize).length := by rwa [hle]
    obtain ⟨h1, h2⟩ := hw.new _ _ (laid_some.2 ⟨k, rfl, List.getElem?_eq_getElem hk'⟩)
    refine ⟨h1, h2.trans ?_⟩
    rw [List.getElem_take, File.byte_eq]

theorem File.length_table (ht : f.phoff + phdrSize * f.phnum ≤ f.data.length) :
    ((f.data.drop f.phoff).take (f.phnum * phdrSize)).length = phdrSize * f.phnum := by
  rw [List.length_take, List.length_drop, Nat.mul_comm]
  omega

theorem HeadIn.read (ht : f.phoff + phdrSize * f.phnum ≤ f.data.length)
    (hin : ∀ k < ehdrSize, (s.page ((userExecAddr + k) / pageSize)).isSome ∧ s.byte (userExecAddr + k) = f.byte k)
    (hw : Wrote P (laid ((f.data.drop f.phoff).take (f.phnum * phdrSize)) (userExecAddr + ehdrSize)) s t) : HeadIn f t := by
  intro k hk
  unfold File.head
  by_cases hk52 : k < ehdrSize
  · obtain ⟨h5, h6⟩ := hin k hk52
    have hnone : laid ((f.data.drop f.phoff).take (f.phnum * phdrSize)) (userExecAddr + ehdrSize) (userExecAddr + k) = none :=
      if_neg (by omega)
    rw [if_pos hk52, ← h6]
    exact ⟨(hw.page _).2 (.inl h5), hw.byte _ h5 hnone⟩
  · obtain ⟨j, rfl⟩ : ∃ j, k = ehdrSize + j := ⟨k - ehdrSize, by omega⟩
    have hj : j < phdrSize * f.phnum := by
      unfold File.headSize at hk
      omega
    have hj' : j < ((f.data.drop f.phoff).take (f.phnum * phdrSize)).length := by rwa [File.length_table ht]
    have hnew := hw.new _ _ (laid_some.2 ⟨j, rfl, List.getElem?_eq_getElem hj'⟩)
    rw [if_neg hk52, Nat.add_sub_cancel_left, ← Nat.add_assoc, f.byte_eq (by omega)]
    refine ⟨hnew.1, hnew.2.trans ?_⟩
    rw [List.getElem_take, List.getElem_drop]

theorem File.head_pages (ht : f.phoff + phdrSize * f.phnum ≤ f.data.length) :
    ((p = userExecAddr / pageSize ∨ ∃ k < ehdrSize, (userExecAddr + k) / pageSize = p) ∨
        Touched (laid ((f.data.drop f.phoff).take (f.phnum * phdrSize)) (userExecAddr + ehdrSize)) p) ↔
      ∃ k < f.headSize, (userExecAddr + k) / pageSize = p := by
  rw [touched_laid, File.length_table ht]
  constructor
  · rintro ((rfl | ⟨k, hk, rfl⟩) | ⟨k, hk, rfl⟩)
    · exact ⟨0, by unfold File.headSize ehdrSize; omega, rfl⟩
    · exact ⟨k, by unfold File.headSize; omega, rfl⟩
    · exact ⟨ehdrSize + k, by unfold File.headSize; omega, by rw [Nat.add_assoc]⟩
  · rintro ⟨k, hk, rfl⟩
    unfold File.headSize at hk
    by_cases hk52 : k < ehdrSize
    · exact .inl (.inr ⟨k, hk52, rfl⟩)
    · refine .inr ⟨k - ehdrSize, by omega, ?_⟩
      congr 1
      omega

/-- What `load_elf` returns and does: it takes no image that is not valid; of one that is, whose headers stay, it loads what comes before the
first header that is no `PT_LOAD`. -/
theorem loadElf_cases {x : Nat × State I} (h : loadElf e f s = .ok x) :
    elfValidate f.byte 0 = false ∧ x.1 = eofWord ∧ (∃ P, Grown P s x.2) ∨
    elfValidate f.byte 0 = true ∧ (Intact f → x.1 = f.entry ∧
      Grown (fun p => (∃ k < f.headSize, (userExecAddr + k) / pageSize = p) ∨ ∃ g ∈ f.leading, g.Links f p) s x.2) := by
  obtain ⟨s1, h1, h⟩ := bind_ok h
  obtain ⟨⟨n, s2⟩, h2, h⟩ := bind_ok h
  obtain ⟨_, hn, h⟩ := bind_ok h
  obtain ⟨w2, hin⟩ := readHead h2 (assert_ok hn)
  have w2 := (linkPage_wrote h1).trans w2
  have hvalid : elfValidate s2.byte userExecAddr = elfValidate f.byte 0 :=
    elfValidate_congr fun k hk => by rw [(hin k hk).2, Nat.zero_add]
  rw [hvalid] at h
  cases hv : elfValidate f.byte 0 with
  | false =>
    rw [hv, if_pos rfl] at h
    cases h
    exact .inl ⟨rfl, rfl, _, w2.toGrown⟩
  | true =>
    rw [hv, if_neg (by decide)] at h
    refine .inr ⟨rfl, fun hi => ?_⟩
    obtain ⟨⟨m, s3⟩, h3, h⟩ := bind_ok h
    obtain ⟨s4, h4, h⟩ := bind_ok h
    cases h
    -- the program headers follow the header
    have hnum : ∀ j n, j + n ≤ ehdrSize → number s2.byte (userExecAddr + j) n = number f.byte (0 + j) n := fun j n hj =>
      number_congr fun k hk => by
        rw [Nat.add_assoc, (hin _ (by omega)).2, Nat.zero_add]
    have hphnum : ePhnum s2.byte userExecAddr = f.phnum := hnum 44 2 (by decide)
    have hphoff : ePhoff s2.byte userExecAddr = f.phoff := hnum 28 4 (by decide)
    have hsize : ePhentsize s2.byte userExecAddr = phdrSize := by
      have h5 : ePhentsize s2.byte userExecAddr = ePhentsize f.byte 0 := hnum 42 2 (by decide)
      rw [h5]
      unfold elfValidate at hv
      simp only [Bool.and_eq_true, beq_iff_eq] at hv
      exact hv.2
    rw [hphnum, hphoff, hsize] at h3
    have w3 := (read_wrote h3).1
    have hhead : HeadIn f s3 := .read hi.table hin w3
    have hfuel : f.phnum - 0 ≤ 65536 := by
      have : f.phnum < 256 * 256 := number_lt _ _ 2
      omega
    obtain ⟨g4, hhead4⟩ := loadHeaders_grown hi hhead hfuel (fun g hg => hg) h4
    refine ⟨number_head hhead4 (by decide), ((w2.trans w3).toGrown.trans g4).congr fun p => ?_⟩
    exact or_congr_left (File.head_pages hi.table)

end Onix.Exec
