/-
What `load_elf` should leave of an executable: every `PT_LOAD` segment once, with its bytes and its write right. Here one segment is loaded,
and it is said when that succeeds: its bytes are not in a hole of the file, and there is a frame for each page that is new.
-/
import Mathlib.Order.Interval.Finset.Nat
import Onix.Exec.Load
import Onix.Lib.Spread

namespace Onix.Exec

open List Onix.Lib
open Memory (userExecAddr userMmapAddr userStackTop userStackBottom)

variable {I : Type} {e : Env} {f : File} {g h : Phdr} {s s0 t u : State I} {P Q : Finset Nat} {l : List Byte} {a n p i k ptr : Nat}

/-! ## Executables -/

namespace Phdr

def pages (h : Phdr) : Finset Nat := Finset.Ico (h.vaddr / pageSize) (h.vaddr / pageSize + divRoundUp (max h.memsz h.filesz))

def endAddr (h : Phdr) : Nat := h.vaddr + divRoundUp (max h.memsz h.filesz) * pageSize

def right (h : Phdr) : Page := if h.flags &&& PF_W = 0 then ⟨false, true⟩ else ⟨true, false⟩

/-- Page-aligned, inside the program area, and with its bytes in the file. -/
structure Proper (f : File) (h : Phdr) : Prop where
  align : h.align = 0x1000
  aligned : h.vaddr % pageSize = 0
  low : userExecAddr ≤ h.vaddr
  high : h.vaddr + h.memsz ≤ userMmapAddr
  size : h.filesz ≤ h.memsz
  file : h.offset + h.filesz ≤ f.data.length

def Apart (g h : Phdr) : Prop := ∀ x, ¬ ((g.vaddr ≤ x ∧ x < g.vaddr + g.memsz) ∧ h.vaddr ≤ x ∧ x < h.vaddr + h.memsz)

end Phdr

def File.segments (f : File) : List Phdr := f.phdrs.filter fun h => h.type = PT_LOAD

structure Executable (f : File) : Prop where
  header : elfValidate f.byte 0 = true
  size : ehdrSize ≤ f.data.length
  table : f.phoff + phdrSize * f.phnum ≤ f.data.length
  proper : ∀ h ∈ f.segments, h.Proper f
  apart : f.segments.Pairwise Phdr.Apart

def headPage : Nat := userExecAddr / pageSize

def pageSet (hs : List Phdr) : Finset Nat := insert headPage (hs.toFinset.biUnion Phdr.pages)

def NoHole (f : File) (offset n : Nat) : Prop := ∀ k < ((f.data.drop offset).take n).length, f.hole ((offset + k) / 1024) = false

/-- The program that was there is gone. -/
structure Cleared (s : State I) : Prop where
  brk : s.brk ≤ userExecAddr
  endAddr : s.endAddr = userExecAddr
  page : ∀ p, userExecAddr ≤ p * pageSize → p * pageSize < userMmapAddr → s.page p = none

@[simp] theorem mem_pageSet {hs : List Phdr} : p ∈ pageSet hs ↔ p = headPage ∨ ∃ h ∈ hs, p ∈ h.pages := by
  simp [pageSet]

theorem pageSet_append (hs : List Phdr) (h : Phdr) : pageSet (hs ++ [h]) = pageSet hs ∪ h.pages := by
  ext p
  simp only [mem_pageSet, Finset.mem_union, mem_append, mem_singleton, or_and_right, exists_or, exists_eq_left, or_assoc]

theorem divRoundUp_of_lt (hn : n + 0xFFF < 2 ^ 32) : divRoundUp n = (n + 0xFFF) / pageSize := by
  unfold divRoundUp
  rw [Nat.mod_eq_of_lt hn]

theorem Phdr.Proper.pages (hp : h.Proper f) : p ∈ h.pages ↔ h.vaddr ≤ p * pageSize ∧ p * pageSize < h.vaddr + h.memsz := by
  have h1 := hp.aligned
  have h2 := hp.high
  have h3 := hp.size
  unfold userMmapAddr at h2
  unfold Phdr.pages
  rw [Finset.mem_Ico, Nat.max_eq_left h3, divRoundUp_of_lt (by omega)]
  unfold pageSize at h1 ⊢
  omega

theorem Phdr.Proper.covers (hp : h.Proper f) : h.Covers p ↔ p ∈ h.pages := by
  have h1 := hp.aligned
  rw [hp.pages]
  unfold Phdr.Covers
  rw [Nat.max_eq_left hp.size]
  unfold pageSize at h1 ⊢
  omega

theorem Phdr.Apart.pages (ha : g.Apart h) (hg : g.Proper f) (hh : h.Proper f) (hp : p ∈ g.pages) : p ∉ h.pages := by
  intro hp'
  rw [hg.pages] at hp
  rw [hh.pages] at hp'
  exact ha (p * pageSize) ⟨hp, hp'⟩

/-! ## Stores to pages that are there -/

theorem storeBytes_there : ∀ {l : List Byte} {a : Nat} {s : State I}, (∀ k < l.length, (s.page ((a + k) / pageSize)).isSome) →
    storeBytes e l a s = .ok { s with byte := spread l a s.byte }
  | [], a, s, _ => by
    rw [spread_nil]
    rfl
  | b :: l, a, s, h => by
    have h0 : (s.page (a / pageSize)).isSome := h 0 (Nat.succ_pos _)
    have hrest := storeBytes_there (l := l) (a := a + 1) (s := { s with byte := fun x => if x = a then b else s.byte x })
      fun k hk => by
        have := h (k + 1) (Nat.succ_lt_succ hk)
        rwa [add_assoc, add_comm 1 k]
    unfold storeBytes storeByte touch
    rw [if_pos h0]
    refine hrest.trans ?_
    rw [spread_cons]

theorem storeBytes_needs : ∀ {l : List Byte} {a : Nat} {s : State I}, s.brk ≤ a → a + l.length ≤ userStackBottom →
    storeBytes e l a s = .ok t → ∀ k < l.length, (s.page ((a + k) / pageSize)).isSome
  | b :: l, a, s, hbrk, hbot, h, k, hk => by
    rw [length_cons] at hbot
    have h0 : (s.page (a / pageSize)).isSome := by
      by_contra hno
      unfold storeBytes storeByte touch pageFault at h
      rw [if_neg hno, if_neg (by omega)] at h
      cases h
    cases k with
    | zero => exact h0
    | succ k =>
      unfold storeBytes storeByte touch at h
      rw [if_pos h0] at h
      have := storeBytes_needs (l := l) (a := a + 1) (s := { s with byte := fun x => if x = a then b else s.byte x })
        (Nat.le_succ_of_le hbrk) (by omega) h k (Nat.lt_of_succ_lt_succ hk)
      rwa [add_assoc, add_comm 1 k] at this

theorem assert_pos {c : Prop} [Decidable c] (h : c) : assert c = .ok () := if_pos h

theorem read_there (hp : ∀ j < ((f.data.drop k).take n).length, (s.page ((a + j) / pageSize)).isSome) (hh : NoHole f k n) :
    ∃ m, read e f a n k s = .ok (m, { s with byte := spread ((f.data.drop k).take n) a s.byte }) := by
  unfold read
  split
  · rename_i hk
    rw [drop_eq_nil_of_le hk, take_nil, spread_nil]
    exact ⟨_, rfl⟩
  · dsimp only
    have hok : assert (∀ j < ((f.data.drop k).take n).length, f.hole ((k + j) / 1024) = false) = .ok () := assert_pos hh
    rw [hok, storeBytes_there hp]
    exact ⟨_, rfl⟩

theorem read_noHole {x : Int × State I} (h : read e f a n k s = .ok x) : NoHole f k n := by
  unfold read at h
  split at h
  · rename_i hk
    intro j hj
    rw [drop_eq_nil_of_le hk, take_nil] at hj
    exact absurd hj (Nat.not_lt_zero j)
  · obtain ⟨_, h1, -⟩ := bind_ok h
    have hok := assert_ok h1
    exact hok

theorem clear_there {filesz memsz : Nat} (hp : ∀ j < memsz - filesz, (s.page ((a + filesz + j) / pageSize)).isSome) :
    clear e a filesz memsz s = .ok { s with byte := spread (replicate (memsz - filesz) 0) (a + filesz) s.byte } := by
  unfold clear
  split
  · exact storeBytes_there fun k hk => hp k (by rwa [length_replicate] at hk)
  · rw [Nat.sub_eq_zero_of_le (by omega), replicate_zero, spread_nil]

/-! ## Pages -/

/-- The pages `P` were added to a state, each with a frame. -/
structure Has (e : Env) (s0 : State I) (P : Finset Nat) (s : State I) : Prop where
  fresh : ∀ p ∈ P, s0.page p = none
  page : ∀ p, (s.page p).isSome ↔ (s0.page p).isSome ∨ p ∈ P
  linked : s.linked = s0.linked + P.card
  frames : ∀ k < P.card, e.available (s0.linked + k) = true

def linkedTo (s : State I) (P : Finset Nat) (q : Nat) : Option Page := if (s.page q).isSome then s.page q else if q ∈ P then some ⟨true, false⟩ else none

theorem linkedTo_of_notMem (hq : i ∉ P) : linkedTo s P i = s.page i := by
  unfold linkedTo
  split
  · rfl
  · rename_i h
    exact (Option.not_isSome_iff_eq_none.1 h).symm

theorem linkPage_has (hs : Has e s0 P s) (hp : s0.page p = none) (h : linkPage e s p = .ok t) :
    Has e s0 (insert p P) t ∧ t.page = linkedTo s {p} := by
  unfold linkPage at h
  split at h
  · rename_i hin
    cases h
    have hmem : p ∈ P := by
      rcases (hs.page p).1 hin with h1 | h1
      · rw [hp] at h1
        cases h1
      · exact h1
    rw [Finset.insert_eq_of_mem hmem]
    refine ⟨hs, funext fun q => ?_⟩
    by_cases hq : q = p
    · unfold linkedTo
      rw [hq, if_pos hin]
    · rw [linkedTo_of_notMem (by rwa [Finset.mem_singleton])]
  · rename_i hin
    split at h
    · rename_i hav
      cases h
      have hmem : p ∉ P := fun hm => hin ((hs.page p).2 (.inr hm))
      refine ⟨⟨?_, fun q => ?_, ?_, ?_⟩, funext fun q => ?_⟩
      · intro q hq
        rcases Finset.mem_insert.1 hq with rfl | hq
        · exact hp
        · exact hs.fresh q hq
      · dsimp only
        rw [Finset.mem_insert]
        split
        · rename_i hq
          exact ⟨fun _ => .inr (.inl hq), fun _ => rfl⟩
        · rename_i hq
          rw [hs.page, or_iff_right hq]
      · show s.linked + 1 = _
        rw [Finset.card_insert_of_notMem hmem, hs.linked, add_assoc]
      · intro k hk
        rw [Finset.card_insert_of_notMem hmem] at hk
        rcases Nat.lt_succ_iff_lt_or_eq.1 hk with hk | rfl
        · exact hs.frames k hk
        · rw [← hs.linked]
          exact hav
      · dsimp only
        by_cases hq : q = p
        · subst hq
          unfold linkedTo
          rw [if_pos rfl, if_neg hin, if_pos (Finset.mem_singleton_self _)]
        · rw [if_neg hq, linkedTo_of_notMem (by rwa [Finset.mem_singleton])]
    · cases h

theorem linkPage_some (hs : Has e s0 P s) (hfr : ∀ k < (insert p P).card, e.available (s0.linked + k) = true) :
    ∃ t, linkPage e s p = .ok t := by
  unfold linkPage
  split
  · exact ⟨s, rfl⟩
  · rename_i hin
    have hmem : p ∉ P := fun hm => hin ((hs.page p).2 (.inr hm))
    have hav : e.available s.linked = true := by
      rw [hs.linked]
      exact hfr _ (by rw [Finset.card_insert_of_notMem hmem]; exact Nat.lt_succ_self _)
    rw [if_pos hav]
    exact ⟨_, rfl⟩

theorem linkedTo_union {t : State I} (ht : t.page = linkedTo s P) : linkedTo t Q = linkedTo s (P ∪ Q) := by
  funext q
  unfold linkedTo
  rw [ht]
  unfold linkedTo
  by_cases h1 : (s.page q).isSome
  · simp [h1]
  · by_cases h2 : q ∈ P
    · simp [h1, h2]
    · simp [h1, h2]

theorem Ico_insert (p n : Nat) : insert p (Finset.Ico (p + 1) (p + 1 + n)) = Finset.Ico p (p + (n + 1)) := by
  ext q
  rw [Finset.mem_insert, Finset.mem_Ico, Finset.mem_Ico]
  omega

theorem linkPages_has : ∀ {n a : Nat} {P : Finset Nat} {s : State I}, Has e s0 P s →
    (∀ q ∈ Finset.Ico (a / pageSize) (a / pageSize + n), s0.page q = none) → linkPages e n a s = .ok t →
    Has e s0 (P ∪ Finset.Ico (a / pageSize) (a / pageSize + n)) t ∧ t.page = linkedTo s (Finset.Ico (a / pageSize) (a / pageSize + n))
  | 0, a, P, s, hs, _, h => by
    cases h
    rw [add_zero, Finset.Ico_self, Finset.union_empty]
    exact ⟨hs, funext fun q => (linkedTo_of_notMem (Finset.notMem_empty q)).symm⟩
  | n + 1, a, P, s, hs, hnew, h => by
    obtain ⟨_, -, h⟩ := bind_ok h
    obtain ⟨u, hu, h⟩ := bind_ok h
    have hnext : (a + pageSize) / pageSize = a / pageSize + 1 := Nat.add_div_right a (by decide)
    rw [← Ico_insert] at hnew ⊢
    obtain ⟨h1, h2⟩ := linkPage_has hs (hnew _ (Finset.mem_insert_self _ _)) hu
    obtain ⟨h3, h4⟩ := linkPages_has h1 (fun q hq => hnew q (Finset.mem_insert_of_mem (hnext ▸ hq))) h
    rw [hnext] at h3 h4
    refine ⟨?_, ?_⟩
    · rwa [Finset.union_insert, ← Finset.insert_union]
    · rw [h4, linkedTo_union h2, Finset.insert_eq]

theorem linkPages_endAddr : ∀ {n a : Nat} {s : State I}, linkPages e n a s = .ok t → t.endAddr = s.endAddr
  | 0, _, _, h => by
    cases h
    rfl
  | n + 1, a, s, h => by
    obtain ⟨_, -, h⟩ := bind_ok h
    obtain ⟨u, hu, h⟩ := bind_ok h
    refine (linkPages_endAddr h).trans ?_
    unfold linkPage at hu
    split at hu
    · cases hu
      rfl
    · split at hu
      · cases hu
        rfl
      · cases hu

theorem linkPages_some : ∀ {n a : Nat} {P : Finset Nat} {s : State I}, Has e s0 P s →
    (∀ q ∈ Finset.Ico (a / pageSize) (a / pageSize + n), s0.page q = none) →
    (∀ j < n, userExecAddr ≤ a + j * pageSize ∧ a + j * pageSize < userMmapAddr) →
    (∀ k < (P ∪ Finset.Ico (a / pageSize) (a / pageSize + n)).card, e.available (s0.linked + k) = true) →
    ∃ t, linkPages e n a s = .ok t
  | 0, _, _, s, _, _, _, _ => ⟨s, rfl⟩
  | n + 1, a, P, s, hs, hnew, harea, hfr => by
    have hnext : (a + pageSize) / pageSize = a / pageSize + 1 := Nat.add_div_right a (by decide)
    have h0 := harea 0 (Nat.succ_pos n)
    rw [zero_mul, add_zero] at h0
    rw [← Ico_insert] at hnew hfr
    have hsub : insert (a / pageSize) P ⊆ P ∪ insert (a / pageSize) (Finset.Ico (a / pageSize + 1) (a / pageSize + 1 + n)) := by
      intro q hq
      rcases Finset.mem_insert.1 hq with rfl | hq
      · exact Finset.mem_union_right _ (Finset.mem_insert_self _ _)
      · exact Finset.mem_union_left _ hq
    obtain ⟨u, hu⟩ := linkPage_some hs fun k hk => hfr k (lt_of_lt_of_le hk (Finset.card_le_card hsub))
    obtain ⟨h1, -⟩ := linkPage_has hs (hnew _ (Finset.mem_insert_self _ _)) hu
    obtain ⟨t, ht⟩ := linkPages_some (a := a + pageSize) h1 (fun q hq => hnew q (Finset.mem_insert_of_mem (hnext ▸ hq))) (fun j hj => by
      have := harea (j + 1) (Nat.succ_lt_succ hj)
      rw [Nat.succ_mul] at this
      omega) (by rwa [hnext, Finset.insert_union, ← Finset.union_insert])
    refine ⟨t, ?_⟩
    unfold linkPages
    rw [assert, if_pos h0, hu]
    exact ht

/-! ## `load_segment` -/

/-- What `load_segment` makes of the state when the pages are there. -/
def Phdr.loaded (h : Phdr) (f : File) (s : State I) : State I :=
  let count := divRoundUp (max h.memsz h.filesz)
  let byte := spread ((f.data.drop h.offset).take h.filesz) h.vaddr s.byte
  let s := { s with byte := spread (List.replicate (h.memsz - h.filesz) 0) (h.vaddr + h.filesz) byte }
  let s := setStart (if h.flags &&& PF_W = 0 then protect s (h.vaddr / pageSize) count else s) h.flags h.vaddr
  { s with endAddr := max s.endAddr (h.vaddr + count * pageSize) }

theorem words_there (hp : ∀ k < phdrSize, (s.page ((ptr + k) / pageSize)).isSome) (hg : phdrAt s.byte ptr = g) :
    s.word (ptr + 4) = .ok g.offset ∧ s.word (ptr + 8) = .ok g.vaddr ∧ s.word (ptr + 16) = .ok g.filesz ∧
      s.word (ptr + 20) = .ok g.memsz ∧ s.word (ptr + 24) = .ok g.flags ∧ s.word (ptr + 28) = .ok g.align := by
  subst hg
  exact ⟨if_pos (hp 4 (by decide)), if_pos (hp 8 (by decide)), if_pos (hp 16 (by decide)), if_pos (hp 20 (by decide)),
    if_pos (hp 24 (by decide)), if_pos (hp 28 (by decide))⟩

theorem ok_bind {ε α β : Type} (x : α) (k : α → Except ε β) : (Except.ok x >>= k) = k x := (rfl)

theorem Phdr.Proper.there (hg : g.Proper f) (h : linkPages e (divRoundUp (max g.memsz g.filesz)) g.vaddr s = .ok t) {x : Nat}
    (h1 : g.vaddr ≤ x) (h2 : x < g.vaddr + g.memsz) : (t.page (x / pageSize)).isSome := by
  have hmem : x / pageSize ∈ g.pages := by
    have := hg.aligned
    rw [hg.pages]
    unfold pageSize at this ⊢
    omega
  exact ((linkPages_wrote h).page _).2 (.inr (Finset.mem_Ico.1 hmem))

theorem loadSegment_some (hs : Stays f ptr s) (hg : phdrAt s.byte ptr = g) (hp : g.Proper f) (hh : NoHole f g.offset g.filesz)
    (h : linkPages e (divRoundUp (max g.memsz g.filesz)) g.vaddr s = .ok t) : loadSegment e f ptr s = .ok (g.loaded f t) := by
  have hsize := hp.size
  obtain ⟨-, wv, wf, wm, -, wa⟩ := words_there (fun k hk => (hs k hk).1) hg
  -- the header is there when the pages are linked
  have w1 := linkPages_wrote h
  have hp1 : ∀ k < phdrSize, (t.page ((ptr + k) / pageSize)).isSome := fun k hk => (w1.page _).2 (.inl (hs k hk).1)
  have hg1 : phdrAt t.byte ptr = g := (hs.phdr w1 fun _ _ hn => nomatch hn).trans hg
  obtain ⟨wo1, -, wf1, -, -, -⟩ := words_there hp1 hg1
  -- and when the bytes of the file are read
  have hthere : ∀ j < ((f.data.drop g.offset).take g.filesz).length, (t.page ((g.vaddr + j) / pageSize)).isSome := fun j hj => by
    rw [length_take] at hj
    exact hp.there h (by omega) (by omega)
  obtain ⟨m, hread⟩ := read_there (e := e) hthere hh
  obtain ⟨t2, ht2⟩ : ∃ t2, ({ t with byte := spread ((f.data.drop g.offset).take g.filesz) g.vaddr t.byte } : State I) = t2 := ⟨_, rfl⟩
  rw [ht2] at hread
  have w2 := w1.trans (read_wrote hread).1
  have hg2 : phdrAt t2.byte ptr = g := by
    refine (hs.phdr w2 fun x b hb => ?_).trans hg
    rw [Option.or_none] at hb
    rw [hg]
    exact Phdr.wrote_of_file hb
  have hp2 : ∀ k < phdrSize, (t2.page ((ptr + k) / pageSize)).isSome := fun k hk => (w2.page _).2 (.inl (hs k hk).1)
  obtain ⟨-, -, wf2, wm2, -, -⟩ := words_there hp2 hg2
  -- and when the rest is zero
  have hclear : clear e g.vaddr g.filesz g.memsz t2 = .ok { t2 with
      byte := spread (replicate (g.memsz - g.filesz) 0) (g.vaddr + g.filesz) t2.byte } := by
    refine clear_there fun j hj => ?_
    rw [← ht2]
    exact hp.there h (by omega) (by omega)
  obtain ⟨t3, ht3⟩ : ∃ t3, ({ t2 with byte := spread (replicate (g.memsz - g.filesz) 0) (g.vaddr + g.filesz) t2.byte } : State I) = t3 :=
    ⟨_, rfl⟩
  rw [ht3] at hclear
  have w3 := w2.trans (clear_wrote hclear)
  have hg3 : phdrAt t3.byte ptr = g := by
    refine (hs.phdr w3 fun x b hb => ?_).trans hg
    rw [Option.or_none] at hb
    rw [hg]
    exact hb
  have hp3 : ∀ k < phdrSize, (t3.page ((ptr + k) / pageSize)).isSome := fun k hk => (w3.page _).2 (.inl (hs k hk).1)
  obtain ⟨-, -, -, -, wl3, -⟩ := words_there hp3 hg3
  have ha : assert (g.align = 0x1000) = .ok () := assert_pos hp.align
  have hv : assert (g.vaddr % pageSize = 0) = .ok () := assert_pos hp.aligned
  unfold loadSegment
  simp only [wv, wf, wm, wa, ha, hv, h, wo1, wf1, hread, wf2, wm2, hclear, wl3, ok_bind]
  rw [← ht3, ← ht2]
  rfl

theorem loadSegment_loaded (hs : Stays f ptr s) (hg : phdrAt s.byte ptr = g) (hp : g.Proper f) (h : loadSegment e f ptr s = .ok u) :
    ∃ t, linkPages e (divRoundUp (max g.memsz g.filesz)) g.vaddr s = .ok t ∧ NoHole f g.offset g.filesz ∧ u = g.loaded f t := by
  obtain ⟨-, wv, wf, wm, -, wa⟩ := words_there (fun k hk => (hs k hk).1) hg
  have h' := h
  unfold loadSegment at h'
  simp only [wv, wf, wm, wa, ok_bind] at h'
  obtain ⟨_, -, h'⟩ := bind_ok h'
  obtain ⟨_, -, h'⟩ := bind_ok h'
  obtain ⟨t, ht, h'⟩ := bind_ok h'
  have w1 := linkPages_wrote ht
  obtain ⟨wo1, -, wf1, -, -, -⟩ := words_there (fun k hk => (w1.page _).2 (.inl (hs k hk).1))
    ((hs.phdr w1 fun _ _ hn => by cases hn).trans hg)
  rw [wf1, wo1, ok_bind, ok_bind] at h'
  obtain ⟨_, hr, -⟩ := bind_ok h'
  have hh := read_noHole hr
  have heq := h.symm.trans (loadSegment_some hs hg hp hh ht)
  exact ⟨t, ht, hh, Except.ok.inj heq⟩

theorem protect_page (s : State I) (p n q : Nat) :
    (protect s p n).page q = if q ∈ Finset.Ico p (p + n) then (s.page q).map fun _ => ⟨false, true⟩ else s.page q := by
  exact if_congr Finset.mem_Ico.symm rfl rfl

theorem setStart_fields (s : State I) (n a : Nat) : (setStart s n a).page = s.page ∧ (setStart s n a).byte = s.byte ∧
    (setStart s n a).linked = s.linked ∧ (setStart s n a).endAddr = s.endAddr ∧ (setStart s n a).brk = s.brk := by
  unfold setStart
  split
  · exact ⟨rfl, rfl, rfl, rfl, rfl⟩
  · split
    · exact ⟨rfl, rfl, rfl, rfl, rfl⟩
    · exact ⟨rfl, rfl, rfl, rfl, rfl⟩

theorem Phdr.loaded_page (g : Phdr) (f : File) (s : State I) (q : Nat) : (g.loaded f s).page q =
    if q ∈ g.pages ∧ g.flags &&& PF_W = 0 then (s.page q).map fun _ => ⟨false, true⟩ else s.page q := by
  unfold Phdr.loaded
  rw [(setStart_fields _ _ _).1]
  by_cases hw : g.flags &&& PF_W = 0
  · rw [if_pos hw, protect_page]
    exact if_congr ⟨fun h => ⟨h, hw⟩, fun h => h.1⟩ rfl rfl
  · rw [if_neg hw, if_neg fun h => hw h.2]

theorem Phdr.loaded_fields (g : Phdr) (f : File) (s : State I) :
    (g.loaded f s).linked = s.linked ∧ (g.loaded f s).endAddr = max s.endAddr g.endAddr ∧ (g.loaded f s).brk = s.brk := by
  unfold Phdr.loaded
  dsimp only
  rw [(setStart_fields _ _ _).2.2.1, (setStart_fields _ _ _).2.2.2.1, (setStart_fields _ _ _).2.2.2.2]
  split
  · exact ⟨rfl, rfl, rfl⟩
  · exact ⟨rfl, rfl, rfl⟩

end Onix.Exec
