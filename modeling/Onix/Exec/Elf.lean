/-
`load_elf` against what it should leave of an executable. The loop looks again and again at the first program header that is no `PT_LOAD`,
and it reads all of them where a segment may be stored.
-/
import Onix.Exec.Atomic
import Onix.Exec.Segments

namespace Onix.Exec

open Finset Onix.Lib
open Memory (userExecAddr userMmapAddr userStackTop userStackBottom)

variable {I : Type} {e : Env} {f : File} {g h : Phdr} {s s0 t u : State I} {P Q : Finset Nat} {done : List Phdr} {l : List Byte}
  {a n p i k ptr : Nat}

/-! ## What is loaded -/

def readEhdr (e : Env) (f : File) (s : State I) : Except Stop (State I) := do
  let s ← linkPage e s headPage
  let (n, s) ← read e f userExecAddr ehdrSize 0 s
  assert (n = ehdrSize)
  .ok s

def readPhdrs (e : Env) (f : File) (s : State I) : Except Stop (State I) := do
  let (_, s) ← read e f (userExecAddr + ehdrSize) (ePhnum s.byte userExecAddr * ePhentsize s.byte userExecAddr)
    (ePhoff s.byte userExecAddr) s
  .ok s

theorem loadElf_eq (e : Env) (f : File) (s : State I) : loadElf e f s = (do
    let s ← readEhdr e f s
    if elfValidate s.byte userExecAddr = false then .ok (eofWord, s)
    else do
      let s ← readPhdrs e f s
      let s ← loadHeaders e f 65536 0 (phdrPlace 0) s
      .ok (eEntry s.byte userExecAddr, s)) := by
  unfold loadElf readEhdr readPhdrs
  simp only [bind_assoc, ok_bind]
  rfl

/-- The program headers for which the loop calls `load_segment`, in this order. -/
def loads (e : Env) (f : File) : Nat → Nat → Nat → State I → List Phdr
  | 0, _, _, _ => []
  | n + 1, i, ptr, s =>
    if i < ePhnum s.byte userExecAddr then
      match s.word ptr with
      | .error _ => []
      | .ok type =>
        if type ≠ PT_LOAD then loads e f n (i + 1) ptr s
        else phdrAt s.byte ptr :: match loadSegment e f ptr s with
          | .error _ => []
          | .ok s => loads e f n (i + 1) (ptr + phdrSize) s
    else []

def elfLoads (e : Env) (f : File) (s : State I) : List Phdr :=
  match readEhdr e f s >>= readPhdrs e f with
  | .error _ => []
  | .ok s => loads e f 65536 0 (phdrPlace 0) s

/-- Every segment was loaded once, and nothing else: its bytes and its pages are as the header says, the heap starts at the highest end, and
the headers, by which the loop goes, are as they were read. -/
structure LoadsAll (e : Env) (f : File) (s t : State I) : Prop where
  once : elfLoads e f s = f.segments
  data : ∀ h ∈ f.segments, ∀ k < h.memsz, t.byte (h.vaddr + k) = if k < h.filesz then f.byte (h.offset + k) else 0
  right : ∀ h ∈ f.segments, ∀ p, h.Covers p → t.page p = some h.right
  others : ∀ p, (t.page p).isSome → (s.page p).isSome ∨ p = headPage ∨ ∃ h ∈ f.segments, h.Covers p
  endAddr : t.endAddr = (f.segments.map Phdr.endAddr).foldl max userExecAddr
  headers : ∀ k < f.headSize, t.byte (userExecAddr + k) = f.head k

/-- The headers have one page, no byte that is read is in a hole, there are frames, every `PT_LOAD` stands before the first header of another
type, and no segment is stored over the headers with other bytes. -/
structure LoadsWhen (e : Env) (f : File) (s : State I) : Prop where
  onePage : f.headSize ≤ pageSize
  header : NoHole f 0 ehdrSize
  table : NoHole f f.phoff (f.phnum * phdrSize)
  bytes : ∀ h ∈ f.segments, NoHole f h.offset h.filesz
  frames : ∀ k < (pageSet f.segments).card, e.available (s.linked + k) = true
  ordered : f.leading = f.segments
  kept : ∀ h ∈ f.segments, ∀ k < f.headSize, ∀ b, h.wrote f (userExecAddr + k) = some b → b = f.head k

/-! ## Segments in a file -/

theorem File.leading_sublist (f : File) : f.leading.Sublist f.segments := by
  have h1 := (List.takeWhile_sublist (l := f.phdrs) fun h => decide (h.type = PT_LOAD)).filter fun h => decide (h.type = PT_LOAD)
  have h2 : ∀ h ∈ f.phdrs.takeWhile fun h => decide (h.type = PT_LOAD), decide (h.type = PT_LOAD) = true := by
    intro h hh
    have hall := List.all_takeWhile (p := fun h : Phdr => decide (h.type = PT_LOAD)) (l := f.phdrs)
    exact List.all_eq_true.1 hall h hh
  rw [List.filter_eq_self.2 h2] at h1
  exact h1

theorem Phdr.wrote_range (hp : h.Proper f) {x : Nat} {b : Byte} (hw : h.wrote f x = some b) : h.vaddr ≤ x ∧ x < h.vaddr + h.memsz := by
  have hsize := hp.size
  rcases Option.or_eq_some_iff.1 hw with hw | ⟨-, hw⟩
  · obtain ⟨k, rfl, hk⟩ := laid_some.1 hw
    have := (List.getElem?_eq_some_iff.1 hk).1
    rw [List.length_replicate] at this
    omega
  · obtain ⟨k, rfl, hk⟩ := laid_some.1 hw
    have := (List.getElem?_eq_some_iff.1 hk).1
    rw [List.length_take] at this
    omega

theorem Phdr.wrote_iff (hp : h.Proper f) {x : Nat} {b : Byte} :
    h.wrote f x = some b ↔ ∃ k < h.memsz, x = h.vaddr + k ∧ b = if k < h.filesz then f.byte (h.offset + k) else 0 := by
  have hsize := hp.size
  have hfile := hp.file
  unfold Phdr.wrote
  constructor
  · intro hw
    rcases Option.or_eq_some_iff.1 hw with hw | ⟨-, hw⟩
    · obtain ⟨k, rfl, hk⟩ := laid_some.1 hw
      obtain ⟨hlt, hb⟩ := List.getElem?_eq_some_iff.1 hk
      rw [List.length_replicate] at hlt
      refine ⟨h.filesz + k, by omega, by omega, ?_⟩
      rw [if_neg (by omega), ← hb, List.getElem_replicate]
    · obtain ⟨k, rfl, hk⟩ := laid_some.1 hw
      obtain ⟨hlt, hb⟩ := List.getElem?_eq_some_iff.1 hk
      rw [List.length_take] at hlt
      refine ⟨k, by omega, rfl, ?_⟩
      rw [if_pos (by omega), ← hb, List.getElem_take, List.getElem_drop, File.byte_eq (by omega)]
  · rintro ⟨k, hk, rfl, rfl⟩
    by_cases hlt : k < h.filesz
    · have hno : laid (List.replicate (h.memsz - h.filesz) 0) (h.vaddr + h.filesz) (h.vaddr + k) = none := if_neg (by omega)
      have hlen : k < ((f.data.drop h.offset).take h.filesz).length := by
        rw [List.length_take, List.length_drop]
        omega
      rw [hno, if_pos hlt, Option.none_or]
      refine laid_some.2 ⟨k, rfl, ?_⟩
      rw [List.getElem?_eq_getElem hlen, List.getElem_take, List.getElem_drop, File.byte_eq (by omega)]
    · have hlen : k - h.filesz < (List.replicate (h.memsz - h.filesz) (0 : Byte)).length := by
        rw [List.length_replicate]
        omega
      have hz : laid (List.replicate (h.memsz - h.filesz) 0) (h.vaddr + h.filesz) (h.vaddr + k) = some 0 :=
        laid_some.2 ⟨k - h.filesz, by omega, by rw [List.getElem?_eq_getElem hlen, List.getElem_replicate]⟩
      rw [hz, if_neg hlt]
      rfl

/-! ## The loop -/

structure Loading (e : Env) (f : File) (s0 : State I) (done : List Phdr) (s : State I) : Prop extends Has e s0 (pageSet done) s where
  right : ∀ h ∈ done, ∀ p ∈ h.pages, s.page p = some h.right
  plain : (∀ h ∈ done, headPage ∉ h.pages) → s.page headPage = some ⟨true, false⟩
  data : ∀ h ∈ done, ∀ x b, h.wrote f x = some b → s.byte x = b
  head : HeadIn f s
  endAddr : s.endAddr = (done.map Phdr.endAddr).foldl max s0.endAddr

theorem Has.same (hs : Has e s0 P s) (hp : ∀ p, (t.page p).isSome = (s.page p).isSome) (hl : t.linked = s.linked) : Has e s0 P t :=
  ⟨hs.fresh, fun p => by rw [hp, hs.page], hl.trans hs.linked, hs.frames⟩

theorem Phdr.Proper.new (hp : g.Proper f) (hc : Cleared s0) : ∀ q ∈ g.pages, s0.page q = none := by
  intro q hq
  obtain ⟨h1, h2⟩ := hp.pages.1 hq
  exact hc.page q (le_trans hp.low h1) (lt_of_lt_of_le h2 hp.high)

theorem Loading.step (hl : Loading e f s0 done s) (hc : Cleared s0) (hi : Intact f) (hlead : g ∈ f.leading) (hp : g.Proper f)
    (hdone : ∀ h ∈ done, h.Proper f ∧ h.Apart g) (hs : Stays f ptr s) (hg : phdrAt s.byte ptr = g) (h : loadSegment e f ptr s = .ok t) :
    Loading e f s0 (done ++ [g]) t ∧ NoHole f g.offset g.filesz := by
  have hw := loadSegment_wrote hs h
  rw [hg] at hw
  obtain ⟨u, hu, hh, rfl⟩ := loadSegment_loaded hs hg hp h
  obtain ⟨h1, h2⟩ := linkPages_has hl.toHas (hp.new hc) hu
  have hpages : Finset.Ico (g.vaddr / pageSize) (g.vaddr / pageSize + divRoundUp (max g.memsz g.filesz)) = g.pages := rfl
  rw [hpages] at h1 h2
  rw [← pageSet_append] at h1
  have hother : ∀ q, q ∉ g.pages → (g.loaded f u).page q = s.page q := fun q hq => by
    rw [g.loaded_page, if_neg fun hn => hq hn.1, h2, linkedTo_of_notMem hq]
  refine ⟨⟨h1.same (fun q => ?_) (g.loaded_fields f u).1, ?_, ?_, ?_, hl.head.wrote hi hlead hw, ?_⟩, hh⟩
  · rw [g.loaded_page]
    split
    · rw [Option.isSome_map]
    · rfl
  · intro h' hh' p hp'
    rcases List.mem_append.1 hh' with hh' | hh'
    · obtain ⟨h3, h4⟩ := hdone h' hh'
      rw [hother p (h4.pages h3 hp hp'), hl.right h' hh' p hp']
    · obtain rfl := List.mem_singleton.1 hh'
      have hsome : u.page p = some ⟨true, false⟩ := by
        rw [h2]
        unfold linkedTo
        split
        · rename_i hin
          -- the page is there already: it is that of the headers
          have hmem : p ∈ pageSet done := by
            rcases (hl.page p).1 hin with h3 | h3
            · rw [hp.new hc p hp'] at h3
              cases h3
            · exact h3
          have hnot : ∀ h ∈ done, p ∉ h.pages := fun h hh hph => (hdone h hh).2.pages (hdone h hh).1 hp hph hp'
          rcases mem_pageSet.1 hmem with rfl | ⟨h, hh, hph⟩
          · exact hl.plain hnot
          · exact absurd hph (hnot h hh)
        · rfl
      rw [h'.loaded_page, hsome]
      unfold Phdr.right
      by_cases hf : h'.flags &&& PF_W = 0
      · rw [if_pos ⟨hp', hf⟩, if_pos hf]
        rfl
      · rw [if_neg fun hn => hf hn.2, if_neg hf]
  · intro hno
    rw [hother _ (hno g (by simp))]
    exact hl.plain fun h hh => hno h (List.mem_append_left _ hh)
  · intro h' hh' x b hb
    rcases List.mem_append.1 hh' with hh' | hh'
    · obtain ⟨h3, h4⟩ := hdone h' hh'
      have hx := Phdr.wrote_range h3 hb
      have hmem : x / pageSize ∈ h'.pages := by
        have := h3.aligned
        rw [h3.pages]
        unfold pageSize at this ⊢
        omega
      rw [hw.byte x ((hl.page _).2 (.inr (mem_pageSet.2 (.inr ⟨h', hh', hmem⟩))))]
      · exact hl.data h' hh' x b hb
      · exact Option.eq_none_iff_forall_ne_some.2 fun c hgc => h4 x ⟨hx, Phdr.wrote_range hp hgc⟩
    · obtain rfl := List.mem_singleton.1 hh'
      exact (hw.new x b hb).2
  · rw [(g.loaded_fields f u).2.1, List.map_append, List.foldl_append, List.map_singleton, List.foldl_cons, List.foldl_nil, ← hl.endAddr]
    have hsame : u.endAddr = s.endAddr := linkPages_endAddr hu
    rw [hsame]

theorem Executable.before (hx : Executable f) {rest : List Phdr} (hd : done ++ g :: rest = f.leading) :
    g ∈ f.leading ∧ g.Proper f ∧ ∀ h ∈ done, h.Proper f ∧ h.Apart g := by
  have hmem : ∀ h ∈ f.leading, h.Proper f := fun h hh => hx.proper h (f.leading_sublist.subset hh)
  have hpair := hx.apart.sublist f.leading_sublist
  rw [← hd] at hmem hpair ⊢
  refine ⟨by simp, hmem g (by simp), fun h hh => ⟨hmem h (List.mem_append_left _ hh), ?_⟩⟩
  exact (List.pairwise_append.1 hpair).2.2 h hh g (.head _)

theorem loads_stuck (hw : s.word ptr = .ok a) (ha : a ≠ PT_LOAD) : ∀ n i, loads e f n i ptr s = []
  | 0, _ => rfl
  | n + 1, i => by
    unfold loads
    split
    · simp only [hw]
      rw [if_pos ha]
      exact loads_stuck hw ha n (i + 1)
    · rfl

theorem loadHeaders_stays (hw : s.word ptr = .ok a) (ha : a ≠ PT_LOAD) : ∀ n i, loadHeaders e f n i ptr s = .ok s
  | 0, _ => rfl
  | n + 1, i => by
    unfold loadHeaders
    split
    · rw [hw, ok_bind, if_pos ha]
      exact loadHeaders_stays hw ha n (i + 1)
    · rfl

theorem HeadIn.word (h : HeadIn f s) (hk : k < f.phnum) :
    s.word (phdrPlace k) = .ok (phdrAt f.byte (f.phoff + phdrSize * k)).type := by
  obtain ⟨hlt, he⟩ := HeadIn.place hk (j := 0) (by decide)
  rw [add_zero] at he
  have hpage : (s.page (phdrPlace k / pageSize)).isSome := by
    rw [he]
    exact (h _ hlt).1
  exact (if_pos hpage).trans (congrArg Except.ok (congrArg Phdr.type (h.phdr hk)))

def File.run (f : File) (k : Nat) : List Phdr := (f.phdrs.drop k).takeWhile fun h => h.type = PT_LOAD

theorem File.run_end (hk : f.phnum ≤ k) : f.run k = [] := by
  unfold File.run
  rw [List.drop_eq_nil_of_le (by rwa [f.length_phdrs])]
  rfl

theorem File.run_load (hk : k < f.phnum) (hl : (phdrAt f.byte (f.phoff + phdrSize * k)).type = PT_LOAD) :
    f.run k = phdrAt f.byte (f.phoff + phdrSize * k) :: f.run (k + 1) := by
  unfold File.run
  rw [File.drop_phdrs hk, List.takeWhile_cons_of_pos (by simpa using hl)]

theorem File.run_other (hk : k < f.phnum) (hl : (phdrAt f.byte (f.phoff + phdrSize * k)).type ≠ PT_LOAD) : f.run k = [] := by
  unfold File.run
  rw [File.drop_phdrs hk, List.takeWhile_cons_of_neg (by simpa using hl)]

theorem loadHeaders_loading (hx : Executable f) (hc : Cleared s0) (hi : Intact f) : ∀ {n k : Nat} {s : State I} {done : List Phdr},
    Loading e f s0 done s → f.phnum - k ≤ n → done ++ f.run k = f.leading → loadHeaders e f n k (phdrPlace k) s = .ok t →
    Loading e f s0 f.leading t ∧ loads e f n k (phdrPlace k) s = f.run k ∧ ∀ g ∈ f.run k, NoHole f g.offset g.filesz
  | 0, k, s, done, hl, hn, hd, h => by
    cases h
    rw [File.run_end (by omega)] at hd ⊢
    rw [List.append_nil] at hd
    exact ⟨hd ▸ hl, rfl, fun _ hg => nomatch hg⟩
  | n + 1, k, s, done, hl, hn, hd, h => by
    have hnext : phdrPlace k + phdrSize = phdrPlace (k + 1) := rfl
    unfold loadHeaders at h
    unfold loads
    rw [hl.head.phnum] at h ⊢
    by_cases hk : k < f.phnum
    · have hw := hl.head.word hk
      rw [if_pos hk] at h ⊢
      rw [hw, ok_bind] at h
      simp only [hw]
      by_cases htype : (phdrAt f.byte (f.phoff + phdrSize * k)).type = PT_LOAD
      · rw [if_neg (not_not_intro htype)] at h ⊢
        rw [File.run_load hk htype] at hd ⊢
        obtain ⟨u, hu, h⟩ := bind_ok h
        obtain ⟨h1, h2, h3⟩ := hx.before hd
        have hphdr := hl.head.phdr hk
        obtain ⟨h4, h5⟩ := hl.step hc hi h1 h2 h3 (hl.head.stays hi hk h1) hphdr hu
        rw [hnext] at h ⊢
        obtain ⟨h6, h7, h8⟩ := loadHeaders_loading hx hc hi h4 (by omega) (by simpa using hd) h
        simp only [hu, hphdr, h7]
        refine ⟨h6, trivial, fun g hg => ?_⟩
        rcases List.mem_cons.1 hg with rfl | hg
        · exact h5
        · exact h8 g hg
      · rw [if_pos htype] at h ⊢
        rw [File.run_other hk htype] at hd ⊢
        rw [loadHeaders_stays hw htype] at h
        cases h
        rw [List.append_nil] at hd
        exact ⟨hd ▸ hl, loads_stuck hw htype _ _, fun _ hg => nomatch hg⟩
    · rw [if_neg hk] at h ⊢
      cases h
      rw [File.run_end (by omega)] at hd ⊢
      rw [List.append_nil] at hd
      exact ⟨hd ▸ hl, rfl, fun _ hg => nomatch hg⟩

theorem loadHeaders_some (hx : Executable f) (hc : Cleared s0) (hi : Intact f)
    (hfr : ∀ k < (pageSet f.leading).card, e.available (s0.linked + k) = true) (hh : ∀ g ∈ f.leading, NoHole f g.offset g.filesz) :
    ∀ {n k : Nat} {s : State I} {done : List Phdr}, Loading e f s0 done s → done ++ f.run k = f.leading →
    ∃ t, loadHeaders e f n k (phdrPlace k) s = .ok t
  | 0, _, s, _, _, _ => ⟨s, rfl⟩
  | n + 1, k, s, done, hl, hd => by
    have hnext : phdrPlace k + phdrSize = phdrPlace (k + 1) := rfl
    unfold loadHeaders
    rw [hl.head.phnum]
    by_cases hk : k < f.phnum
    · have hw := hl.head.word hk
      rw [if_pos hk, hw, ok_bind]
      by_cases htype : (phdrAt f.byte (f.phoff + phdrSize * k)).type = PT_LOAD
      · rw [if_neg (not_not_intro htype)]
        rw [File.run_load hk htype] at hd
        obtain ⟨g, hg⟩ : ∃ g, phdrAt f.byte (f.phoff + phdrSize * k) = g := ⟨_, rfl⟩
        rw [hg] at hd
        obtain ⟨h1, h2, h3⟩ := hx.before hd
        have hphdr := (hl.head.phdr hk).trans hg
        have hstays := hl.head.stays hi hk (hg ▸ h1)
        have hsub : pageSet done ∪ g.pages ⊆ pageSet f.leading := by
          rw [← pageSet_append, ← hd]
          intro p hp
          rw [mem_pageSet] at hp ⊢
          refine hp.imp_right ?_
          rintro ⟨h, hh, hhp⟩
          rcases List.mem_append.1 hh with hh | hh
          · exact ⟨h, List.mem_append_left _ hh, hhp⟩
          · exact ⟨h, List.mem_append_right _ (List.mem_singleton.1 hh ▸ .head _), hhp⟩
        have harea : ∀ j < divRoundUp (max g.memsz g.filesz),
            userExecAddr ≤ g.vaddr + j * pageSize ∧ g.vaddr + j * pageSize < userMmapAddr := by
          intro j hj
          have hmem : g.vaddr / pageSize + j ∈ g.pages := mem_Ico.2 (by omega)
          have h4 := h2.aligned
          have h5 := h2.low
          have h6 := h2.high
          rw [h2.pages] at hmem
          unfold pageSize at hmem h4 ⊢
          omega
        obtain ⟨u, hu⟩ := linkPages_some hl.toHas (h2.new hc) harea fun j hj =>
          hfr j (lt_of_lt_of_le hj (card_le_card hsub))
        have hseg := loadSegment_some hstays hphdr h2 (hh g h1) hu
        obtain ⟨h4, -⟩ := hl.step hc hi h1 h2 h3 hstays hphdr hseg
        rw [hseg, ok_bind, hnext]
        exact loadHeaders_some hx hc hi hfr hh h4 (by simpa using hd)
      · rw [if_pos htype]
        exact ⟨s, loadHeaders_stays hw htype _ _⟩
    · rw [if_neg hk]
      exact ⟨s, rfl⟩

/-! ## The headers -/

theorem Cleared.headPage (hc : Cleared s) : s.page headPage = none := hc.page _ (by decide) (by decide)

theorem pageSet_nil : pageSet [] = {headPage} := by
  rfl

theorem head_page (hk : k < pageSize) : (userExecAddr + k) / pageSize = headPage := by
  unfold pageSize at hk
  unfold headPage userExecAddr pageSize
  omega

theorem Executable.phentsize (hx : Executable f) : ePhentsize f.byte 0 = phdrSize := by
  have hv := hx.header
  unfold elfValidate at hv
  simp only [Bool.and_eq_true, beq_iff_eq] at hv
  exact hv.2

theorem File.phnum_lt (f : File) : f.phnum < 65536 := number_lt _ _ 2

structure HeadRead (e : Env) (f : File) (s0 s : State I) : Prop extends Has e s0 {headPage} s where
  right : s.page headPage = some ⟨true, false⟩
  endAddr : s.endAddr = s0.endAddr
  brk : s.brk = s0.brk
  byte : ∀ k < ehdrSize, s.byte (userExecAddr + k) = f.byte k

theorem HeadRead.number (h : HeadRead e f s0 s) {j n : Nat} (hj : j + n ≤ ehdrSize) :
    number s.byte (userExecAddr + j) n = number f.byte (0 + j) n :=
  number_congr fun k hk => by
    rw [add_assoc, h.byte _ (by omega), zero_add]

theorem HeadRead.there (h : HeadRead e f s0 s) (hk : k < pageSize) : (s.page ((userExecAddr + k) / pageSize)).isSome := by
  rw [head_page hk, h.right]
  rfl

theorem linkHead (hc : Cleared s0) (h : linkPage e s0 headPage = .ok t) : Has e s0 {headPage} t ∧ t.page headPage = some ⟨true, false⟩ ∧
    t.endAddr = s0.endAddr := by
  have h0 : Has e s0 ∅ s0 := ⟨fun _ hp => absurd hp (notMem_empty _), fun p => by simp, rfl, fun _ hk => absurd hk (Nat.not_lt_zero _)⟩
  obtain ⟨h1, h2⟩ := linkPage_has h0 hc.headPage h
  refine ⟨h1, ?_, ?_⟩
  · rw [h2]
    unfold linkedTo
    rw [hc.headPage]
    rfl
  · unfold linkPage at h
    split at h
    · cases h
      rfl
    · split at h
      · cases h
        rfl
      · cases h

theorem readEhdr_ok (hc : Cleared s0) (h : readEhdr e f s0 = .ok t) : HeadRead e f s0 t ∧ NoHole f 0 ehdrSize := by
  obtain ⟨s1, h1, h⟩ := bind_ok h
  obtain ⟨⟨n, s2⟩, h2, h⟩ := bind_ok h
  obtain ⟨_, hn, h⟩ := bind_ok h
  cases h
  obtain ⟨hs, hr, he⟩ := linkHead hc h1
  have hh := read_noHole h2
  obtain ⟨w2, hin⟩ := readHead h2 (assert_ok hn)
  have hthere : ∀ j < ((f.data.drop 0).take ehdrSize).length, (s1.page ((userExecAddr + j) / pageSize)).isSome := fun j hj => by
    rw [List.length_take] at hj
    have hj' : j < pageSize := lt_of_lt_of_le (lt_of_lt_of_le hj (Nat.min_le_left _ _)) (by decide)
    rw [head_page hj', hr]
    rfl
  obtain ⟨m, hm⟩ := read_there (e := e) hthere hh
  have heq := (Prod.ext_iff.1 (Except.ok.inj (h2.symm.trans hm))).2
  subst heq
  exact ⟨⟨hs.same (fun _ => rfl) rfl, hr, he, (linkPage_wrote h1).brk, fun k hk => (hin k hk).2⟩, hh⟩

theorem readEhdr_some (hc : Cleared s0) (hsize : ehdrSize ≤ f.data.length) (hh : NoHole f 0 ehdrSize) (hav : e.available s0.linked = true) :
    ∃ t, readEhdr e f s0 = .ok t := by
  have h1 : ∃ s1, linkPage e s0 headPage = .ok s1 := by
    unfold linkPage
    rw [hc.headPage, if_neg (by decide), if_pos hav]
    exact ⟨_, rfl⟩
  obtain ⟨s1, h1⟩ := h1
  obtain ⟨-, hr, -⟩ := linkHead hc h1
  have hthere : ∀ j < ((f.data.drop 0).take ehdrSize).length, (s1.page ((userExecAddr + j) / pageSize)).isSome := fun j hj => by
    rw [List.length_take] at hj
    have hj' : j < pageSize := lt_of_lt_of_le (lt_of_lt_of_le hj (Nat.min_le_left _ _)) (by decide)
    rw [head_page hj', hr]
    rfl
  obtain ⟨m, hm⟩ := read_there (e := e) hthere hh
  have hlen := (read_wrote hm).2 (lt_of_lt_of_le (by decide) hsize)
  have hm52 : m = ehdrSize := by
    rw [List.drop_zero, List.length_take, Nat.min_eq_left hsize] at hlen
    exact hlen
  unfold readEhdr
  rw [h1, ok_bind, hm, ok_bind]
  dsimp only
  rw [assert_pos hm52, ok_bind]
  exact ⟨_, rfl⟩

theorem readPhdrs_eq (hx : Executable f) (h : HeadRead e f s0 s) : readPhdrs e f s = (do
    let (_, s) ← read e f (userExecAddr + ehdrSize) (f.phnum * phdrSize) f.phoff s
    .ok s) := by
  have h1 : ePhnum s.byte userExecAddr = f.phnum := h.number (j := 44) (n := 2) (by decide)
  have h2 : ePhoff s.byte userExecAddr = f.phoff := h.number (j := 28) (n := 4) (by decide)
  have h3 : ePhentsize s.byte userExecAddr = phdrSize := (h.number (j := 42) (n := 2) (by decide)).trans hx.phentsize
  unfold readPhdrs
  rw [h1, h2, h3]

theorem readPhdrs_ok (hx : Executable f) (hc : Cleared s0) (hs : HeadRead e f s0 s) (h : readPhdrs e f s = .ok t) :
    Loading e f s0 [] t ∧ NoHole f f.phoff (f.phnum * phdrSize) ∧ f.headSize ≤ pageSize := by
  rw [readPhdrs_eq hx hs] at h
  obtain ⟨⟨m, u⟩, hr, h⟩ := bind_ok h
  cases h
  have hh := read_noHole hr
  have hlen := File.length_table hx.table
  have hnum := f.phnum_lt
  have hpage : f.headSize ≤ pageSize := by
    by_contra hno
    -- the first byte behind the page would be stored to
    have hpos : 0 < f.phnum := by
      unfold File.headSize ehdrSize phdrSize pageSize at hno
      omega
    have htab := hx.table
    unfold read at hr
    rw [if_neg (by unfold phdrSize at htab; omega)] at hr
    obtain ⟨_, -, hr⟩ := bind_ok hr
    obtain ⟨v, hv, -⟩ := bind_ok hr
    have hsome := storeBytes_needs (l := (f.data.drop f.phoff).take (f.phnum * phdrSize))
      (by rw [hs.brk]; exact le_trans hc.brk (Nat.le_add_right _ _))
      (by rw [hlen]; unfold userExecAddr ehdrSize phdrSize userStackBottom userStackTop; omega) hv (pageSize - ehdrSize)
      (by rw [hlen]; unfold File.headSize ehdrSize pageSize at *; omega)
    have hnext : (userExecAddr + ehdrSize + (pageSize - ehdrSize)) / pageSize = headPage + 1 := by decide
    rw [hnext, hs.page, mem_singleton, hc.page (headPage + 1) (by decide) (by decide)] at hsome
    rcases hsome with h1 | h1
    · cases h1
    · omega
  have hthere : ∀ j < ((f.data.drop f.phoff).take (f.phnum * phdrSize)).length,
      (s.page ((userExecAddr + ehdrSize + j) / pageSize)).isSome := fun j hj => by
    rw [add_assoc]
    exact hs.there (by unfold File.headSize at hpage; omega)
  obtain ⟨m', hm⟩ := read_there (e := e) hthere hh
  have heq := (Prod.ext_iff.1 (Except.ok.inj (hr.symm.trans hm))).2
  have hhead := HeadIn.read hx.table (fun k hk => ⟨hs.there (lt_trans hk (by decide)), hs.byte k hk⟩) (read_wrote hr).1
  subst heq
  have hhas := hs.toHas
  exact ⟨⟨hhas.same (fun _ => rfl) rfl, fun _ hg => (nomatch hg), fun _ => hs.right, fun _ hg => (nomatch hg), hhead, hs.endAddr⟩, hh, hpage⟩

theorem readPhdrs_some (hx : Executable f) (hs : HeadRead e f s0 s) (hpage : f.headSize ≤ pageSize)
    (hh : NoHole f f.phoff (f.phnum * phdrSize)) : ∃ t, readPhdrs e f s = .ok t := by
  have hlen := File.length_table hx.table
  have hthere : ∀ j < ((f.data.drop f.phoff).take (f.phnum * phdrSize)).length,
      (s.page ((userExecAddr + ehdrSize + j) / pageSize)).isSome := fun j hj => by
    rw [add_assoc]
    exact hs.there (by unfold File.headSize at hpage; omega)
  obtain ⟨m, hm⟩ := read_there (e := e) hthere hh
  rw [readPhdrs_eq hx hs, hm]
  exact ⟨_, rfl⟩

theorem HeadRead.valid (hx : Executable f) (hs : HeadRead e f s0 s) : elfValidate s.byte userExecAddr = true :=
  (elfValidate_congr fun k hk => by rw [hs.byte k hk, zero_add]).trans hx.header

/-! ## `load_elf` -/

theorem sysBrk_cleared (hs : ∀ p, userExecAddr ≤ p * pageSize → p * pageSize < userMmapAddr → (s.page p).isSome → p * pageSize < s.brk)
    (h : sysBrk e { s with endAddr := userExecAddr } userExecAddr = .ok t) : Cleared t := by
  obtain ⟨-, hb⟩ := sysBrk_shrunk h
  refine ⟨?_, hb.endAddr, fun p h1 h2 => ?_⟩
  · rcases hb.brk with h3 | ⟨h3, h4⟩
    · exact le_of_eq h3
    · exact h3 ▸ h4
  · refine Option.not_isSome_iff_eq_none.1 fun hsome => ?_
    obtain ⟨h3, h4⟩ := (hb.page p).1 hsome
    exact h4 ⟨h1, hs p h1 h2 h3⟩

theorem File.run_zero (f : File) : f.run 0 = f.leading := by
  unfold File.run File.leading
  rw [List.drop_zero]

theorem loadElf_loading (hx : Executable f) (hc : Cleared s) (hi : Intact f) (h : loadElf e f s = .ok (a, t)) :
    Loading e f s f.leading t ∧ elfLoads e f s = f.leading ∧ f.headSize ≤ pageSize ∧ NoHole f 0 ehdrSize ∧
      NoHole f f.phoff (f.phnum * phdrSize) ∧ ∀ g ∈ f.leading, NoHole f g.offset g.filesz := by
  rw [loadElf_eq] at h
  obtain ⟨s1, h1, h⟩ := bind_ok h
  obtain ⟨hs, hh1⟩ := readEhdr_ok hc h1
  rw [if_neg (by rw [hs.valid hx]; decide)] at h
  obtain ⟨s2, h2, h⟩ := bind_ok h
  obtain ⟨s3, h3, h⟩ := bind_ok h
  cases h
  obtain ⟨hl, hh2, hpage⟩ := readPhdrs_ok hx hc hs h2
  have hnum := f.phnum_lt
  obtain ⟨h4, h5, h6⟩ := loadHeaders_loading hx hc hi hl (by omega) f.run_zero h3
  refine ⟨h4, ?_, hpage, hh1, hh2, h6⟩
  unfold elfLoads
  rw [h1, ok_bind, h2]
  exact h5

theorem loadElf_some (hx : Executable f) (hc : Cleared s) (hw : LoadsWhen e f s) : ∃ t, loadElf e f s = .ok (f.entry, t) := by
  have hi : Intact f := ⟨hx.table, fun h hh => hw.kept h (f.leading_sublist.subset hh)⟩
  have hfr := hw.frames
  have hav : e.available s.linked = true := hfr 0 (card_pos.2 ⟨headPage, by simp⟩)
  rw [← hw.ordered] at hfr
  obtain ⟨s1, h1⟩ := readEhdr_some hc hx.size hw.header hav
  obtain ⟨hs, -⟩ := readEhdr_ok hc h1
  obtain ⟨s2, h2⟩ := readPhdrs_some hx hs hw.onePage hw.table
  obtain ⟨hl, -, -⟩ := readPhdrs_ok hx hc hs h2
  have hnum := f.phnum_lt
  obtain ⟨s3, h3⟩ := loadHeaders_some hx hc hi hfr (fun g hg => hw.bytes g (hw.ordered ▸ hg)) (n := 65536) hl f.run_zero
  obtain ⟨h4, -, -⟩ := loadHeaders_loading hx hc hi hl (by omega) f.run_zero h3
  refine ⟨s3, ?_⟩
  rw [loadElf_eq, h1, ok_bind, if_neg (by rw [hs.valid hx]; decide), h2, ok_bind, h3, ok_bind]
  have hentry : eEntry s3.byte userExecAddr = f.entry := number_head h4.head (by decide)
  rw [hentry]

/-- For a valid executable and a task without a program `load_elf` loads every segment once and nothing else just when the condition is
met. -/
theorem load_elf_loads (hx : Executable f) (hc : Cleared s) :
    (∃ t, loadElf e f s = .ok (f.entry, t) ∧ LoadsAll e f s t) ↔ LoadsWhen e f s := by
  constructor
  · rintro ⟨t, h, ha⟩
    -- the bytes of a segment and the headers are both there at the end
    have hkept : ∀ g ∈ f.segments, ∀ k < f.headSize, ∀ b, g.wrote f (userExecAddr + k) = some b → b = f.head k := by
      intro g hg k hk b hb
      obtain ⟨j, hj, hx', rfl⟩ := (Phdr.wrote_iff (hx.proper g hg)).1 hb
      rw [← ha.headers k hk, hx', ha.data g hg j hj]
    have hi : Intact f := ⟨hx.table, fun h hh => hkept h (f.leading_sublist.subset hh)⟩
    obtain ⟨hl, honce, hpage, hh1, hh2, hh3⟩ := loadElf_loading hx hc hi h
    have hord : f.leading = f.segments := honce.symm.trans ha.once
    rw [hord] at hl hh3
    exact ⟨hpage, hh1, hh2, hh3, hl.frames, hord, hkept⟩
  · intro hw
    obtain ⟨t, h⟩ := loadElf_some hx hc hw
    have hi : Intact f := ⟨hx.table, fun h hh => hw.kept h (f.leading_sublist.subset hh)⟩
    obtain ⟨hl, honce, -⟩ := loadElf_loading hx hc hi h
    rw [hw.ordered] at hl honce
    refine ⟨t, h, honce, fun g hg k hk => ?_, fun g hg p hp => ?_, fun p hp => ?_, ?_, fun k hk => (hl.head k hk).2⟩
    · exact hl.data g hg _ _ ((Phdr.wrote_iff (hx.proper g hg)).2 ⟨k, hk, rfl, rfl⟩)
    · exact hl.right g hg p ((hx.proper g hg).covers.1 hp)
    · rcases (hl.page p).1 hp with h1 | h1
      · exact .inl h1
      · refine .inr ((mem_pageSet.1 h1).imp_right ?_)
        rintro ⟨g, hg, hgp⟩
        exact ⟨g, hg, (hx.proper g hg).covers.2 hgp⟩
    · rw [hl.endAddr, hc.endAddr]

/-! ## Two files -/

def bare : State Nat := { caller with brk := 0x1000000, endAddr := 0x1000000, page := fun _ => none }

theorem bare_cleared : Cleared bare := ⟨le_refl _, rfl, fun _ _ _ => rfl⟩

theorem load_elf_image : ∃ t, loadElf frames (program (image 1 1)) bare = .ok ((program (image 1 1)).entry, t) ∧
    LoadsAll frames (program (image 1 1)) bare t := by
  have hseg : (program (image 1 1)).segments = [⟨1, 0, 0x1001000, 4, 4, 5, 0x1000⟩] := by decide +kernel
  have hlead : (program (image 1 1)).leading = [⟨1, 0, 0x1001000, 4, 4, 5, 0x1000⟩] := by decide +kernel
  have hsize : (program (image 1 1)).headSize = 84 := by decide +kernel
  have hproper : ∀ h ∈ (program (image 1 1)).segments, h.Proper (program (image 1 1)) := by
    intro h hh
    obtain rfl := List.mem_singleton.1 hh
    exact ⟨rfl, rfl, by decide, by decide, by decide, by decide⟩
  have hx : Executable (program (image 1 1)) :=
    ⟨by decide +kernel, by decide +kernel, by decide +kernel, hproper, by rw [hseg]; exact List.pairwise_singleton _ _⟩
  refine (load_elf_loads hx bare_cleared).2 ⟨by rw [hsize]; decide, fun _ _ => rfl, fun _ _ => rfl, fun _ _ _ _ => rfl, fun _ _ => rfl,
    by rw [hseg, hlead], fun h hh k hk b hb => ?_⟩
  have hrange := Phdr.wrote_range (hproper h hh) hb
  rw [hseg] at hh
  obtain rfl := List.mem_singleton.1 hh
  dsimp only at hrange
  unfold userExecAddr at hrange
  omega

/-- Behind a note no segment is loaded. -/
theorem segment_hidden : Executable (program (image 2 4)) ∧ Cleared bare ∧
    (∃ t, loadElf frames (program (image 2 4)) bare = .ok ((program (image 2 4)).entry, t)) ∧
    ¬ ∃ t, loadElf frames (program (image 2 4)) bare = .ok ((program (image 2 4)).entry, t) ∧ LoadsAll frames (program (image 2 4)) bare t := by
  have hseg : (program (image 2 4)).segments = [⟨1, 0, 0x1002000, 4, 4, 5, 0x1000⟩] := by decide +kernel
  have hlead : (program (image 2 4)).leading = [] := by decide +kernel
  have hx : Executable (program (image 2 4)) := by
    refine ⟨by decide +kernel, by decide +kernel, by decide +kernel, ?_, by rw [hseg]; exact List.pairwise_singleton _ _⟩
    intro h hh
    obtain rfl := List.mem_singleton.1 hh
    exact ⟨rfl, rfl, by decide, by decide, by decide, by decide⟩
  have hi : Intact (program (image 2 4)) := ⟨hx.table, fun g hg => by
    cases hg⟩
  refine ⟨hx, bare_cleared, ?_, ?_⟩
  · have hok : (loadElf frames (program (image 2 4)) bare).toBool = true := by decide +kernel
    cases h : loadElf frames (program (image 2 4)) bare with
    | error x =>
      rw [h] at hok
      cases hok
    | ok x =>
      rcases loadElf_cases h with ⟨hv, -⟩ | ⟨-, h1⟩
      · rw [hx.header] at hv
        cases hv
      · exact ⟨x.2, by rw [← (h1 hi).1]⟩
  · rintro ⟨t, h, ha⟩
    obtain ⟨-, honce, -⟩ := loadElf_loading hx bare_cleared hi h
    rw [ha.once, hseg, hlead] at honce
    cases honce

end Onix.Exec
