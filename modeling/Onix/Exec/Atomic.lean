/-
`sys_execve` against what it owes its caller. A call that fails after the file was found executable has already written the name, the stack
and the heap; and a program header that is no `PT_LOAD` hides those behind it.
-/
import Onix.Exec.Load

namespace Onix.Exec

open Onix.Lib
open Memory (userExecAddr userMmapAddr userStackTop userStackBottom)

variable {I : Type} {e : Env} {f : File} {s t u : State I} {P Q : Nat → Prop} {b n p i k : Nat}

/-! ## `sys_brk` -/

theorem unlinkPages_page : ∀ (n p : Nat) (s : State I), unlinkPages n p s =
    { s with page := fun q => if p ≤ q ∧ q < p + n then none else s.page q }
  | 0, p, s => by
    have hno : ∀ q, ¬ (p ≤ q ∧ q < p + 0) := fun q => by omega
    unfold unlinkPages
    simp only [hno, if_false]
  | n + 1, p, s => by
    unfold unlinkPages
    rw [unlinkPages_page n (p + 1)]
    unfold unlinkPage
    congr 1
    funext q
    dsimp only
    by_cases hq : q = p
    · have h1 : p ≤ q ∧ q < p + (n + 1) := by omega
      rw [if_pos hq, if_pos h1, ite_self]
    · rw [if_neg hq]
      refine if_congr ?_ rfl rfl
      omega

/-- The pages between the new end and the old one go. -/
structure Shrunk (b : Nat) (s t : State I) : Prop where
  brk : t.brk = b ∨ t.brk = s.brk ∧ s.brk ≤ b
  endAddr : t.endAddr = s.endAddr
  iexec : t.iexec = s.iexec
  count : t.count = s.count
  page : ∀ p, (t.page p).isSome ↔ (s.page p).isSome ∧ ¬ (b ≤ p * pageSize ∧ p * pageSize < s.brk)

theorem sysBrk_shrunk (h : sysBrk e s b = .ok t) : s.endAddr ≤ b ∧ Shrunk b s t := by
  obtain ⟨_, h1, h⟩ := bind_ok h
  obtain ⟨_, -, h⟩ := bind_ok h
  obtain ⟨_, h3, h⟩ := bind_ok h
  have halign := assert_ok h1
  refine ⟨(assert_ok h3).1, ?_⟩
  by_cases hlt : b < s.brk
  · rw [if_pos hlt, unlinkPages_page] at h
    cases h
    refine ⟨.inl rfl, rfl, rfl, rfl, fun p => ?_⟩
    dsimp only
    have hiff : (b / pageSize ≤ p ∧ p < b / pageSize + (s.brk - b + 0xFFF) / pageSize) ↔ b ≤ p * pageSize ∧ p * pageSize < s.brk := by
      unfold pageSize at halign ⊢
      omega
    by_cases hin : b / pageSize ≤ p ∧ p < b / pageSize + (s.brk - b + 0xFFF) / pageSize
    · rw [if_pos hin]
      exact ⟨(fun hn => nomatch hn), fun hn => absurd (hiff.1 hin) hn.2⟩
    · rw [if_neg hin]
      exact ⟨fun hs => ⟨hs, fun hn => hin (hiff.2 hn)⟩, fun hs => hs.1⟩
  · have hkeep : ∀ p, (s.page p).isSome ↔ (s.page p).isSome ∧ ¬ (b ≤ p * pageSize ∧ p * pageSize < s.brk) := fun p =>
      ⟨fun hs => ⟨hs, by omega⟩, fun hs => hs.1⟩
    rw [if_neg hlt] at h
    split at h
    · cases h
      exact ⟨.inl rfl, rfl, rfl, rfl, hkeep⟩
    · cases h
      exact ⟨.inr ⟨rfl, Nat.le_of_not_lt hlt⟩, rfl, rfl, rfl, hkeep⟩

/-! ## The exits -/

variable [DecidableEq I] {file : I → File} {found : Option I} {inode : I} {filename : List Byte} {argv envp : List (List Byte)}
  {o : Outcome I}

theorem refer_iput (s : State I) (i : I) : iput (s.refer i 1) (some i) = s := by
  have hcount : (fun j => if j = i then (s.refer i 1).count j + -1 else (s.refer i 1).count j) = s.count := by
    funext j
    unfold State.refer
    dsimp only
    split
    · omega
    · rfl
  show { s with count := _ } = s
  rw [hcount]

omit [DecidableEq I] in
theorem Kept.refl (s : State I) : Kept s s := ⟨rfl, rfl, rfl, rfl, rfl, fun _ _ => rfl⟩

theorem iput_fields (s : State I) (x : Option I) : (iput s x).brk = s.brk ∧ (iput s x).page = s.page ∧
    ∀ i, (iput s x).count i = s.count i - if x = some i then 1 else 0 := by
  cases x with
  | none => exact ⟨rfl, rfl, fun i => (Int.sub_zero _).symm⟩
  | some j =>
    refine ⟨rfl, rfl, fun i => ?_⟩
    unfold iput State.refer
    dsimp only
    by_cases hi : i = j
    · rw [if_pos hi, if_pos (congrArg some hi.symm)]
      rfl
    · rw [if_neg hi, if_neg fun h => hi (Option.some.inj h).symm, Int.sub_zero]

omit [DecidableEq I] in
theorem copyArgvEnvp_grown {x : Nat × State I} (h : copyArgvEnvp e filename argv envp s = .ok x) :
    Grown (Touched (laid (argBlock filename argv envp) (userStackTop - (argBlock filename argv envp).length))) s x.2 := by
  unfold copyArgvEnvp at h
  split at h
  · cases h
  · obtain ⟨_, -, h⟩ := bind_ok h
    obtain ⟨u, hu, h⟩ := bind_ok h
    cases h
    exact (storeBytes_wrote hu).toGrown

/-- What a program is entered with. -/
structure Entered (args : List Byte) (f : File) (inode : I) (s t : State I) : Prop where
  entry : f.entry ≠ eofWord
  iexec : t.iexec = some inode
  count : ∀ i, t.count i = s.count i + (if i = inode then 1 else 0) - if s.iexec = some i then 1 else 0
  page : ∀ p, (t.page p).isSome ↔ There args f s p ∨ ∃ g ∈ f.leading, g.Links f p

/-- How a call ends for a file that may be executed. -/
inductive Ended (args : List Byte) (f : File) (inode : I) (s : State I) : Outcome I → Prop
  | invalid (t : State I) (hv : elfValidate f.byte 0 = false) (h : t.brk = userExecAddr ∨ t.brk = s.brk ∧ s.brk ≤ userExecAddr) :
      Ended args f inode s (.returned (-ENOEXEC) t)
  | failed (t : State I) (hv : elfValidate f.byte 0 = true)
      (h : Intact f → f.entry = eofWord ∧ (t.brk = userExecAddr ∨ t.brk = s.brk ∧ s.brk ≤ userExecAddr)) :
      Ended args f inode s (.returned (-ENOEXEC) t)
  | entered (t : State I) (frame : Frame) (hv : elfValidate f.byte 0 = true) (h : Intact f → Entered args f inode s t) :
      Ended args f inode s (.entered t frame)

theorem sysExecve_ended (hr : (file inode).regular = true) (hx : (file inode).exec = true)
    (h : sysExecve e file (some inode) filename argv envp s = .ok o) :
    Ended (argBlock filename argv envp) (file inode) inode s o := by
  unfold sysExecve at h
  dsimp only at h
  rw [hr, hx, if_neg (by decide), if_neg (by decide)] at h
  obtain ⟨⟨top, s1⟩, h1, h⟩ := bind_ok h
  obtain ⟨s2, h2, h⟩ := bind_ok h
  obtain ⟨⟨entry, s3⟩, h3, h⟩ := bind_ok h
  have g1 := copyArgvEnvp_grown h1
  obtain ⟨-, g2⟩ := sysBrk_shrunk h2
  have hs1 : s1.brk = s.brk := g1.brk
  have hend2 : s2.endAddr = userExecAddr := g2.endAddr
  have hbrk2 : s2.brk = userExecAddr ∨ s2.brk = s.brk ∧ s.brk ≤ userExecAddr := by
    rcases g2.brk with h4 | ⟨h4, h5⟩
    · exact .inl h4
    · rw [show _ = s1.brk from rfl, hs1] at h4 h5
      exact .inr ⟨h4, h5⟩
  rcases loadElf_cases h3 with ⟨hv, hentry, P, g3⟩ | ⟨hv, h4⟩
  · dsimp only at h hentry
    rw [if_pos hentry] at h
    cases h
    refine .invalid _ hv ?_
    rw [(iput_fields s3 _).1, g3.brk]
    exact hbrk2
  · dsimp only at h
    by_cases hentry : entry = eofWord
    · rw [if_pos hentry] at h
      cases h
      refine .failed _ hv fun hi => ?_
      obtain ⟨h5, g3⟩ := h4 hi
      refine ⟨h5.symm.trans hentry, ?_⟩
      rw [(iput_fields s3 _).1, g3.brk]
      exact hbrk2
    · rw [if_neg hentry] at h
      obtain ⟨s4, h6, h⟩ := bind_ok h
      cases h
      refine .entered _ _ hv fun hi => ?_
      obtain ⟨h5, g3⟩ := h4 hi
      obtain ⟨-, g4⟩ := sysBrk_shrunk h6
      have hcount : s4.count = (s.refer inode 1).count := g4.count.trans (g3.count.trans (g2.count.trans g1.count))
      have hiexec : s4.iexec = s.iexec := g4.iexec.trans (g3.iexec.trans (g2.iexec.trans g1.iexec))
      refine ⟨fun he => hentry (h5.trans he), rfl, fun i => ?_, fun p => ?_⟩
      · show (iput s4 s4.iexec).count i = _
        rw [(iput_fields s4 _).2.2, hcount, hiexec]
        congr 1
        show (if i = inode then s.count i + 1 else s.count i) = _
        split
        · rfl
        · exact (Int.add_zero _).symm
      · show ((iput s4 s4.iexec).page p).isSome ↔ _
        rw [(iput_fields s4 _).2.1, g4.page, g3.page, g2.page]
        have hgrow : ¬ (s3.endAddr ≤ p * pageSize ∧ p * pageSize < s3.brk) := by
          have h7 : s2.endAddr ≤ s3.endAddr := g3.endAddr
          have h8 : s3.brk = s2.brk := g3.brk
          omega
        rw [and_iff_left hgrow]
        rw [g1.page, hs1]
        exact or_assoc.symm

/-! ## All or nothing -/

/-- A call gives its caller what it owes if the condition is met; it does so otherwise only for a caller with nothing below its `brk`, or for
a file whose headers are not read as they are in the file. -/
theorem execve_all_or_nothing (h : sysExecve e file found filename argv envp s = .ok o) :
    (Meets file found (argBlock filename argv envp) s → AllOrNothing file found s o) ∧
    (AllOrNothing file found s o → Meets file found (argBlock filename argv envp) s ∨ s.brk ≤ userExecAddr ∨ Displaced file found) := by
  cases found with
  | none =>
    cases h
    exact ⟨fun _ => .refl s, fun _ => .inl trivial⟩
  | some inode =>
    cases hr : (file inode).regular with
    | false =>
      unfold sysExecve at h
      dsimp only at h
      rw [hr, if_pos rfl, refer_iput] at h
      cases h
      exact ⟨fun _ => .refl s, fun _ => .inl (.inl hr)⟩
    | true =>
      cases hx : (file inode).exec with
      | false =>
        unfold sysExecve at h
        dsimp only at h
        rw [hr, hx, if_neg (by decide), if_pos rfl, refer_iput] at h
        cases h
        exact ⟨fun _ => .refl s, fun _ => .inl (.inr (.inl hx))⟩
      | true =>
        have hmeets : Meets file (some inode) (argBlock filename argv envp) s → elfValidate (file inode).byte 0 = true ∧
            (file inode).entry ≠ eofWord ∧ Intact (file inode) ∧ Covered (argBlock filename argv envp) (file inode) s := by
          rintro (h1 | h1 | h1)
          · rw [hr] at h1
            cases h1
          · rw [hx] at h1
            cases h1
          · exact h1
        cases sysExecve_ended hr hx h with
        | invalid t hv hb =>
          refine ⟨fun hm => ?_, fun hk => .inr (.inl ?_)⟩
          · rw [hv] at hmeets
            cases (hmeets hm).1
          · have hbrk := hk.brk
            omega
        | failed t hv hb =>
          refine ⟨fun hm => ?_, fun hk => .inr ?_⟩
          · obtain ⟨-, h1, h2, -⟩ := hmeets hm
            exact absurd (hb h2).1 h1
          · by_cases hi : Intact (file inode)
            · have hbrk := hk.brk
              have h1 := (hb hi).2
              exact .inl (by omega)
            · exact .inr ⟨hv, hi⟩
        | entered t frame hv hb =>
          refine ⟨fun hm => ?_, fun hk => ?_⟩
          · obtain ⟨-, -, h2, h3⟩ := hmeets hm
            have he := hb h2
            exact ⟨inode, rfl, he.iexec, fun g hg hl p hp => (he.page p).2 (h3 g hg hl p hp), he.count⟩
          · by_cases hi : Intact (file inode)
            · have he := hb hi
              obtain ⟨_, hf, -, hp, -⟩ := hk
              cases hf
              exact .inl (.inr (.inr ⟨hv, he.entry, hi, fun g hg hl p hc => (he.page p).1 (hp g hg hl p hc)⟩))
            · exact .inr (.inr ⟨hv, hi⟩)

/-! ## Small files -/

/-- A header with one segment behind it, after a program header of type `n` if there are two. -/
def image (phnum n : Byte) : List Byte :=
  [0x7F, 0x45, 0x4C, 0x46, 1, 1, 1, 0, 0, 0, 0, 0, 0, 0, 0, 0, 2, 0, 3, 0, 1, 0, 0, 0, 0, 0x10, 0, 1, 52, 0, 0, 0, 0, 0, 0, 0, 0, 0, 0, 0,
    52, 0, 32, 0, phnum, 0, 0, 0, 0, 0, 0, 0,
    n, 0, 0, 0, 0, 0, 0, 0, 0, 0x10, 0, 1, 0, 0, 0, 0, 4, 0, 0, 0, 4, 0, 0, 0, 5, 0, 0, 0, 0, 0x10, 0, 0,
    1, 0, 0, 0, 0, 0, 0, 0, 0, 0x20, 0, 1, 0, 0, 0, 0, 4, 0, 0, 0, 4, 0, 0, 0, 5, 0, 0, 0, 0, 0x10, 0, 0]

def program (data : List Byte) : File := ⟨true, true, data, fun _ => false⟩

def caller : State Nat where
  uid := 1
  name _ := 0
  brk := 0x1001000
  endAddr := 0x1001000
  text := 0x1000000
  data := 0
  iexec := some 1
  page p := if p = 0x1000 then some ⟨true, false⟩ else none
  byte _ := 0
  count i := if i = 1 then 1 else 0
  linked := 0

def frames : Env := ⟨fun _ => true, fun _ _ => 0, fun _ => true⟩

def start (data : List Byte) : Except Stop (Outcome Nat) := sysExecve frames (fun _ => program data) (some 2) [0x61] [] [] caller

omit [DecidableEq I] in
theorem exists_ok {r : Except Stop (Outcome I)} (h : r.toBool = true) : ∃ o, r = .ok o := by
  cases r with
  | error e => cases h
  | ok o => exact ⟨o, rfl⟩

theorem image_meets : Meets (fun _ => program (image 1 1)) (some 2) (argBlock [0x61] [] []) caller := by
  have hleading : (program (image 1 1)).leading = [⟨1, 0, 0x1001000, 4, 4, 5, 0x1000⟩] := by decide +kernel
  have hsize : (program (image 1 1)).headSize = 84 := by decide +kernel
  refine .inr (.inr ⟨by decide +kernel, by decide +kernel, ⟨by decide +kernel, ?_⟩, ?_⟩)
  · intro g hg k hk b hb
    rw [hleading] at hg
    obtain rfl := List.mem_singleton.1 hg
    rw [hsize] at hk
    have hzero : ¬ 0x1001000 + 4 ≤ userExecAddr + k := by
      unfold userExecAddr
      omega
    have hfile : ¬ 0x1001000 ≤ userExecAddr + k := by
      unfold userExecAddr
      omega
    unfold Phdr.wrote laid at hb
    rw [if_neg hzero, if_neg hfile] at hb
    cases hb
  · intro g hg hl p hp
    obtain rfl := List.mem_singleton.1 hg
    refine .inr ⟨_, List.mem_singleton_self _, .inl ⟨hp.1, ?_⟩⟩
    have hlt : p * pageSize < 0x1001000 + max 4 4 := hp.2
    show p < 0x1001000 / pageSize + divRoundUp (max 4 4)
    have hcount : divRoundUp (max 4 4) = 1 := by decide
    unfold pageSize at hlt ⊢
    omega

/-- An image is loaded, and nothing of it is missing. -/
theorem execve_image : ∃ o, start (image 1 1) = .ok o ∧ AllOrNothing (fun _ => program (image 1 1)) (some 2) caller o := by
  obtain ⟨o, ho⟩ := exists_ok (r := start (image 1 1)) (by decide +kernel)
  exact ⟨o, ho, (execve_all_or_nothing ho).1 image_meets⟩

/-- A file of zeros takes the caller its heap and its name before the error; and of an image with a note before its segment no page is
loaded. -/
theorem execve_half_done :
    (∃ o, start (List.replicate 52 0) = .ok o ∧ ¬ AllOrNothing (fun _ => program (List.replicate 52 0)) (some 2) caller o) ∧
    ∃ o, start (image 2 4) = .ok o ∧ ¬ AllOrNothing (fun _ => program (image 2 4)) (some 2) caller o := by
  obtain ⟨o, ho⟩ := exists_ok (r := start (List.replicate 52 0)) (by decide +kernel)
  obtain ⟨o', ho'⟩ := exists_ok (r := start (image 2 4)) (by decide +kernel)
  refine ⟨⟨o, ho, ?_⟩, o', ho', ?_⟩
  · cases sysExecve_ended rfl rfl ho with
    | invalid t hv hb =>
      intro hk
      have h1 : t.brk = 0x1001000 := hk.brk
      unfold userExecAddr at hb
      omega
    | failed t hv hb => exact absurd hv (by decide +kernel)
    | entered t frame hv hb => exact absurd hv (by decide +kernel)
  · have hleading : (program (image 2 4)).leading = [] := by decide +kernel
    have hsize : (program (image 2 4)).headSize = 116 := by decide +kernel
    have hi : Intact (program (image 2 4)) := by
      refine ⟨by decide +kernel, fun g hg => ?_⟩
      cases hg
    cases sysExecve_ended rfl rfl ho' with
    | invalid t hv hb => exact absurd hv (by decide +kernel)
    | failed t hv hb => exact absurd (hb hi).1 (by decide +kernel)
    | entered t frame hv hb =>
      rintro ⟨_, hf, -, hp, -⟩
      cases hf
      -- the page of the segment
      have hpage : (t.page 0x1002).isSome := hp ⟨1, 0, 0x1002000, 4, 4, 5, 0x1000⟩ (by decide +kernel) rfl 0x1002 ⟨by decide, by decide⟩
      rcases ((hb hi).page _).1 hpage with (⟨h1 | h1, -⟩ | ⟨k, hk, h1⟩) | ⟨g, hg, -⟩
      · exact absurd h1 (by decide)
      · rw [touched_laid] at h1
        have hlen : userStackTop - (argBlock [0x61] [] []).length = 0xFFFFFEE := by decide +kernel
        unfold pageSize at h1
        omega
      · rw [hsize] at hk
        unfold userExecAddr pageSize at h1
        omega
      · rw [hleading] at hg
        cases hg


end Onix.Exec
