/-
What `iso_find_entry` and `iso_namei` are to do, and when they do it: the first record that bears the name is found, none but the records of
the directory are looked at, and no buffer is kept that no inode has.
-/
import Onix.Namei.Balance
import Onix.Namei.Search
import Onix.Walk.Match

namespace Onix.Namei

open List Onix.Lib
open Walk (isoMatchName isoNamelen namelen firstName matchName isSeparator)

variable {s t : State} {dir : Ino} {dev : Int} {path record : List Char} {lba size n : Nat} {p desc : Ptr} {blocks : List (List Ptr)}
  {f g : Ptr → Bool}

/-! ## Names -/

def versionless (name : List Char) : List Char :=
  match name.reverse.span Char.isDigit with
  | (_ :: _, ';' :: l) => l.reverse
  | _ => name

def baseName (name : List Char) : List Char :=
  if (versionless name).getLast? = some '.' then (versionless name).dropLast else versionless name

def Dots (path record : List Char) : Prop := record = ['\x00'] ∧ firstName path = ['.'] ∨ record = ['\x01'] ∧ firstName path = ['.', '.']

instance : Decidable (Dots path record) := inferInstanceAs (Decidable (_ ∨ _))

def bears (path record : List Char) : Bool := Dots path record ∨ (firstName path).map Char.toUpper = (baseName record).map Char.toUpper

/-- It makes no difference that `iso_match_name` compares with what `iso_namelen` leaves of the record's name, as it is. -/
def Alike (path record : List Char) : Prop :=
  Dots path record ∨ ((firstName path).map Char.toUpper = record.take (isoNamelen record) ↔
    (firstName path).map Char.toUpper = (baseName record).map Char.toUpper)

instance : Decidable (Alike path record) := inferInstanceAs (Decidable (_ ∨ _))

theorem namelen_firstName : ∀ path : List Char, (namelen path).1 = (firstName path).length ∧ path.take (namelen path).1 = firstName path
  | [] => ⟨rfl, rfl⟩
  | c :: l => by
    obtain ⟨h1, h2⟩ := namelen_firstName l
    unfold namelen firstName
    rw [takeWhile_cons]
    cases hc : isSeparator c with
    | true => exact ⟨rfl, rfl⟩
    | false =>
      refine ⟨congrArg (· + 1) h1, ?_⟩
      show c :: l.take (namelen l).1 = c :: l.takeWhile _
      rw [h2]
      rfl

theorem matchName_isSome {name : List Char} (h0 : '\x00' ∉ name) (hplain : ∀ c ∈ name, isSeparator c = false) (path : List Char) :
    (matchName path name (name.length + 1)).isSome = decide (firstName path = name) := by
  rw [← zero_add 1, Walk.matchName_ended h0 hplain]
  by_cases h : firstName path = name
  · rw [if_pos h, decide_eq_true h]
    rfl
  · rw [if_neg h, decide_eq_false h]
    rfl

theorem isoNamelen_le (record : List Char) : isoNamelen record ≤ record.length := by
  unfold isoNamelen
  dsimp only
  split <;> split <;> omega

theorem isoMatchName_iff : isoMatchName path (namelen path).1 record = true ↔
    Dots path record ∨ (firstName path).map Char.toUpper = record.take (isoNamelen record) := by
  obtain ⟨hlen, htake⟩ := namelen_firstName path
  have hrest : (if (namelen path).1 ≠ isoNamelen record then false
      else (path.take (namelen path).1).map Char.toUpper == record.take (namelen path).1) = true ↔
      (firstName path).map Char.toUpper = record.take (isoNamelen record) := by
    rw [htake, hlen]
    by_cases h : (firstName path).length = isoNamelen record
    · rw [if_neg (not_not.2 h), h, beq_iff_eq]
    · rw [if_pos h]
      refine iff_of_false Bool.false_ne_true fun heq => h ?_
      have := congrArg length heq
      rwa [length_map, length_take, Nat.min_eq_left (isoNamelen_le record)] at this
  have hself : (matchName path ['.'] 2).isSome = decide (firstName path = ['.']) := matchName_isSome (by decide) (by decide) path
  have hparent : (matchName path ['.', '.'] 3).isSome = decide (firstName path = ['.', '.']) := matchName_isSome (by decide) (by decide) path
  unfold isoMatchName Dots
  simp only [hself, hparent, decide_eq_true_iff]
  by_cases h1 : record = ['\x00'] ∧ firstName path = ['.']
  · rw [if_pos h1]
    exact iff_of_true rfl (.inl (.inl h1))
  rw [if_neg h1]
  by_cases h2 : record = ['\x01'] ∧ firstName path = ['.', '.']
  · rw [if_pos h2]
    exact iff_of_true rfl (.inl (.inr h2))
  rw [if_neg h2, hrest]
  exact ⟨.inr, fun h => h.resolve_left fun h => h.elim h1 h2⟩

theorem alike_iff : (isoMatchName path (namelen path).1 record = bears path record) ↔ Alike path record := by
  rw [Bool.eq_iff_iff, isoMatchName_iff]
  unfold bears Alike
  rw [decide_eq_true_iff]
  by_cases h : Dots path record
  · exact iff_of_true (iff_of_true (.inl h) (.inl h)) (.inl h)
  · simp [h]

/-! ## What is expected -/

theorem expected_some {l : List Ptr} (h : l.find? f = some p) : expected f (l :: blocks) = ⟨l.takeWhile (fun q => !f q) ++ [p], 1, some p⟩ := by
  unfold expected
  rw [h]

theorem expected_none {l : List Ptr} (h : l.find? f = none) :
    expected f (l :: blocks) = ⟨l ++ (expected f blocks).examined, (expected f blocks).reads + 1, (expected f blocks).result⟩ := by
  conv => lhs; unfold expected
  rw [h]

/-- The result is the first record, not more than the blocks are read and than the records looked at, and the result alone is right. -/
structure Scan.Within (w : Scan) (f : Ptr → Bool) (blocks : List (List Ptr)) : Prop where
  result : w.result = blocks.flatten.find? f
  reads : w.reads ≤ blocks.length
  pos : blocks ≠ [] → 0 < w.reads
  examined : w.examined.length ≤ blocks.flatten.length
  only : ∀ p ∈ w.examined, f p = true ↔ w.result = some p

theorem takeWhile_not (f : Ptr → Bool) (l : List Ptr) : ∀ p ∈ l.takeWhile (fun q => !f q), f p = false := fun p hp => by
  simpa using mem_takeWhile_imp hp

theorem takeWhile_split {pre post : List Ptr} (hpre : ∀ q ∈ pre, (!f q) = true) (hp : f p = true) :
    ((pre ++ p :: post).takeWhile fun q => !f q) = pre := by
  rw [takeWhile_append_of_pos hpre, takeWhile_cons, hp]
  exact append_nil pre

theorem expected_within (f : Ptr → Bool) (blocks : List (List Ptr)) : (expected f blocks).Within f blocks := by
  induction blocks with
  | nil => exact ⟨rfl, le_refl _, fun h => absurd rfl h, le_refl _, nofun⟩
  | cons l blocks ih =>
    cases hfind : l.find? f with
    | some p =>
      have hp : f p = true := find?_some hfind
      rw [expected_some hfind]
      refine ⟨?_, Nat.succ_pos _, fun _ => Nat.one_pos, ?_, ?_⟩
      · rw [flatten_cons, find?_append, hfind]
        rfl
      · obtain ⟨-, pre, post, hl, hpre⟩ := find?_eq_some_iff_append.1 hfind
        rw [hl, takeWhile_split hpre hp, flatten_cons, length_append, length_append, length_append]
        have h1 : [p].length = 1 := rfl
        have h2 : (p :: post).length = post.length + 1 := rfl
        omega
      · intro q hq
        rcases mem_append.1 hq with hq | hq
        · have hf := takeWhile_not f l q hq
          exact iff_of_false (by rw [hf]; exact Bool.false_ne_true) fun h => by
            rw [Option.some.inj h, hf] at hp
            cases hp
        · rw [mem_singleton.1 hq]
          exact iff_of_true hp rfl
    | none =>
      have hnone := find?_eq_none.1 hfind
      rw [expected_none hfind]
      refine ⟨?_, Nat.succ_le_succ ih.reads, fun _ => Nat.succ_pos _, ?_, ?_⟩
      · rw [flatten_cons, find?_append, hfind]
        exact ih.result
      · rw [length_append, flatten_cons, length_append]
        exact Nat.add_le_add_left ih.examined _
      · intro q hq
        rcases mem_append.1 hq with hq | hq
        · have hf := hnone q hq
          refine iff_of_false hf fun h => hf ?_
          rw [ih.result] at h
          exact find?_some h
        · exact ih.only q hq

theorem expected_eq_iff : expected f blocks = expected g blocks ↔ ∀ p ∈ (expected g blocks).examined, f p = g p := by
  constructor
  · intro h p hp
    have hg := (expected_within g blocks).only p hp
    rw [← h] at hp hg
    rw [Bool.eq_iff_iff]
    exact ((expected_within f blocks).only p hp).trans hg.symm
  · intro h
    induction blocks with
    | nil => rfl
    | cons l blocks ih =>
      cases hfind : l.find? g with
      | some p =>
        rw [expected_some hfind] at h
        obtain ⟨hp, pre, post, rfl, hpre⟩ := find?_eq_some_iff_append.1 hfind
        rw [takeWhile_split hpre hp] at h
        have hpre' : ∀ q ∈ pre, (!f q) = true := fun q hq => by
          rw [h q (mem_append_left _ hq)]
          exact hpre q hq
        have hp' : f p = true := (h p (by simp)).trans hp
        have hfind' : (pre ++ p :: post).find? f = some p := find?_eq_some_iff_append.2 ⟨hp', pre, post, rfl, hpre'⟩
        rw [expected_some hfind, expected_some hfind', takeWhile_split hpre hp, takeWhile_split hpre' hp']
      | none =>
        rw [expected_none hfind] at h
        have hfind' : l.find? f = none := find?_eq_none.2 fun q hq => by
          rw [h q (mem_append_left _ hq)]
          exact find?_eq_none.1 hfind q hq
        rw [expected_none hfind, expected_none hfind', ih fun q hq => h q (mem_append_right _ hq)]

/-! ## `iso_find_entry` -/

def State.bearer (s : State) (path : List Char) (p : Ptr) : Bool := bears path (s.isoName p)

/-- The search goes through the records of the directory up to the first that bears the name; `iso_find_entry` ends, with what is found
and a reference to its buffer. -/
structure Looked (s : State) (dir : Ino) (desc : Ptr) (path : List Char) (blocks : List (List Ptr)) : Prop where
  search : Scans s (s.slot dir).dev path (s.isoLba desc) (signed32 (s.isoSize desc)) none (expected (s.bearer path) blocks)
  ends : ∃ m, ∀ n ≥ m, isoFindEntry dir path (s.waiting n) = .ok ((expected (s.bearer path) blocks).result,
    (s.waiting n).after ((expected (s.bearer path) blocks).result.map Ptr.buf) (expected (s.bearer path) blocks).reads)

/-- The size is not negative as an `int`, the name is there or every block has a zero at its end, and the records up to the first that
bears the name are told from each other as they should be. -/
structure Findable (s : State) (dir : Ino) (desc : Ptr) (path : List Char) (blocks : List (List Ptr)) : Prop where
  size : s.isoSize desc < 2 ^ 31
  ends : (∃ p ∈ blocks.flatten, s.bearer path p = true) ∨ s.AllPadded (s.slot dir).dev (s.isoLba desc) blocks
  alike : ∀ p ∈ (expected (s.bearer path) blocks).examined, Alike path (s.isoName p)

theorem u32_lt (s : State) (p : Ptr) (k : Nat) : s.u32 p k < 2 ^ 32 := by
  unfold State.u32 State.u16 State.u8
  omega

theorem isoFindEntry_eq (hdesc : (s.slot dir).desc = some desc) (n : Nat) : isoFindEntry dir path (s.waiting n) =
    isoLoop dir path n (s.isoLba desc) (signed32 (s.isoSize desc)) none ((s.waiting n).after none 0) := by
  show (deref (s.slot dir).desc (s.waiting n) >>= fun x => _ : Except Stop (Option Ptr × State)) = _
  rw [hdesc]
  rfl

theorem takes_eq : expected (s.takes path) blocks = expected (s.bearer path) blocks ↔
    ∀ p ∈ (expected (s.bearer path) blocks).examined, Alike path (s.isoName p) := by
  rw [expected_eq_iff]
  exact forall₂_congr fun p _ => alike_iff

theorem exists_of_result (h : (expected f blocks).result = (expected g blocks).result) (hf : ∃ p ∈ blocks.flatten, f p = true) :
    ∃ p ∈ blocks.flatten, g p = true := by
  rw [(expected_within f blocks).result, (expected_within g blocks).result] at h
  have hsome := find?_isSome.2 hf
  rw [h] at hsome
  exact find?_isSome.1 hsome

theorem scans_findable (hext : Extent s dev lba size blocks) {w : Scan} (hw : Scans s dev path lba size none w) :
    (∃ p ∈ blocks.flatten, s.takes path p = true) ∨ s.AllPadded dev lba blocks ∨
      blocks.length < w.reads ∨ blocks.flatten.length < w.examined.length := by
  by_cases htake : ∃ p ∈ blocks.flatten, s.takes path p = true
  · exact .inl htake
  by_cases hpad : s.AllPadded dev lba blocks
  · exact .inr (.inl hpad)
  · refine .inr (.inr (scans_over hext (fun p hp => ?_) size none nofun ?_ (.inr hpad) w hw))
    · exact Bool.eq_false_iff.2 fun h => htake ⟨p, hp, h⟩
    · have := hext.length.1
      omega

theorem scans_iff (hext : Extent s dev lba size blocks)
    (hends : (∃ p ∈ blocks.flatten, s.takes path p = true) ∨ s.AllPadded dev lba blocks) (w : Scan) :
    Scans s dev path lba size none w ↔ w = expected (s.takes path) blocks := by
  obtain ⟨h1, h2⟩ := hext.length
  exact scans_extent hext size none nofun (by omega) (hends.imp_right fun h => ⟨h, by omega⟩) w

theorem looked_iff (hdesc : (s.slot dir).desc = some desc) (hext : Extent s (s.slot dir).dev (s.isoLba desc) (s.isoSize desc) blocks)
    (hread : ∀ i < blocks.length, s.faulty (s.reads + i) = false) : Looked s dir desc path blocks ↔ Findable s dir desc path blocks := by
  constructor
  · rintro ⟨hsearch, -⟩
    have hwithin := expected_within (s.bearer path) blocks
    have hsize : s.isoSize desc < 2 ^ 31 := by
      by_contra hsize
      have hleft : signed32 (s.isoSize desc) ≤ 0 := by
        have := u32_lt s desc 10
        unfold signed32
        rw [if_neg hsize]
        show ((s.u32 desc 10 : Nat) : Int) - 2 ^ 32 ≤ 0
        omega
      have hpos := hwithin.pos fun h => by
        have := hext.length.2
        rw [h] at this
        simp at this
        omega
      rw [(scans_done hleft).1 hsearch] at hpos
      exact lt_irrefl 0 hpos
    rw [show signed32 (s.isoSize desc) = s.isoSize desc from if_pos hsize] at hsearch
    have hends : (∃ p ∈ blocks.flatten, s.takes path p = true) ∨ s.AllPadded (s.slot dir).dev (s.isoLba desc) blocks := by
      rcases scans_findable hext hsearch with h | h | h | h
      · exact .inl h
      · exact .inr h
      · exact absurd hwithin.reads (Nat.not_le_of_lt h)
      · exact absurd hwithin.examined (Nat.not_le_of_lt h)
    have heq := ((scans_iff hext hends _).1 hsearch).symm
    exact ⟨hsize, hends.imp_left (exists_of_result (congrArg Scan.result heq)), takes_eq.1 heq⟩
  · rintro ⟨hsize, hends, halike⟩
    have heq := takes_eq.2 halike
    have hends := hends.imp_left (exists_of_result (congrArg Scan.result heq).symm)
    have hleft : signed32 (s.isoSize desc) = s.isoSize desc := if_pos hsize
    have hsearch := (scans_iff hext hends _).2 heq.symm
    obtain ⟨m, hm⟩ := loop_of_scans hsearch 0 fun i hi => by
      rw [zero_add]
      exact hread i (lt_of_lt_of_le hi (expected_within _ _).reads)
    refine ⟨by rw [hleft]; exact hsearch, m, fun n hn => ?_⟩
    rw [isoFindEntry_eq hdesc, hleft, ← zero_add (expected (s.bearer path) blocks).reads]
    exact hm n n hn

/-! ## `iso_namei` -/

def State.InMemory (s : State) (dev : Int) (nr : Nat) : Prop := ∃ k, s.getSuper dev = some k ∧ ∃ i ∈ (s.super k).inodeList, (s.slot i).nr = nr

def State.Cached (s : State) (result : Option Ptr) : Prop := ∃ p, result = some p ∧ s.InMemory p.buf.dev (s.isoLba p)

def Tidy (s t : State) : Prop := ∀ b, t.bufs b + s.inodeBufs b = s.bufs b + t.inodeBufs b

theorem findInode_iff (dev : Int) (nr : Nat) : Leads (findInode dev nr) s fun r t => t = s ∧ (r.isSome = true ↔ s.InMemory dev nr) := by
  refine Leads.get (Leads.demand fun k hk => Leads.pure ⟨rfl, ?_⟩)
  rw [find?_isSome]
  constructor
  · rintro ⟨i, hi, hnr⟩
    exact ⟨k, hk, i, hi, of_decide_eq_true hnr⟩
  · rintro ⟨l, hl, i, hi, hnr⟩
    cases hk.symm.trans hl
    exact ⟨i, hi, decide_eq_true hnr⟩

theorem lost_apart : Apart State.lost := ⟨fun _ _ => rfl, fun _ _ _ => rfl, fun _ _ => rfl⟩

theorem isoMakeInode_lost (k : SuperId) (entry : Ptr) : Leads (isoMakeInode k entry) s fun _ t => t.lost = s.lost := by
  have hfree : Leads getFreeInode s fun _ u => u = s := Leads.get (Leads.demand fun i _ => Leads.ensure fun _ => Leads.pure rfl)
  refine hfree.bind fun i u hu => ?_
  rw [hu]
  refine Leads.get ((setInode_eq i _).bind ?_)
  rintro _ _ rfl
  exact Leads.bind (R := fun _ v => v.lost = s.lost) (Leads.get (Leads.ensure fun _ => Leads.set rfl)) fun _ _ hv => Leads.pure hv

theorem isoFindEntry_scans (hdesc : (s.slot dir).desc = some desc) : Leads (isoFindEntry dir path) s fun r t =>
    ∃ w, Scans s (s.slot dir).dev path (s.isoLba desc) (signed32 (s.isoSize desc)) none w ∧ r = w.result ∧
      t = s.after (w.result.map Ptr.buf) w.reads := by
  intro r t h
  have heq : isoFindEntry dir path s = isoLoop dir path s.patience _ _ none (s.after none 0) := isoFindEntry_eq (s := s) hdesc s.patience
  obtain ⟨w, hw, hr, ht⟩ := scans_of_loop _ _ _ none 0 (heq.symm.trans h)
  rw [zero_add] at ht
  exact ⟨w, hw, hr, ht⟩

theorem isoNamei_lost (hdesc : (s.slot dir).desc = some desc) : Leads (isoNamei dir path) s fun _ t =>
    ∃ w, Scans s (s.slot dir).dev path (s.isoLba desc) (signed32 (s.isoSize desc)) none w ∧
      ((∃ p, w.result = some p ∧ s.InMemory p.buf.dev (s.isoLba p) ∧ t.lost = p.buf :: s.lost) ∨ ¬ s.Cached w.result ∧ t.lost = s.lost) := by
  refine (isoFindEntry_scans hdesc).bind ?_
  rintro _ _ ⟨w, hw, rfl, rfl⟩
  cases hr : w.result with
  | none =>
    refine Leads.pure ⟨w, hw, .inr ⟨?_, rfl⟩⟩
    rintro ⟨p, hp, -⟩
    cases hr.symm.trans hp
  | some entry =>
    refine Leads.get ((findInode_iff _ _).bind ?_)
    rintro r _ ⟨rfl, hmem⟩
    cases r with
    | some i =>
      refine (setInode_eq i _).bind ?_
      rintro _ _ rfl
      refine (lost_apart.fitInode i).bind fun j u hu => ?_
      refine Leads.bind (R := fun _ v => v.lost = entry.buf :: s.lost) (Leads.modify (congrArg (entry.buf :: ·) hu)) fun _ v hv => ?_
      exact Leads.pure ⟨w, hw, .inl ⟨entry, hr, hmem.1 rfl, hv⟩⟩
    | none =>
      refine Leads.demand fun k _ => (isoMakeInode_lost k entry).bind fun i u hu => (lost_apart.fitInode i).bind fun j v hv => ?_
      refine Leads.pure ⟨w, hw, .inr ⟨?_, hv.trans hu⟩⟩
      rintro ⟨p, hp, hin⟩
      cases hr.symm.trans hp
      exact Bool.noConfusion (hmem.2 hin)

theorem tidy_iff {refs : List Ino} (h : Ledger s.base refs [] t) : Tidy s t ↔ ∀ b, t.lost.count b = s.lost.count b := by
  have hb : ∀ b, (t.bufs b : Int) = (s.bufs b - s.inodeBufs b - s.lost.count b : Int) + t.inodeBufs b + (0 : Nat) + t.lost.count b := h.bufs
  refine forall_congr' fun b => ?_
  have := hb b
  omega

/-- `iso_find_entry` does what it is to do in a directory that is fit for it and in no other; where it does, `iso_namei` leaves the buffers
in order exactly if what it finds is not in memory. -/
theorem iso_lookup (hdesc : (s.slot dir).desc = some desc) (hext : Extent s (s.slot dir).dev (s.isoLba desc) (s.isoSize desc) blocks)
    (hread : ∀ i < blocks.length, s.faulty (s.reads + i) = false) (path : List Char) :
    (Looked s dir desc path blocks ↔ Findable s dir desc path blocks) ∧
    ∀ r t, s.InOrder → isoNamei dir path s = .ok (r, t) →
      ((Looked s dir desc path blocks ∧ Tidy s t) ↔
        Findable s dir desc path blocks ∧ ¬ s.Cached (blocks.flatten.find? (s.bearer path))) := by
  have hlook : Looked s dir desc path blocks ↔ _ := looked_iff hdesc hext hread
  refine ⟨hlook, fun r t hs hrun => ?_⟩
  rw [hlook]
  refine and_congr_right fun hfind => ?_
  have hledger := isoNamei_leads hs.rooted hs.ledger r t hrun
  obtain ⟨w, hw, hlost⟩ := isoNamei_lost hdesc r t hrun
  have hresult : w.result = blocks.flatten.find? (s.bearer path) := by
    have heq := takes_eq.2 hfind.alike
    have hends := hfind.ends.imp_left (exists_of_result (congrArg Scan.result heq).symm)
    rw [show signed32 (s.isoSize desc) = s.isoSize desc from if_pos hfind.size] at hw
    rw [(scans_iff hext hends w).1 hw, heq]
    exact (expected_within _ _).result
  rw [tidy_iff hledger, ← hresult]
  rcases hlost with ⟨p, hp, hin, hlost⟩ | ⟨hnot, hlost⟩
  · refine iff_of_false (fun h => ?_) fun h => h ⟨p, hp, hin⟩
    have := h p.buf
    rw [hlost, List.count_cons_self] at this
    omega
  · exact iff_of_true (fun b => by rw [hlost]) hnot

/-! ## Two directories -/

theorem Packed.next {b : Buf} {limit off n : Nat} {l : List Ptr} (hlen : s.isoLength ⟨b, off⟩ = n) (hpos : n ≠ 0) (hend : off + n ≤ limit)
    (hrest : Packed s b limit (off + n) l) : Packed s b limit off (⟨b, off⟩ :: l) := by
  subst hlen
  exact .record hpos hend hrest

/-- The bytes of a record for what begins at block `lba` and has 2048 bytes. -/
def recordBytes (length lba : Nat) (name : List Nat) : List Nat :=
  ([length, 0, lba, 0, 0, 0, 0, 0, 0, 0, 0, 8] ++ List.replicate 20 0 ++ [name.length] ++ name ++ List.replicate 256 0).take length

def isoState (directory : List Nat) : State where
  slot i :=
    if i = 0 then ⟨.iso9660, 2, 20, 4, 0, 0x416D, some ⟨2, 16, 2048⟩, some ⟨⟨2, 16, 2048⟩, 156⟩, some 0, some .iso9660⟩
    else ⟨.none, -100, 0, 0, 0, 0, none, none, none, none⟩
  super k := if k = 0 then ⟨.iso9660, 2, none, some 0, some 0, [0]⟩ else ⟨.none, -100, none, none, none, []⟩
  bufs b := if b = ⟨2, 16, 2048⟩ then 2 else 0
  data b n :=
    if b = ⟨2, 16, 2048⟩ then BitVec.ofNat 8 ((List.replicate 156 0 ++ recordBytes 34 20 [0]).getD n 0)
    else if b = ⟨2, 20, 2048⟩ then BitVec.ofNat 8 (directory.getD n 0)
    else 0
  task := ⟨0, 0, 0, 0, 0o22⟩
  faulty _ := false
  reads := 0
  patience := 64
  lost := []
  loose := false

theorem isoState_inOrder (directory : List Nat) : (isoState directory).InOrder where
  free := by
    show ∀ i : Ino, ((isoState []).slot i).type = .none → ((isoState []).slot i).count = 0
    decide +kernel
  listed := by
    show ∀ k i, i ∈ ((isoState []).super k).inodeList → ((isoState []).slot i).type ≠ .none
    decide +kernel
  held := by
    show ∀ i, (isoState []).roots.holds i ≤ ((isoState []).slot i).count
    decide +kernel

def stateI : State := isoState (recordBytes 34 20 [0] ++ recordBytes 34 20 [1] ++ recordBytes 40 30 [65, 46, 84, 88, 84, 59, 49])

def stateF : State := isoState (recordBytes 34 20 [0] ++ recordBytes 34 20 [1] ++
  (List.range 9).flatMap fun j => recordBytes 220 (30 + j) [70, 48 + j, 46, 59, 49])

def recordsAt (offsets : List Nat) : List Ptr := offsets.map fun off => ⟨⟨2, 20, 2048⟩, off⟩

theorem extentI : Extent stateI 2 20 2048 [recordsAt [0, 34, 68]] := by
  refine .cons (by decide) ?_ .nil
  iterate 2 refine Packed.next (n := 34) (by decide +kernel) (by decide) (by decide) ?_
  refine Packed.next (n := 40) (by decide +kernel) (by decide) (by decide) (.pad (by decide) fun j hj _ => ?_)
  show BitVec.ofNat 8 (getD _ j 0) = 0
  rw [getD_eq_getElem?_getD, getElem?_eq_none]
  · rfl
  · exact hj

theorem extentF : Extent stateF 2 20 2048 [recordsAt [0, 34, 68, 288, 508, 728, 948, 1168, 1388, 1608, 1828]] := by
  refine .cons (by decide) ?_ .nil
  iterate 2 refine Packed.next (n := 34) (by decide +kernel) (by decide) (by decide) ?_
  iterate 9 refine Packed.next (n := 220) (by decide +kernel) (by decide) (by decide) ?_
  exact .full

/-- `a.txt` is found. -/
theorem iso_lookup_file : Looked stateI 0 ⟨⟨2, 16, 2048⟩, 156⟩ ['a', '.', 't', 'x', 't'] [recordsAt [0, 34, 68]] := by
  refine ((iso_lookup rfl ?_ (fun _ _ => rfl) _).1).2 ⟨by decide +kernel, .inl (by decide +kernel), by decide +kernel⟩
  exact extentI

/-- The records fill the block: a name that is not there is looked for in the next one. -/
theorem full_block_passed : stateF.InOrder ∧
    Extent stateF 2 20 2048 [recordsAt [0, 34, 68, 288, 508, 728, 948, 1168, 1388, 1608, 1828]] ∧
    ¬ Looked stateF 0 ⟨⟨2, 16, 2048⟩, 156⟩ ['z'] [recordsAt [0, 34, 68, 288, 508, 728, 948, 1168, 1388, 1608, 1828]] := by
  refine ⟨isoState_inOrder _, extentF, fun h => ?_⟩
  have hext := extentF
  rcases ((looked_iff rfl hext fun _ _ => rfl).1 h).ends with hnamed | hpad
  · revert hnamed
    decide +kernel
  · have hend := (hpad 0 _ rfl).1
    revert hend
    decide +kernel

end Onix.Namei
