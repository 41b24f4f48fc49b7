/-
`minix_open` when it fails. A lookup writes nothing, and neither does taking and giving back an inode; the permission on a file that is
there is looked at before anything is done to it. A file that is not there is made first: its entry, its number and its record are written,
and if the task may not open it as it asks to, they stay.
-/
import Onix.Namei.Balance

namespace Onix.Namei

open Onix.Lib
open Walk (matchName MINIX1_NAME_LEN)

variable {s t u : State} {dir inode i : Ino} {minode p : Ptr} {name : List Char} {dev : Int} {flags mode mask nr k n v : Nat} {create : Bool}

/-! ## What the call depends on -/

def State.indexed (s : State) (dev : Int) : Nat → Nat → Nat → Ptr → Nat → Nat
  | 0, _, _, array, index => s.u16 array (2 * index)
  | level + 1, block, divider, array, index =>
    if s.u16 array (2 * index) = 0 then 0
    else indexed s dev level (block % divider) (divider / BLOCK_INDEXES) ⟨⟨dev, s.u16 array (2 * index), BLOCK_SIZE⟩, 0⟩ (block / divider)

def State.zoneAt (s : State) (dev : Int) (minode : Ptr) (block : Nat) : Nat :=
  let array : Ptr := ⟨minode.buf, minode.off + 14⟩
  if block < DIRECT_BLOCK then s.indexed dev 0 block 1 array block
  else
    let block := block - DIRECT_BLOCK
    if block < INDIRECT1_BLOCK then s.indexed dev 1 block 1 array DIRECT_BLOCK
    else s.indexed dev 2 (block - INDIRECT1_BLOCK) BLOCK_INDEXES array (DIRECT_BLOCK + 1)

def State.entryAt (s : State) (dev : Int) (minode : Ptr) (i : Nat) : Ptr :=
  ⟨⟨dev, s.zoneAt dev minode (i / BLOCK_DENTRIES), BLOCK_SIZE⟩, i % BLOCK_DENTRIES * 16⟩

def State.named (s : State) (name : List Char) (p : Ptr) : Bool :=
  ((matchName name (s.entryName p) MINIX1_NAME_LEN).filter fun _ => s.entryNr p ≠ 0).isSome

def State.Present (s : State) (dir : Ino) (name : List Char) : Prop :=
  ∃ minode, (s.slot dir).desc = some minode ∧ ∃ i < s.size minode / 16, s.named name (s.entryAt (s.slot dir).dev minode i) = true

def State.permits (s : State) (minode : Ptr) (mask : Nat) : Bool :=
  if s.nlinks minode = 0 then false
  else if s.task.uid = 0 then true
  else
    let mode :=
      if s.task.uid = s.uid minode then s.mode minode >>> 6
      else if s.task.gid = s.gid minode then s.mode minode >>> 3
      else s.mode minode
    mode &&& mask &&& 7 = mask

def truncFlags (flags : Nat) : Nat := if flags &&& O_TRUNC ≠ 0 ∧ flags &&& O_ACCMODE = O_RDONLY then flags ||| O_RDWR else flags

def Task.newMode (task : Task) (mode : Nat) : Nat := (mode &&& masked task.umask) ||| IFREG

/-- Whether a task may do what it asks for with a file it has just made; the record has room for small numbers only. -/
def Task.owns (task : Task) (mode mask : Nat) : Bool :=
  if task.uid = 0 then true
  else
    let bits := if task.uid = task.uid % 65536 then mode >>> 6 else if task.gid = task.gid % 256 then mode >>> 3 else mode
    bits &&& mask &&& 7 = mask

/-- A file is made that may not be opened: there is none, one is to be made, the directory may be written, and the mode of the new file
does not let the task open it. -/
structure Refused (s : State) (dir : Ino) (name : List Char) (flags mode : Nat) : Prop where
  absent : ¬ s.Present dir name
  creat : truncFlags flags &&& O_CREAT ≠ 0
  writable : ∃ minode, (s.slot dir).desc = some minode ∧ s.permits minode P_WRITE = true
  denied : s.task.owns (s.task.newMode mode) (accMode (truncFlags flags)) = false

def Met (s : State) (r : Int × Option Ino) (t : State) : Prop := (r.1 = 0 ↔ r.2.isSome = true) ∧ (r.1 ≠ 0 → t.data = s.data)

/-! ## Reading -/

/-- Neither the inodes in memory nor the task are changed. -/
structure Calm (s t : State) : Prop where
  slot : t.slot = s.slot
  task : t.task = s.task

structure Still (s t : State) : Prop extends Calm s t where
  data : t.data = s.data

theorem Calm.refl (s : State) : Calm s s := ⟨rfl, rfl⟩

theorem Calm.trans (h : Calm s t) (h2 : Calm t u) : Calm s u := ⟨h2.slot.trans h.slot, h2.task.trans h.task⟩

theorem Still.refl (s : State) : Still s s := ⟨.refl s, rfl⟩

theorem Still.trans (h : Still s t) (h2 : Still t u) : Still s u := ⟨h.toCalm.trans h2.toCalm, h2.data.trans h.data⟩

theorem getBuf_still (b : Buf) : Leads (getBuf b) s fun _ => Still s := Leads.modify ⟨⟨rfl, rfl⟩, rfl⟩

theorem bread_still (dev : Int) (block size : Nat) : Leads (bread dev block size) s fun r t =>
    Still s t ∧ ∀ b, r = some b → b = ⟨dev, block, size⟩ := by
  refine Leads.get (Leads.bind (R := fun _ => Still s) (Leads.set ⟨⟨rfl, rfl⟩, rfl⟩) fun _ t ht => ?_)
  refine Leads.ite (fun _ => Leads.pure ⟨ht, nofun⟩) fun _ => (getBuf_still _).bind fun _ u hu => Leads.pure ⟨ht.trans hu, fun b hb => ?_⟩
  exact (Option.some.inj hb).symm

theorem breadSure_still {α : Type} {e : Stop} {Q : α → State → Prop} {f : Buf → Prog α} {block size : Nat}
    (hf : ∀ t, Still s t → Leads (f ⟨dev, block, size⟩) t Q) : Leads (bread dev block size >>= fun b => demand e b >>= f) s Q := by
  refine (bread_still dev block size).bind fun r t ⟨ht, hr⟩ => Leads.demand fun b hb => ?_
  cases hr b hb
  exact hf t ht

theorem brelse_still (b : Option Buf) : Leads (brelse b) s fun _ => Still s := by
  refine (brelse_eq b).mono ?_
  rintro _ t ⟨-, rfl⟩
  exact ⟨⟨rfl, rfl⟩, rfl⟩

/-! ### Writing -/

theorem put_calm (p : Ptr) (k : Nat) (l : List (BitVec 8)) : Leads (put p k l) s fun _ => Calm s := Leads.modify ⟨rfl, rfl⟩

theorem allocLoop_calm (a : Minix.Area) (n : Nat) : ∀ (i : Nat) (old : Option Buf) (s : State),
    Leads (allocLoop dev a n i old) s fun _ => Calm s := by
  induction n with
  | zero => exact fun _ _ s => Leads.pure (.refl s)
  | succ n ih =>
    intro i old s
    refine Leads.bind (R := fun _ => Calm s) (Leads.modify ⟨rfl, rfl⟩) fun _ t ht => ?_
    refine breadSure_still fun u hu => Leads.get (ofBitmap_leads fun r => ?_)
    have hu := ht.trans hu.toCalm
    split
    · exact (ih _ _ _).mono fun _ _ h => hu.trans h
    · exact Leads.ensure fun _ => Leads.bind (R := fun _ => Calm s) (Leads.set ⟨hu.slot, hu.task⟩) fun _ v hv => Leads.pure hv

theorem alloc_calm (super : Option SuperId) (area : Minix.Desc → Minix.Area) : Leads (alloc super area) s fun _ => Calm s := by
  refine Leads.get (Leads.demand fun k _ => Leads.demand fun desc _ => (allocLoop_calm _ _ _ _ _).bind fun r t ht => ?_)
  exact (brelse_still _).bind fun _ u hu => Leads.pure (ht.trans hu.toCalm)

theorem fillIndex_calm (array : Ptr) (index : Nat) : Leads (fillIndex inode create array index) s fun _ t =>
    Calm s t ∧ (create = false → t = s) := by
  refine Leads.get (Leads.onlyIf (fun hc => ?_) fun _ => ⟨.refl s, fun _ => rfl⟩)
  refine (alloc_calm _ _).bind fun nr t ht => (put_calm _ _ _).mono fun _ u hu => ⟨ht.trans hu, fun hf => ?_⟩
  rw [hf] at hc
  exact absurd hc.2 (by decide)

/-! ### The blocks of a directory -/

theorem u16_congr (h : t.data = s.data) (p : Ptr) (k : Nat) : t.u16 p k = s.u16 p k := by
  unfold State.u16 State.u8
  rw [h]

theorem indexed_congr (h : t.data = s.data) (dev : Int) (level : Nat) : ∀ (block divider : Nat) (array : Ptr) (index : Nat),
    t.indexed dev level block divider array index = s.indexed dev level block divider array index := by
  induction level with
  | zero => exact fun _ _ array index => u16_congr h array (2 * index)
  | succ level ih =>
    intro block divider array index
    unfold State.indexed
    rw [u16_congr h, ih]

theorem zoneAt_congr (h : t.data = s.data) (dev : Int) (minode : Ptr) (block : Nat) : t.zoneAt dev minode block = s.zoneAt dev minode block := by
  unfold State.zoneAt
  simp only [indexed_congr h]

theorem entryAt_congr (h : t.data = s.data) (dev : Int) (minode : Ptr) (i : Nat) : t.entryAt dev minode i = s.entryAt dev minode i := by
  unfold State.entryAt
  rw [zoneAt_congr h]

theorem named_congr (h : t.data = s.data) (name : List Char) (p : Ptr) : t.named name p = s.named name p := by
  unfold State.named State.entryName State.chars State.entryNr State.u16 State.u8
  rw [h]

theorem reckon_calm (level : Nat) : ∀ (block divider : Nat) (array : Ptr) (index : Nat) (buf : Buf) (s : State),
    Leads (reckon inode create level block divider array index buf) s fun nr t =>
      Calm s t ∧ (create = false → Still s t ∧ nr = s.indexed (s.slot inode).dev level block divider array index) := by
  induction level with
  | zero =>
    intro block divider array index buf s
    refine (fillIndex_calm array index).bind fun _ t ⟨ht, hs⟩ => (brelse_still _).bind fun _ u hu => Leads.get (Leads.pure ?_)
    refine ⟨ht.trans hu.toCalm, fun hc => ?_⟩
    cases hs hc
    exact ⟨hu, u16_congr hu.data array (2 * index)⟩
  | succ level ih =>
    intro block divider array index buf s
    refine (fillIndex_calm array index).bind fun _ t ⟨ht, hs⟩ => (brelse_still _).bind fun _ u hu => Leads.get ?_
    have hcalm := ht.trans hu.toCalm
    refine Leads.ite (fun h0 => Leads.pure ⟨hcalm, fun hc => ?_⟩) fun h0 => breadSure_still fun v hv => ?_
    · cases hs hc
      refine ⟨hu, ?_⟩
      unfold State.indexed
      rw [← u16_congr hu.data, if_pos h0]
    · refine (ih _ _ _ _ _ v).mono fun nr w ⟨hw, hq⟩ => ⟨(hcalm.trans hv.toCalm).trans hw, fun hc => ?_⟩
      obtain ⟨hstill, hnr⟩ := hq hc
      cases hs hc
      refine ⟨(hu.trans hv).trans hstill, hnr.trans ?_⟩
      rw [indexed_congr (hu.trans hv).data, (hcalm.trans hv.toCalm).slot, hu.slot]
      conv => rhs; unfold State.indexed
      rw [← u16_congr hu.data array, if_neg h0]

theorem minixBmap_calm (block : Nat) : Leads (minixBmap inode block create) s fun nr t => Calm s t ∧ (create = false → Still s t ∧
    ∀ minode, (s.slot inode).desc = some minode → nr = s.zoneAt (s.slot inode).dev minode block) := by
  refine Leads.ensure fun _ => Leads.get (Leads.demand fun minode hdesc => Leads.demand fun buf _ => (getBuf_still buf).bind fun _ t ht => ?_)
  have hdone : ∀ {level block' divider index : Nat},
      (s.zoneAt (s.slot inode).dev minode block = s.indexed (s.slot inode).dev level block' divider ⟨minode.buf, minode.off + 14⟩ index) →
      Leads (reckon inode create level block' divider ⟨minode.buf, minode.off + 14⟩ index buf) t fun nr t => Calm s t ∧ (create = false →
        Still s t ∧ ∀ minode, (s.slot inode).desc = some minode → nr = s.zoneAt (s.slot inode).dev minode block) := by
    intro level block' divider index hz
    refine (reckon_calm level block' divider _ index buf t).mono fun nr u ⟨hu, hq⟩ => ⟨ht.toCalm.trans hu, fun hc => ?_⟩
    obtain ⟨hstill, hnr⟩ := hq hc
    refine ⟨ht.trans hstill, fun m hm => ?_⟩
    cases hdesc.symm.trans hm
    rw [hnr, hz, ht.slot, indexed_congr ht.data]
  refine Leads.ite (fun h1 => hdone ?_) fun h1 => Leads.ite (fun h2 => hdone ?_) fun h2 => Leads.ensure fun _ => hdone ?_
  · unfold State.zoneAt
    exact if_pos h1
  · unfold State.zoneAt
    exact (if_neg h1).trans (if_pos h2)
  · unfold State.zoneAt
    exact (if_neg h1).trans (if_neg h2)

theorem turn_calm (i : Nat) : Leads (seek.turn dir create i) s fun p t => Calm s t ∧ (create = false → Still s t ∧ p.off = 0 ∧
    ∀ minode, (s.slot dir).desc = some minode → p = ⟨⟨(s.slot dir).dev, s.zoneAt (s.slot dir).dev minode (i / BLOCK_DENTRIES), BLOCK_SIZE⟩, 0⟩) := by
  refine (minixBmap_calm _).bind fun block t ⟨ht, hq⟩ => Leads.ensure fun _ => Leads.get (breadSure_still fun u hu => Leads.pure ?_)
  refine ⟨ht.trans hu.toCalm, fun hc => ⟨(hq hc).1.trans hu, rfl, fun m hm => ?_⟩⟩
  rw [← (hq hc).2 m hm, ht.slot]

/-- The pointer of a search before it looks at entry `i`: to the entry, or past its block, or to nothing yet. -/
def State.Cursor (s : State) (dev : Int) (minode : Ptr) (i : Nat) : Option Ptr → Prop
  | none => i % BLOCK_DENTRIES = 0
  | some p => if p.off < BLOCK_SIZE then p = s.entryAt dev minode i else i % BLOCK_DENTRIES = 0

theorem cursor_some : s.Cursor dev minode k (some p) ↔ if p.off < BLOCK_SIZE then p = s.entryAt dev minode k else k % BLOCK_DENTRIES = 0 := .rfl

theorem seek_calm (create : Bool) (i : Nat) (entry : Option Ptr) : Leads (seek dir create i entry) s fun p t => Calm s t ∧ (create = false → Still s t ∧
    ∀ minode, (s.slot dir).desc = some minode → s.Cursor (s.slot dir).dev minode i entry → p = s.entryAt (s.slot dir).dev minode i) := by
  have hturn : ∀ {m : Ptr} {p : Ptr}, p = ⟨⟨(s.slot dir).dev, s.zoneAt (s.slot dir).dev m (i / BLOCK_DENTRIES), BLOCK_SIZE⟩, 0⟩ →
      i % BLOCK_DENTRIES = 0 → p = s.entryAt (s.slot dir).dev m i := by
    rintro m p rfl h0
    unfold State.entryAt
    rw [h0, zero_mul]
  cases entry with
  | none =>
    refine (turn_calm i).mono fun p t ⟨ht, hq⟩ => ⟨ht, fun hc => ⟨(hq hc).1, fun m hm hcur => ?_⟩⟩
    exact hturn ((hq hc).2.2 m hm) hcur
  | some p =>
    refine Leads.ite (fun hlt => Leads.pure ⟨.refl s, fun _ => ⟨.refl s, fun m _ hcur => ?_⟩⟩) fun hge => ?_
    · rw [cursor_some, if_pos hlt] at hcur
      exact hcur
    · refine (brelse_still _).bind fun _ t ht => (turn_calm i).mono fun p u ⟨hu, hq⟩ => ?_
      refine ⟨ht.toCalm.trans hu, fun hc => ⟨ht.trans (hq hc).1, fun m hm hcur => ?_⟩⟩
      rw [cursor_some, if_neg hge] at hcur
      have hp := (hq hc).2.2 m (by rw [ht.slot]; exact hm)
      rw [ht.slot, zoneAt_congr ht.data] at hp
      exact hturn hp hcur

theorem cursor_next (s : State) (dev : Int) (minode : Ptr) (i : Nat) : s.Cursor dev minode (i + 1) (some (s.entryAt dev minode i).next) := by
  rw [cursor_some]
  have hoff : (s.entryAt dev minode i).next.off = i % 64 * 16 + 16 := rfl
  by_cases hlt : (s.entryAt dev minode i).next.off < BLOCK_SIZE
  · rw [if_pos hlt]
    unfold BLOCK_SIZE at hlt
    have hblock : (i + 1) / BLOCK_DENTRIES = i / BLOCK_DENTRIES := by
      unfold BLOCK_DENTRIES
      omega
    have hplace : (i + 1) % BLOCK_DENTRIES * 16 = i % 64 * 16 + 16 := by
      unfold BLOCK_DENTRIES
      omega
    unfold State.entryAt
    rw [hblock, hplace]
    rfl
  · rw [if_neg hlt]
    unfold BLOCK_SIZE at hlt
    unfold BLOCK_DENTRIES
    omega

theorem cursor_congr (h : t.data = s.data) (dev : Int) (minode : Ptr) (i : Nat) (entry : Option Ptr) :
    t.Cursor dev minode i entry ↔ s.Cursor dev minode i entry := by
  unfold State.Cursor
  cases entry with
  | none => exact .rfl
  | some p => rw [entryAt_congr h]

theorem findLoop_calm (minode : Ptr) (n : Nat) : ∀ (i : Nat) (entry : Option Ptr) (s : State), (s.slot dir).desc = some minode →
    s.Cursor (s.slot dir).dev minode i entry → Leads (findLoop dir name n i entry) s fun r t =>
      Still s t ∧ (r.isSome = true ↔ ∃ j < n, s.named name (s.entryAt (s.slot dir).dev minode (i + j)) = true) := by
  induction n with
  | zero =>
    intro i entry s _ _
    refine (brelse_still _).bind fun _ t ht => Leads.pure ⟨ht, iff_of_false nofun ?_⟩
    rintro ⟨j, hj, -⟩
    exact absurd hj (Nat.not_lt_zero j)
  | succ n ih =>
    intro i entry s hdesc hcur
    refine (seek_calm false i entry).bind fun p t ⟨_, hq⟩ => Leads.get ?_
    obtain ⟨ht, hp⟩ := hq rfl
    have hp := hp minode hdesc hcur
    have hname : ((matchName name (t.entryName p) MINIX1_NAME_LEN).filter fun _ => t.entryNr p ≠ 0).isSome =
        s.named name (s.entryAt (s.slot dir).dev minode i) := by
      rw [← hp, ← named_congr ht.data]
      rfl
    split
    · rename_i next hnext
      rw [hnext] at hname
      exact Leads.pure ⟨ht, iff_of_true rfl ⟨0, Nat.succ_pos n, hname.symm⟩⟩
    · rename_i hnone
      rw [hnone] at hname
      have hcur' : t.Cursor (t.slot dir).dev minode (i + 1) (some p.next) := by
        rw [cursor_congr ht.data, ht.slot, hp]
        exact cursor_next ..
      refine (ih (i + 1) (some p.next) t (by rw [ht.slot]; exact hdesc) hcur').mono fun r u ⟨hu, hr⟩ => ⟨ht.trans hu, hr.trans ?_⟩
      rw [ht.slot]
      constructor
      · rintro ⟨j, hj, hj'⟩
        rw [entryAt_congr ht.data, named_congr ht.data, add_assoc, add_comm 1 j] at hj'
        exact ⟨j + 1, Nat.succ_lt_succ hj, hj'⟩
      · rintro ⟨j, hj, hj'⟩
        cases j with
        | zero =>
          rw [add_zero, ← hname] at hj'
          cases hj'
        | succ j =>
          refine ⟨j, Nat.lt_of_succ_lt_succ hj, ?_⟩
          rw [entryAt_congr ht.data, named_congr ht.data, add_assoc, add_comm 1 j]
          exact hj'

theorem findEntry_still : Leads (findEntry dir name) s fun r t => Still s t ∧ (r.isSome = true ↔ s.Present dir name) := by
  refine Leads.get (Leads.demand fun minode hdesc => Leads.ensure fun _ => ?_)
  refine (findLoop_calm minode _ 0 none s hdesc rfl).mono fun r t ⟨ht, hr⟩ => ⟨ht, hr.trans ?_⟩
  simp only [zero_add]
  constructor
  · rintro ⟨j, hj, h⟩
    exact ⟨minode, hdesc, j, hj, h⟩
  · rintro ⟨m, hm, j, hj, h⟩
    cases hdesc.symm.trans hm
    exact ⟨j, hj, h⟩

/-! ## Inodes -/

/-- What taking and giving back inodes leaves alone: the blocks, the task, and the operations of an inode while it has any. -/
structure Kept (s t : State) : Prop where
  data : t.data = s.data
  task : t.task = s.task
  op : ∀ i, (t.slot i).op = (s.slot i).op ∨ (t.slot i).op = none ∨ (t.slot i).op = some .minix

theorem Kept.trans (h : Kept s t) (h2 : Kept t u) : Kept s u := by
  refine ⟨h2.data.trans h.data, h2.task.trans h.task, fun i => ?_⟩
  rcases h2.op i with he | he
  · rw [he]
    exact h.op i
  · exact .inr he

theorem Still.kept (h : Still s t) : Kept s t := ⟨h.data, h.task, fun i => .inl (by rw [h.slot])⟩

theorem Kept.refl (s : State) : Kept s s := (Still.refl s).kept

theorem setInode_kept {f : Slot → Slot} (hf : ∀ x, (f x).op = x.op ∨ (f x).op = none ∨ (f x).op = some .minix) :
    Leads (setInode i f) s fun _ => Kept s := by
  refine Leads.modify ⟨rfl, rfl, fun j => ?_⟩
  by_cases hj : j = i
  · subst hj
    rw [Ledger.setSlot_self]
    exact hf _
  · exact .inl (by rw [Ledger.setSlot_ne _ _ hj])

theorem hold_kept : Leads (hold i) s fun _ => Kept s := setInode_kept fun _ => .inl rfl

theorem listRemove_kept : Leads (listRemove i) s fun _ => Kept s := by
  refine (listRemove_eq i).mono ?_
  rintro _ t rfl
  exact ⟨rfl, rfl, fun _ => .inl rfl⟩

theorem putFreeInode_kept : Leads (putFreeInode i) s fun _ => Kept s := by
  refine Leads.ensure fun _ => Leads.get (Leads.ensure fun _ => Leads.bind (setInode_kept fun _ => .inl rfl) fun _ t ht => ?_)
  exact Leads.get (Leads.ensure_last fun _ => ht)

theorem close_kept : Leads (close i) s fun _ => Kept s := by
  refine Leads.bind (setInode_kept fun _ => .inl rfl) fun _ t ht => Leads.get (Leads.ite (fun _ => Leads.pure ht) fun _ => ?_)
  refine (brelse_still _).bind fun _ u hu => listRemove_kept.bind fun _ v hv => ?_
  refine Leads.bind (setInode_kept fun _ => .inr (.inl rfl)) fun _ w hw => putFreeInode_kept.mono fun _ x hx => ?_
  exact (((ht.trans hu.kept).trans hv).trans hw).trans hx

theorem iput_kept (x : Option Ino) : Leads (iput x) s fun _ => Kept s := by
  cases x with
  | none => exact Leads.pure (.refl s)
  | some i =>
    refine Leads.get (Leads.demand fun op _ => ?_)
    cases op with
    | minix => exact Leads.get (Leads.ensure fun _ => Leads.demand fun _ _ => close_kept)
    | iso9660 => exact close_kept
    | none => exact Leads.fail
    | pipe => exact Leads.fail
    | socket => exact Leads.fail

theorem fitInode_kept : Leads (fitInode i) s fun _ => Kept s := by
  refine Leads.get (Leads.ite (fun _ => Leads.pure (.refl s)) fun _ => Leads.demand fun k _ => (iput_kept _).bind fun _ t ht => ?_)
  exact Leads.get (Leads.demand fun r _ => hold_kept.bind fun _ u hu => Leads.pure (ht.trans hu))

theorem iget_kept (dev : Int) (nr : Nat) : Leads (iget dev nr) s fun _ => Kept s := by
  have hfind : Leads (findInode dev nr) s fun _ t => t = s := Leads.get (Leads.demand fun k _ => Leads.pure rfl)
  refine hfind.bind ?_
  rintro r t rfl
  cases r with
  | some i => exact hold_kept.bind fun _ u hu => fitInode_kept.mono fun _ v hv => hu.trans hv
  | none =>
    refine Leads.get (Leads.demand fun k _ => Leads.demand fun desc _ => Leads.ensure fun _ => ?_)
    have hfree : Leads getFreeInode t fun _ u => u = t := Leads.get (Leads.demand fun i _ => Leads.ensure fun _ => Leads.pure rfl)
    refine hfree.bind ?_
    rintro i _ rfl
    refine breadSure_still fun u hu => Leads.get (Leads.bind (setInode_kept fun _ => .inr (.inr rfl)) fun _ v hv => ?_)
    refine Leads.bind (R := fun _ => Kept v) (Leads.get (Leads.ensure fun _ => Leads.set ⟨rfl, rfl, fun _ => .inl rfl⟩)) fun _ w hw => ?_
    exact fitInode_kept.mono fun _ x hx => ((hu.kept.trans hv).trans hw).trans hx

/-! ## Permissions -/

theorem minixPermission_eq : Leads (minixPermission inode mask) s fun ok t =>
    t = s ∧ ∃ minode, (s.slot inode).desc = some minode ∧ ok = s.permits minode mask := by
  refine Leads.get (Leads.demand fun minode hdesc => ?_)
  refine Leads.ite (fun h0 => ?_) fun h0 => Leads.ite (fun h1 => ?_) fun h1 => ?_
  · exact Leads.pure ⟨rfl, minode, hdesc, (if_pos h0).symm⟩
  · exact Leads.pure ⟨rfl, minode, hdesc, ((if_neg h0).trans (if_pos h1)).symm⟩
  · exact Leads.pure ⟨rfl, minode, hdesc, ((if_neg h0).trans (if_neg h1)).symm⟩

theorem opPermission_eq : Leads (opPermission dir inode mask) s fun ok t => t = s ∧ ((s.slot dir).op = some .minix →
    ∃ minode, (s.slot inode).desc = some minode ∧ ok = s.permits minode mask) := by
  refine Leads.get (Leads.demand fun op hop => ?_)
  cases op with
  | minix => exact minixPermission_eq.mono fun _ _ ⟨ht, hok⟩ => ⟨ht, fun _ => hok⟩
  | iso9660 => exact Leads.pure ⟨rfl, fun h => nomatch hop.symm.trans h⟩
  | none => exact Leads.fail
  | pipe => exact Leads.fail
  | socket => exact Leads.fail

/-! ## The end of `minix_open` -/

theorem openInode_error : Leads (openInode dir inode flags) s fun r t => ∀ e, r = .error e → e = EOF ∧ t.data = s.data := by
  have herr : ∀ e, (Except.error EOF : Except Int Unit) = .error e → e = EOF ∧ s.data = s.data := fun e he => ⟨(Except.error.inj he).symm, rfl⟩
  refine opPermission_eq.bind ?_
  rintro ok _ ⟨rfl, -⟩
  refine Leads.ite (fun _ => Leads.pure herr) fun _ => Leads.get (Leads.ite (fun _ => Leads.pure herr) fun _ => ?_)
  refine Leads.ite (fun _ => Leads.demand fun op _ => ?_) fun _ => Leads.pure nofun
  cases op with
  | minix => exact Leads.bind (R := fun _ _ => True) (fun _ _ _ => trivial) fun _ _ _ => Leads.pure nofun
  | iso9660 => exact Leads.pure nofun
  | none => exact Leads.fail
  | pipe => exact Leads.fail
  | socket => exact Leads.fail

theorem openDone_eq (buf : Buf) (r : Except Int Unit) : Leads (openDone buf inode r) s fun x t =>
    (r = .ok () → x = (0, some inode)) ∧ ∀ e, r = .error e → x = (e, none) ∧ t.data = s.data := by
  refine (brelse_still _).bind fun _ t ht => ?_
  cases r with
  | ok _ => exact Leads.pure ⟨fun _ => rfl, nofun⟩
  | error ret =>
    refine (iput_kept _).bind fun _ u hu => Leads.pure ⟨nofun, fun e he => ?_⟩
    cases he
    exact ⟨rfl, hu.data.trans ht.data⟩

theorem open_found {buf : Buf} (h : s.data = u.data) : Leads (do
    let r ← openInode dir inode flags
    openDone buf inode r) s fun r t => Met u r t := by
  refine openInode_error.bind fun r t ht => (openDone_eq buf r).mono fun x v ⟨hok, herr⟩ => ?_
  cases r with
  | ok _ =>
    rw [hok rfl]
    exact ⟨iff_of_true rfl rfl, fun hne => absurd rfl hne⟩
  | error e =>
    obtain ⟨hx, hv⟩ := herr e rfl
    obtain ⟨rfl, hdata⟩ := ht e rfl
    rw [hx]
    exact ⟨iff_of_false (by decide) nofun, fun _ => (hv.trans hdata).trans h⟩

/-! ## The file that is made -/

theorem addLoop_calm (minode : Ptr) (n : Nat) : ∀ (i : Nat) (entry : Option Ptr) (s : State),
    Leads (addLoop dir minode name n i entry) s fun _ => Calm s := by
  induction n with
  | zero => exact fun _ _ _ => Leads.fail
  | succ n ih =>
    intro i entry s
    refine (seek_calm true i entry).bind fun p t ⟨ht, _⟩ => Leads.get ?_
    refine Leads.bind (R := fun _ => Calm s) (Leads.onlyIf (fun _ => ?_) fun _ => ht) fun _ u hu => Leads.get ?_
    · refine (put_calm _ _ _).bind fun _ u hu => (put_calm _ _ _).bind fun _ v hv => Leads.demand fun _ _ => Leads.pure ?_
      exact (ht.trans hu).trans hv
    · refine Leads.ite (fun _ => (ih (i + 1) (some p.next) u).mono fun _ _ h => hu.trans h) fun _ => ?_
      exact (put_calm _ _ _).bind fun _ v hv => Leads.demand fun _ _ => Leads.pure (hu.trans hv)

theorem addEntry_calm : Leads (addEntry dir name) s fun _ => Calm s := by
  refine findEntry_still.bind fun r t ⟨ht, _⟩ => ?_
  cases r with
  | some found => exact Leads.pure ht.toCalm
  | none =>
    refine Leads.ensure fun _ => Leads.get (Leads.demand fun minode _ => ?_)
    exact (addLoop_calm minode _ 0 none t).mono fun _ _ h => ht.toCalm.trans h

/-! ### The record of a new inode -/

theorem store_u8 (s : State) (p : Ptr) (k j : Nat) (l : List (BitVec 8)) :
    (s.store p k l).u8 p j = if k ≤ j then (l.getD (j - k) (s.data p.buf (p.off + j))).toNat else s.u8 p j := by
  have hread : (s.store p k l).u8 p j =
      (if p.off + k ≤ p.off + j then l.getD (p.off + j - (p.off + k)) (s.data p.buf (p.off + j)) else s.data p.buf (p.off + j)).toNat := by
    unfold State.u8 State.store State.setData
    dsimp only
    rw [Function.update_self]
  rw [hread, Nat.add_sub_add_left]
  by_cases hkj : k ≤ j
  · rw [if_pos hkj, if_pos (Nat.add_le_add_left hkj _)]
  · rw [if_neg hkj, if_neg fun h => hkj (Nat.le_of_add_le_add_left h)]
    rfl

theorem store_u8_of_lt {p : Ptr} {j : Nat} {l : List (BitVec 8)} (h : j < k) : (s.store p k l).u8 p j = s.u8 p j := by
  rw [store_u8, if_neg (Nat.not_le_of_lt h)]

theorem store_u8_of_ge {p : Ptr} {j : Nat} {l : List (BitVec 8)} (h : k + l.length ≤ j) : (s.store p k l).u8 p j = s.u8 p j := by
  rw [store_u8, if_pos (le_trans (Nat.le_add_right _ _) h), List.getD_eq_getElem?_getD,
    List.getElem?_eq_none (Nat.le_sub_of_add_le' h)]
  rfl

def State.setMode (s : State) (i : Ino) (mode : Nat) : State := s.setSlot i { s.slot i with mode := mode }

theorem setMode_op (s : State) (i j : Ino) (mode : Nat) : ((s.setMode i mode).slot j).op = (s.slot j).op := by
  unfold State.setMode
  by_cases h : j = i
  · subst h
    rw [Ledger.setSlot_self]
  · rw [Ledger.setSlot_ne _ _ h]

theorem setMode_desc (s : State) (i j : Ino) (mode : Nat) : ((s.setMode i mode).slot j).desc = (s.slot j).desc := by
  unfold State.setMode
  by_cases h : j = i
  · subst h
    rw [Ledger.setSlot_self]
  · rw [Ledger.setSlot_ne _ _ h]

/-- What the record of a new file says, and that the task and the operations of the directory are what they were. -/
structure Fresh (owner : Task) (dir : Ino) (minode : Ptr) (t : State) : Prop where
  task : t.task = owner
  op : (t.slot dir).op = none ∨ (t.slot dir).op = some .minix
  nlinks : t.nlinks minode = 1
  uid : t.uid minode = owner.uid % 65536
  gid : t.gid minode = owner.gid % 256

def State.made (t : State) (i : Ino) (minode : Ptr) : State :=
  let u := (((t.store minode 0 (List.replicate 32 0)).store minode 0 (bytes16 (masked t.task.umask))).setMode i (masked t.task.umask))
  ((u.store minode 2 (bytes16 t.task.uid)).store minode 12 [BitVec.ofNat 8 t.task.gid]).store minode 13 [1]

theorem put_eq (p : Ptr) (k : Nat) (l : List (BitVec 8)) : Leads (put p k l) s fun _ t => t = s.store p k l := Leads.modify rfl

theorem newInode_eq (dev : Int) (nr : Nat) : Leads (newInode dev nr) s fun i t =>
    ∃ u minode, Kept s u ∧ (u.slot i).desc = some minode ∧ t = u.made i minode := by
  refine (iget_kept dev nr).bind fun i t ht => Leads.get (Leads.demand fun _ _ => Leads.demand fun minode hdesc => ?_)
  refine (put_eq _ _ _).bind ?_
  rintro _ _ rfl
  refine (put_eq _ _ _).bind ?_
  rintro _ _ rfl
  refine (setInode_eq i _).bind ?_
  rintro _ _ rfl
  refine (put_eq _ _ _).bind ?_
  rintro _ _ rfl
  refine (put_eq _ _ _).bind ?_
  rintro _ _ rfl
  refine (put_eq _ _ _).bind ?_
  rintro _ _ rfl
  exact Leads.pure ⟨t, minode, ht, hdesc, rfl⟩

theorem made_desc (t : State) (i j : Ino) (minode : Ptr) : ((t.made i minode).slot j).desc = (t.slot j).desc :=
  setMode_desc ((t.store minode 0 (List.replicate 32 0)).store minode 0 (bytes16 (masked t.task.umask))) i j _

theorem made_op (t : State) (i j : Ino) (minode : Ptr) : ((t.made i minode).slot j).op = (t.slot j).op :=
  setMode_op ((t.store minode 0 (List.replicate 32 0)).store minode 0 (bytes16 (masked t.task.umask))) i j _

theorem made_fresh (hs : Kept s t) (hop : (s.slot dir).op = some .minix) (i : Ino) (minode : Ptr) :
    Fresh s.task dir minode (t.made i minode) where
  task := hs.task
  op := by
    rw [made_op]
    rcases hs.op dir with h | h | h
    · exact .inr (h.trans hop)
    · exact .inl h
    · exact .inr h
  nlinks := by
    unfold State.nlinks State.made
    rw [store_u8, if_pos (le_refl 13)]
    rfl
  uid := by
    unfold State.uid State.u16 State.made
    rw [store_u8_of_lt (by decide), store_u8_of_lt (by decide), store_u8, if_pos (by decide)]
    rw [store_u8_of_lt (by decide), store_u8_of_lt (by decide), store_u8, if_pos (by decide)]
    show (BitVec.ofNat 8 t.task.uid).toNat + 256 * (BitVec.ofNat 8 (t.task.uid / 256)).toNat = s.task.uid % 65536
    rw [hs.task, BitVec.toNat_ofNat, BitVec.toNat_ofNat]
    omega
  gid := by
    unfold State.gid State.made
    rw [store_u8_of_lt (by decide), store_u8, if_pos (le_refl 12)]
    show (BitVec.ofNat 8 t.task.gid).toNat = s.task.gid % 256
    rw [hs.task, BitVec.toNat_ofNat]

theorem setMode_fresh {owner : Task} (h : Fresh owner dir minode t) (i : Ino) (mode : Nat) :
    Fresh owner dir minode ((t.setMode i mode).store minode 0 (bytes16 mode)) where
  task := h.task
  op := by
    have hop : ((t.setMode i mode).slot dir).op = (t.slot dir).op := setMode_op t i dir mode
    exact hop ▸ h.op
  nlinks := by
    unfold State.nlinks
    rw [store_u8_of_ge (show 0 + 2 ≤ 13 by decide)]
    exact h.nlinks
  uid := by
    unfold State.uid State.u16
    rw [store_u8_of_ge (show 0 + 2 ≤ 2 by decide), store_u8_of_ge (show 0 + 2 ≤ 2 + 1 by decide)]
    exact h.uid
  gid := by
    unfold State.gid
    rw [store_u8_of_ge (show 0 + 2 ≤ 12 by decide)]
    exact h.gid

theorem store_mode (s : State) (p : Ptr) (h : mode < 65536) : (s.store p 0 (bytes16 mode)).mode p = mode := by
  unfold State.mode State.u16
  rw [store_u8, if_pos (by decide), store_u8, if_pos (by decide)]
  show (BitVec.ofNat 8 mode).toNat + 256 * (BitVec.ofNat 8 (mode / 256)).toNat = mode
  rw [BitVec.toNat_ofNat, BitVec.toNat_ofNat]
  omega

theorem newMode_lt (task : Task) (mode : Nat) : task.newMode mode < 65536 := by
  have h1 : 0o777 &&& task.umask < 2 ^ 16 := lt_of_le_of_lt Nat.and_le_left (by decide)
  have h2 : 0o777 ^^^ (0o777 &&& task.umask) < 2 ^ 16 := Nat.xor_lt_two_pow (by decide) h1
  exact Nat.or_lt_two_pow (lt_of_le_of_lt Nat.and_le_right h2) (by decide)

theorem newMode_kind (task : Task) (mode : Nat) : isKind IFDIR (task.newMode mode) = false := by
  refine decide_eq_false fun h => ?_
  have hbit : (task.newMode mode &&& IFMT).testBit 15 = true := by
    unfold Task.newMode
    rw [Nat.testBit_and, Nat.testBit_or, show IFREG.testBit 15 = true from by decide, show IFMT.testBit 15 = true from by decide,
      Bool.or_true, Bool.and_true]
  rw [h] at hbit
  exact absurd hbit (by decide)

theorem Fresh.permits {owner : Task} (h : Fresh owner dir minode t) (mask : Nat) :
    t.permits minode mask = owner.owns (t.mode minode) mask := by
  unfold State.permits Task.owns
  rw [h.nlinks, if_neg Nat.one_ne_zero, h.task, h.uid, h.gid]

theorem open_made {buf : Buf} {owner : Task} (h : Fresh owner dir minode t) (hdesc : (t.slot i).desc = some minode)
    (hkind : isKind IFDIR (t.slot i).mode = false) : Leads (do
      let r ← openInode dir i flags
      openDone buf i r) t fun r u =>
        (owner.owns (t.mode minode) (accMode flags) = true → r = (0, some i)) ∧
        (owner.owns (t.mode minode) (accMode flags) = false → r = (EOF, none) ∧ u.data = t.data) := by
  have hend : Leads (openInode dir i flags) t fun r u => (owner.owns (t.mode minode) (accMode flags) = true → r = .ok ()) ∧
      (owner.owns (t.mode minode) (accMode flags) = false → r = .error EOF ∧ u.data = t.data) := by
    have hok : ∀ {ok : Bool}, (∃ m, (t.slot i).desc = some m ∧ ok = t.permits m (accMode flags)) →
        owner.owns (t.mode minode) (accMode flags) = ok := by
      rintro ok ⟨m, hm, rfl⟩
      cases hdesc.symm.trans hm
      exact (h.permits _).symm
    refine Leads.bind (R := fun ok u => u = t ∧ owner.owns (t.mode minode) (accMode flags) = ok) ?_ ?_
    · rcases h.op with hop | hop
      · exact Leads.get (Leads.demand fun op hop' => nomatch hop.symm.trans hop')
      · exact opPermission_eq.mono fun ok u ⟨hu, hq⟩ => ⟨hu, hok (hq hop)⟩
    · rintro ok _ ⟨rfl, hok⟩
      rw [hok]
      cases ok with
      | false => exact Leads.pure ⟨nofun, fun _ => ⟨rfl, rfl⟩⟩
      | true =>
        refine Leads.get ?_
        rw [if_neg fun hdir => absurd hdir.1 (by rw [hkind]; decide)]
        refine Leads.ite (fun _ => Leads.demand fun op _ => ?_) fun _ => Leads.pure ⟨fun _ => rfl, nofun⟩
        cases op with
        | minix => exact Leads.bind (R := fun _ _ => True) (fun _ _ _ => trivial) fun _ _ _ => Leads.pure ⟨fun _ => rfl, nofun⟩
        | iso9660 => exact Leads.pure ⟨fun _ => rfl, nofun⟩
        | none => exact Leads.fail
        | pipe => exact Leads.fail
        | socket => exact Leads.fail
  refine hend.bind fun r u ⟨hyes, hno⟩ => (openDone_eq buf r).mono fun x v ⟨hok, herr⟩ => ⟨fun hy => hok (hyes hy), fun hn => ?_⟩
  obtain ⟨hr, hu⟩ := hno hn
  obtain ⟨hx, hv⟩ := herr EOF hr
  exact ⟨hx, hv.trans hu⟩

/-! ## `minix_open` -/

theorem permits_congr (hd : t.data = s.data) (ht : t.task = s.task) (minode : Ptr) (mask : Nat) : t.permits minode mask = s.permits minode mask := by
  unfold State.permits State.nlinks State.uid State.gid State.mode State.u16 State.u8
  rw [hd, ht]

/-- What a call leaves: nothing that was not there before, unless it has made a file that the task may not open. Then the code is that of
a file that may not be opened, and the record of the new file is there. -/
def Left (s : State) (dir : Ino) (name : List Char) (flags mode : Nat) (r : Int × Option Ino) (t : State) : Prop :=
  (¬ Refused s dir name flags mode → Met s r t) ∧
  (Refused s dir name flags mode → r = (EOF, none) ∧ ∃ minode, t.mode minode = s.task.newMode mode ∧ t.nlinks minode = 1)

theorem left_early (hr : ¬ Refused s dir name flags mode) {r : Int × Option Ino} (h : Met s r t) : Left s dir name flags mode r t :=
  ⟨fun _ => h, fun h => absurd h hr⟩

theorem met_error {ret : Int} (hret : ret ≠ 0) (h : t.data = s.data) : Met s (ret, none) t := ⟨iff_of_false hret nofun, fun _ => h⟩

theorem open_create (hop : (s.slot dir).op = some .minix) : Leads (do
    let entry ← addEntry dir name
    let s ← get
    let nr ← minixIalloc (s.slot dir).super
    put16 entry 0 nr
    let s ← get
    let inode ← newInode (s.slot dir).dev (s.entryNr entry)
    let mode := (mode &&& masked s.task.umask) ||| IFREG
    let s ← get
    let minode ← deref (s.slot inode).desc
    setInode inode fun x => { x with mode := mode }
    put16 minode 0 mode
    let r ← openInode dir inode flags
    openDone entry.buf inode r) s fun r t =>
      (s.task.owns (s.task.newMode mode) (accMode flags) = true → ∃ i, r = (0, some i)) ∧
      (s.task.owns (s.task.newMode mode) (accMode flags) = false →
        r = (EOF, none) ∧ ∃ minode, t.mode minode = s.task.newMode mode ∧ t.nlinks minode = 1) := by
  refine addEntry_calm.bind fun entry t ht => Leads.get ((alloc_calm _ _).bind fun nr u hu => (put_calm _ _ _).bind fun _ v hv => ?_)
  have hcalm : Calm s v := (ht.trans hu).trans hv
  refine Leads.get ((newInode_eq _ _).bind ?_)
  rintro i _ ⟨w, minode, hw, hdesc, rfl⟩
  refine Leads.get (Leads.demand fun m hm => ?_)
  rw [made_desc, hdesc] at hm
  cases hm
  refine (setInode_eq i _).bind ?_
  rintro _ _ rfl
  refine (put_eq _ _ _).bind ?_
  rintro _ _ rfl
  have hfresh : Fresh s.task dir minode (w.made i minode) := by
    rw [← hcalm.task]
    exact made_fresh hw (by rw [hcalm.slot]; exact hop) i minode
  have hmode : (mode &&& masked v.task.umask) ||| IFREG = s.task.newMode mode := by
    rw [hcalm.task]
    rfl
  rw [hmode]
  have hopen := setMode_fresh hfresh i (s.task.newMode mode)
  have hread := store_mode ((w.made i minode).setMode i (s.task.newMode mode)) minode (newMode_lt s.task mode)
  refine (open_made hopen ?_ ?_).mono fun r x ⟨hyes, hno⟩ => ?_
  · exact (setMode_desc (w.made i minode) i i _).trans ((made_desc w i i minode).trans hdesc)
  · have hslot := congrArg Slot.mode (Ledger.setSlot_self (w.made i minode) i { (w.made i minode).slot i with mode := s.task.newMode mode })
    exact (congrArg (isKind IFDIR) hslot).trans (newMode_kind s.task mode)
  · rw [hread] at hyes hno
    refine ⟨fun hy => ⟨i, hyes hy⟩, fun hn => ?_⟩
    obtain ⟨hr, hdata⟩ := hno hn
    refine ⟨hr, minode, ?_, ?_⟩
    · unfold State.mode State.u16 State.u8
      rw [hdata]
      exact hread
    · unfold State.nlinks State.u8
      rw [hdata]
      exact hopen.nlinks

/-- A call that fails leaves what was there, unless it has made a file that the task may not open. -/
theorem failed_open_left (hop : (s.slot dir).op = some .minix) (name : List Char) (flags mode : Nat) :
    Leads (minixOpen dir name flags mode) s (Left s dir name flags mode) := by
  refine findEntry_still.bind fun found t ⟨ht, hpres⟩ => ?_
  cases found with
  | some found =>
    refine Leads.get ((iget_kept _ _).bind fun i u hu => (open_found (hu.data.trans ht.data)).mono fun r v hv => ?_)
    exact left_early (fun href => href.absent (hpres.1 rfl)) hv
  | none =>
    refine Leads.ite (fun hcreat => ?_) fun hcreat => opPermission_eq.bind ?_
    · exact Leads.pure (left_early (fun href => href.creat hcreat) (met_error (by decide) ht.data))
    · rintro ok _ ⟨rfl, hok⟩
      rw [ht.slot] at hok
      obtain ⟨minode, hdesc, hok⟩ := hok hop
      rw [permits_congr ht.data ht.task] at hok
      cases ok with
      | false =>
        refine Leads.pure (left_early (fun href => ?_) (met_error (by decide) ht.data))
        obtain ⟨m, hm, hw⟩ := href.writable
        cases hdesc.symm.trans hm
        exact Bool.noConfusion (hok.trans hw)
      | true =>
        refine (open_create (by rw [ht.slot]; exact hop)).mono fun r u ⟨hyes, hno⟩ => ?_
        rw [ht.task] at hyes hno
        cases hown : s.task.owns (s.task.newMode mode) (accMode (truncFlags flags)) with
        | true =>
          obtain ⟨i, rfl⟩ := hyes hown
          refine left_early (fun href => ?_) ⟨iff_of_true rfl rfl, fun hne => absurd rfl hne⟩
          exact Bool.noConfusion (hown.symm.trans href.denied)
        | false =>
          refine ⟨fun href => absurd ?_ href, fun _ => hno hown⟩
          exact ⟨fun hp => absurd (hpres.2 hp) (by decide), hcreat, ⟨minode, hdesc, hok.symm⟩, hown⟩

/-- Without `O_CREAT` a file that is not there is not made. -/
theorem failed_open_left_b : Leads (minixOpen 0 ['b'] O_RDWR 0o644) stateA (Left stateA 0 ['b'] O_RDWR 0o644) :=
  failed_open_left rfl ['b'] O_RDWR 0o644

/-- `/` of `stateA`, which anyone may write; three numbers of inodes and the first block are taken. -/
def diskB (b : Buf) : List Nat :=
  if b = ⟨1, 2, 1024⟩ then [7]
  else if b = ⟨1, 3, 1024⟩ then [3]
  else if b = ⟨1, 4, 1024⟩ then [0xFF, 0x41] ++ (diskA b).drop 2
  else diskA b

def stateB : State := { stateA with data := fun b n => BitVec.ofNat 8 ((diskB b).getD n 0), task := ⟨0, 0, 1, 1, 0o22⟩ }

/-- What is seen of an `open` of `b`: how it ends, and the first byte of the bitmap of inodes. -/
def seenOpen (flags mode : Nat) (s : State) : Option (Int × Option Ino × Nat) :=
  match minixOpen 0 ['b'] flags mode s with
  | .ok (r, t) => some (r.1, r.2, (t.data ⟨1, 2, 1024⟩ 0).toNat)
  | .error _ => none

theorem of_seenOpen {ret : Int} {inode : Option Ino} (h : seenOpen flags mode s = some (ret, inode, n)) :
    ∃ t, minixOpen 0 ['b'] flags mode s = .ok ((ret, inode), t) ∧ (t.data ⟨1, 2, 1024⟩ 0).toNat = n := by
  unfold seenOpen at h
  cases hr : minixOpen 0 ['b'] flags mode s with
  | error e =>
    rw [hr] at h
    cases h
  | ok x =>
    rw [hr] at h
    cases h
    exact ⟨x.2, rfl, rfl⟩

theorem seenOpen_stateB : seenOpen (O_CREAT ||| O_RDWR) 0o444 stateB = some (EOF, none, 15) := by decide +kernel

/-- A file that its mode lets the task read only is made and then opened for writing. -/
theorem failed_open_changes : stateB.InOrder ∧
    ∃ r t, minixOpen 0 ['b'] (O_CREAT ||| O_RDWR) 0o444 stateB = .ok (r, t) ∧ ¬ Met stateB r t := by
  obtain ⟨t, hrun, hmap⟩ := of_seenOpen seenOpen_stateB
  refine ⟨⟨stateA_inOrder.free, stateA_inOrder.listed, stateA_inOrder.held⟩, _, t, hrun, fun hmet => ?_⟩
  have hdata : t.data = stateB.data := hmet.2 (by decide)
  rw [hdata] at hmap
  exact absurd hmap (by decide +kernel)

end Onix.Namei
