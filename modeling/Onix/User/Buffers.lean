/-
Which buffers the kernel lets through. `memory_access` goes over the pages from the one of `vaddr` to
the sum of `vaddr` and `size` in 32 bits; it answers for the buffer when that sum stays below the last
page. A call that stores asks for a page that may only be read, `sys_read` and `sys_readdir` among
them, and `task_signal` does not ask at all.
-/
import Onix.User.Model

namespace Onix.User

open Bool List

open Onix.Memory (State dirEntry pageEntry)

variable {s : State} {pd last : Nat} {write user : Bool}

/-! ## Rights -/

/-- The byte at `a` is in a page with the rights. -/
structure Allowed (s : State) (pd : Nat) (write user : Bool) (a : Nat) : Prop where
  dir : (dirEntry s pd a).present = true
  page : (pageEntry s pd a).present = true
  write : write = true → (pageEntry s pd a).readonly = false
  user : user = true → (pageEntry s pd a).user = true

theorem allowed_iff {a : Nat} : Memory.memoryAccess s pd a write user = true ↔ Allowed s pd write user a := by
  unfold Memory.memoryAccess
  constructor
  · intro h
    simp only [and_eq_true, not_eq_true', and_eq_false_iff, not_eq_false'] at h
    obtain ⟨⟨⟨h1, h2⟩, h3⟩, h4⟩ := h
    exact ⟨h1, h2, fun hw => h3.resolve_left fun e => (nomatch hw.symm.trans e),
      fun hu => h4.resolve_left fun e => (nomatch hu.symm.trans e)⟩
  · intro h
    simp only [and_eq_true, not_eq_true', and_eq_false_iff, not_eq_false']
    refine ⟨⟨⟨h.dir, h.page⟩, ?_⟩, ?_⟩
    · cases write with
      | false => exact .inl rfl
      | true => exact .inr (h.write rfl)
    · cases user with
      | false => exact .inl rfl
      | true => exact .inr (h.user rfl)

theorem access_page {a b : Nat} (h : a / 0x1000 = b / 0x1000) :
    Memory.memoryAccess s pd a write user = Memory.memoryAccess s pd b write user := by
  have hd : Memory.didx a = Memory.didx b := by
    unfold Memory.didx
    omega
  have ht : Memory.tidx a = Memory.tidx b := by
    unfold Memory.tidx
    rw [h]
  unfold Memory.memoryAccess pageEntry dirEntry
  rw [hd, ht]

/-! ## The loop -/

theorem accessLoop_low (hlast : last ≤ 0xFFFFF000) : ∀ fuel page, page % 0x1000 = 0 → last ≤ page + fuel * 0x1000 →
    (accessLoop s pd write user last (fuel + 1) page = some true ↔ ∀ a, page ≤ a → a < last → Allowed s pd write user a)
  | fuel, page, hp, hf => by
    unfold accessLoop
    split
    · rename_i hlt
      split
      · rename_i hno
        refine iff_of_false nofun fun h => hno (allowed_iff.2 (h page (Nat.le_refl _) hlt))
      · rename_i hok
        obtain ⟨fuel, rfl⟩ : ∃ k, fuel = k + 1 := ⟨fuel - 1, by omega⟩
        rw [Nat.mod_eq_of_lt (by omega), accessLoop_low hlast fuel (page + 0x1000) (by omega) (by omega)]
        refine ⟨fun h a h1 h2 => ?_, fun h a h1 h2 => h a (by omega) h2⟩
        by_cases ha : page + 0x1000 ≤ a
        · exact h a ha h2
        · rw [← allowed_iff, @access_page _ _ _ _ a page (by omega)]
          exact not_not.1 hok
    · exact iff_of_true rfl fun a h1 h2 => by omega

theorem accessLoop_high (hlast : 0xFFFFF000 < last) : ∀ fuel page, page % 0x1000 = 0 → page < 0x100000000 →
    accessLoop s pd write user last fuel page ≠ some true
  | 0, _, _, _ => nofun
  | fuel + 1, page, hp, hb => by
    unfold accessLoop
    rw [if_pos (by omega)]
    split
    · exact nofun
    · exact accessLoop_high hlast fuel _ (by omega) (by omega)

def Walked (s : State) (pd : Nat) (vaddr size : Word) (write user : Bool) : Prop :=
  (vaddr + size).toNat ≤ 0xFFFFF000 ∧
    ∀ a, vaddr.toNat / 0x1000 * 0x1000 ≤ a → a < (vaddr + size).toNat → Allowed s pd write user a

theorem memoryAccess_true (vaddr size : Word) :
    memoryAccess s pd vaddr size write user = some true ↔ Walked s pd vaddr size write user := by
  unfold memoryAccess Walked
  by_cases hlast : (vaddr + size).toNat ≤ 0xFFFFF000
  · rw [and_iff_right hlast]
    exact accessLoop_low hlast _ _ (by omega) (by omega)
  · exact iff_of_false (accessLoop_high (by omega) _ _ (by omega) (by omega)) fun h => hlast h.1

/-! ## Buffers -/

def Accessible (s : State) (pd : Nat) (vaddr size : Word) (write user : Bool) : Prop :=
  ∀ a : Nat, vaddr.toNat ≤ a → (a : Int) < vaddr.toNat + size.toInt → a < 0x100000000 ∧ Allowed s pd write user a

/-- The arguments `memory_access` answers for: the buffer ends before the last page; or it goes up to the end of
the addresses, where every buffer passes, and may; or it ends in the last page, where none does, and may not; or
there is no buffer, and the pages the loop goes over all the same have the rights. -/
def Exact (s : State) (pd : Nat) (vaddr size : Word) (write user : Bool) : Prop :=
  if 0 < size.toInt then
    vaddr.toNat + size.toInt ≤ 0xFFFFF000 ∨
    (vaddr.toNat + size.toInt = 0x100000000 ∧ Accessible s pd vaddr size write user) ∨
    (0xFFFFF000 < vaddr.toNat + size.toInt ∧ vaddr.toNat + size.toInt < 0x100000000 ∧ ¬ Accessible s pd vaddr size write user)
  else Walked s pd vaddr size write user

theorem Accessible.empty {vaddr size : Word} (h : size.toInt ≤ 0) : Accessible s pd vaddr size write user :=
  fun a h1 h2 => by omega

theorem last_toNat (vaddr size : Word) : ((vaddr + size).toNat : Int) = (vaddr.toNat + size.toInt) % 0x100000000 := by
  rw [BitVec.toNat_add, BitVec.toInt_eq_toNat_bmod]
  unfold Int.bmod
  dsimp only
  split
  · omega
  · omega

theorem walked_low {vaddr size : Word} (hpos : 0 < size.toInt) (hend : vaddr.toNat + size.toInt ≤ 0xFFFFF000) :
    Walked s pd vaddr size write user ↔ Accessible s pd vaddr size write user := by
  have hlast := last_toNat vaddr size
  constructor
  · rintro ⟨-, h⟩ a h1 h2
    exact ⟨by omega, h a (by omega) (by omega)⟩
  · intro h
    refine ⟨by omega, fun a h1 h2 => ?_⟩
    by_cases ha : vaddr.toNat ≤ a
    · exact (h a ha (by omega)).2
    · -- the page begins before the buffer
      have := (h vaddr.toNat (Nat.le_refl _) (by omega)).2
      rw [← allowed_iff] at this ⊢
      rw [← this]
      exact access_page (by omega)

theorem exact_iff (vaddr size : Word) : (memoryAccess s pd vaddr size write user = some true ↔ Accessible s pd vaddr size write user) ↔
    Exact s pd vaddr size write user := by
  rw [memoryAccess_true]
  have hsize : size.toInt < 0x80000000 := by
    have := BitVec.toInt_lt (x := size)
    omega
  have hlast := last_toNat vaddr size
  unfold Exact
  split
  · rename_i hpos
    by_cases hlow : vaddr.toNat + size.toInt ≤ 0xFFFFF000
    · exact iff_of_true (walked_low hpos hlow) (.inl hlow)
    by_cases hhigh : vaddr.toNat + size.toInt < 0x100000000
    · have hno : ¬ Walked s pd vaddr size write user := by
        rintro ⟨h, -⟩
        omega
      constructor
      · exact fun h => .inr (.inr ⟨by omega, hhigh, fun ha => hno (h.2 ha)⟩)
      · rintro (h | ⟨h, -⟩ | ⟨-, -, h⟩)
        · exact absurd h hlow
        · omega
        · exact iff_of_false hno h
    · -- the sum wraps: no page is looked at
      have hwalked : Walked s pd vaddr size write user := by
        exact ⟨by omega, fun a h1 h2 => by omega⟩
      constructor
      · intro h
        have ha := h.1 hwalked
        refine .inr (.inl ⟨?_, ha⟩)
        by_contra hne
        have := (ha 0x100000000 (by omega) (by omega)).1
        omega
      · rintro (h | ⟨-, h⟩ | ⟨-, h, -⟩)
        · exact absurd h hlow
        · exact iff_of_true hwalked h
        · exact absurd h hhigh
  · rename_i hpos
    exact iff_true_right (Accessible.empty (by omega))

/-! ## The calls -/

def Access.Safe (s : State) (pd : Nat) : Access → Prop
  | .load a => Allowed s pd false true a.toNat
  | .store a => Allowed s pd true true a.toNat

def touched (r : Option Outcome) : List Access := (r.map Outcome.touched).getD []

/-- `sys_read` of `count` bytes at `buf`, by any process with these page tables, on any file. -/
def ReadSafe (s : State) (pd : Nat) (buf count : Word) : Prop :=
  ∀ t fd, t.pd = pd → ∀ x ∈ touched (sysRead s t fd buf count), x.Safe s pd

def ReaddirSafe (s : State) (pd : Nat) (dir : Word) : Prop :=
  ∀ t fd count, t.pd = pd → ∀ x ∈ touched (sysReaddir s t fd dir count), x.Safe s pd

def WriteSafe (s : State) (pd : Nat) (buf count : Word) : Prop :=
  ∀ t fd, t.pd = pd → ∀ x ∈ touched (sysWrite s t fd buf count), x.Safe s pd

def SignalSafe (s : State) (t : Process) : Prop := ∀ x ∈ (taskSignal t).touched, x.Safe s t.pd

/-- The claim about one state of the page tables. -/
structure Validated (s : State) (pd : Nat) : Prop where
  access : ∀ vaddr size write user, memoryAccess s pd vaddr size write user = some true ↔ Accessible s pd vaddr size write user
  read : ∀ buf count, ReadSafe s pd buf count
  readdir : ∀ dir, ReaddirSafe s pd dir
  write : ∀ buf count, WriteSafe s pd buf count
  signal : ∀ t, t.pd = pd → SignalSafe s t

/-- A buffer of `n` bytes that a call which only asks for the right to read may be given to store to: no page of it is
for reading alone, and where it passes the end of the addresses, where no page is looked at, all are in order. -/
def Storable (s : State) (pd : Nat) (buf : Word) (n : Nat) : Prop :=
  if buf.toNat + n < 0x100000000 then ∀ o < n, (pageEntry s pd (buf.toNat + o)).readonly = false
  else ∀ o < n, Allowed s pd true true (buf + BitVec.ofNat 32 o).toNat

def Loadable (s : State) (pd : Nat) (buf : Word) (n : Nat) : Prop :=
  buf.toNat + n < 0x100000000 ∨ ∀ o < n, Allowed s pd false true (buf + BitVec.ofNat 32 o).toNat

theorem fileCall_touched {t : Process} {fd : Int} {access : Option Bool} {refused : File → Option Int}
    {call : File → Int × List Access} {x : Access} (h : x ∈ touched (fileCall t fd access refused call)) : access = some true ∧ ∃ f, x ∈ (call f).2 := by
  have hnil : ∀ e, x ∉ touched (some ⟨e, [], t⟩) := fun _ h => nomatch h
  unfold fileCall at h
  split at h
  · cases h
  · exact absurd h (hnil _)
  · split at h
    · exact absurd h (hnil _)
    · rename_i f _
      split at h
      · exact absurd h (hnil _)
      · exact ⟨rfl, f, h⟩

theorem mem_bytes {v a : Word} {offs : List Nat} (h : a ∈ bytes v offs) : ∃ o ∈ offs, v + BitVec.ofNat 32 o = a := mem_map.1 h

theorem byte_toNat {buf : Word} {o n : Nat} (hn : buf.toNat + n < 0x100000000) (ho : o < n) :
    (buf + BitVec.ofNat 32 o).toNat = buf.toNat + o := by
  rw [BitVec.toNat_add, BitVec.toNat_ofNat, Nat.mod_eq_of_lt (by omega : o < 2 ^ 32), Nat.mod_eq_of_lt (by omega)]

theorem walked_byte {buf count : Word} {o : Nat} (h : Walked s pd buf count write user) (hpos : 0 < count.toInt)
    (hn : buf.toNat + count.toInt < 0x100000000) (ho : o < count.toInt) : Allowed s pd write user (buf.toNat + o) := by
  have hlast := last_toNat buf count
  exact h.2 _ (by omega) (by omega)

theorem toInt_nonneg {w : Word} (h : 0 ≤ w.toInt) : w.toInt = w.toNat := by
  rw [BitVec.toInt_eq_toNat_bmod] at h ⊢
  unfold Int.bmod at h ⊢
  dsimp only at h ⊢
  split
  · omega
  · rename_i hlt
    omega

theorem storable_iff {buf count : Word} (hpos : 0 < count.toInt) (hw : Walked s pd buf count false true) :
    Storable s pd buf count.toNat ↔ ∀ o < count.toNat, Allowed s pd true true (buf + BitVec.ofNat 32 o).toNat := by
  have hcount := toInt_nonneg (Int.le_of_lt hpos)
  unfold Storable
  split
  · rename_i hn
    refine forall₂_congr fun o ho => ?_
    rw [byte_toNat hn ho]
    have hread := walked_byte (o := o) hw hpos (by omega) (by omega)
    exact ⟨fun h => ⟨hread.dir, hread.page, fun _ => h, hread.user⟩, fun h => h.write rfl⟩
  · exact .rfl

theorem loadable_iff {buf count : Word} (hpos : 0 < count.toInt) (hw : Walked s pd buf count true true) :
    Loadable s pd buf count.toNat ↔ ∀ o < count.toNat, Allowed s pd false true (buf + BitVec.ofNat 32 o).toNat := by
  have hcount := toInt_nonneg (Int.le_of_lt hpos)
  constructor
  · rintro (hn | h)
    · intro o ho
      rw [byte_toNat hn ho]
      have hread := walked_byte (o := o) hw hpos (by omega) (by omega)
      exact ⟨hread.dir, hread.page, nofun, hread.user⟩
    · exact h
  · exact .inr

def whole : FsOp where
  read len _ := (len, List.range len)
  write len _ := (len, List.range len)
  readdir _ _ := (direntSize, List.range direntSize)
  read_lt _ _ _ := List.mem_range.1
  write_lt _ _ _ := List.mem_range.1
  readdir_lt _ _ _ := List.mem_range.1

def opener (pd : Nat) : Process where
  uid := 1000
  pd := pd
  files _ := some ⟨whole, 0, 2⟩
  signal := 0
  blocked := 0
  actions _ := ⟨0, 0, 0, 0⟩
  iframe := ⟨0, 0, 0, 0, 0, 0⟩
  user := by decide

theorem mem_whole {v : Word} {n o : Nat} (ho : o < n) (f : Word → Access) :
    f (v + BitVec.ofNat 32 o) ∈ (bytes v (range n)).map f :=
  mem_map_of_mem (mem_map_of_mem (mem_range.2 ho))

theorem readSafe_iff (buf count : Word) : ReadSafe s pd buf count ↔
    count.toInt ≤ 0 ∨ ¬ Walked s pd buf count false true ∨ Storable s pd buf count.toNat := by
  constructor
  · intro h
    by_cases hpos : 0 < count.toInt
    · by_cases hw : Walked s pd buf count false true
      · refine .inr (.inr ((storable_iff hpos hw).2 fun o ho => ?_))
        refine h (opener pd) 0 rfl (.store (buf + BitVec.ofNat 32 o)) ?_
        unfold sysRead
        have hacc : memoryAccess s (opener pd).pd buf count false true = some true := (memoryAccess_true buf count).2 hw
        rw [if_neg (by omega), decide_eq_true (opener pd).user, hacc]
        exact mem_whole ho _
      · exact .inr (.inl hw)
    · exact .inl (by omega)
  · intro h t fd ht x hx
    unfold sysRead at hx
    split at hx
    · cases hx
    rename_i hneg
    obtain ⟨hacc, f, hx⟩ := fileCall_touched hx
    rw [decide_eq_true t.user, memoryAccess_true, ht] at hacc
    obtain ⟨a, ha, rfl⟩ := mem_map.1 hx
    obtain ⟨o, ho, rfl⟩ := mem_bytes ha
    have hlt := f.op.read_lt _ _ o ho
    have hcount := toInt_nonneg (Int.not_lt.1 hneg)
    rcases h with h | h | h
    · omega
    · exact absurd hacc h
    · exact (storable_iff (by omega) hacc).1 h o hlt

theorem readdirSafe_iff (dir : Word) : ReaddirSafe s pd dir ↔
    ¬ Walked s pd dir (BitVec.ofNat 32 direntSize) false true ∨ Storable s pd dir direntSize := by
  have hpos : 0 < (BitVec.ofNat 32 direntSize).toInt := by decide
  constructor
  · intro h
    by_cases hw : Walked s pd dir (BitVec.ofNat 32 direntSize) false true
    · refine .inr ((storable_iff hpos hw).2 fun o ho => ?_)
      refine h (opener pd) 0 0 rfl (.store (dir + BitVec.ofNat 32 o)) ?_
      unfold sysReaddir
      have hacc : memoryAccess s (opener pd).pd dir (BitVec.ofNat 32 direntSize) false true = some true := (memoryAccess_true dir _).2 hw
      rw [decide_eq_true (opener pd).user, hacc]
      exact mem_whole ho _
    · exact .inl hw
  · intro h t fd count ht x hx
    obtain ⟨hacc, f, hx⟩ := fileCall_touched hx
    rw [decide_eq_true t.user, memoryAccess_true, ht] at hacc
    obtain ⟨a, ha, rfl⟩ := mem_map.1 hx
    obtain ⟨o, ho, rfl⟩ := mem_bytes ha
    rcases h with h | h
    · exact absurd hacc h
    · exact (storable_iff hpos hacc).1 h o (f.op.readdir_lt _ _ o ho)

theorem writeSafe_iff (buf count : Word) : WriteSafe s pd buf count ↔
    count.toInt ≤ 0 ∨ ¬ Walked s pd buf count true true ∨ Loadable s pd buf count.toNat := by
  constructor
  · intro h
    by_cases hpos : 0 < count.toInt
    · by_cases hw : Walked s pd buf count true true
      · refine .inr (.inr ((loadable_iff hpos hw).2 fun o ho => ?_))
        refine h (opener pd) 0 rfl (.load (buf + BitVec.ofNat 32 o)) ?_
        unfold sysWrite
        have hacc : memoryAccess s (opener pd).pd buf count true true = some true := (memoryAccess_true buf count).2 hw
        rw [if_neg (by omega), decide_eq_true (opener pd).user, hacc]
        exact mem_whole ho _
      · exact .inr (.inl hw)
    · exact .inl (by omega)
  · intro h t fd ht x hx
    unfold sysWrite at hx
    split at hx
    · cases hx
    rename_i hneg
    obtain ⟨hacc, f, hx⟩ := fileCall_touched hx
    rw [decide_eq_true t.user, memoryAccess_true, ht] at hacc
    obtain ⟨a, ha, rfl⟩ := mem_map.1 hx
    obtain ⟨o, ho, rfl⟩ := mem_bytes ha
    have hlt := f.op.write_lt _ _ o ho
    have hcount := toInt_nonneg (Int.not_lt.1 hneg)
    rcases h with h | h | h
    · omega
    · exact absurd hacc h
    · exact (loadable_iff (by omega) hacc).1 h o hlt

def Handles (t : Process) : Prop := ∃ i, t.pending = some i ∧ (t.actions i).handler ≠ sigIgn ∧ (t.actions i).handler ≠ sigDfl

def FrameStorable (s : State) (t : Process) : Prop :=
  ∀ o < signalFrameSize, Allowed s t.pd true true (t.iframe.esp - BitVec.ofNat 32 signalFrameSize + BitVec.ofNat 32 o).toNat

theorem signalSafe_iff (t : Process) : SignalSafe s t ↔ ¬ Handles t ∨ FrameStorable s t := by
  by_cases hh : Handles t
  · obtain ⟨i, hi, h1, h2⟩ := hh
    have htouched : (taskSignal t).touched =
        (bytes (t.iframe.esp - BitVec.ofNat 32 signalFrameSize) (range signalFrameSize)).map .store := by
      unfold taskSignal
      rw [hi]
      dsimp only
      rw [if_neg h1, if_neg fun h => h2 h.1, if_neg h2]
      rfl
    unfold SignalSafe
    rw [htouched]
    constructor
    · exact fun h => .inr fun o ho => h _ (mem_whole ho .store)
    · rintro (h | h) x hx
      · exact absurd ⟨i, hi, h1, h2⟩ h
      · obtain ⟨a, ha, rfl⟩ := mem_map.1 hx
        obtain ⟨o, ho, rfl⟩ := mem_bytes ha
        exact h o (mem_range.1 ho)
  · refine iff_of_true (fun x hx => ?_) (.inl hh)
    unfold taskSignal at hx
    split at hx
    · cases hx
    rename_i i hi
    dsimp only at hx
    split at hx
    · cases hx
    rename_i h1
    split at hx
    · cases hx
    split at hx
    · cases hx
    · rename_i h2
      exact absurd ⟨i, hi, h1, h2⟩ hh

def readonlyPages : State where
  mem f _ :=
    if f = 0x300 then Memory.entryInit 0x400
    else if f = 0x400 then Memory.mmapEntry (Memory.entryInit 0x2000) false false true
    else .zero
  memoryMap _ := 1
  freePages := 1
  startPage := 0x101
  totalPages := 0x2000
  tasks _ := none

end Onix.User
