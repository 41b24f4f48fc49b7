/-
The bitmaps of zones and inodes in `fs/minix/minix.c`, on the geometry that `minix_mkfs` writes. Blocks are as the
buffer cache shows them. The allocators are given the numbers they return, so that only numbers in use are freed.
-/
import Mathlib.Data.Finset.Option
import Onix.Bitmap
import Onix.Lib.Loop
import Onix.Lib.Machine

namespace Onix.Minix

open Onix.Lib
open Bitmap (bit put)

/-! ## Data -/

def blockSize : Nat := 1024

def blockBits : Nat := 8192

/-- The fields of `minix_super_t` that the bitmaps depend on. -/
structure Desc where
  inodes : Nat
  zones : Nat
  imapBlocks : Nat
  zmapBlocks : Nat
  firstdatazone : Nat

abbrev Disk := Nat → Bytes

/-- A failed assertion; a byte past a block; a buffer that was never read. -/
inductive Fault
  | assert
  | outside
  | buf
  deriving DecidableEq

def ofBitmap {α : Type} : Except BitmapFault α → Except Fault α
  | .ok a => .ok a
  | .error .assert => .error .assert
  | .error .outside => .error .outside

/-- What the functions of one kind of number take: the first block of its bitmap, the number of blocks, the length given to
`bitmap_make`, the number of the first bit, and the bound they assert. -/
structure Area where
  base : Nat
  blocks : Nat
  length : Nat
  first : Nat
  limit : Nat

def Desc.zmap (d : Desc) : Area := ⟨2 + d.imapBlocks, d.zmapBlocks, blockSize, d.firstdatazone - 1, d.zones⟩

def Desc.imap (d : Desc) : Area := ⟨2, d.imapBlocks, blockBits, 0, d.inodes⟩

/-! ## The code -/

def Area.map (a : Area) (disk : Disk) (i : Nat) : Bitmap := ⟨disk (a.base + i), a.length, i * blockBits + a.first, blockSize⟩

/-- The loop of `minix_balloc` and `minix_ialloc`, with `n` blocks to go; `none` is `EOF`. -/
def allocLoop (a : Area) (disk : Disk) : Nat → Nat → Except Fault (Option Nat × Disk)
  | 0, _ => .ok (none, disk)
  | n + 1, i => do
    let r ← ofBitmap ((a.map disk i).scan 1)
    match r.1 with
    | none => allocLoop a disk n (i + 1)
    | some bit =>
      if bit < a.limit then pure (some bit, Function.update disk (a.base + i) r.2.bits)
      else .error .assert

/-- The loop of `minix_bfree` and `minix_ifree`. When no block is taken, `brelse` gets a pointer that was never set. -/
def freeLoop (a : Area) (disk : Disk) (idx : Nat) : Nat → Nat → Except Fault Disk
  | 0, _ => .error .buf
  | n + 1, i =>
    if idx > blockBits * (i + 1) then freeLoop a disk idx n (i + 1)
    else do
      let taken ← ofBitmap ((a.map disk i).test idx)
      if taken = false then .error .assert
      else do
        let map ← ofBitmap ((a.map disk i).set idx false)
        pure (Function.update disk (a.base + i) map.bits)

def free (a : Area) (disk : Disk) (idx : Nat) : Except Fault Disk :=
  if idx < a.limit then freeLoop a disk idx a.blocks 0 else .error .assert

def minixBalloc (d : Desc) (disk : Disk) : Except Fault (Option Nat × Disk) := allocLoop d.zmap disk d.zmap.blocks 0

def minixBfree (d : Desc) (disk : Disk) (idx : Nat) : Except Fault Disk := free d.zmap disk idx

def minixIalloc (d : Desc) (disk : Disk) : Except Fault (Option Nat × Disk) := allocLoop d.imap disk d.imap.blocks 0

def minixIfree (d : Desc) (disk : Disk) (idx : Nat) : Except Fault Disk := free d.imap disk idx

def divRoundUp (num size : Nat) : Nat := (num + size - 1) % 2 ^ 32 / size

/-- The fields `minix_mkfs` writes, each of 16 bits; the subtraction is one of `int`, passed as `u32`. -/
def geometry (total icount : Nat) : Desc :=
  let inodeBlocks := divRoundUp (icount * 32) blockSize
  let imapBlocks := divRoundUp icount blockBits % 2 ^ 16
  let zcount := (total + 2 ^ 32 - imapBlocks - inodeBlocks - 2) % 2 ^ 32
  let zmapBlocks := divRoundUp zcount blockBits % 2 ^ 16
  ⟨icount % 2 ^ 16, total % 2 ^ 16, imapBlocks, zmapBlocks, (2 + imapBlocks + zmapBlocks + inodeBlocks) % 2 ^ 16⟩

/-- A filesystem, with the numbers its users hold. -/
structure State where
  desc : Desc
  disk : Disk
  zones : Finset Nat
  inodes : Finset Nat

/-- `minix_mkfs` on a device of `total` blocks: the blocks of the bitmaps are cleared; zone `firstdatazone - 1` and inode 0 are
never used; the root has inode 1, which `iget` asserts to exist, and one zone. -/
def minixMkfs (disk : Disk) (total icount : Nat) : Except Fault State := do
  if total = 0 ∨ ¬ icount < total then .error .assert
  else do
    let d := geometry total (if icount = 0 then total / 3 else icount)
    let disk := fun b => if 2 ≤ b ∧ b < 2 + d.imapBlocks + d.zmapBlocks then fun _ => 0 else disk b
    let r ← minixBalloc d disk
    let r ← minixIalloc d r.2
    let r ← minixIalloc d r.2
    if ¬ 1 ≤ d.inodes then .error .assert
    else do
      let r ← minixBalloc d r.2
      pure ⟨d, r.2, r.1.toFinset, {1}⟩

/-! ## The machine -/

inductive Act
  | balloc
  | bfree (z : Nat)
  | ialloc
  | ifree (n : Nat)

def step (s : State) : Act → Except Fault State
  | .balloc => do
    let r ← minixBalloc s.desc s.disk
    pure { s with disk := r.2, zones := r.1.toFinset ∪ s.zones }
  | .bfree z => do
    let disk ← minixBfree s.desc s.disk z
    pure { s with disk := disk, zones := s.zones.erase z }
  | .ialloc => do
    let r ← minixIalloc s.desc s.disk
    pure { s with disk := r.2, inodes := r.1.toFinset ∪ s.inodes }
  | .ifree n => do
    let disk ← minixIfree s.desc s.disk n
    pure { s with disk := disk, inodes := s.inodes.erase n }

def enabled (s : State) : Act → Prop
  | .bfree z => z ∈ s.zones
  | .ifree n => n ∈ s.inodes
  | .balloc | .ialloc => True

/-- A filesystem made by `minix_mkfs` on a device whose blocks have numbers of 16 bits. -/
def bitmaps : Machine State Act Fault where
  start s := ∃ disk total icount, total < 2 ^ 16 ∧ minixMkfs disk total icount = .ok s
  enabled := enabled
  step := step

/-! ## What the calls are to do -/

/-- Bit `k` of block `b` is set to `v`, which it was not; all other bits of the disk stay. -/
def Flips (disk disk' : Disk) (b k : Nat) (v : Bool) : Prop :=
  k < blockBits ∧ bit (disk b) k = !v ∧ ∀ c j, bit (disk' c) j = if c = b ∧ j = k then v else bit (disk c) j

def Area.block (a : Area) (x : Nat) : Nat := a.base + (x - a.first) / blockBits

def Area.place (a : Area) (x : Nat) : Nat := (x - a.first) % blockBits

/-- A number from `lo` on below the bound, that was free, and its bit is set; or all are in use and nothing changes. -/
def Allocates (a : Area) (lo : Nat) (held : Finset Nat) (disk : Disk) (r : Except Fault (Option Nat × Disk)) : Prop :=
  (∃ x disk', r = .ok (some x, disk') ∧ lo ≤ x ∧ x < a.limit ∧ x ∉ held ∧ Flips disk disk' (a.block x) (a.place x) true) ∨
    (∀ x, lo ≤ x → x < a.limit → x ∈ held) ∧ r = .ok (none, disk)

def Frees (a : Area) (x : Nat) (disk : Disk) (r : Except Fault Disk) : Prop :=
  ∃ disk', r = .ok disk' ∧ Flips disk disk' (a.block x) (a.place x) false

def Meets (s : State) : Act → Prop
  | .balloc => Allocates s.desc.zmap s.desc.firstdatazone s.zones s.disk (minixBalloc s.desc s.disk)
  | .bfree z => Frees s.desc.zmap z s.disk (minixBfree s.desc s.disk z)
  | .ialloc => Allocates s.desc.imap 1 s.inodes s.disk (minixIalloc s.desc s.disk)
  | .ifree n => Frees s.desc.imap n s.disk (minixIfree s.desc s.disk n)

/-- A zone is free, or the bits of the zones fill the blocks of the bitmap; the zone lies in the same block of
`BLOCK_BITS` numbers counted from 1 and counted from `firstdatazone - 1`; an inode below `BLOCK_BITS` is free; the
inode is no multiple of `BLOCK_BITS`. -/
def Sound (s : State) : Act → Prop
  | .balloc => (∃ z, s.desc.firstdatazone ≤ z ∧ z < s.desc.zones ∧ z ∉ s.zones) ∨
      s.desc.zmapBlocks * blockBits ≤ s.desc.zones + 1 - s.desc.firstdatazone
  | .bfree z => (z - 1) / blockBits = (z + 1 - s.desc.firstdatazone) / blockBits
  | .ialloc => ∃ n, 1 ≤ n ∧ n < s.desc.inodes ∧ n < blockBits ∧ n ∉ s.inodes
  | .ifree n => n % blockBits ≠ 0

/-! ## The allocators -/

def Area.bit (a : Area) (disk : Disk) (k : Nat) : Bool := Bitmap.bit (disk (a.base + k / blockBits)) (k % blockBits)

def Area.put (a : Area) (disk : Disk) (k : Nat) (v : Bool) : Disk :=
  Function.update disk (a.base + k / blockBits) (Bitmap.put (disk (a.base + k / blockBits)) (k % blockBits) v)

variable {a : Area} {disk disk' : Disk} {k x : Nat} {v : Bool}

theorem put_flips (h : a.bit disk k = !v) : Flips disk (a.put disk k v) (a.base + k / blockBits) (k % blockBits) v := by
  refine ⟨Nat.mod_lt _ (by decide), h, fun c j => ?_⟩
  unfold Area.put
  by_cases hc : c = a.base + k / blockBits
  · subst hc
    rw [Function.update_self, Bitmap.bit_put]
    simp
  · rw [Function.update_of_ne hc, if_neg fun e => hc e.1]

theorem Flips.other {b : Area} {c j : Nat} (h : Flips disk disk' c j v) (hc : b.base + k / blockBits ≠ c) :
    b.bit disk' k = b.bit disk k := by
  unfold Area.bit
  rw [h.2.2, if_neg fun e => hc e.1]

theorem Flips.same {y : Nat} (h : Flips disk disk' (a.base + k / blockBits) (k % blockBits) v) :
    a.bit disk' y = if y = k then v else a.bit disk y := by
  unfold Area.bit
  rw [h.2.2]
  by_cases hy : y = k
  · subst hy
    simp
  · have hne : ¬ (a.base + y / blockBits = a.base + k / blockBits ∧ y % blockBits = k % blockBits) := by
      unfold blockBits
      omega
    rw [if_neg hne, if_neg hy]

variable (a disk) in
theorem scan_block (i : Nat) (hlen : blockSize ≤ a.length) :
    (∃ k, i * blockBits ≤ k ∧ k < (i + 1) * blockBits ∧ a.bit disk k = false ∧
      (∀ j, i * blockBits ≤ j → j < k → a.bit disk j = true) ∧
      ∃ m, (a.map disk i).scan 1 = .ok (some (k + a.first), m) ∧ Function.update disk (a.base + i) m.bits = a.put disk k true) ∨
    ((∀ j, i * blockBits ≤ j → j < (i + 1) * blockBits → a.bit disk j = true) ∧
      (a.map disk i).scan 1 = if a.length = blockSize then .ok (none, a.map disk i) else .error .outside) := by
  have hbits : blockBits = blockSize * 8 := rfl
  have hin : ∀ j, i * blockBits ≤ j → j < (i + 1) * blockBits → j / blockBits = i ∧ j % blockBits = j - i * blockBits := by
    unfold blockBits at *
    omega
  have hbit : ∀ j, i * blockBits ≤ j → j < (i + 1) * blockBits →
      a.bit disk j = Bitmap.bit (a.map disk i).bits (j - i * blockBits) := by
    intro j h1 h2
    obtain ⟨h3, h4⟩ := hin j h1 h2
    unfold Area.bit
    rw [h3, h4]
    rfl
  have hsucc : (i + 1) * blockBits = i * blockBits + blockBits := Nat.succ_mul ..
  rcases Bitmap.scan_one (m := a.map disk i) with ⟨k, h1, h2, h3, h4, h5⟩ | ⟨h1, h2, h3⟩ | ⟨h1, h2, h3⟩
  · have h2 : k < blockSize * 8 := h2
    obtain ⟨hd, hm⟩ := hin (i * blockBits + k) (by omega) (by omega)
    refine .inl ⟨i * blockBits + k, by omega, by omega, ?_, fun j h6 h7 => ?_,
      { a.map disk i with bits := Bitmap.put (a.map disk i).bits k true }, ?_, ?_⟩
    · rw [hbit _ (by omega) (by omega), Nat.add_sub_cancel_left]
      exact h3
    · rw [hbit j h6 (by omega)]
      exact h4 _ (by omega)
    · rw [h5]
      show Except.ok (some (k + (i * blockBits + a.first)), _) = _
      rw [show k + (i * blockBits + a.first) = i * blockBits + k + a.first by omega]
    · unfold Area.put
      rw [hd, hm, Nat.add_sub_cancel_left]
      rfl
  · have h1 : a.length ≤ blockSize := h1
    have hle : a.length = blockSize := by omega
    have h2 : ∀ j, j < a.length * 8 → Bitmap.bit (a.map disk i).bits j = true := h2
    refine .inr ⟨fun j h4 h5 => ?_, by rw [if_pos hle, h3]⟩
    rw [hbit j h4 h5]
    exact h2 _ (by omega)
  · have h1 : blockSize < a.length := h1
    have h2 : ∀ j, j < blockSize * 8 → Bitmap.bit (a.map disk i).bits j = true := h2
    refine .inr ⟨fun j h4 h5 => ?_, by rw [if_neg (by omega), h3]⟩
    rw [hbit j h4 h5]
    exact h2 _ (by omega)

variable (a disk) in
theorem allocLoop_spec (hlen : blockSize ≤ a.length) : ∀ (n i : Nat),
    (∃ k, i * blockBits ≤ k ∧ k < (i + n) * blockBits ∧ (a.length ≠ blockSize → k < (i + 1) * blockBits) ∧ a.bit disk k = false ∧
      (∀ j, i * blockBits ≤ j → j < k → a.bit disk j = true) ∧ allocLoop a disk n i =
        if k + a.first < a.limit then .ok (some (k + a.first), a.put disk k true) else .error .assert) ∨
    (a.length = blockSize ∨ n = 0) ∧ (∀ j, i * blockBits ≤ j → j < (i + n) * blockBits → a.bit disk j = true) ∧
      allocLoop a disk n i = .ok (none, disk) ∨
    (a.length ≠ blockSize ∧ n ≠ 0) ∧ (∀ j, i * blockBits ≤ j → j < (i + 1) * blockBits → a.bit disk j = true) ∧
      allocLoop a disk n i = .error .outside
  | 0, i => .inr (.inl ⟨.inr rfl, fun j h1 h2 => by rw [Nat.add_zero] at h2; omega, rfl⟩)
  | n + 1, i => by
    have hmul : (i + (n + 1)) * blockBits = (i + 1 + n) * blockBits := by rw [Nat.add_assoc, Nat.add_comm 1 n]
    have hle : (i + 1) * blockBits ≤ (i + (n + 1)) * blockBits := Nat.mul_le_mul_right _ (by omega)
    rcases scan_block a disk i hlen with ⟨k, h1, h2, h3, h4, m, h5, h6⟩ | ⟨h1, h2⟩
    · refine .inl ⟨k, h1, by omega, fun _ => h2, h3, h4, ?_⟩
      unfold allocLoop
      rw [h5]
      show (if k + a.first < a.limit then _ else _) = _
      rw [h6]
      rfl
    · have hrest : ∀ e, (∀ j, (i + 1) * blockBits ≤ j → j < e → a.bit disk j = true) →
          ∀ j, i * blockBits ≤ j → j < e → a.bit disk j = true := by
        intro e h j h3 h4
        by_cases h5 : j < (i + 1) * blockBits
        · exact h1 j h3 h5
        · exact h j (by omega) h4
      by_cases hl : a.length = blockSize
      · have hnext : allocLoop a disk (n + 1) i = allocLoop a disk n (i + 1) := by
          rw [allocLoop, h2, if_pos hl]
          rfl
        have hi : i * blockBits ≤ (i + 1) * blockBits := Nat.mul_le_mul_right _ (by omega)
        rw [hnext, hmul]
        rcases allocLoop_spec hlen n (i + 1) with ⟨k, h3, h4, -, h6, h7, h8⟩ | ⟨-, h4, h5⟩ | ⟨⟨h3, -⟩, -⟩
        · exact .inl ⟨k, by omega, h4, fun e => absurd hl e, h6, hrest _ h7, h8⟩
        · exact .inr (.inl ⟨.inl hl, hrest _ h4, h5⟩)
        · exact absurd hl h3
      · refine .inr (.inr ⟨⟨hl, Nat.succ_ne_zero n⟩, h1, ?_⟩)
        rw [allocLoop, h2, if_neg hl]
        rfl

def freeAt (a : Area) (disk : Disk) (idx i : Nat) : Except Fault Disk := do
  let taken ← ofBitmap ((a.map disk i).test idx)
  if taken = false then .error .assert
  else do
    let map ← ofBitmap ((a.map disk i).set idx false)
    pure (Function.update disk (a.base + i) map.bits)

theorem freeLoop_eq : ∀ (n i : Nat), i ≤ (x - 1) / blockBits →
    freeLoop a disk x n i = if (x - 1) / blockBits < i + n then freeAt a disk x ((x - 1) / blockBits) else .error .buf
  | 0, i, h => by
    rw [if_neg (by omega)]
    rfl
  | n + 1, i, h => by
    unfold freeLoop
    by_cases hx : x > blockBits * (i + 1)
    · have hi : i + 1 ≤ (x - 1) / blockBits := by
        unfold blockBits at *
        omega
      rw [if_pos hx, freeLoop_eq n (i + 1) hi, Nat.add_assoc, Nat.add_comm 1 n]
    · have hi : (x - 1) / blockBits = i := by
        unfold blockBits at *
        omega
      rw [if_neg hx, hi, if_pos (by omega)]
      rfl

theorem freeAt_ok {i : Nat} (hlen : blockSize ≤ a.length) (hx : a.first ≤ x) (hi : (x - a.first) / blockBits = i)
    (hb : a.bit disk (x - a.first) = true) : freeAt a disk x i = .ok (a.put disk (x - a.first) false) := by
  have hbits : blockBits = blockSize * 8 := rfl
  have hlt : (x - a.first) % blockBits < blockBits := Nat.mod_lt _ (by decide)
  have hsplit : x = (a.map disk i).offset + (x - a.first) % blockBits := by
    show x = i * blockBits + a.first + (x - a.first) % blockBits
    have h1 := Nat.div_add_mod' (x - a.first) blockBits
    rw [hi] at h1
    omega
  have hroom : (x - a.first) % blockBits / 8 < (a.map disk i).room := by
    show _ < blockSize
    omega
  have htest : (a.map disk i).test x = .ok true := by
    have h1 := Bitmap.test_ok (m := a.map disk i) (k := (x - a.first) % blockBits) (by
      show _ < a.length
      omega) hroom
    rw [← hsplit] at h1
    rw [h1, ← hb, ← hi]
    rfl
  have hset : (a.map disk i).set x false =
      .ok { a.map disk i with bits := Bitmap.put (disk (a.base + i)) ((x - a.first) % blockBits) false } := by
    have h1 := Bitmap.set_ok (m := a.map disk i) (k := (x - a.first) % blockBits) false hroom
    rw [← hsplit] at h1
    exact h1
  unfold freeAt
  rw [htest]
  show (do
    let map ← ofBitmap ((a.map disk i).set x false)
    pure (Function.update disk (a.base + i) map.bits)) = _
  rw [hset]
  unfold Area.put
  rw [hi]
  rfl

theorem freeAt_before {i : Nat} (hx : x < i * blockBits + a.first) : freeAt a disk x i = .error .assert := by
  have htest : (a.map disk i).test x = .error .assert := by
    exact if_pos (.inl hx)
  unfold freeAt
  rw [htest]
  rfl

theorem freeAt_past {i : Nat} (hx : x = i * blockBits + a.first + blockBits) (hlen : blockSize < a.length) :
    freeAt a disk x i = .error .outside := by
  have hdiv : blockBits / 8 = blockSize := rfl
  have htest : (a.map disk i).test x = .error .outside := by
    have h1 := Bitmap.test_outside (m := a.map disk i) (k := blockBits) (by rw [hdiv]; exact hlen) (by rw [hdiv]; exact Nat.le_refl _)
    rw [show (a.map disk i).offset + blockBits = x from hx.symm] at h1
    exact h1
  unfold freeAt
  rw [htest]
  rfl

/-! ## The invariant -/

/-- What the fields of a filesystem made by `minix_mkfs` guarantee. -/
structure Geometry (d : Desc) : Prop where
  first : 2 ≤ d.firstdatazone
  zones : ∀ z, d.firstdatazone ≤ z → z < d.zones → z + 1 - d.firstdatazone < d.zmapBlocks * blockBits
  inodes : d.inodes ≤ d.imapBlocks * blockBits

/-- The bits of an area that are set are its first one and those of the numbers held, which are in range. -/
structure Marks (a : Area) (lo : Nat) (held : Finset Nat) (disk : Disk) : Prop where
  bits : ∀ k, k < a.blocks * blockBits → (a.bit disk k = true ↔ k = 0 ∨ k + a.first ∈ held)
  range : ∀ x ∈ held, lo ≤ x ∧ x < a.limit ∧ x - a.first < a.blocks * blockBits

structure Inv (s : State) : Prop where
  geometry : Geometry s.desc
  root : 1 ≤ s.desc.inodes
  zones : Marks s.desc.zmap s.desc.firstdatazone s.zones s.disk
  inodes : Marks s.desc.imap 1 s.inodes s.disk

variable {lo : Nat} {held : Finset Nat} {s s' : State}

/-- The numbers of an area begin after its first bit, and each has a bit. -/
structure Fits (a : Area) (lo : Nat) : Prop where
  start : lo = a.first + 1
  length : blockSize ≤ a.length
  limit : ∀ x, lo ≤ x → x < a.limit → x - a.first < a.blocks * blockBits

theorem Geometry.zmap {d : Desc} (h : Geometry d) : Fits d.zmap d.firstdatazone := by
  have h1 := h.first
  refine ⟨show _ = d.firstdatazone - 1 + 1 by omega, Nat.le_refl _, fun x h2 h3 => ?_⟩
  have h4 := h.zones x h2 h3
  show x - (d.firstdatazone - 1) < d.zmapBlocks * blockBits
  rw [show x - (d.firstdatazone - 1) = x + 1 - d.firstdatazone by omega]
  exact h4

theorem Geometry.imap {d : Desc} (h : Geometry d) : Fits d.imap 1 :=
  ⟨rfl, show blockSize ≤ blockBits by decide, fun _ _ h2 => Nat.lt_of_lt_of_le h2 h.inodes⟩

theorem Marks.flip {held' : Finset Nat} (h : Marks a lo held disk) (hf : Fits a lo) (hlo : lo ≤ x) (hlim : x < a.limit)
    (hd : Flips disk disk' (a.block x) (a.place x) v) (hh : ∀ y, y ∈ held' ↔ if y = x then v = true else y ∈ held) :
    Marks a lo held' disk' := by
  have hl := hf.start
  refine ⟨fun y hy => ?_, fun y hy => ?_⟩
  · have hxy : y + a.first = x ↔ y = x - a.first := by omega
    rw [hd.same, hh]
    by_cases hyx : y = x - a.first
    · have hy0 : y ≠ 0 := by omega
      rw [if_pos hyx, if_pos (hxy.2 hyx)]
      simp [hy0]
    · rw [if_neg hyx, if_neg (mt hxy.1 hyx)]
      exact h.bits y hy
  · rw [hh] at hy
    split at hy
    · rename_i hyx
      exact ⟨hyx ▸ hlo, hyx ▸ hlim, hyx ▸ hf.limit x hlo hlim⟩
    · exact h.range y hy

theorem Marks.other {c j : Nat} (h : Marks a lo held disk) (hd : Flips disk disk' c j v) (hc : ∀ i, i < a.blocks → a.base + i ≠ c) :
    Marks a lo held disk' := by
  refine ⟨fun k hk => ?_, h.range⟩
  rw [hd.other (hc _ ((Nat.div_lt_iff_lt_mul (by decide)).2 hk))]
  exact h.bits k hk

/-- The bitmap has a clear bit for a number in range that the loop comes to, or none and the loop stays in the blocks. -/
def Area.Holds (a : Area) (lo : Nat) (held : Finset Nat) : Prop :=
  (∃ x, lo ≤ x ∧ x < a.limit ∧ x ∉ held ∧ (a.length ≠ blockSize → x - a.first < blockBits)) ∨
    (a.length = blockSize ∨ a.blocks = 0) ∧ a.blocks * blockBits ≤ a.limit - a.first

theorem Marks.alloc (h : Marks a lo held disk) (hf : Fits a lo) :
    (a.Holds lo held ∧ Allocates a lo held disk (allocLoop a disk a.blocks 0)) ∨
      ¬ a.Holds lo held ∧ ∃ e, allocLoop a disk a.blocks 0 = .error e := by
  have hl := hf.start
  rcases allocLoop_spec a disk hf.length a.blocks 0 with ⟨k, -, h2, h3, h4, h5, h6⟩ | ⟨h1, h2, h3⟩ | ⟨h1, h2, h3⟩
  · rw [Nat.zero_add] at h2
    have hk := h.bits k h2
    rw [h4] at hk
    have hk0 : k ≠ 0 := fun e => nomatch hk.2 (.inl e)
    have hkh : k + a.first ∉ held := fun e => nomatch hk.2 (.inr e)
    -- every number below is in use
    have hbelow : ∀ x, lo ≤ x → x - a.first < k → x ∈ held := fun x h7 h8 => by
      have h9 := (h.bits (x - a.first) (by omega)).1 (h5 _ (by omega) h8)
      rw [show x - a.first + a.first = x by omega] at h9
      exact h9.resolve_left (by omega)
    rw [h6]
    by_cases hlim : k + a.first < a.limit
    · rw [if_pos hlim]
      have hflip := put_flips (v := true) h4
      refine .inl ⟨.inl ⟨k + a.first, by omega, hlim, hkh, fun e => ?_⟩, .inl ⟨k + a.first, _, rfl, by omega, hlim, hkh, ?_⟩⟩
      · have h7 := h3 e
        omega
      · unfold Area.block Area.place
        rw [Nat.add_sub_cancel]
        exact hflip
    · rw [if_neg hlim]
      refine .inr ⟨?_, _, rfl⟩
      rintro (⟨x, h7, h8, h9, -⟩ | ⟨-, h7⟩)
      · exact h9 (hbelow x h7 (by omega))
      · omega
  · rw [Nat.zero_add] at h2
    rw [h3]
    have hall : ∀ x, lo ≤ x → x < a.limit → x ∈ held := fun x h4 h5 => by
      have h6 := hf.limit x h4 h5
      have h7 := (h.bits (x - a.first) h6).1 (h2 _ (by omega) h6)
      rw [show x - a.first + a.first = x by omega] at h7
      exact h7.resolve_left (by omega)
    refine .inl ⟨.inr ⟨h1, ?_⟩, .inr ⟨hall, rfl⟩⟩
    -- the last bit of the blocks is that of a number
    by_contra hlt
    have hlast : a.blocks * blockBits - 1 < a.blocks * blockBits := by omega
    rcases (h.bits _ hlast).1 (h2 _ (by omega) hlast) with h4 | h4
    · have h5 : a.blocks * blockBits = 1 := by omega
      have h6 : blockBits = 1 := Nat.eq_one_of_mul_eq_one_left h5
      cases h6
    · have h5 := (h.range _ h4).2.1
      omega
  · rw [h3]
    refine .inr ⟨?_, _, rfl⟩
    rintro (⟨x, h4, h5, h6, h7⟩ | ⟨h4, -⟩)
    · have h8 := h7 h1.1
      have h9 := (h.bits (x - a.first) (hf.limit x h4 h5)).1 (h2 _ (by omega) (by omega))
      rw [show x - a.first + a.first = x by omega] at h9
      exact h6 (h9.resolve_left (by omega))
    · exact h4.elim h1.1 h1.2

theorem Marks.allocates (h : Marks a lo held disk) (hf : Fits a lo) :
    Allocates a lo held disk (allocLoop a disk a.blocks 0) ↔ a.Holds lo held := by
  rcases h.alloc hf with ⟨h1, h2⟩ | ⟨h1, e, h2⟩
  · exact ⟨fun _ => h1, fun _ => h2⟩
  · refine ⟨fun h3 => ?_, fun h3 => absurd h3 h1⟩
    rw [h2] at h3
    rcases h3 with ⟨x, disk', h3, -⟩ | ⟨-, h3⟩
    · cases h3
    · cases h3

def Apart (a b : Area) : Prop := ∀ i j, i < a.blocks → j < b.blocks → b.base + j ≠ a.base + i

theorem Marks.allocated {o : Option Nat} (h : Marks a lo held disk) (hf : Fits a lo) (hr : allocLoop a disk a.blocks 0 = .ok (o, disk')) :
    Marks a lo (o.toFinset ∪ held) disk' ∧ ∀ b l hb, Marks b l hb disk → Apart a b → Marks b l hb disk' := by
  rcases h.alloc hf with ⟨-, h2⟩ | ⟨-, e, h2⟩
  · rw [hr] at h2
    rcases h2 with ⟨x, d, h5, h3, h4, -, h7⟩ | ⟨-, h3⟩
    · cases h5
      refine ⟨h.flip hf h3 h4 h7 fun y => ?_, fun b l hb h8 h9 => h8.other h7 fun i hi =>
        h9 _ i ((Nat.div_lt_iff_lt_mul (by decide)).2 (hf.limit x h3 h4)) hi⟩
      by_cases hy : y = x
      · simp [hy]
      · simp [hy]
    · cases h3
      refine ⟨?_, fun _ _ _ h8 _ => h8⟩
      rw [Option.toFinset_none, Finset.empty_union]
      exact h
  · cases hr.symm.trans h2

theorem Marks.freed (h : Marks a lo held disk) (hf : Fits a lo) (hx : x ∈ held) (hr : Frees a x disk (.ok disk')) :
    Marks a lo (held.erase x) disk' ∧ ∀ b l hb, Marks b l hb disk → Apart a b → Marks b l hb disk' := by
  obtain ⟨d, h1, h2⟩ := hr
  cases h1
  obtain ⟨h3, h4, h5⟩ := h.range x hx
  refine ⟨h.flip hf h3 h4 h2 fun y => ?_, fun b l hb h8 h9 => h8.other h2 fun i hi =>
    h9 _ i ((Nat.div_lt_iff_lt_mul (by decide)).2 h5) hi⟩
  by_cases hy : y = x
  · simp [hy]
  · simp [hy]

theorem Marks.frees (h : Marks a lo held disk) (hf : Fits a lo) (hx : x ∈ held) (hpast : blockSize < a.length ↔ a.first = 0) :
    Frees a x disk (free a disk x) ↔ (x - 1) / blockBits = (x - a.first) / blockBits := by
  have hl := hf.start
  obtain ⟨h1, h2, h3⟩ := h.range x hx
  have hb : a.bit disk (x - a.first) = true := (h.bits _ h3).2 (.inr (by rw [show x - a.first + a.first = x by omega]; exact hx))
  have hfree : free a disk x = if (x - 1) / blockBits < a.blocks then freeAt a disk x ((x - 1) / blockBits) else .error .buf := by
    unfold free
    rw [if_pos h2, freeLoop_eq _ _ (Nat.zero_le _), Nat.zero_add]
  have hno : ∀ e, free a disk x = .error e → ¬ Frees a x disk (free a disk x) := by
    rintro e he ⟨disk', h4, -⟩
    cases he.symm.trans h4
  by_cases hi : (x - 1) / blockBits = (x - a.first) / blockBits
  · have hin : (x - a.first) / blockBits < a.blocks := (Nat.div_lt_iff_lt_mul (by decide)).2 h3
    refine ⟨fun _ => hi, fun _ => ⟨a.put disk (x - a.first) false, ?_, put_flips hb⟩⟩
    rw [hfree, hi, if_pos hin]
    exact freeAt_ok hf.length (by omega) rfl hb
  · refine ⟨fun hfr => absurd hfr ?_, fun e => absurd e hi⟩
    by_cases hin : (x - 1) / blockBits < a.blocks
    · rw [if_pos hin] at hfree
      by_cases hz : a.first = 0
      · -- a multiple of the bits of a block
        refine hno .outside (hfree.trans (freeAt_past ?_ (hpast.2 hz)))
        unfold blockBits at *
        omega
      · refine hno .assert (hfree.trans (freeAt_before ?_))
        unfold blockBits at *
        omega
    · exact hno .buf (hfree.trans (if_neg hin))

/-! ## The geometry -/

theorem geometry_ok {total icount : Nat} (ht : total < 2 ^ 16) (hi : icount < 2 ^ 16) : Geometry (geometry total icount) := by
  obtain ⟨A, hA, hA1, hA2⟩ : ∃ A, divRoundUp icount blockBits % 2 ^ 16 = A ∧ A ≤ 8 ∧ icount ≤ A * 8192 := by
    refine ⟨_, rfl, ?_⟩
    unfold divRoundUp blockBits
    omega
  obtain ⟨B, hB, hB1⟩ : ∃ B, divRoundUp (icount * 32) blockSize = B ∧ B ≤ 2048 := by
    refine ⟨_, rfl, ?_⟩
    unfold divRoundUp blockSize
    omega
  obtain ⟨Z, hZ, hZ1, hZ2, hZ3⟩ : ∃ Z, divRoundUp ((total + 2 ^ 32 - A - B - 2) % 2 ^ 32) blockBits % 2 ^ 16 = Z ∧ Z ≤ 8 ∧
      (A + B + 2 < total → total ≤ A + B + 2 + Z * 8192 ∧ 0 < Z) ∧ (total ≤ A + B + 2 → Z = 0) := by
    refine ⟨_, rfl, ?_⟩
    unfold divRoundUp blockBits
    omega
  have hd : geometry total icount = ⟨icount, total, A, Z, 2 + A + Z + B⟩ := by
    unfold geometry
    rw [hA, hB]
    dsimp only
    rw [hZ, Nat.mod_eq_of_lt hi, Nat.mod_eq_of_lt ht, Nat.mod_eq_of_lt (by omega)]
  rw [hd]
  refine ⟨?_, fun z h1 h2 => ?_, hA2⟩
  · show 2 ≤ 2 + A + Z + B
    omega
  · have h1 : 2 + A + Z + B ≤ z := h1
    have h2 : z < total := h2
    show z + 1 - (2 + A + Z + B) < Z * 8192
    rcases Nat.lt_or_ge (A + B + 2) total with h3 | h3
    · have h4 := hZ2 h3
      omega
    · omega

theorem apart_imap (d : Desc) : Apart d.zmap d.imap := fun i j _ hj => by
  have hj : j < d.imapBlocks := hj
  show 2 + j ≠ 2 + d.imapBlocks + i
  omega

theorem apart_zmap (d : Desc) : Apart d.imap d.zmap := fun i j hi hj e => apart_imap d j i hj hi e.symm

/-! ## The steps -/

theorem Inv.balloc_iff (h : Inv s) : Meets s .balloc ↔ Sound s .balloc := by
  refine (h.zones.allocates h.geometry.zmap).trans ⟨?_, ?_⟩
  · rintro (⟨z, h1, h2, h3, -⟩ | ⟨-, h1⟩)
    · exact .inl ⟨z, h1, h2, h3⟩
    · refine .inr (Nat.le_trans h1 ?_)
      show s.desc.zones - (s.desc.firstdatazone - 1) ≤ s.desc.zones + 1 - s.desc.firstdatazone
      omega
  · rintro (⟨z, h1, h2, h3⟩ | h1)
    · exact .inl ⟨z, h1, h2, h3, fun e => absurd rfl e⟩
    · refine .inr ⟨.inl rfl, Nat.le_trans h1 ?_⟩
      show s.desc.zones + 1 - s.desc.firstdatazone ≤ s.desc.zones - (s.desc.firstdatazone - 1)
      have h2 := h.geometry.first
      omega

theorem Inv.imap_pos (h : Inv s) : s.desc.imapBlocks ≠ 0 := fun e => by
  have h1 := h.geometry.inodes
  have h2 := h.root
  rw [e] at h1
  omega

theorem Inv.ialloc_iff (h : Inv s) : Meets s .ialloc ↔ Sound s .ialloc := by
  refine (h.inodes.allocates h.geometry.imap).trans ⟨?_, ?_⟩
  · rintro (⟨n, h1, h2, h3, h4⟩ | ⟨h1 | h1, -⟩)
    · exact ⟨n, h1, h2, h4 (show blockBits ≠ blockSize by decide), h3⟩
    · exact absurd h1 (show blockBits ≠ blockSize by decide)
    · exact absurd h1 h.imap_pos
  · rintro ⟨n, h1, h2, h3, h4⟩
    exact .inl ⟨n, h1, h2, h4, fun _ => h3⟩

theorem Inv.bfree_iff (h : Inv s) {z : Nat} (hz : z ∈ s.zones) : Meets s (.bfree z) ↔ Sound s (.bfree z) := by
  have h1 := h.geometry.first
  refine (h.zones.frees h.geometry.zmap hz ?_).trans ?_
  · refine ⟨fun e => absurd e (Nat.lt_irrefl _), fun e => ?_⟩
    have e : s.desc.firstdatazone - 1 = 0 := e
    omega
  · show (z - 1) / blockBits = (z - (s.desc.firstdatazone - 1)) / blockBits ↔ _
    rw [show z - (s.desc.firstdatazone - 1) = z + 1 - s.desc.firstdatazone by omega]
    exact .rfl

theorem Inv.ifree_iff (h : Inv s) {n : Nat} (hn : n ∈ s.inodes) : Meets s (.ifree n) ↔ Sound s (.ifree n) := by
  have h1 : 1 ≤ n := (h.inodes.range n hn).1
  refine (h.inodes.frees h.geometry.imap hn ⟨fun _ => rfl, fun _ => show blockSize < blockBits by decide⟩).trans ?_
  show (n - 1) / blockBits = n / blockBits ↔ n % blockBits ≠ 0
  unfold blockBits
  omega

theorem Inv.step {c : Act} (h : Inv s) (he : enabled s c) (hm : Meets s c) (hs : step s c = .ok s') : Inv s' := by
  cases c with
  | balloc =>
    obtain ⟨r, hr, hs⟩ := bind_ok hs
    cases hs
    obtain ⟨h1, h2⟩ := h.zones.allocated h.geometry.zmap hr
    exact ⟨h.geometry, h.root, h1, h2 _ _ _ h.inodes (apart_imap _)⟩
  | ialloc =>
    obtain ⟨r, hr, hs⟩ := bind_ok hs
    cases hs
    obtain ⟨h1, h2⟩ := h.inodes.allocated h.geometry.imap hr
    exact ⟨h.geometry, h.root, h2 _ _ _ h.zones (apart_zmap _), h1⟩
  | bfree z =>
    obtain ⟨r, hr, hs⟩ := bind_ok hs
    cases hs
    have hm : Frees s.desc.zmap z s.disk (minixBfree s.desc s.disk z) := hm
    rw [hr] at hm
    obtain ⟨h1, h2⟩ := h.zones.freed h.geometry.zmap he hm
    exact ⟨h.geometry, h.root, h1, h2 _ _ _ h.inodes (apart_imap _)⟩
  | ifree n =>
    obtain ⟨r, hr, hs⟩ := bind_ok hs
    cases hs
    have hm : Frees s.desc.imap n s.disk (minixIfree s.desc s.disk n) := hm
    rw [hr] at hm
    obtain ⟨h1, h2⟩ := h.inodes.freed h.geometry.imap he hm
    exact ⟨h.geometry, h.root, h2 _ _ _ h.zones (apart_zmap _), h1⟩

theorem Inv.iff {c : Act} (h : Inv s) (he : enabled s c) : Meets s c ↔ Sound s c := by
  cases c with
  | balloc => exact h.balloc_iff
  | bfree z => exact h.bfree_iff he
  | ialloc => exact h.ialloc_iff
  | ifree n => exact h.ifree_iff he

theorem Fits.apart {b : Nat} (hf : Fits a lo) (h1 : lo ≤ x) (h2 : x < a.limit) (hb : ∀ i < a.blocks, b ≠ a.base + i) : b ≠ a.block x :=
  hb _ ((Nat.div_lt_iff_lt_mul (by decide)).2 (hf.limit x h1 h2))

theorem Allocates.outside {r : Option Nat × Disk} {b : Nat} (h : Allocates a lo held disk (.ok r)) (hf : Fits a lo)
    (hb : ∀ i < a.blocks, b ≠ a.base + i) (j : Nat) : bit (r.2 b) j = bit (disk b) j := by
  rcases h with ⟨x, disk', e, h1, h2, -, hflip⟩ | ⟨-, e⟩
  · cases e
    exact (hflip.2.2 b j).trans (if_neg fun hc => hf.apart h1 h2 hb hc.1)
  · cases e
    rfl

theorem Frees.outside {b : Nat} (h : Frees a x disk (.ok disk')) (hm : Marks a lo held disk) (hf : Fits a lo) (hx : x ∈ held)
    (hb : ∀ i < a.blocks, b ≠ a.base + i) (j : Nat) : bit (disk' b) j = bit (disk b) j := by
  obtain ⟨_, e, hflip⟩ := h
  cases e
  exact (hflip.2.2 b j).trans (if_neg fun hc => hf.apart (hm.range x hx).1 (hm.range x hx).2.1 hb hc.1)

/-- A block that is no bitmap. -/
def Desc.Outside (d : Desc) (b : Nat) : Prop := b < 2 ∨ 2 + d.imapBlocks + d.zmapBlocks ≤ b

structure Keeps (s t : State) : Prop where
  desc : t.desc = s.desc
  outside : ∀ b, s.desc.Outside b → ∀ j, bit (t.disk b) j = bit (s.disk b) j

theorem Inv.keeps {c : Act} (h : Inv s) (he : enabled s c) (hm : Meets s c) (hs : Minix.step s c = .ok s') : Keeps s s' := by
  have hz : ∀ b, s.desc.Outside b → ∀ i < s.desc.zmap.blocks, b ≠ s.desc.zmap.base + i := by
    unfold Desc.Outside Desc.zmap
    dsimp only
    omega
  have hi : ∀ b, s.desc.Outside b → ∀ i < s.desc.imap.blocks, b ≠ s.desc.imap.base + i := by
    unfold Desc.Outside Desc.imap
    dsimp only
    omega
  cases c with
  | balloc =>
    obtain ⟨r, hr, hs⟩ := bind_ok hs
    cases hs
    have hm : Allocates _ _ _ _ (minixBalloc s.desc s.disk) := hm
    rw [hr] at hm
    exact ⟨rfl, fun b hb => hm.outside h.geometry.zmap (hz b hb)⟩
  | ialloc =>
    obtain ⟨r, hr, hs⟩ := bind_ok hs
    cases hs
    have hm : Allocates _ _ _ _ (minixIalloc s.desc s.disk) := hm
    rw [hr] at hm
    exact ⟨rfl, fun b hb => hm.outside h.geometry.imap (hi b hb)⟩
  | bfree z =>
    obtain ⟨r, hr, hs⟩ := bind_ok hs
    cases hs
    have hm : Frees _ z s.disk (minixBfree s.desc s.disk z) := hm
    rw [hr] at hm
    exact ⟨rfl, fun b hb => hm.outside h.zones h.geometry.zmap he (hz b hb)⟩
  | ifree n =>
    obtain ⟨r, hr, hs⟩ := bind_ok hs
    cases hs
    have hm : Frees _ n s.disk (minixIfree s.desc s.disk n) := hm
    rw [hr] at hm
    exact ⟨rfl, fun b hb => hm.outside h.inodes h.geometry.imap he (hi b hb)⟩

/-! ## A new filesystem -/

def Clear (a : Area) (disk : Disk) : Prop := ∀ k, k < a.blocks * blockBits → a.bit disk k = false

theorem Clear.first {o : Option Nat} (h : Clear a disk) (hf : Fits a lo) (hr : allocLoop a disk a.blocks 0 = .ok (o, disk')) :
    Marks a lo ∅ disk' ∧ (∀ b, Clear b disk → Apart a b → Clear b disk') ∧
      ∀ b l hb, Marks b l hb disk → Apart a b → Marks b l hb disk' := by
  rcases allocLoop_spec a disk hf.length a.blocks 0 with ⟨k, -, h2, -, h4, h5, h6⟩ | ⟨h1, h2, h3⟩ | ⟨h1, h2, h3⟩
  · rw [Nat.zero_add] at h2
    have hk : k = 0 := by
      by_contra hne
      have h7 := h5 0 (by omega) (by omega)
      rw [h 0 (by omega)] at h7
      cases h7
    subst hk
    have hd := put_flips (v := true) h4
    rw [h6] at hr
    split at hr
    · cases hr
      have hblocks : 0 / blockBits < a.blocks := by
        refine Nat.pos_of_ne_zero fun e => ?_
        rw [e] at h2
        omega
      refine ⟨⟨fun y hy => ?_, nofun⟩, fun b hb hab y hy => ?_, fun b l hb h7 hab => h7.other hd fun i hi => hab _ i hblocks hi⟩
      · rw [hd.same]
        by_cases hy0 : y = 0
        · simp [hy0]
        · rw [if_neg hy0, h y hy]
          simp [hy0]
      · rw [hd.other (hab _ _ hblocks ((Nat.div_lt_iff_lt_mul (by decide)).2 hy))]
        exact hb y hy
    · cases hr
  · rw [h3] at hr
    cases hr
    rw [Nat.zero_add] at h2
    refine ⟨⟨fun y hy => ?_, nofun⟩, fun _ hb _ => hb, fun _ _ _ hb _ => hb⟩
    have h4 := h2 y (by omega) hy
    rw [h y hy] at h4
    cases h4
  · rw [h3] at hr
    cases hr

theorem Marks.second {o : Option Nat} (h : Marks a lo ∅ disk) (hf : Fits a lo) (hb : a.blocks ≠ 0)
    (hr : allocLoop a disk a.blocks 0 = .ok (o, disk')) :
    o = some (1 + a.first) := by
  have hpos : 1 < a.blocks * blockBits := Nat.lt_of_lt_of_le (by decide) (Nat.le_mul_of_pos_left blockBits (Nat.pos_of_ne_zero hb))
  have h0 : a.bit disk 0 = true := (h.bits 0 (by omega)).2 (.inl rfl)
  have h1 : a.bit disk 1 = false := by
    rw [← Bool.not_eq_true, h.bits 1 hpos]
    rintro (e | e)
    · cases e
    · cases e
  rcases allocLoop_spec a disk hf.length a.blocks 0 with ⟨k, -, h2, -, h4, h5, h6⟩ | ⟨-, h2, -⟩ | ⟨-, -, h3⟩
  · have hk : k = 1 := by
      rcases Nat.lt_trichotomy k 1 with hk | hk | hk
      · have hk : k = 0 := by omega
        rw [hk, h0] at h4
        cases h4
      · exact hk
      · have h7 := h5 1 (by omega) hk
        rw [h1] at h7
        cases h7
    rw [h6, hk] at hr
    split at hr <;> cases hr
    rfl
  · have h3 := h2 1 (by omega) (by rw [Nat.zero_add]; exact hpos)
    rw [h1] at h3
    cases h3
  · rw [h3] at hr
    cases hr

theorem clear_of {b n : Nat} (hz : ∀ c, b ≤ c → c < b + n → ∀ k, Bitmap.bit (disk c) k = false) (h1 : b ≤ a.base)
    (h2 : a.base + a.blocks ≤ b + n) :
    Clear a disk := fun k hk => by
  have h3 : k / blockBits < a.blocks := (Nat.div_lt_iff_lt_mul (by decide)).2 hk
  exact hz _ (Nat.le_trans h1 (Nat.le_add_right ..)) (Nat.lt_of_lt_of_le (Nat.add_lt_add_left h3 _) h2) _

theorem mkfs_inv {total icount : Nat} (ht : total < 2 ^ 16) (h : minixMkfs disk total icount = .ok s) : Inv s := by
  unfold minixMkfs at h
  split at h
  · cases h
  dsimp only at h
  obtain ⟨d, hd⟩ : ∃ d, d = geometry total (if icount = 0 then total / 3 else icount) := ⟨_, rfl⟩
  rw [← hd] at h
  have hg : Geometry d := by
    rw [hd]
    refine geometry_ok ht ?_
    split
    · omega
    · omega
  -- the blocks of both bitmaps are cleared
  obtain ⟨disk0, hdisk⟩ : ∃ e : Disk, e = fun b => if 2 ≤ b ∧ b < 2 + d.imapBlocks + d.zmapBlocks then fun _ => 0 else disk b := ⟨_, rfl⟩
  rw [← hdisk] at h
  have hzero : ∀ b, 2 ≤ b → b < 2 + (d.imapBlocks + d.zmapBlocks) → ∀ k, Bitmap.bit (disk0 b) k = false := fun b h1 h2 k => by
    have h3 : disk0 b = fun _ => 0 := by
      rw [hdisk]
      exact if_pos ⟨h1, by omega⟩
    rw [h3]
    exact BitVec.getLsbD_zero
  have hz : Clear d.zmap disk0 := clear_of hzero (show 2 ≤ 2 + d.imapBlocks by omega)
    (show 2 + d.imapBlocks + d.zmapBlocks ≤ 2 + (d.imapBlocks + d.zmapBlocks) by omega)
  have hi : Clear d.imap disk0 := clear_of hzero (Nat.le_refl 2) (show 2 + d.imapBlocks ≤ 2 + (d.imapBlocks + d.zmapBlocks) by omega)
  obtain ⟨r1, hr1, h⟩ := bind_ok h
  obtain ⟨hz1, hi1, -⟩ := hz.first hg.zmap hr1
  obtain ⟨r2, hr2, h⟩ := bind_ok h
  obtain ⟨hi2, -, hz2⟩ := (hi1 _ hi (apart_imap d)).first hg.imap hr2
  obtain ⟨r3, hr3, h⟩ := bind_ok h
  split at h
  · cases h
  rename_i hroot
  obtain ⟨r4, hr4, h⟩ := bind_ok h
  cases h
  have hblocks : d.imap.blocks ≠ 0 := fun e => by
    have h1 := hg.inodes
    have e : d.imapBlocks = 0 := e
    rw [e] at h1
    omega
  obtain ⟨hi3, hz3⟩ := hi2.allocated hg.imap hr3
  rw [hi2.second hg.imap hblocks hr3] at hi3
  obtain ⟨hz4, hi4⟩ := (hz3 _ _ _ (hz2 _ _ _ hz1 (apart_zmap d)) (apart_zmap d)).allocated hg.zmap hr4
  have hheld : r4.1.toFinset ∪ ∅ = r4.1.toFinset := Finset.union_empty _
  rw [hheld] at hz4
  exact ⟨hg, Nat.not_lt.1 fun e => hroot (Nat.not_le.2 e), hz4, hi4 _ _ _ hi3 (apart_imap d)⟩

theorem reach_inv (h : bitmaps.Reach Sound s) : Inv s := by
  refine h.inv (I := Inv) ?_ ?_
  · rintro s ⟨disk, total, icount, ht, hs⟩
    exact mkfs_inv ht hs
  · rintro s c s' hi hc ⟨he, hs⟩
    exact hi.step he ((hi.iff he).2 hc) hs

/-- In a run whose calls meet the condition, a call does what it is for exactly when it meets the condition. -/
theorem bitmaps_meet (h : bitmaps.Reach Sound s) {c : Act} (he : enabled s c) : Meets s c ↔ Sound s c := (reach_inv h).iff he

theorem mkfs_any (disk : Disk) (total icount : Nat) (p : State → Bool) (h : (minixMkfs disk total icount).toOption.any p = true) :
    ∃ s, minixMkfs disk total icount = .ok s ∧ p s = true := by
  cases hs : minixMkfs disk total icount with
  | error e =>
    rw [hs] at h
    cases h
  | ok s =>
    rw [hs] at h
    exact ⟨s, rfl, h⟩

/-- A filesystem of seven blocks and two inodes, whose second zone is free. -/
theorem bitmaps_meet_seven : ∃ s, bitmaps.Reach Sound s ∧ Sound s .balloc ∧ Meets s .balloc := by
  obtain ⟨s, hs, h⟩ := mkfs_any (fun _ _ => 0) 7 2
    (fun s => decide (s.desc.firstdatazone ≤ 6 ∧ 6 < s.desc.zones ∧ 6 ∉ s.zones)) (by decide +kernel)
  have hr : bitmaps.Reach Sound s := ⟨s, ⟨_, 7, 2, by decide, hs⟩, .refl s⟩
  have he : enabled s .balloc := trivial
  have hb : Sound s .balloc := .inl ⟨6, of_decide_eq_true h⟩
  exact ⟨s, hr, hb, (bitmaps_meet hr he).2 hb⟩

/-- In a filesystem of six blocks and two inodes the root has the only zone: an allocation fails the assertion. -/
theorem last_zone_taken : ∃ s, bitmaps.start s ∧ enabled s .balloc ∧ minixBalloc s.desc s.disk = .error .assert ∧ ¬ Meets s .balloc := by
  obtain ⟨s, hs, h⟩ := mkfs_any (fun _ _ => 0) 6 2
    (fun s => match minixBalloc s.desc s.disk with | .error .assert => true | _ => false) (by decide +kernel)
  have hb : minixBalloc s.desc s.disk = .error .assert := by
    revert h
    split
    · rename_i hr
      exact fun _ => hr
    · exact fun e => nomatch e
  refine ⟨s, ⟨_, 6, 2, by decide, hs⟩, trivial, hb, ?_⟩
  intro hm
  have hm : Allocates s.desc.zmap s.desc.firstdatazone s.zones s.disk (minixBalloc s.desc s.disk) := hm
  rw [hb] at hm
  rcases hm with ⟨x, disk', hr, -⟩ | ⟨-, hr⟩
  · cases hr
  · cases hr

end Onix.Minix
