/-
What `minix_mkfs` writes, byte by byte: the superblock, the bitmaps, the record of the root and its directory. Reads succeed, and the
superblock and the root have fresh places in their tables, so that the root is read from the device.

The blocks that are written one after the other lie in different regions. What a region holds in the end is what was last written to it.
-/
import Onix.Namei.Minix

namespace Onix.Minix.Mkfs

open Function

open Namei (bytes16 bytes32 masked inodeBlock before isKind eofIndex BLOCK_INODES TOTAL_BLOCK IFDIR)

/-! ## Bytes of a disk -/

def u8 (disk : Disk) (b k : Nat) : Nat := (disk b k).toNat

def u16 (disk : Disk) (b k : Nat) : Nat := u8 disk b k + 256 * u8 disk b (k + 1)

def u32 (disk : Disk) (b k : Nat) : Nat := u16 disk b k + 65536 * u16 disk b (k + 2)

def store (disk : Disk) (b k : Nat) (l : List (BitVec 8)) : Disk :=
  Function.update disk b fun j => if k ≤ j then l.getD (j - k) (disk b j) else disk b j

def clear (disk : Disk) (b : Nat) : Disk := Function.update disk b fun _ => 0

def superDesc (disk : Disk) : Desc := ⟨u16 disk 1 0, u16 disk 1 2, u16 disk 1 4, u16 disk 1 6, u16 disk 1 8⟩

/-! ## The code -/

/-- What is used of `task_t`, and `time()`. -/
structure Task where
  umask : Nat
  uid : Nat
  gid : Nat
  time : Nat

def MINIX1_MAGIC : Nat := 0x137F

def setSuper (disk : Disk) (d : Desc) : Disk :=
  store disk 1 0 (bytes16 d.inodes ++ bytes16 d.zones ++ bytes16 d.imapBlocks ++ bytes16 d.zmapBlocks ++ bytes16 d.firstdatazone ++
    bytes16 0 ++ bytes32 (blockSize * TOTAL_BLOCK) ++ bytes16 MINIX1_MAGIC)

def clearLoop (disk : Disk) : Nat → Nat → Disk
  | 0, _ => disk
  | n + 1, idx => clearLoop (clear disk idx) n (idx + 1)

def recordAt (nr : Nat) : Nat := before nr % BLOCK_INODES * 32

def newInode (task : Task) (disk : Disk) (nr : Nat) : Except Fault Disk :=
  if nr ≤ (superDesc disk).inodes then
    let b := inodeBlock (superDesc disk) nr
    let disk := store disk b (recordAt nr) (List.replicate 32 0)
    let disk := store disk b (recordAt nr) (bytes16 (masked task.umask))
    let disk := store disk b (recordAt nr + 2) (bytes16 task.uid)
    let disk := store disk b (recordAt nr + 12) [BitVec.ofNat 8 task.gid]
    let disk := store disk b (recordAt nr + 4) (bytes32 0)
    let disk := store disk b (recordAt nr + 8) (bytes32 task.time)
    .ok (store disk b (recordAt nr + 13) [1])
  else .error .assert

/-- `minix_bmap` for block 0 of the inode whose record begins at `k` in block `b`, with `create` -/
def minixBmap (disk : Disk) (b k : Nat) : Except Fault (Nat × Disk) :=
  if u16 disk b (k + 14) = 0 then do
    let r ← minixBalloc (superDesc disk) disk
    let disk := store r.2 b (k + 14) (bytes16 (r.1.getD eofIndex))
    pure (u16 disk b (k + 14), disk)
  else pure (u16 disk b (k + 14), disk)

/-- The entries `.` and `..` of the root, whose number is `nr`, in a cleared block. -/
def setEntries (disk : Disk) (b nr : Nat) : Disk :=
  let disk := clear disk b
  let disk := store disk b 2 [0x2E, 0]
  let disk := store disk b 0 (bytes16 nr)
  let disk := store disk b 18 [0x2E, 0x2E, 0]
  store disk b 16 (bytes16 nr)

def minixMkfs (task : Task) (disk : Disk) (total icount : Nat) : Except Fault Disk :=
  if total = 0 ∨ ¬ icount < total then .error .assert
  else do
    let disk := setSuper disk (geometry total (if icount = 0 then total / 3 else icount))
    let disk := clearLoop disk ((superDesc disk).imapBlocks + (superDesc disk).zmapBlocks) 2
    let r ← minixBalloc (superDesc disk) disk
    let r ← minixIalloc (superDesc r.2) r.2
    let r ← minixIalloc (superDesc r.2) r.2
    let disk ← newInode task r.2 1
    let b := inodeBlock (superDesc disk) 1
    let disk := store disk b 0 (bytes16 (masked task.umask ||| IFDIR))
    let disk := store disk b 4 (bytes32 32)
    let disk := store disk b 13 [2]
    let r ← minixBmap disk b 0
    pure (setEntries r.2 r.1 1)

/-! ## What is to be written -/

/-- Where the regions begin and end: the bitmaps of inodes and zones, the table of inodes, and the data. -/
def bounds (d : Desc) : List Nat :=
  [2, 2 + d.imapBlocks, 2 + d.imapBlocks + d.zmapBlocks, d.firstdatazone, d.zones]

/-- No field is cut off: each is the number it stands for, with the blocks that these many bits and records take. -/
structure Whole (d : Desc) (total icount : Nat) : Prop where
  inodes : d.inodes = icount
  zones : d.zones = total
  imap : d.imapBlocks = (icount + 8191) / 8192
  zmap : d.zmapBlocks = (total - d.imapBlocks - (icount + 31) / 32 - 2 + 8191) / 8192
  first : d.firstdatazone = 2 + d.imapBlocks + d.zmapBlocks + (icount + 31) / 32

/-- The regions follow one another inside the device; every inode has its record in the table and every zone its bit in the map. -/
structure Regions (d : Desc) (total : Nat) : Prop where
  apart : (bounds d).Pairwise (· < ·)
  inside : d.zones = total
  imap : d.inodes ≤ d.imapBlocks * blockBits
  record : ∀ nr, 1 ≤ nr → nr < d.inodes → 2 + d.imapBlocks + d.zmapBlocks ≤ inodeBlock d nr ∧ inodeBlock d nr < d.firstdatazone ∧
    recordAt nr + 32 ≤ blockSize
  records : {nr | 1 ≤ nr ∧ nr < d.inodes}.InjOn fun nr => (inodeBlock d nr, recordAt nr)
  zone : ∀ z, d.firstdatazone - 1 ≤ z → z < d.zones → 2 + d.imapBlocks ≤ d.zmap.block z ∧
    d.zmap.block z < 2 + d.imapBlocks + d.zmapBlocks ∧ d.zmap.place z < blockBits
  bits : {z | d.firstdatazone - 1 ≤ z ∧ z < d.zones}.InjOn fun z => (d.zmap.block z, d.zmap.place z)

def entryName (disk : Disk) (b k : Nat) : List Nat := ((List.range 14).map fun j => u8 disk b (k + 2 + j)).takeWhile (· ≠ 0)

/-- Inode 1 is a directory of two entries in a zone of its own, and both name it. -/
structure Root (disk : Disk) (d : Desc) (zone : Nat) : Prop where
  isDir : isKind IFDIR (u16 disk (inodeBlock d 1) (recordAt 1)) = true
  size : u32 disk (inodeBlock d 1) (recordAt 1 + 4) = 2 * 16
  block : u16 disk (inodeBlock d 1) (recordAt 1 + 14) = zone
  range : d.firstdatazone ≤ zone ∧ zone < d.zones
  here : u16 disk zone 0 = 1 ∧ entryName disk zone 0 = [0x2E]
  above : u16 disk zone 16 = 1 ∧ entryName disk zone 16 = [0x2E, 0x2E]

/-- A filesystem of `total` blocks and `icount` inodes in which only inode 1 and its zone are used. -/
structure Made (disk : Disk) (total icount zone : Nat) : Prop where
  whole : Whole (superDesc disk) total icount
  magic : u16 disk 1 16 = MINIX1_MAGIC
  maxSize : u32 disk 1 12 = blockSize * TOTAL_BLOCK
  regions : Regions (superDesc disk) total
  inodes : ∀ k, k < (superDesc disk).imapBlocks * blockBits → ((superDesc disk).imap.bit disk k = true ↔ k = 0 ∨ k = 1)
  zones : ∀ k, k < (superDesc disk).zmapBlocks * blockBits →
    ((superDesc disk).zmap.bit disk k = true ↔ k = 0 ∨ k + ((superDesc disk).firstdatazone - 1) = zone)
  root : Root disk (superDesc disk) zone

variable {disk disk' disk0 : Disk} {d : Desc} {task : Task} {total icount b c j k n m zone : Nat} {l : List (BitVec 8)} {a : Area}

/-! ## Bytes -/

theorem store_other (h : c ≠ b) : store disk b k l c = disk c := update_of_ne h ..

theorem store_self : store disk b k l b j = if k ≤ j then l.getD (j - k) (disk b j) else disk b j := by
  unfold store
  rw [update_self]

theorem clear_other (h : c ≠ b) : clear disk b c = disk c := update_of_ne h ..

theorem clear_self : clear disk b b = fun _ => 0 := update_self ..

theorem u16_bytes (v : Nat) : (BitVec.ofNat 8 v).toNat + 256 * (BitVec.ofNat 8 (v / 256)).toNat = v % 65536 := by
  rw [BitVec.toNat_ofNat, BitVec.toNat_ofNat]
  omega

theorem u32_bytes (v : Nat) : (BitVec.ofNat 8 v).toNat + 256 * (BitVec.ofNat 8 (v / 256)).toNat +
    65536 * ((BitVec.ofNat 8 (v / 65536)).toNat + 256 * (BitVec.ofNat 8 (v / 65536 / 256)).toNat) = v % 2 ^ 32 := by
  rw [u16_bytes, u16_bytes]
  omega

theorem u16_congr (h : disk' b = disk b) (k : Nat) : u16 disk' b k = u16 disk b k := by
  unfold u16 u8
  rw [h]

theorem superDesc_congr (h : disk' 1 = disk 1) : superDesc disk' = superDesc disk := by
  unfold superDesc
  rw [u16_congr h, u16_congr h, u16_congr h, u16_congr h, u16_congr h]

theorem bit_congr (h : disk' (a.base + k / blockBits) = disk (a.base + k / blockBits)) : a.bit disk' k = a.bit disk k := by
  unfold Area.bit
  rw [h]

theorem clearLoop_block (disk : Disk) (c : Nat) : ∀ n i, clearLoop disk n i c = if i ≤ c ∧ c < i + n then fun _ => 0 else disk c := by
  intro n
  induction n generalizing disk with
  | zero =>
    intro i
    rw [if_neg (by omega)]
    rfl
  | succ n ih =>
    intro i
    unfold clearLoop
    rw [ih]
    by_cases hc : c = i
    · subst hc
      rw [if_neg (by omega), if_pos (by omega), clear_self]
    · rw [clear_other hc]
      by_cases hin : i + 1 ≤ c ∧ c < i + 1 + n
      · rw [if_pos hin, if_pos (by omega)]
      · rw [if_neg hin, if_neg (by omega)]

/-! ## The superblock -/

structure Fields (d : Desc) : Prop where
  inodes : d.inodes < 65536
  zones : d.zones < 65536
  imap : d.imapBlocks < 65536
  zmap : d.zmapBlocks < 65536
  first : d.firstdatazone < 65536

theorem superDesc_setSuper (h : Fields d) : superDesc (setSuper disk d) = d := by
  have hread : superDesc (setSuper disk d) =
      ⟨d.inodes % 65536, d.zones % 65536, d.imapBlocks % 65536, d.zmapBlocks % 65536, d.firstdatazone % 65536⟩ := by
    rw [← u16_bytes d.inodes, ← u16_bytes d.zones, ← u16_bytes d.imapBlocks, ← u16_bytes d.zmapBlocks, ← u16_bytes d.firstdatazone]
    rfl
  rw [hread, Nat.mod_eq_of_lt h.inodes, Nat.mod_eq_of_lt h.zones, Nat.mod_eq_of_lt h.imap, Nat.mod_eq_of_lt h.zmap, Nat.mod_eq_of_lt h.first]

theorem magic_setSuper : u16 (setSuper disk d) 1 16 = MINIX1_MAGIC := by
  rfl

theorem maxSize_setSuper : u32 (setSuper disk d) 1 12 = blockSize * TOTAL_BLOCK := by
  exact u32_bytes (blockSize * TOTAL_BLOCK)

/-! ## The allocators -/

theorem allocLoop_first (hlen : blockSize ≤ a.length) (hk : k < blockBits) (hb : 0 < a.blocks) (hset : ∀ j, j < k → a.bit disk j = true)
    (hfree : a.bit disk k = false) :
    allocLoop a disk a.blocks 0 = if k + a.first < a.limit then .ok (some (k + a.first), a.put disk k true) else .error .assert := by
  have hin : k < (0 + a.blocks) * blockBits := by
    rw [zero_add]
    exact lt_of_lt_of_le hk (Nat.le_mul_of_pos_left blockBits hb)
  rcases allocLoop_spec a disk hlen a.blocks 0 with ⟨i, -, -, -, h4, h5, h6⟩ | ⟨-, h2, -⟩ | ⟨-, h2, -⟩
  · have hi : i = k := by
      rcases Nat.lt_trichotomy i k with h | h | h
      · rw [hset i h] at h4
        cases h4
      · exact h
      · have h7 := h5 k (by omega) h
        rw [hfree] at h7
        cases h7
    rw [h6, hi]
  · have h3 := h2 k (by omega) hin
    rw [hfree] at h3
    cases h3
  · have h3 := h2 k (by omega) (by omega)
    rw [hfree] at h3
    cases h3

/-- While the filesystem is made: the superblock is written, and of each bitmap the first bits are set, so many as numbers were taken. -/
structure Stage (disk0 : Disk) (d : Desc) (zones inodes : Nat) (disk : Disk) : Prop where
  super : disk 1 = setSuper disk0 d 1
  zmap : ∀ k, k < d.zmapBlocks * blockBits → (d.zmap.bit disk k = true ↔ k < zones)
  imap : ∀ k, k < d.imapBlocks * blockBits → (d.imap.bit disk k = true ↔ k < inodes)

theorem put_other (h : c ≠ a.base + k / blockBits) : a.put disk k true c = disk c := update_of_ne h ..

theorem div_lt {blocks : Nat} (h : k < blocks * blockBits) : k / blockBits < blocks := (Nat.div_lt_iff_lt_mul (by decide)).2 h

theorem bits_put (h : ∀ k, k < m → (a.bit disk k = true ↔ k < n)) (hn : n < m) :
    ∀ k, k < m → (a.bit (a.put disk n true) k = true ↔ k < n + 1) := by
  intro k hk
  have hfree : a.bit disk n = false := by
    rw [← Bool.not_eq_true, h n hn]
    exact lt_irrefl n
  rw [(put_flips (v := true) hfree).same]
  by_cases hkn : k = n
  · rw [if_pos hkn]
    exact iff_of_true rfl (by omega)
  · rw [if_neg hkn, h k hk]
    omega

namespace Stage

variable {zones inodes : Nat}

theorem desc (h : Stage disk0 d zones inodes disk) (hd : Fields d) : superDesc disk = d :=
  (superDesc_congr h.super).trans (superDesc_setSuper hd)

theorem congr (h : Stage disk0 d zones inodes disk) (hsame : ∀ c, c < 2 + d.imapBlocks + d.zmapBlocks → disk' c = disk c) :
    Stage disk0 d zones inodes disk' := by
  refine ⟨(hsame 1 (by omega)).trans h.super, fun k hk => ?_, fun k hk => ?_⟩
  · have hin : d.zmap.base + k / blockBits < 2 + d.imapBlocks + d.zmapBlocks := Nat.add_lt_add_left (div_lt hk) _
    rw [bit_congr (hsame _ hin)]
    exact h.zmap k hk
  · have hin : d.imap.base + k / blockBits < 2 + d.imapBlocks + d.zmapBlocks := by
      have := div_lt hk
      show 2 + k / blockBits < _
      omega
    rw [bit_congr (hsame _ hin)]
    exact h.imap k hk

theorem store (h : Stage disk0 d zones inodes disk) (hb : 2 + d.imapBlocks + d.zmapBlocks ≤ b) (k : Nat) (l : List (BitVec 8)) :
    Stage disk0 d zones inodes (store disk b k l) :=
  h.congr fun c hc => store_other (by omega)

theorem balloc (h : Stage disk0 d zones inodes disk) (hd : Fields d) (hz : zones < blockBits) (hb : 0 < d.zmapBlocks)
    (hlim : zones + (d.firstdatazone - 1) < d.zones) :
    ∃ disk', minixBalloc (superDesc disk) disk = .ok (some (zones + (d.firstdatazone - 1)), disk') ∧ Stage disk0 d (zones + 1) inodes disk' ∧
      ∀ c, 2 + d.imapBlocks + d.zmapBlocks ≤ c → disk' c = disk c := by
  have hin : zones < d.zmapBlocks * blockBits := lt_of_lt_of_le hz (Nat.le_mul_of_pos_left blockBits hb)
  have hplace : d.zmap.base + zones / blockBits = 2 + d.imapBlocks := by
    rw [Nat.div_eq_of_lt hz]
    rfl
  have hset : ∀ j, j < zones → d.zmap.bit disk j = true := fun j hj => (h.zmap j (by omega)).2 hj
  have hfree : d.zmap.bit disk zones = false := by
    rw [← Bool.not_eq_true, h.zmap zones hin]
    exact lt_irrefl _
  refine ⟨d.zmap.put disk zones true, ?_, ⟨?_, bits_put h.zmap hin, fun k hk => ?_⟩, fun c hc => ?_⟩
  · rw [h.desc hd]
    exact (allocLoop_first (a := d.zmap) (le_refl _) hz hb hset hfree).trans (if_pos hlim)
  · rw [put_other (by rw [hplace]; omega)]
    exact h.super
  · have hin := div_lt hk
    rw [bit_congr (put_other (by rw [hplace]; show 2 + k / blockBits ≠ _; omega))]
    exact h.imap k hk
  · exact put_other (by rw [hplace]; omega)

theorem ialloc_eq (h : Stage disk0 d zones inodes disk) (hd : Fields d) (hi : inodes < blockBits) (hb : 0 < d.imapBlocks) :
    minixIalloc (superDesc disk) disk = if inodes < d.inodes then .ok (some inodes, d.imap.put disk inodes true) else .error .assert := by
  have hin : inodes < d.imapBlocks * blockBits := lt_of_lt_of_le hi (Nat.le_mul_of_pos_left blockBits hb)
  have hset : ∀ j, j < inodes → d.imap.bit disk j = true := fun j hj => (h.imap j (by omega)).2 hj
  have hfree : d.imap.bit disk inodes = false := by
    rw [← Bool.not_eq_true, h.imap inodes hin]
    exact lt_irrefl _
  rw [h.desc hd]
  exact allocLoop_first (a := d.imap) (show blockSize ≤ blockBits by decide) hi hb hset hfree

theorem ialloc (h : Stage disk0 d zones inodes disk) (hd : Fields d) (hi : inodes < blockBits) (hb : 0 < d.imapBlocks)
    (hlim : inodes < d.inodes) :
    ∃ disk', minixIalloc (superDesc disk) disk = .ok (some inodes, disk') ∧ Stage disk0 d zones (inodes + 1) disk' := by
  have hin : inodes < d.imapBlocks * blockBits := lt_of_lt_of_le hi (Nat.le_mul_of_pos_left blockBits hb)
  have hplace : d.imap.base + inodes / blockBits = 2 := by
    rw [Nat.div_eq_of_lt hi]
    rfl
  refine ⟨d.imap.put disk inodes true, (h.ialloc_eq hd hi hb).trans (if_pos hlim), ⟨?_, fun k hk => ?_, bits_put h.imap hin⟩⟩
  · rw [put_other (by rw [hplace]; omega)]
    exact h.super
  · rw [bit_congr (put_other (by rw [hplace]; show 2 + d.imapBlocks + k / blockBits ≠ _; generalize k / blockBits = q; omega))]
    exact h.zmap k hk

end Stage

theorem stage_cleared (disk0 : Disk) (d : Desc) : Stage disk0 d 0 0 (clearLoop (setSuper disk0 d) (d.imapBlocks + d.zmapBlocks) 2) := by
  have hzero : ∀ {a : Area} {k : Nat}, 2 ≤ a.base + k / blockBits → a.base + k / blockBits < 2 + (d.imapBlocks + d.zmapBlocks) →
      (a.bit (clearLoop (setSuper disk0 d) (d.imapBlocks + d.zmapBlocks) 2) k = true ↔ k < 0) := by
    intro a k h1 h2
    unfold Area.bit
    rw [clearLoop_block, if_pos ⟨h1, h2⟩]
    refine iff_of_false (fun h => ?_) (Nat.not_lt_zero k)
    exact Bool.false_ne_true (BitVec.getLsbD_zero.symm.trans h)
  refine ⟨?_, fun k hk => ?_, fun k hk => ?_⟩
  · rw [clearLoop_block, if_neg (by omega)]
  · have := div_lt hk
    refine hzero ?_ ?_
    · show 2 ≤ 2 + d.imapBlocks + k / blockBits
      rw [add_assoc]
      exact Nat.le_add_right ..
    · show 2 + d.imapBlocks + k / blockBits < _
      omega
  · have := div_lt hk
    refine hzero ?_ ?_
    · show 2 ≤ 2 + k / blockBits
      exact Nat.le_add_right ..
    · show 2 + k / blockBits < _
      omega

/-! ## The numbers -/

theorem geometry_whole (h16 : 16 ≤ total) (ht : total < 65536) (hi : icount < total) : Whole (geometry total icount) total icount := by
  obtain ⟨A, hA, hA1, hA2⟩ : ∃ A, divRoundUp icount blockBits % 2 ^ 16 = A ∧ A = (icount + 8191) / 8192 ∧ A ≤ 8 := by
    refine ⟨_, rfl, ?_⟩
    unfold divRoundUp blockBits
    omega
  obtain ⟨B, hB, hB1⟩ : ∃ B, divRoundUp (icount * 32) blockSize = B ∧ B = (icount + 31) / 32 := by
    refine ⟨_, rfl, ?_⟩
    unfold divRoundUp blockSize
    omega
  obtain ⟨Z, hZ, hZ1, hZ2⟩ : ∃ Z, divRoundUp ((total + 2 ^ 32 - A - B - 2) % 2 ^ 32) blockBits % 2 ^ 16 = Z ∧
      Z = (total - A - B - 2 + 8191) / 8192 ∧ Z ≤ 8 := by
    have hmod : (total + 2 ^ 32 - A - B - 2) % 2 ^ 32 = total - A - B - 2 := by
      omega
    refine ⟨_, rfl, ?_⟩
    unfold divRoundUp blockBits
    clear hA1 hB1
    omega
  have hd : geometry total icount = ⟨icount, total, A, Z, 2 + A + Z + B⟩ := by
    unfold geometry
    rw [hA, hB]
    dsimp only
    rw [hZ, Nat.mod_eq_of_lt (show icount < 2 ^ 16 by omega), Nat.mod_eq_of_lt (show total < 2 ^ 16 from ht), Nat.mod_eq_of_lt (by omega)]
  rw [hd]
  refine ⟨rfl, rfl, hA1, ?_, ?_⟩
  · show Z = (total - A - (icount + 31) / 32 - 2 + 8191) / 8192
    rw [hZ1, hB1]
  · show 2 + A + Z + B = 2 + A + Z + (icount + 31) / 32
    rw [hB1]

/-- What the numbers come to: there are blocks of both kinds of bits, enough of them, and two zones are left. -/
structure Numbers (d : Desc) (total icount : Nat) : Prop where
  imap : 1 ≤ d.imapBlocks ∧ d.imapBlocks ≤ 8
  zmap : 1 ≤ d.zmapBlocks ∧ d.zmapBlocks ≤ 8
  inodes : icount ≤ d.imapBlocks * 8192
  zones : total ≤ d.firstdatazone - 1 + d.zmapBlocks * 8192
  first : d.firstdatazone = 2 + d.imapBlocks + d.zmapBlocks + (icount + 31) / 32
  data : d.firstdatazone + 2 ≤ total

theorem Whole.numbers (h : Whole d total icount) (h16 : 16 ≤ total) (ht : total < 65536) (hi : icount < total) (h0 : 0 < icount) :
    Numbers d total icount := by
  obtain ⟨h1, h2, h3, h4, h5⟩ := h
  have hA : 1 ≤ d.imapBlocks ∧ d.imapBlocks ≤ 8 ∧ icount ≤ d.imapBlocks * 8192 := by omega
  have hZ : 1 ≤ d.zmapBlocks ∧ d.zmapBlocks ≤ 8 := by omega
  refine ⟨⟨hA.1, hA.2.1⟩, hZ, hA.2.2, ?_, h5, ?_⟩
  · omega
  · omega

theorem Whole.fields (h : Whole d total icount) (hn : Numbers d total icount) (ht : total < 65536) (hi : icount < total) : Fields d := by
  have h1 := h.inodes
  have h2 := h.zones
  have h3 := hn.imap
  have h4 := hn.zmap
  have h5 := hn.data
  refine ⟨?_, ?_, ?_, ?_, ?_⟩ <;> omega

theorem before_eq (h : 1 ≤ n) (hn : n < 65536) : before n = n - 1 := by
  unfold before
  omega

theorem Whole.regions (h : Whole d total icount) (hn : Numbers d total icount) (ht : total < 65536) (hi : icount < total) (h0 : 0 < icount) :
    Regions d total := by
  obtain ⟨h1, h2, -, -, -⟩ := h
  obtain ⟨⟨hA, -⟩, ⟨hZ, -⟩, hin, hzn, hf, hdata⟩ := hn
  have hrec : ∀ nr, 1 ≤ nr → nr < d.inodes → before nr = nr - 1 := fun nr h3 h4 => before_eq h3 (by omega)
  have hbits : ∀ z, d.firstdatazone - 1 ≤ z → z < d.zones → z - (d.firstdatazone - 1) < d.zmapBlocks * 8192 := by
    omega
  refine ⟨?_, h2, ?_, fun nr h3 h4 => ?_, ?_, fun z h3 h4 => ?_, ?_⟩
  · unfold bounds
    simp only [List.pairwise_cons, List.mem_cons, List.not_mem_nil, or_false, forall_eq_or_imp, forall_eq, List.Pairwise.nil,
      and_true, IsEmpty.forall_iff, implies_true]
    omega
  · rw [h1]
    exact hin
  · unfold inodeBlock recordAt BLOCK_INODES blockSize
    rw [hrec nr h3 h4]
    omega
  · rintro x ⟨hx1, hx2⟩ y ⟨hy1, hy2⟩ he
    obtain ⟨he1, he2⟩ := Prod.mk.inj he
    unfold inodeBlock BLOCK_INODES at he1
    unfold recordAt BLOCK_INODES at he2
    rw [hrec x hx1 hx2, hrec y hy1 hy2] at he1 he2
    omega
  · have h5 := hbits z h3 h4
    show 2 + d.imapBlocks ≤ 2 + d.imapBlocks + (z - (d.firstdatazone - 1)) / 8192 ∧
      2 + d.imapBlocks + (z - (d.firstdatazone - 1)) / 8192 < _ ∧ (z - (d.firstdatazone - 1)) % 8192 < 8192
    omega
  · rintro x ⟨hx1, hx2⟩ y ⟨hy1, hy2⟩ he
    obtain ⟨he1, he2⟩ := Prod.mk.inj he
    have he1 : 2 + d.imapBlocks + (x - (d.firstdatazone - 1)) / 8192 = 2 + d.imapBlocks + (y - (d.firstdatazone - 1)) / 8192 := he1
    have he2 : (x - (d.firstdatazone - 1)) % 8192 = (y - (d.firstdatazone - 1)) % 8192 := he2
    omega

/-! ## The root -/

theorem recordAt_one : recordAt 1 = 0 := rfl

theorem inodeBlock_one (d : Desc) : inodeBlock d 1 = 2 + d.imapBlocks + d.zmapBlocks := rfl

theorem newInode_root (task : Task) (disk : Disk) (h : 1 ≤ (superDesc disk).inodes) : ∃ disk', newInode task disk 1 = .ok disk' ∧
    (∀ c, c ≠ inodeBlock (superDesc disk) 1 → disk' c = disk c) ∧ u16 disk' (inodeBlock (superDesc disk) 1) 14 = 0 := by
  unfold newInode
  rw [if_pos h, recordAt_one]
  refine ⟨_, rfl, fun c hc => ?_, ?_⟩
  · simp only [store_other hc]
  · unfold u16 u8
    simp only [store_self]
    rfl

theorem isDir_masked (umask : Nat) : isKind IFDIR ((masked umask ||| IFDIR) % 65536) = true := by
  have hsmall : masked umask < 512 := by
    exact Nat.xor_lt_two_pow (n := 9) (by decide) (lt_of_le_of_lt Nat.and_le_left (by decide))
  have hall : ∀ x : Fin 512, isKind IFDIR ((x.val ||| IFDIR) % 65536) = true := by decide +kernel
  exact hall ⟨_, hsmall⟩

theorem setEntries_other (disk : Disk) (h : c ≠ b) (nr : Nat) : setEntries disk b nr c = disk c := by
  unfold setEntries
  rw [store_other h, store_other h, store_other h, store_other h, clear_other h]

theorem Stage.setEntries {zones inodes : Nat} (h : Stage disk0 d zones inodes disk) (hb : 2 + d.imapBlocks + d.zmapBlocks ≤ b) (nr : Nat) :
    Stage disk0 d zones inodes (setEntries disk b nr) :=
  h.congr fun c hc => setEntries_other _ (by omega) nr

theorem setEntries_entries (disk : Disk) (b : Nat) :
    (u16 (setEntries disk b 1) b 0 = 1 ∧ entryName (setEntries disk b 1) b 0 = [0x2E]) ∧
      u16 (setEntries disk b 1) b 16 = 1 ∧ entryName (setEntries disk b 1) b 16 = [0x2E, 0x2E] := by
  unfold setEntries u16 entryName u8
  simp only [store_self, clear_self]
  exact ⟨⟨rfl, rfl⟩, rfl, rfl⟩

theorem root_written (hd : d.firstdatazone ≤ zone ∧ zone < d.zones) (hz : zone < 65536) (hlt : inodeBlock d 1 < d.firstdatazone)
    (hmode : isKind IFDIR (m % 65536) = true)
    (hrec : disk' (inodeBlock d 1) = store (store (store disk (inodeBlock d 1) 0 (bytes16 m)) (inodeBlock d 1) 4 (bytes32 32)) (inodeBlock d 1)
      13 [2] (inodeBlock d 1)) :
    Root (setEntries (store disk' (inodeBlock d 1) 14 (bytes16 zone)) zone 1) d zone := by
  have hne : inodeBlock d 1 ≠ zone := by omega
  have hblock := setEntries_other (store disk' (inodeBlock d 1) 14 (bytes16 zone)) hne 1
  obtain ⟨hhere, habove⟩ := setEntries_entries (store disk' (inodeBlock d 1) 14 (bytes16 zone)) zone
  refine ⟨?_, ?_, ?_, hd, hhere, habove⟩
  · rw [u16_congr hblock, recordAt_one, ← hmode, ← u16_bytes m]
    unfold u16 u8
    simp only [store_self, hrec]
    rfl
  · rw [recordAt_one]
    unfold u32
    rw [u16_congr hblock, u16_congr hblock]
    unfold u16 u8
    simp only [store_self, hrec]
    rfl
  · rw [u16_congr hblock, recordAt_one]
    refine Eq.trans ?_ ((u16_bytes zone).trans (Nat.mod_eq_of_lt hz))
    unfold u16 u8
    simp only [store_self]
    rfl

theorem Stage.made (h : Stage disk0 d 2 2 disk) (hf : Fields d) (hw : Whole d total icount) (hr : Regions d total)
    (hroot : Root disk d d.firstdatazone) : Made disk total icount d.firstdatazone := by
  have hdesc := h.desc hf
  have hmax : u32 disk 1 12 = u32 (setSuper disk0 d) 1 12 := by
    unfold u32
    rw [u16_congr h.super, u16_congr h.super]
  rw [← hdesc] at hw hr hroot
  refine ⟨hw, (u16_congr h.super 16).trans magic_setSuper, hmax.trans maxSize_setSuper, hr, fun k hk => ?_, fun k hk => ?_, ?_⟩
  · rw [hdesc] at hk ⊢
    rw [h.imap k hk]
    omega
  · have hfirst := hw.first
    rw [hdesc] at hk hfirst ⊢
    rw [h.zmap k hk]
    omega
  · rw [hdesc] at hroot ⊢
    exact hroot

/-- On a device of 16 blocks or more, with fewer inodes asked for than there are blocks but more than one, `minix_mkfs` makes a filesystem. -/
theorem mkfs_made (task : Task) (disk : Disk) (h16 : 16 ≤ total) (ht : total < 65536) (hi : icount < total) (h1 : icount ≠ 1) :
    ∃ disk' zone, minixMkfs task disk total icount = .ok disk' ∧ Made disk' total (if icount = 0 then total / 3 else icount) zone := by
  generalize hc : (if icount = 0 then total / 3 else icount) = count
  have hcount : 2 ≤ count ∧ count < total := by
    rw [← hc]
    split <;> omega
  obtain ⟨d, hd⟩ : ∃ d, d = geometry total count := ⟨_, rfl⟩
  have hw : Whole d total count := hd ▸ geometry_whole h16 ht hcount.2
  have hn := hw.numbers h16 ht hcount.2 (by omega)
  have hr := hw.regions hn ht hcount.2 (by omega)
  have hf := hw.fields hn ht hcount.2
  have hlim : d.zones = total := hw.zones
  have hdata := hn.data
  have hfirst : inodeBlock d 1 < d.firstdatazone := (hr.record 1 (by omega) (by rw [hw.inodes]; omega)).2.1
  have hin : d.inodes = count := hw.inodes
  -- the bitmaps
  have hs0 := stage_cleared disk d
  obtain ⟨disk1, hb1, hs1, -⟩ := hs0.balloc hf (by decide) hn.zmap.1 (by omega)
  obtain ⟨disk2, hb2, hs2⟩ := hs1.ialloc hf (by decide) hn.imap.1 (by omega)
  obtain ⟨disk3, hb3, hs3⟩ := hs2.ialloc hf (by decide) hn.imap.1 (by omega)
  -- the record of the root
  obtain ⟨disk4, hb4, hother4, hzone4⟩ := newInode_root task disk3 (by rw [hs3.desc hf]; omega)
  rw [hs3.desc hf] at hother4 hzone4
  have hs4 : Stage disk d 1 2 disk4 := hs3.congr fun c hc => hother4 c (by rw [inodeBlock_one]; omega)
  have hle : 2 + d.imapBlocks + d.zmapBlocks ≤ inodeBlock d 1 := Nat.le_of_eq (inodeBlock_one d).symm
  obtain ⟨disk5, h5⟩ : ∃ e, e = store (store (store disk4 (inodeBlock d 1) 0 (bytes16 (masked task.umask ||| IFDIR))) (inodeBlock d 1) 4
    (bytes32 32)) (inodeBlock d 1) 13 [2] := ⟨_, rfl⟩
  have hs5 : Stage disk d 1 2 disk5 := by
    rw [h5]
    exact ((hs4.store hle _ _).store hle _ _).store hle _ _
  have hzone5 : u16 disk5 (inodeBlock d 1) (0 + 14) = 0 := by
    refine Eq.trans ?_ hzone4
    rw [h5]
    unfold u16 u8
    simp only [store_self]
    rfl
  -- its zone
  obtain ⟨disk6, hb6, hs6, hother6⟩ := hs5.balloc hf (by decide) hn.zmap.1 (by omega)
  have hpos : 1 + (d.firstdatazone - 1) = d.firstdatazone := by omega
  rw [hpos] at hb6
  have hread : u16 (store disk6 (inodeBlock d 1) (0 + 14) (bytes16 d.firstdatazone)) (inodeBlock d 1) (0 + 14) = d.firstdatazone := by
    refine Eq.trans ?_ ((u16_bytes d.firstdatazone).trans (Nat.mod_eq_of_lt hf.first))
    unfold u16 u8
    simp only [store_self]
    rfl
  have hbmap : minixBmap disk5 (inodeBlock d 1) 0 =
      .ok (d.firstdatazone, store disk6 (inodeBlock d 1) (0 + 14) (bytes16 d.firstdatazone)) := by
    unfold minixBmap
    rw [if_pos hzone5, hb6]
    exact congrArg (fun z => Except.ok (z, store disk6 (inodeBlock d 1) (0 + 14) (bytes16 d.firstdatazone))) hread
  have hrec := hother6 _ hle
  rw [h5] at hrec
  have hroot := root_written ⟨Nat.le_refl _, by omega⟩ hf.first hfirst (isDir_masked task.umask) hrec
  have hzle : 2 + d.imapBlocks + d.zmapBlocks ≤ d.firstdatazone := by omega
  have hs7 := (hs6.store hle (0 + 14) (bytes16 d.firstdatazone)).setEntries hzle 1
  refine ⟨_, d.firstdatazone, ?_, hs7.made hf hw hr hroot⟩
  unfold minixMkfs
  rw [if_neg (by omega), hc, ← hd]
  dsimp only
  rw [superDesc_setSuper hf, hb1]
  dsimp only [bind, Except.bind]
  rw [hb2]
  dsimp only
  rw [hb3]
  dsimp only
  rw [hb4]
  dsimp only
  rw [hs4.desc hf, ← h5, hbmap]
  rfl

/-- A filesystem of 16 blocks with two inodes. -/
theorem mkfs_made_sixteen : ∃ disk zone, minixMkfs ⟨0o22, 0, 0, 0⟩ (fun _ _ => 0) 16 2 = .ok disk ∧ Made disk 16 2 zone :=
  mkfs_made _ _ (by decide) (by decide) (by decide) (by decide)

/-- As many inodes as there are blocks would leave eleven zones on a device of 16 blocks; the second assertion refuses them. -/
theorem sixteen_inodes_refused : (geometry 16 16).firstdatazone + 2 ≤ 16 ∧
    ∀ task disk, ¬ ∃ disk' zone, minixMkfs task disk 16 16 = .ok disk' ∧ Made disk' 16 16 zone := by
  refine ⟨by decide, ?_⟩
  rintro task disk ⟨disk', zone, h, -⟩
  cases h

theorem mkfs_one (task : Task) (disk : Disk) (h16 : 16 ≤ total) (ht : total < 65536) : minixMkfs task disk total 1 = .error .assert := by
  obtain ⟨d, hd⟩ : ∃ d, d = geometry total 1 := ⟨_, rfl⟩
  have hw : Whole d total 1 := hd ▸ geometry_whole h16 ht (by omega)
  have hn := hw.numbers h16 ht (by omega) (by decide)
  have hf := hw.fields hn ht (by omega)
  have hin : d.inodes = 1 := hw.inodes
  have hlim : d.zones = total := hw.zones
  have hdata := hn.data
  obtain ⟨disk1, hb1, hs1, -⟩ := (stage_cleared disk d).balloc hf (by decide) hn.zmap.1 (by omega)
  obtain ⟨disk2, hb2, hs2⟩ := hs1.ialloc hf (by decide) hn.imap.1 (by omega)
  have hb3 := (hs2.ialloc_eq hf (by decide) hn.imap.1).trans (if_neg (by omega))
  unfold minixMkfs
  rw [if_neg (by omega), if_neg (by decide), ← hd]
  dsimp only
  rw [superDesc_setSuper hf, hb1]
  dsimp only [bind, Except.bind]
  rw [hb2]
  dsimp only
  rw [hb3]

theorem Made.inv (h : Made disk total icount zone) (h1 : 1 < icount) : Inv ⟨superDesc disk, disk, {zone}, {1}⟩ := by
  have hr := h.regions
  have hroot := h.root.range
  have hzones := h.zones
  have hinodes := h.inodes
  have hin : 1 < (superDesc disk).inodes := h.whole.inodes.symm ▸ h1
  have hfirst : 2 ≤ (superDesc disk).firstdatazone := by
    rw [h.whole.first, add_assoc, add_assoc]
    exact Nat.le_add_right ..
  generalize superDesc disk = d at *
  have hpast : ∀ z, d.firstdatazone ≤ z → z < d.zones → z - (d.firstdatazone - 1) < d.zmapBlocks * blockBits := by
    intro z h2 h3
    have h4 : 2 + d.imapBlocks + (z - (d.firstdatazone - 1)) / blockBits < 2 + d.imapBlocks + d.zmapBlocks :=
      (hr.zone z (by omega) h3).2.1
    exact (Nat.div_lt_iff_lt_mul (by decide)).1 (Nat.lt_of_add_lt_add_left h4)
  refine ⟨⟨hfirst, fun z h2 h3 => ?_, hr.imap⟩, le_of_lt hin, ⟨fun k hk => ?_, fun z hz => ?_⟩, ⟨fun k hk => ?_, fun n hn => ?_⟩⟩
  · have h4 := hpast z h2 h3
    dsimp only
    omega
  · exact (hzones k hk).trans (or_congr_right Finset.mem_singleton.symm)
  · rw [Finset.mem_singleton.1 hz]
    exact ⟨hroot.1, hroot.2, hpast zone hroot.1 hroot.2⟩
  · exact (hinodes k hk).trans (or_congr_right Finset.mem_singleton.symm)
  · rw [Finset.mem_singleton.1 hn]
    exact ⟨le_refl 1, hin, lt_of_lt_of_le hin hr.imap⟩

end Onix.Minix.Mkfs
