/-
Transfers of the floppy disk in `kernel/floppy.c`. The controller, the channel of the DMA and the drive are a parameter, with what their
manual says of a transfer that succeeds: sector after sector, from the first head on to the second one, and not past the cylinder. The
lock, the motor and the time a transfer takes are left out. The buffer of the caller and the one of the DMA lie apart.
-/
import Onix.Lib.Loop

namespace Onix.Floppy

open Onix.Lib

abbrev Byte := BitVec 8
abbrev Word := BitVec 32

/-! ## Data -/

/-- `fd->tracks`, `fd->heads`, `fd->sectors` and `fd->gap3`, which `floppy_init` sets once; the drive is the first one. -/
def tracks : Byte := 80
def heads : Byte := 2
def sectors : Byte := 18
def gap3 : Byte := 0x1B

def sectorSize : Nat := 512

def dmaBufAddr : Word := 0x98000

def eio : Int := 5

inductive Mode
  | read
  | write
  deriving DecidableEq

structure Chs where
  track : Byte
  head : Byte
  sector : Byte
  deriving DecidableEq

abbrev Disk := Chs → Nat → Byte

/-- How the channel is set up; `count` is the number of bytes less one. -/
structure Dma where
  mode : Mode
  addr : Word
  count : BitVec 16

/-- What is on the disk, the buffer of the DMA and of the caller, and `fd->track`. -/
structure State where
  disk : Disk
  dma : Nat → Byte
  buf : Nat → Byte
  track : Byte

/-- What comes of a command: `st0` and the track of a seek; what a transfer makes of the disk and the memory, and its `st0`; or no
interrupt. -/
structure Drive where
  seek : List Byte → Option (Byte × Byte)
  transfer : Dma → List Byte → Disk → (Nat → Byte) → Option (Disk × (Nat → Byte) × Byte)

/-- An assertion on the range or on the interrupt fails; a seek goes wrong. -/
inductive Fault
  | range
  | wait
  | seek
  deriving DecidableEq

/-! ## Operations -/

def memcpy (dest src : Nat → Byte) (n : Nat) : Nat → Byte := fun i => if i < n then src i else dest i

def isaDmaSize (size : Word) : BitVec 16 := (size - 1).setWidth 16

def lba2chs (lba : Word) : Chs where
  track := (lba / (heads.setWidth 32 * sectors.setWidth 32)).setWidth 8
  head := (lba / sectors.setWidth 32 % heads.setWidth 32).setWidth 8
  sector := (lba % sectors.setWidth 32 + 1).setWidth 8

def fdSeek (d : Drive) (track head : Byte) (s : State) : Except Fault State :=
  if s.track = track then .ok s
  else
    match d.seek [0x0F, head <<< 2, track] with
    | none => .error .wait
    | some (st0, t) => if st0 &&& 0xE0 ≠ 0x20 ∨ t ≠ track then .error .seek else .ok { s with track := t }

def command (mode : Mode) (c : Chs) : List Byte :=
  [match mode with | .read => 0xE6 | .write => 0xC5, c.head <<< 2, c.track, c.head, c.sector, 2, sectors, gap3, 0xFF]

def remaining (c : Chs) : Byte := (sectors + 1 - c.sector) + sectors * (heads - c.head - 1)

def shortened (count : Byte) (lba : Word) : Byte := if remaining (lba2chs lba) < count then remaining (lba2chs lba) else count

def State.filled (s : State) (mode : Mode) (n : Nat) : State :=
  match mode with
  | .read => s
  | .write => { s with dma := memcpy s.dma s.buf n }

def State.drained (s : State) (mode : Mode) (n : Nat) : State :=
  match mode with
  | .read => { s with buf := memcpy s.buf s.dma n }
  | .write => s

def fdTransfer (d : Drive) (mode : Mode) (count : Byte) (lba : Word) (s : State) : Except Fault (Int × State) := do
  let c := lba2chs lba
  let count := shortened count lba
  let s ← fdSeek d c.track c.head (s.filled mode (count.toNat * sectorSize))
  let dma := { mode := mode, addr := dmaBufAddr, count := isaDmaSize (count.setWidth 32 * BitVec.ofNat 32 sectorSize) }
  match d.transfer dma (command mode c) s.disk s.dma with
  | none => .error .wait
  | some (disk, mem, st0) =>
    let s := { s with disk := disk, dma := mem }
    if st0 &&& 0xC0 = 0 then pure (0, s.drained mode (count.toNat * sectorSize)) else pure (-eio, s)

def fdAccess (d : Drive) (mode : Mode) (count : Byte) (lba : Word) (s : State) : Except Fault (Int × State) :=
  if count.setWidth 32 + lba < tracks.setWidth 32 * heads.setWidth 32 * sectors.setWidth 32 then fdTransfer d mode count lba s
  else .error .range

def fdRead (d : Drive) (count : Byte) (lba : Word) (s : State) : Except Fault (Int × State) := fdAccess d .read count lba s

def fdWrite (d : Drive) (count : Byte) (lba : Word) (s : State) : Except Fault (Int × State) := fdAccess d .write count lba s

/-! ## The drive -/

def Chs.place (c : Chs) : Nat := c.head.toNat * 18 + c.sector.toNat - 1

def Chs.at (track : Byte) (q : Nat) : Chs := ⟨track, BitVec.ofNat 8 (q / 18), BitVec.ofNat 8 (q % 18 + 1)⟩

def Chs.Valid (c : Chs) : Prop := c.track.toNat < 80 ∧ c.head.toNat < 2 ∧ 1 ≤ c.sector.toNat ∧ c.sector.toNat ≤ 18

def Moved (mode : Mode) (c : Chs) (n : Nat) (disk disk' : Disk) (mem mem' : Nat → Byte) : Prop :=
  match mode with
  | .read => disk' = disk ∧ ∀ i, mem' i = if i < n then disk (Chs.at c.track (c.place + i / 512)) (i % 512) else mem i
  | .write => mem' = mem ∧ ∀ c' : Chs, c'.Valid → ∀ j < 512, disk' c' j =
      if c'.track = c.track ∧ c.place ≤ c'.place ∧ 512 * (c'.place - c.place) + j < n then mem (512 * (c'.place - c.place) + j) else disk c' j

/-- A transfer that succeeds has not gone past the cylinder, and has moved what it should. -/
structure Documented (d : Drive) : Prop where
  done : ∀ {mode count} {c : Chs} {disk disk' mem mem' st0}, c.Valid → st0 &&& 0xC0 = 0 →
    d.transfer { mode := mode, addr := dmaBufAddr, count := count } (command mode c) disk mem = some (disk', mem', st0) →
    count.toNat + 1 ≤ 512 * (36 - c.place) ∧ Moved mode c (count.toNat + 1) disk disk' mem mem'

/-! ## Sectors -/

variable {d : Drive} {mode : Mode} {count : Byte} {lba l l' : Word} {s s' : State}
variable {mem mem' : Nat → Byte} {disk disk' : Disk}

theorem lba2chs_track (h : l.toNat < 2880) : (lba2chs l).track.toNat = l.toNat / 36 := by
  show l.toNat / 36 % 256 = _
  omega

theorem lba2chs_head : (lba2chs l).head.toNat = l.toNat / 18 % 2 := by
  show l.toNat / 18 % 2 % 256 = _
  omega

theorem lba2chs_sector : (lba2chs l).sector.toNat = l.toNat % 18 + 1 := by
  show (l.toNat % 18 + 1) % 2 ^ 32 % 256 = _
  omega

theorem lba2chs_place : (lba2chs l).place = l.toNat % 36 := by
  unfold Chs.place
  rw [lba2chs_head, lba2chs_sector]
  omega

theorem lba2chs_valid (h : l.toNat < 2880) : (lba2chs l).Valid := by
  unfold Chs.Valid
  rw [lba2chs_track h, lba2chs_head, lba2chs_sector]
  omega

def Chs.number (c : Chs) : Nat := (c.track.toNat * heads.toNat + c.head.toNat) * sectors.toNat + c.sector.toNat - 1

theorem lba2chs_number (h : l.toNat < 2880) : (lba2chs l).number = l.toNat := by
  show ((lba2chs l).track.toNat * 2 + (lba2chs l).head.toNat) * 18 + (lba2chs l).sector.toNat - 1 = _
  rw [lba2chs_track h, lba2chs_head, lba2chs_sector]
  omega

theorem lba2chs_next (h : l'.toNat < 2880) (hl : l.toNat ≤ l'.toNat) (hc : l.toNat / 36 = l'.toNat / 36) :
    Chs.at (lba2chs l).track ((lba2chs l).place + (l'.toNat - l.toNat)) = lba2chs l' := by
  have h1 : l.toNat % 36 + (l'.toNat - l.toNat) = l'.toNat % 36 := by omega
  rw [lba2chs_place, h1]
  unfold Chs.at
  rw [Chs.mk.injEq]
  refine ⟨BitVec.eq_of_toNat_eq ?_, BitVec.eq_of_toNat_eq ?_, BitVec.eq_of_toNat_eq ?_⟩
  · rw [lba2chs_track (by omega), lba2chs_track h, hc]
  · rw [lba2chs_head, BitVec.toNat_ofNat]
    omega
  · rw [lba2chs_sector, BitVec.toNat_ofNat]
    omega

theorem remaining_toNat : (remaining (lba2chs l)).toNat = 36 - l.toNat % 36 := by
  have h1 := @lba2chs_head l
  have h2 := @lba2chs_sector l
  show ((18 + 1 - (lba2chs l).sector) + 18 * (2 - (lba2chs l).head - 1) : Byte).toNat = _
  generalize (lba2chs l).head = r at h1 ⊢
  obtain rfl | rfl : r = 0 ∨ r = 1 := by
    rcases Nat.mod_two_eq_zero_or_one (l.toNat / 18) with h | h
    · exact .inl (BitVec.eq_of_toNat_eq (h1.trans h))
    · exact .inr (BitVec.eq_of_toNat_eq (h1.trans h))
  · have h3 : l.toNat / 18 % 2 = 0 := h1.symm
    bv_omega
  · have h3 : l.toNat / 18 % 2 = 1 := h1.symm
    bv_omega

/-! ## Requests -/

def State.sector (s : State) (k : Nat) : Nat → Byte := s.disk (lba2chs (BitVec.ofNat 32 k))

/-- The sectors from `lba` on, `count` of them and no others, were read or written. -/
def Exact (mode : Mode) (count lba : Nat) (s s' : State) : Prop :=
  match mode with
  | .read => s'.disk = s.disk ∧ ∀ i, s'.buf i = if i < 512 * count then s.sector (lba + i / 512) (i % 512) else s.buf i
  | .write => s'.buf = s.buf ∧ ∀ k < 2880, ∀ j < 512,
      s'.sector k j = if lba ≤ k ∧ k < lba + count then s.buf (512 * (k - lba) + j) else s.sector k j

def request (d : Drive) (mode : Mode) (count : Byte) (lba : Word) (s : State) : Except Fault (Int × State) :=
  match mode with
  | .read => fdRead d count lba s
  | .write => fdWrite d count lba s

theorem request_eq (d : Drive) (mode : Mode) (count : Byte) (lba : Word) (s : State) :
    request d mode count lba s = fdAccess d mode count lba s := by
  cases mode with
  | read => rfl
  | write => rfl

def Served (d : Drive) (mode : Mode) (count : Byte) (lba : Word) : Prop := ∀ s, request d mode count lba s ≠ .error .range ∧
  ∀ s', request d mode count lba s = .ok (0, s') → Exact mode count.toNat lba.toNat s s'

theorem shortened_toNat : (shortened count lba).toNat = min count.toNat (36 - lba.toNat % 36) := by
  unfold shortened
  rw [← remaining_toNat]
  split
  · rename_i h
    exact (Nat.min_eq_right (Nat.le_of_lt h)).symm
  · rename_i h
    exact (Nat.min_eq_left (Nat.le_of_not_lt h)).symm

theorem fdSeek_ok {track head : Byte} (h : fdSeek d track head s = .ok s') : s'.disk = s.disk ∧ s'.dma = s.dma ∧ s'.buf = s.buf := by
  unfold fdSeek at h
  split at h
  · cases h
    exact ⟨rfl, rfl, rfl⟩
  · split at h
    · cases h
    · split at h
      · cases h
      · cases h
        exact ⟨rfl, rfl, rfl⟩

theorem isaDmaSize_toNat (count : Byte) (hc : count.toNat ≤ 36) :
    (isaDmaSize (count.setWidth 32 * BitVec.ofNat 32 sectorSize)).toNat + 1 = if count.toNat = 0 then 65536 else 512 * count.toNat := by
  show ((count.setWidth 32 * 512 - 1 : Word).setWidth 16).toNat + 1 = _
  split
  · rename_i h
    rw [show count = 0 from BitVec.eq_of_toNat_eq h]
    rfl
  · bv_omega

theorem Documented.sectors (hd : Documented d) (hl : lba.toNat < 2880) {n : Byte} (hn : n.toNat ≤ 36)
    {st0 : Byte} (h0 : st0 &&& 0xC0 = 0)
    (h : d.transfer ⟨mode, dmaBufAddr, isaDmaSize (n.setWidth 32 * BitVec.ofNat 32 sectorSize)⟩ (command mode (lba2chs lba)) disk mem =
      some (disk', mem', st0)) :
    lba.toNat % 36 + n.toNat ≤ 36 ∧ Moved mode (lba2chs lba) (512 * n.toNat) disk disk' mem mem' := by
  obtain ⟨h1, h2⟩ := hd.done (lba2chs_valid hl) h0 h
  rw [isaDmaSize_toNat n hn, lba2chs_place] at h1
  rw [isaDmaSize_toNat n hn] at h2
  have h3 : n.toNat ≠ 0 := fun h3 => by
    rw [if_pos h3] at h1
    omega
  rw [if_neg h3] at h1 h2
  exact ⟨by omega, h2⟩

theorem Moved.read {n : Nat} (h : Moved .read (lba2chs lba) (512 * n) disk disk' mem mem')
    (hl : lba.toNat + n ≤ 2880) (hn : lba.toNat % 36 + n ≤ 36) {i : Nat} (hi : i < 512 * n) :
    mem' i = disk (lba2chs (BitVec.ofNat 32 (lba.toNat + i / 512))) (i % 512) := by
  rw [h.2 i, if_pos hi]
  have h1 : (BitVec.ofNat 32 (lba.toNat + i / 512)).toNat = lba.toNat + i / 512 := by
    rw [BitVec.toNat_ofNat]
    omega
  have h2 := @lba2chs_next lba (BitVec.ofNat 32 (lba.toNat + i / 512)) (by omega) (by omega) (by omega)
  rw [← h2, h1, Nat.add_sub_cancel_left]

theorem Moved.write {n : Nat} (h : Moved .write (lba2chs lba) (512 * n) disk disk' mem mem')
    (hl : lba.toNat < 2880) (hn : lba.toNat % 36 + n ≤ 36) {k j : Nat} (hk : k < 2880) (hj : j < 512) :
    disk' (lba2chs (BitVec.ofNat 32 k)) j =
      if lba.toNat ≤ k ∧ k < lba.toNat + n then mem (512 * (k - lba.toNat) + j) else disk (lba2chs (BitVec.ofNat 32 k)) j := by
  have h1 : (BitVec.ofNat 32 k).toNat = k := by
    rw [BitVec.toNat_ofNat]
    omega
  have h2 : (lba2chs (BitVec.ofNat 32 k)).track = (lba2chs lba).track ↔ k / 36 = lba.toNat / 36 := by
    rw [← BitVec.toNat_inj, lba2chs_track (by omega), lba2chs_track hl, h1]
  rw [h.2 _ (lba2chs_valid (by omega)) j hj, lba2chs_place, lba2chs_place, h1]
  by_cases h3 : lba.toNat ≤ k ∧ k < lba.toNat + n
  · rw [if_pos ⟨h2.2 (by omega), by omega, by omega⟩, if_pos h3, show k % 36 - lba.toNat % 36 = k - lba.toNat by omega]
  · rw [if_neg fun h4 => h3 ?_, if_neg h3]
    have h5 := h2.1 h4.1
    omega

theorem fdTransfer_range : Sat (· = .range) (fdTransfer d mode count lba s) fun _ => True := by
  refine Sat.bind (Q := fun _ => True) ?_ fun t _ _ => ?_
  · unfold fdSeek
    refine sat_ite (fun _ => trivial) fun _ => ?_
    split
    · exact Sat.error (by rintro ⟨⟩)
    · exact sat_ite (fun _ => Sat.error (by rintro ⟨⟩)) fun _ => trivial
  · dsimp only
    split
    · exact Sat.error (by rintro ⟨⟩)
    · exact sat_ite (fun _ => trivial) fun _ => trivial

theorem fdTransfer_exact (hd : Documented d) (hl : lba.toNat < 2880) (h : fdTransfer d mode count lba s = .ok (0, s')) :
    Exact mode (shortened count lba).toNat lba.toNat s s' := by
  have hn : (shortened count lba).toNat ≤ 36 := by
    rw [shortened_toNat]
    omega
  obtain ⟨t, ht, h⟩ := bind_ok h
  obtain ⟨h1, h2, h3⟩ := fdSeek_ok ht
  dsimp only at h
  split at h
  · cases h
  rename_i disk mem st0 he
  split at h
  swap
  · cases h
  rename_i h0
  obtain ⟨h4, h5⟩ := hd.sectors hl (n := shortened count lba) hn h0 he
  cases mode with
  | read =>
    cases h
    refine ⟨h5.1.trans h1, fun i => ?_⟩
    show (if i < (shortened count lba).toNat * 512 then mem i else t.buf i) = _
    rw [h3]
    by_cases hi : i < 512 * (shortened count lba).toNat
    · rw [if_pos (by omega), if_pos hi, h5.read (by omega) h4 hi, h1]
      rfl
    · rw [if_neg (by omega), if_neg hi]
      rfl
  | write =>
    cases h
    refine ⟨h3, fun k hk j hj => ?_⟩
    show disk _ j = _
    rw [h5.write hl h4 hk hj, h1, h2]
    split
    · exact if_pos (by show _ < (shortened count lba).toNat * 512; omega)
    · rfl

/-! ## A drive that works -/

def working : Drive where
  seek cmd := some (0x20, cmd.getD 2 0)
  transfer dma cmd disk mem :=
    let c : Chs := ⟨cmd.getD 2 0, cmd.getD 3 0, cmd.getD 4 0⟩
    let n := dma.count.toNat + 1
    if n ≤ 512 * (36 - c.place) then
      match dma.mode with
      | .read => some (disk, fun i => if i < n then disk (Chs.at c.track (c.place + i / 512)) (i % 512) else mem i, 0)
      | .write => some (fun c' j => if c'.track = c.track ∧ c.place ≤ c'.place ∧ 512 * (c'.place - c.place) + j < n then
          mem (512 * (c'.place - c.place) + j) else disk c' j, mem, 0)
    else some (disk, mem, 0x40)

theorem working_documented : Documented working where
  done {mode count c disk disk' mem mem' st0} _ h0 h := by
    unfold working at h
    dsimp only at h
    split at h
    · rename_i hn
      refine ⟨hn, ?_⟩
      cases mode with
      | read =>
        cases h
        exact ⟨rfl, fun _ => rfl⟩
      | write =>
        cases h
        exact ⟨rfl, fun _ _ _ _ => rfl⟩
    · cases h
      exact absurd h0 (by decide)

theorem working_transfer (mode : Mode) (c : Chs) (count : BitVec 16) (hn : count.toNat + 1 ≤ 512 * (36 - c.place)) (disk : Disk)
    (mem : Nat → Byte) : ∃ disk' mem', working.transfer ⟨mode, dmaBufAddr, count⟩ (command mode c) disk mem = some (disk', mem', 0) := by
  cases mode with
  | read => exact ⟨_, _, if_pos hn⟩
  | write => exact ⟨_, _, if_pos hn⟩

theorem fdSeek_working (track head : Byte) (s : State) : ∃ s', fdSeek working track head s = .ok s' := by
  unfold fdSeek
  split
  · exact ⟨_, rfl⟩
  · refine ⟨{ s with track := track }, ?_⟩
    exact if_neg fun h => h.elim (fun h => h (by decide)) fun h => h rfl

theorem fdTransfer_working (mode : Mode) (hc : 0 < count.toNat) (s : State) :
    ∃ s', fdTransfer working mode count lba s = .ok (0, s') := by
  obtain ⟨t, ht⟩ := fdSeek_working (lba2chs lba).track (lba2chs lba).head (s.filled mode ((shortened count lba).toNat * sectorSize))
  have h1 := @shortened_toNat count lba
  have h2 := isaDmaSize_toNat (shortened count lba) (by omega)
  rw [if_neg (by omega)] at h2
  obtain ⟨disk, mem, he⟩ := working_transfer mode (lba2chs lba) (isaDmaSize ((shortened count lba).setWidth 32 * BitVec.ofNat 32 sectorSize))
    (by rw [lba2chs_place]; omega) t.disk t.dma
  refine ⟨State.drained { t with disk := disk, dma := mem } mode ((shortened count lba).toNat * sectorSize), ?_⟩
  unfold fdTransfer
  dsimp only
  rw [ht]
  show (match working.transfer _ _ t.disk t.dma with | none => _ | some (disk, mem, st0) => _) = _
  rw [he]
  rfl

theorem in_range (h : lba.toNat + count.toNat ≤ 2880) :
    count.setWidth 32 + lba < tracks.setWidth 32 * heads.setWidth 32 * sectors.setWidth 32 ↔ lba.toNat + count.toNat < 2880 := by
  rw [BitVec.lt_def, BitVec.toNat_add, BitVec.toNat_setWidth]
  show (count.toNat % 2 ^ 32 + lba.toNat) % 2 ^ 32 < 2880 ↔ _
  omega

theorem served (h : lba.toNat + count.toNat < 2880) (hc : lba.toNat % 36 + count.toNat ≤ 36) (hd : Documented d) :
    Served d mode count lba := by
  intro s
  rw [request_eq, show fdAccess d mode count lba s = fdTransfer d mode count lba s from if_pos ((in_range (by omega)).2 h)]
  refine ⟨fun he => fdTransfer_range.not_bad he rfl, fun s' hs' => ?_⟩
  have h1 := fdTransfer_exact hd (by omega) hs'
  rw [shortened_toNat, Nat.min_eq_left (by omega)] at h1
  exact h1

theorem served_working (h : lba.toNat + count.toNat ≤ 2880) (hs : Served working mode count lba) :
    lba.toNat + count.toNat < 2880 ∧ lba.toNat % 36 + count.toNat ≤ 36 := by
  have h1 : lba.toNat + count.toNat < 2880 := by
    by_contra h1
    refine (hs ⟨fun _ _ => 1, fun _ => 0, fun _ => 0, 0⟩).1 ?_
    rw [request_eq]
    exact if_neg (mt (in_range h).1 h1)
  by_contra h2
  -- the disk is full of ones, the buffer of zeros: the first sector after the cylinder shows the difference
  obtain ⟨s', hs'⟩ := @fdTransfer_working count lba mode (by omega) ⟨fun _ _ => 1, fun _ => 0, fun _ => 0, 0⟩
  have h3 := (hs ⟨fun _ _ => 1, fun _ => 0, fun _ => 0, 0⟩).2 s' (by
    rw [request_eq]
    exact (if_pos ((in_range h).2 h1)).trans hs')
  have h4 := fdTransfer_exact working_documented (by omega) hs'
  rw [shortened_toNat, Nat.min_eq_right (by omega)] at h4
  cases mode with
  | read =>
    have h5 := h3.2 (512 * (36 - lba.toNat % 36))
    rw [h4.2, if_neg (by omega), if_pos (by omega)] at h5
    exact absurd h5 (by decide : (0 : Byte) ≠ 1)
  | write =>
    have h5 := h3.2 (lba.toNat + (36 - lba.toNat % 36)) (by omega) 0 (by decide)
    rw [h4.2 _ (by omega) 0 (by decide), if_neg (by omega), if_pos (by omega)] at h5
    exact absurd h5 (by decide : (1 : Byte) ≠ 0)

/-- `lba2chs` has an inverse on the drive. A request with sectors of the drive is served by every drive just when it leaves out the last
sector of all and does not go past a cylinder. -/
theorem fd_transfers (mode : Mode) (count : Byte) (lba : Word) : (∀ l l' : Word, l.toNat < 2880 → l'.toNat < 2880 → lba2chs l = lba2chs l' → l = l') ∧
    (∀ l : Word, l.toNat < 2880 → (lba2chs l).Valid ∧ (lba2chs l).number = l.toNat) ∧
    (lba.toNat + count.toNat ≤ 2880 →
      ((∀ d, Documented d → Served d mode count lba) ↔ lba.toNat + count.toNat < 2880 ∧ lba.toNat % 36 + count.toNat ≤ 36)) := by
  refine ⟨fun l l' hl hl' he => BitVec.eq_of_toNat_eq ?_, fun l hl => ⟨lba2chs_valid hl, lba2chs_number hl⟩, fun h =>
    ⟨fun hs => served_working h (hs working working_documented), fun ⟨h1, h2⟩ _ hd => served h1 h2 hd⟩⟩
  rw [← lba2chs_number hl, he, lba2chs_number hl']

/-- The first two sectors are read. -/
theorem fd_transfers_two : Served working .read 2 0 :=
  ((fd_transfers .read 2 0).2.2 (by decide)).2 (by decide) working working_documented

/-- A block of eight sectors that starts four before the end of a cylinder comes back half, and the last sector of the drive not at
all. -/
theorem fd_transfers_short : ¬ Served working .read 8 32 ∧ ¬ Served working .read 1 2879 :=
  ⟨fun h => absurd (served_working (by decide) h).2 (by decide), fun h => absurd (served_working (by decide) h).1 (by decide)⟩

end Onix.Floppy
