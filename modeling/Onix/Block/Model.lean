/-
Block devices: the ramdisks of `ramdisk.c`, the disks and partitions of `ide.c`, the floppy of `floppy.c`,
`device_request`, `device_read` and `device_write` over them, and `minix_read` and `minix_write` on a block special
file. A transfer is the list of the 512-byte sectors it touches, in the order of the buffer, and its answer; the
order in which `device_request` serves the tasks that wait does not matter for it.

A drive serves the sectors it has and stops with an error at the first one it does not have.
-/
import Mathlib.Data.BitVec
import Mathlib.Data.List.TakeWhile

namespace Onix.Block

/-! ## Constants -/

def kernelRamdiskMem : Nat := 0xC00000

def kernelRamdiskSize : Nat := 0x400000

def kernelMemorySize : Nat := 0x1000000

def ramdiskNr : Nat := 4

def sectorSize : Nat := 512

def blockSize : Nat := 1024

/-! ## Media and devices -/

/-- What has sectors: the memory, a disk, the floppy. -/
inductive Medium (D : Type)
  | ram
  | disk (d : D)
  | floppy
  deriving DecidableEq

/-- A sector of a medium; that of the memory with number `n` begins at address `512 * n`. -/
structure Sector (D : Type) where
  medium : Medium D
  nr : Nat
  deriving DecidableEq

/-- `ide_disk_t`: `total_lba`, whether its controller does DMA, and whether the status of the DMA shows an error
of the drive. -/
structure Drive where
  totalLba : Nat
  udma : Bool
  shows : Bool
  le : totalLba ≤ 2 ^ 28

variable {D : Type}

structure Part (drive : D → Drive) where
  disk : D
  start : Nat
  count : Nat
  le : start + count ≤ (drive disk).totalLba

inductive Dev (drive : D → Drive)
  | ramdisk (i : Fin ramdiskNr)
  | part (p : Part drive)
  | floppy

variable {drive : D → Drive}

/-- The extent of a device: its medium, its first sector and how many it has (`DEV_CMD_SECTOR_COUNT`). -/
def Dev.medium : Dev drive → Medium D
  | .ramdisk _ => .ram
  | .part p => .disk p.disk
  | .floppy => .floppy

def Dev.base : Dev drive → Nat
  | .ramdisk i => kernelRamdiskMem / sectorSize + kernelRamdiskSize / ramdiskNr / sectorSize * i
  | .part p => p.start
  | .floppy => 0

def Dev.count : Dev drive → Nat
  | .ramdisk _ => kernelRamdiskSize / ramdiskNr / sectorSize
  | .part p => p.count
  | .floppy => 80 * 2 * 18

/-! ## Drivers -/

/-- `EOK`, `-EIO`, or an assertion or a panic that stops the system. -/
inductive Answer
  | eok
  | eio
  | panic
  deriving DecidableEq

/-- The sectors a transfer touches, in the order of its buffer, and its answer. -/
structure Transfer (D : Type) where
  touched : List (Sector D)
  ret : Answer
  deriving DecidableEq

def ramdiskStart (i : Fin ramdiskNr) : BitVec 32 := BitVec.ofNat 32 (kernelRamdiskMem + kernelRamdiskSize / ramdiskNr * i)

def ramdiskTransfer (i : Fin ramdiskNr) (count : BitVec 8) (lba : BitVec 32) : Transfer D :=
  let addr := ramdiskStart i + lba * BitVec.ofNat 32 sectorSize
  let len := BitVec.ofNat 32 (count.toNat * sectorSize)
  if (addr + len).toNat < kernelRamdiskMem + kernelMemorySize then
    ⟨(List.range count.toNat).map fun k => ⟨.ram, (addr + BitVec.ofNat 32 (k * sectorSize)).toNat / sectorSize⟩, .eok⟩
  else ⟨[], .panic⟩

def ramdiskRead : Fin ramdiskNr → BitVec 8 → BitVec 32 → Transfer D := ramdiskTransfer

def ramdiskWrite : Fin ramdiskNr → BitVec 8 → BitVec 32 → Transfer D := ramdiskTransfer

/-- The sectors a drive is asked for: `ide_select_sector` sends 28 bits of the first one. -/
def askedLbas (n : Nat) (lba : BitVec 32) : List Nat := (List.range n).map fun k => (lba.toNat + k) % 2 ^ 28

/-- A drive at work; `bad` is the answer when it stops with an error. -/
def serve (d : D) (total n : Nat) (lba : BitVec 32) (bad : Answer) : Transfer D :=
  ⟨((askedLbas n lba).takeWhile fun l => decide (l < total)).map fun l => ⟨.disk d, l⟩,
    if (askedLbas n lba).all fun l => decide (l < total) then .eok else bad⟩

def idePioTransfer (drive : D → Drive) (d : D) (count : BitVec 8) (lba : BitVec 32) : Transfer D :=
  if count = 0 then ⟨[], .panic⟩ else serve d (drive d).totalLba count.toNat lba .eio

def idePioRead (drive : D → Drive) : D → BitVec 8 → BitVec 32 → Transfer D := idePioTransfer drive

def idePioWrite (drive : D → Drive) : D → BitVec 8 → BitVec 32 → Transfer D := idePioTransfer drive

/-- The assertion of `ide_setup_dma`: the buffer does not cross a page. -/
def onePage (buf : BitVec 32) (count : BitVec 8) : Prop :=
  (buf + BitVec.ofNat 32 (count.toNat * sectorSize)).toNat ≤ ((buf &&& ~~~0xfff#32) + 0x1000#32).toNat

instance (buf : BitVec 32) (count : BitVec 8) : Decidable (onePage buf count) := inferInstanceAs (Decidable (_ ≤ _))

/-- `ide_udma_read` and `ide_udma_write`: a count of zero asks the drive for 256 sectors, and only an error that
the status of the DMA shows is noticed. -/
def ideUdmaTransfer (drive : D → Drive) (d : D) (buf : BitVec 32) (count : BitVec 8) (lba : BitVec 32) : Transfer D :=
  if onePage buf count then
    serve d (drive d).totalLba (if count = 0 then 256 else count.toNat) lba (if (drive d).shows then .panic else .eok)
  else ⟨[], .panic⟩

def ideUdmaRead (drive : D → Drive) : D → BitVec 32 → BitVec 8 → BitVec 32 → Transfer D := ideUdmaTransfer drive

def ideUdmaWrite (drive : D → Drive) : D → BitVec 32 → BitVec 8 → BitVec 32 → Transfer D := ideUdmaTransfer drive

def idePioPartRead (p : Part drive) (count : BitVec 8) (lba : BitVec 32) : Transfer D :=
  idePioRead drive p.disk count (BitVec.ofNat 32 p.start + lba)

def idePioPartWrite (p : Part drive) (count : BitVec 8) (lba : BitVec 32) : Transfer D :=
  idePioWrite drive p.disk count (BitVec.ofNat 32 p.start + lba)

/-- `remaining` of `fd_transfer`: the sectors up to the end of the cylinder, from the head and the sector of
`lba2chs`. -/
def fdRemaining (lba : Nat) : Nat := (18 + 1 - (lba % 18 + 1)) + 18 * (2 - lba / 18 % 2 - 1)

/-- `fd_transfer`: a seek behind the last track panics; a count of zero programs the DMA with 65536 bytes, so the
transfer runs to the end of the cylinder and ends with an error. -/
def fdTransfer (count : BitVec 8) (lba : BitVec 32) : Transfer D :=
  if 80 ≤ lba.toNat / (2 * 18) % 256 then ⟨[], .panic⟩
  else
    let n := min count.toNat (fdRemaining lba.toNat)
    let n' := if n = 0 then fdRemaining lba.toNat else n
    ⟨(List.range n').map fun k => ⟨.floppy, lba.toNat / 36 % 256 * 36 + lba.toNat % 36 + k⟩, if n = 0 then .eio else .eok⟩

def fdRead (count : BitVec 8) (lba : BitVec 32) : Transfer D :=
  if (BitVec.ofNat 32 count.toNat + lba).toNat < 80 * 2 * 18 then fdTransfer count lba else ⟨[], .panic⟩

def fdWrite (count : BitVec 8) (lba : BitVec 32) : Transfer D :=
  if (BitVec.ofNat 32 count.toNat + lba).toNat < 80 * 2 * 18 then fdTransfer count lba else ⟨[], .panic⟩

/-! ## `device.c` -/

def deviceRead (dev : Dev drive) (count : BitVec 32) (idx : BitVec 32) : Transfer D :=
  match dev with
  | .ramdisk i => ramdiskRead i (count.setWidth 8) idx
  | .part p => idePioPartRead p (count.setWidth 8) idx
  | .floppy => fdRead (count.setWidth 8) idx

def deviceWrite (dev : Dev drive) (count : BitVec 32) (idx : BitVec 32) : Transfer D :=
  match dev with
  | .ramdisk i => ramdiskWrite i (count.setWidth 8) idx
  | .part p => idePioPartWrite p (count.setWidth 8) idx
  | .floppy => fdWrite (count.setWidth 8) idx

inductive ReqType
  | read
  | write

/-- `device_read` and `device_write` of a disk, as `ide_install` sets them. -/
def diskTransfer (drive : D → Drive) (d : D) (type : ReqType) (buf : BitVec 32) (count : BitVec 8) (lba : BitVec 32) : Transfer D :=
  match type, (drive d).udma with
  | .read, false => idePioRead drive d count lba
  | .write, false => idePioWrite drive d count lba
  | .read, true => ideUdmaRead drive d buf count lba
  | .write, true => ideUdmaWrite drive d buf count lba

def deviceRequest (dev : Dev drive) (buf : BitVec 32) (count : BitVec 8) (idx : BitVec 32) (type : ReqType) : Transfer D :=
  match dev, type with
  | .ramdisk i, .read => ramdiskRead i count idx
  | .ramdisk i, .write => ramdiskWrite i count idx
  | .part p, type => diskTransfer drive p.disk type buf count (idx + BitVec.ofNat 32 p.start)
  | .floppy, .read => fdRead count idx
  | .floppy, .write => fdWrite count idx

def bread (dev : Dev drive) (buf : BitVec 32) (block : BitVec 32) (size : Nat) : Transfer D :=
  let bs := size / sectorSize
  deviceRequest dev buf (BitVec.ofNat 8 bs) (block * BitVec.ofNat 32 bs) .read

/-! ## Block special files -/

/-- The assertions of `minix_read` and `minix_write` on a block special file. -/
def specialTransfer (t : Transfer D) : Transfer D := ⟨t.touched, if t.ret = .eok then .eok else .panic⟩

/-- `minix_read` of a block special file; lengths and offsets are not negative. -/
def minixRead (dev : Dev drive) (len offset : Fin (2 ^ 31)) : Transfer D :=
  if len.val % blockSize ≠ 0 then ⟨[], .panic⟩
  else specialTransfer (deviceRead dev (BitVec.ofNat 32 (len / blockSize)) (BitVec.ofNat 32 (offset / blockSize)))

def minixWrite (dev : Dev drive) (len offset : Fin (2 ^ 31)) : Transfer D :=
  if len.val % blockSize ≠ 0 then ⟨[], .panic⟩
  else specialTransfer (deviceWrite dev (BitVec.ofNat 32 (len / blockSize)) (BitVec.ofNat 32 (offset / blockSize)))

/-! ## What the sectors hold -/

abbrev Store (D S : Type) := Sector D → S

variable {S : Type} [DecidableEq D]

def Store.put (st : Store D S) : List (Sector D) → List S → Store D S
  | x :: l, v :: data => Store.put (Function.update st x v) l data
  | _, _ => st

def Store.get (st : Store D S) (l : List (Sector D)) : List S := l.map st

end Onix.Block
