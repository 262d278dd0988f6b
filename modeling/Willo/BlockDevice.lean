import Willo.ByteCodec
import Willo.FaultState
import Willo.Paths

/-! The block device under the FAT driver (`block.rs`, the checks of `ata.rs`), fault
free: a block below `sectors` reads back what was last written there, every
other block number is refused. A driver call ends with a value, an `FsError`,
a panic, or not at all; the blocks written before it ended stay written. -/

namespace Willo.BlockDevice
open ByteCodec FaultState Paths

def blockSize : Nat := 512

abbrev Block := { b : Bytes // b.length = blockSize }

def zeroBlock : Block := ⟨List.replicate 512 0, List.length_replicate⟩

structure Disk where
  sectors : Nat
  block : Nat → Block

/-- How a call can stop without a value. `diverge` stands for a loop that never ends. -/
inductive Fault where
  | err (e : FsError)
  | panic
  | diverge
  deriving DecidableEq

abbrev FatM (α : Type) := ExceptT Fault (StateM Disk) α

def Disk.write (d : Disk) (lba : Nat) (b : Block) : Disk :=
  { d with block := Function.update d.block lba b }

def readBlock (lba : Nat) : FatM Bytes := do
  let d ← get
  if lba < d.sectors then pure (d.block lba).1 else throw (.err .io)

def writeBlock (lba : Nat) (buf : Bytes) : FatM Unit := do
  let d ← get
  if lba < d.sectors then
    if h : blockSize ≤ buf.length then
      set (d.write lba ⟨buf.take blockSize, by rw [List.length_take]; omega⟩)
    else throw (.err .io)
  else throw (.err .io)

/-- Look at the result of a call as a `Result`; only an `Err` can be looked at. -/
def attempt {α : Type} (x : FatM α) : FatM (Except FsError α) :=
  ExceptT.mk fun d =>
    match exec x d with
    | (.ok a, d') => (.ok (.ok a), d')
    | (.error (.err e), d') => (.ok (.error e), d')
    | (.error f, d') => (.error f, d')

@[simp] theorem Disk.write_sectors (d : Disk) (lba : Nat) (b : Block) :
    (d.write lba b).sectors = d.sectors := rfl

@[simp] theorem Disk.write_same (d : Disk) (lba : Nat) (b : Block) :
    (d.write lba b).block lba = b := by
  simp [Disk.write]

theorem Disk.write_other (d : Disk) {lba n : Nat} (b : Block) (h : n ≠ lba) :
    (d.write lba b).block n = d.block n := by
  simp [Disk.write, h]

theorem exec_readBlock {d : Disk} {lba : Nat} (h : lba < d.sectors) :
    exec (readBlock lba) d = (.ok (d.block lba).1, d) := by
  change exec (if lba < d.sectors then pure (d.block lba).1
    else throw (.err .io) : FatM Bytes) d = _
  rw [if_pos h, exec_pure]

theorem exec_readBlock_past {d : Disk} {lba : Nat} (h : ¬ lba < d.sectors) :
    exec (readBlock lba) d = (.error (.err .io), d) := by
  change exec (if lba < d.sectors then pure (d.block lba).1
    else throw (.err .io) : FatM Bytes) d = _
  rw [if_neg h, exec_throw]

theorem exec_writeBlock {d : Disk} {lba : Nat} {buf : Bytes} (h : lba < d.sectors)
    (hb : buf.length = blockSize) :
    exec (writeBlock lba buf) d = (.ok (), d.write lba ⟨buf, hb⟩) := by
  have htake : buf.take blockSize = buf := List.take_of_length_le hb.le
  change exec (if lba < d.sectors then _ else _) d = _
  rw [if_pos h, dif_pos hb.ge]
  simp only [htake]
  rfl

theorem exec_writeBlock_past {d : Disk} {lba : Nat} {buf : Bytes} (h : ¬ lba < d.sectors) :
    exec (writeBlock lba buf) d = (.error (.err .io), d) := by
  change exec (if lba < d.sectors then _ else _) d = _
  rw [if_neg h, exec_throw]

theorem exec_attempt {α : Type} (x : FatM α) (d : Disk) :
    exec (attempt x) d =
      match exec x d with
      | (.ok a, d') => (.ok (.ok a), d')
      | (.error (.err e), d') => (.ok (.error e), d')
      | (.error f, d') => (.error f, d') := rfl

theorem exec_attempt_ok {α : Type} {x : FatM α} {a : α} {d d' : Disk} (h : exec x d = (.ok a, d')) :
    exec (attempt x) d = (.ok (.ok a), d') := by
  rw [exec_attempt, h]

/-! Writing inside a sector. -/

/-- From `d` to `d'` the bytes `bs` were put at an offset of one sector; nothing else changed. -/
structure Overwritten (d d' : Disk) (n off : Nat) (bs : Bytes) : Prop where
  sectors : d'.sectors = d.sectors
  block : (d'.block n).1 = patch (d.block n).1 off bs
  others : ∀ m, m ≠ n → d'.block m = d.block m

theorem exec_overwrite {d : Disk} {n off : Nat} {bs : Bytes} (hn : n < d.sectors)
    (hoff : off + bs.length ≤ blockSize) :
    ∃ d', exec (writeBlock n (patch (d.block n).1 off bs)) d = (.ok (), d') ∧
    Overwritten d d' n off bs := by
  have hlen : (patch (d.block n).1 off bs).length = blockSize := by
    rw [length_patch (by rw [(d.block n).2]; exact hoff), (d.block n).2]
  exact ⟨_, exec_writeBlock hn hlen,
    rfl, by rw [Disk.write_same], fun m hm => Disk.write_other _ _ hm⟩

end Willo.BlockDevice
