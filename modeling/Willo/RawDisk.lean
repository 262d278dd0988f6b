import Willo.KernelFs
import Willo.VolumeView

/-! Reading and writing the raw-disk node (`Disk0Node` of `fs/dev.rs`) through `read_at` and
`write_at`. The node transfers whole blocks, one after the other, and finds out at each
whether the drive has it. -/

namespace Willo.KernelFs
open Text Paths ByteCodec BlockDevice FaultState

/-- What `read_at` works on: the caller's buffer and the kernel. -/
structure Transfer where
  buf : Bytes
  kernel : Kernel

abbrev TransferM (α : Type) := ExceptT Fault (StateM Transfer) α

def onKernel {α : Type} (x : KernelM α) : TransferM α :=
  ExceptT.mk fun t => let r := exec x t.kernel; (r.1, { t with kernel := r.2 })

def readDiskBlocks (lba : Nat) : List Nat → TransferM Unit
  | [] => pure ()
  | i :: is => do
    let b ← onKernel (onDisk (readBlock (lba + i)))
    modify fun t => { t with buf := patch t.buf (i * blockSize) b }
    readDiskBlocks lba is

def DevNode.read (node : DevNode) (off : Nat) : TransferM Nat := do
  let t ← get
  match node with
  | .console => throw (.err .unsupported)
  | .null | .serial0 => pure 0
  | .zero => do
    set { t with buf := List.replicate t.buf.length 0 }
    pure t.buf.length
  | .disk0 =>
    if t.buf = [] then pure 0
    else if off % blockSize ≠ 0 ∨ t.buf.length % blockSize ≠ 0 then throw (.err .io)
    else do
      readDiskBlocks (off / blockSize) (List.range (t.buf.length / blockSize))
      pure t.buf.length

def devReadAt (rel : Str) (off : Nat) : TransferM Nat := do
  let name ← onKernel (ofResult (flatName rel))
  match devNode name with
  | some node => node.read off
  | none => throw (.err .notFound)

def disk0Path : Str := text "/disk0"

def Aligned (off : Nat) (buf : Bytes) : Prop := off % blockSize = 0 ∧ buf.length % blockSize = 0

/-- The write at `off` that was taken can be read back and changed no block outside its range;
refused is what is not aligned or goes past the end of the disk, and it changed no block. -/
structure AllOrNothing (off : Nat) (buf : Bytes) (k : Kernel) : Prop where
  taken : ∀ n k', exec (devWriteAt disk0Path off buf) k = (.ok n, k') → n = buf.length ∧
    (∀ into : Bytes, into.length = buf.length →
      exec (devReadAt disk0Path off) ⟨into, k'⟩ = (.ok buf.length, ⟨buf, k'⟩)) ∧
    ∀ b, (b + 1) * blockSize ≤ off ∨ off + buf.length ≤ b * blockSize →
      k'.disk.block b = k.disk.block b
  refused : ∀ e k', exec (devWriteAt disk0Path off buf) k = (.error e, k') →
    buf ≠ [] ∧ (¬ Aligned off buf ∨ k.disk.sectors * blockSize < off + buf.length) ∧
    ∀ b, k'.disk.block b = k.disk.block b

def Straddles (off : Nat) (buf : Bytes) (d : Disk) : Prop :=
  Aligned off buf ∧ off < d.sectors * blockSize ∧ d.sectors * blockSize < off + buf.length

def Holds (off : Nat) (buf : Bytes) (d : Disk) : Prop :=
  ∀ i < buf.length / blockSize, off / blockSize + i < d.sectors →
    (d.block (off / blockSize + i)).1 = slice buf (i * blockSize) blockSize

section RawDisk

variable {off : Nat} {buf into : Bytes} {k : Kernel} {t : Transfer}

theorem exec_onDisk {α : Type} (x : FatM α) (k : Kernel) :
    exec (onDisk x) k = ((exec x k.disk).1, { k with disk := (exec x k.disk).2 }) := rfl

theorem exec_onKernel {α : Type} (x : KernelM α) (t : Transfer) :
    exec (onKernel x) t = ((exec x t.kernel).1, { t with kernel := (exec x t.kernel).2 }) := rfl

theorem disk0_found : flatName disk0Path = .ok (text "disk0") ∧
    devNode (text "disk0") = some .disk0 := by
  decide +kernel

theorem devWriteAt_disk0 (off : Nat) (buf : Bytes) :
    devWriteAt disk0Path off buf = DevNode.write .disk0 off buf := by
  have hname : ofResult (flatName disk0Path) = pure (text "disk0") :=
    congrArg ofResult disk0_found.1
  rw [devWriteAt, hname, pure_bind, disk0_found.2]

theorem exec_devReadAt_disk0 (off : Nat) (t : Transfer) :
    exec (devReadAt disk0Path off) t = exec (DevNode.read .disk0 off) t := by
  have hname : exec (onKernel (ofResult (flatName disk0Path))) t = (.ok (text "disk0"), t) := by
    rw [disk0_found.1]
    rfl
  rw [devReadAt, exec_bind_ok hname, disk0_found.2]

/-! The transfer of blocks. -/

theorem writeDiskBlocks_eq (lba : Nat) (buf : Bytes) (is : List Nat) :
    writeDiskBlocks lba buf is = Fat.writeSectors lba buf is := by
  induction is with
  | nil => rfl
  | cons i is ih => rw [writeDiskBlocks, Fat.writeSectors, ih]

theorem exec_readDiskBlocks (lba : Nat) {m i : Nat} (hdev : lba + (i + m) ≤ t.kernel.disk.sectors)
    (hlen : (i + m) * blockSize ≤ t.buf.length) :
    ∃ into, exec (readDiskBlocks lba (List.range' i m)) t = (.ok (), { t with buf := into }) ∧
      into.length = t.buf.length ∧
      (∀ j, i ≤ j → j < i + m →
        slice into (j * blockSize) blockSize = (t.kernel.disk.block (lba + j)).1) ∧
      ∀ j < i, slice into (j * blockSize) blockSize = slice t.buf (j * blockSize) blockSize := by
  induction m generalizing t i with
  | zero => exact ⟨t.buf, rfl, rfl, fun j h1 h2 => by omega, fun _ _ => rfl⟩
  | succ m ih =>
    have hblock : (t.kernel.disk.block (lba + i)).1.length = blockSize :=
      (t.kernel.disk.block (lba + i)).2
    have hroom : i * blockSize + blockSize ≤ t.buf.length := by
      rw [Nat.add_mul, Nat.add_mul] at hlen
      omega
    have hpatch : i * blockSize + (t.kernel.disk.block (lba + i)).1.length ≤ t.buf.length := by
      rwa [hblock]
    obtain ⟨into, hrun, hsame, hin, hbefore⟩ :=
      ih (t := { t with buf := patch t.buf (i * blockSize) (t.kernel.disk.block (lba + i)).1 })
        (i := i + 1)
        (by dsimp only; omega)
        (by dsimp only; rw [length_patch hpatch, show i + 1 + m = i + (m + 1) by omega]; exact hlen)
    dsimp only at hsame hin hbefore hrun
    refine ⟨into, ?_, hsame.trans (length_patch hpatch), fun j h1 h2 => ?_, fun j hj => ?_⟩
    · have hread : exec (onKernel (onDisk (readBlock (lba + i)))) t =
          (.ok (t.kernel.disk.block (lba + i)).1, t) := by
        rw [exec_onKernel, exec_onDisk, exec_readBlock (by omega)]
      rw [List.range'_succ, readDiskBlocks, exec_bind_ok hread]
      exact hrun
    · rcases Nat.eq_or_lt_of_le h1 with rfl | h1
      · rw [hbefore i (Nat.lt_succ_self i)]
        have hself : slice (patch t.buf (i * blockSize) (t.kernel.disk.block (lba + i)).1)
          (i * blockSize)
            (t.kernel.disk.block (lba + i)).1.length = _ := slice_patch_self (by omega)
        rwa [hblock] at hself
      · exact hin j h1 (by omega)
    · have hstep : (j + 1) * blockSize ≤ i * blockSize := Nat.mul_le_mul_right _ hj
      rw [Nat.add_mul, Nat.one_mul] at hstep
      rw [hbefore j (by omega), slice_patch_other hpatch (Or.inl hstep)]

theorem eq_of_slices {a b : Bytes} {m : Nat} (ha : a.length = m * blockSize)
    (hb : b.length = m * blockSize)
    (h : ∀ i < m, slice a (i * blockSize) blockSize = slice b (i * blockSize) blockSize) :
    a = b := by
  refine bytes_ext (ha.trans hb.symm) fun n hn => ?_
  have hpos : 0 < blockSize := by decide
  have hi : n / blockSize < m := (Nat.div_lt_iff_lt_mul hpos).mpr (ha ▸ hn)
  have hsplit := Nat.div_add_mod' n blockSize
  have hmod := Nat.mod_lt n hpos
  rw [← hsplit, ← byteAt_slice hmod, ← byteAt_slice hmod, h _ hi]

/-! Whole ranges. -/

theorem length_of_aligned (h : Aligned off buf) : buf.length = buf.length / blockSize * blockSize :=
  (Nat.div_mul_cancel (Nat.dvd_of_mod_eq_zero h.2)).symm

theorem exec_write_empty (off : Nat) (k : Kernel) :
    exec (devWriteAt disk0Path off []) k = (.ok 0, k) := by
  rw [devWriteAt_disk0]
  rfl

theorem exec_write_misaligned (hne : buf ≠ []) (h : ¬ Aligned off buf) :
    exec (devWriteAt disk0Path off buf) k = (.error (.err .io), k) := by
  rw [devWriteAt_disk0, DevNode.write, if_neg hne, if_pos (not_and_or.mp h), exec_throw]

theorem exec_write_aligned (hne : buf ≠ []) (h : Aligned off buf) :
    ∃ d', exec (devWriteAt disk0Path off buf) k =
        (if off + buf.length ≤ k.disk.sectors * blockSize then .ok buf.length
        else .error (.err .io),
          { k with disk := d' }) ∧
      d'.sectors = k.disk.sectors ∧ Holds off buf d' ∧
      ∀ b, (∀ i < buf.length / blockSize, off / blockSize + i < k.disk.sectors →
        b ≠ off / blockSize + i) →
        d'.block b = k.disk.block b := by
  have hlen := length_of_aligned h
  have hblocks : buf.length / blockSize ≠ 0 := by
    intro hzero
    rw [hzero, Nat.zero_mul] at hlen
    exact hne (List.eq_nil_of_length_eq_zero hlen)
  have hoff := Nat.div_mul_cancel (Nat.dvd_of_mod_eq_zero h.1)
  have hfits : off / blockSize + (0 + buf.length / blockSize) ≤ k.disk.sectors ∨
    buf.length / blockSize = 0 ↔
      off + buf.length ≤ k.disk.sectors * blockSize := by
    unfold blockSize at hoff hlen hblocks ⊢
    omega
  obtain ⟨d', hrun, hsec, hin, hout⟩ :=
    Fat.exec_writeSectors (off / blockSize) buf (buf.length / blockSize) 0 k.disk
      (by rw [Nat.zero_add, ← hlen])
  refine ⟨d', ?_, hsec, fun i hi hdev => hin i (Nat.zero_le i) (by omega) (hsec ▸ hdev),
    fun b hb => ?_⟩
  · have hdisk : exec (onDisk
      (writeDiskBlocks (off / blockSize) buf (List.range (buf.length / blockSize)))) k =
        (if off + buf.length ≤ k.disk.sectors * blockSize then .ok () else .error (.err .io),
          { k with disk := d' }) := by
      rw [exec_onDisk, writeDiskBlocks_eq, List.range_eq_range', hrun, if_congr hfits rfl rfl]
    rw [devWriteAt_disk0, DevNode.write, if_neg hne,
      if_neg (not_or.mpr ⟨not_not.mpr h.1, not_not.mpr h.2⟩)]
    by_cases hfit : off + buf.length ≤ k.disk.sectors * blockSize
    · rw [if_pos hfit] at hdisk ⊢
      rw [exec_bind_ok hdisk, exec_pure]
    · rw [if_neg hfit] at hdisk ⊢
      rw [exec_bind_error hdisk]
  · exact hout b fun i _ hi hdev => hb i (by omega) hdev

theorem exec_read_aligned (hne : buf ≠ []) (h : Aligned off buf)
    (hfit : off + buf.length ≤ k.disk.sectors * blockSize) (hholds : Holds off buf k.disk)
    (hinto : into.length = buf.length) :
    exec (devReadAt disk0Path off) ⟨into, k⟩ = (.ok buf.length, ⟨buf, k⟩) := by
  have hlen := length_of_aligned h
  have hoff := Nat.div_mul_cancel (Nat.dvd_of_mod_eq_zero h.1)
  have hne' : into ≠ [] := by
    rintro rfl
    exact hne (List.eq_nil_of_length_eq_zero hinto.symm)
  have hdev : off / blockSize + (0 + buf.length / blockSize) ≤ k.disk.sectors := by
    unfold blockSize at hoff hlen hfit ⊢
    omega
  obtain ⟨into', hrun, hsame, hin, -⟩ := exec_readDiskBlocks (t := ⟨into, k⟩) (off / blockSize) hdev
    (by dsimp only; rw [hinto, Nat.zero_add, ← hlen])
  have heq : into' = buf := by
    refine eq_of_slices (m := buf.length / blockSize) (hsame.trans (hinto.trans hlen)) hlen
      fun i hi => ?_
    rw [hin i (Nat.zero_le i) (by omega), hholds i hi (by omega)]
  subst heq
  rw [exec_devReadAt_disk0, DevNode.read, exec_get_bind]
  dsimp only
  rw [if_neg hne', if_neg (not_or.mpr ⟨not_not.mpr h.1, not_not.mpr (by rw [hinto]; exact h.2)⟩),
    hinto, List.range_eq_range', exec_bind_ok hrun, exec_pure]

/-! The property, for each kind of range. -/

theorem allOrNothing_empty (off : Nat) (k : Kernel) : AllOrNothing off [] k where
  taken n k' hrun := by
    rw [exec_write_empty] at hrun
    cases hrun
    refine ⟨rfl, fun into hinto => ?_, fun _ _ => rfl⟩
    rw [List.eq_nil_of_length_eq_zero hinto, exec_devReadAt_disk0]
    rfl
  refused e k' hrun := by
    rw [exec_write_empty] at hrun
    cases hrun

theorem allOrNothing_misaligned (hne : buf ≠ []) (h : ¬ Aligned off buf) :
    AllOrNothing off buf k where
  taken n k' hrun := by
    rw [exec_write_misaligned hne h] at hrun
    cases hrun
  refused e k' hrun := by
    rw [exec_write_misaligned hne h] at hrun
    cases hrun
    exact ⟨hne, Or.inl h, fun _ => rfl⟩

theorem allOrNothing_fits (hne : buf ≠ []) (h : Aligned off buf)
    (hfit : off + buf.length ≤ k.disk.sectors * blockSize) : AllOrNothing off buf k := by
  obtain ⟨d', hrun, hsec, hholds, hout⟩ := exec_write_aligned (k := k) hne h
  rw [if_pos hfit] at hrun
  refine ⟨fun n k' hrun' => ?_, fun e k' hrun' => ?_⟩
  · rw [hrun] at hrun'
    cases hrun'
    have hlen := length_of_aligned h
    have hoff := Nat.div_mul_cancel (Nat.dvd_of_mod_eq_zero h.1)
    refine ⟨rfl, fun into hinto => exec_read_aligned hne h (by dsimp only; rwa [hsec]) hholds hinto,
      fun b hb => ?_⟩
    refine hout b fun i hi _ heq => ?_
    unfold blockSize at hb hlen hoff heq hi
    omega
  · rw [hrun] at hrun'
    cases hrun'

theorem allOrNothing_past_iff (hne : buf ≠ []) (h : Aligned off buf)
    (hpast : k.disk.sectors * blockSize < off + buf.length) :
    AllOrNothing off buf k ↔ Holds off buf k.disk := by
  obtain ⟨d', hrun, hsec, hholds, hout⟩ := exec_write_aligned (k := k) hne h
  rw [if_neg (Nat.not_le.mpr hpast)] at hrun
  constructor
  · intro hall i hi hdev
    obtain ⟨-, -, hsame⟩ := hall.refused _ _ hrun
    rw [← hsame]
    exact hholds i hi (by rwa [hsec])
  · intro hheld
    refine ⟨fun n k' hrun' => ?_, fun e k' hrun' => ?_⟩
    · rw [hrun] at hrun'
      cases hrun'
    · rw [hrun] at hrun'
      cases hrun'
      refine ⟨hne, Or.inr hpast, fun b => ?_⟩
      by_cases hb : ∃ i < buf.length / blockSize, off / blockSize + i < k.disk.sectors ∧
        b = off / blockSize + i
      · obtain ⟨i, hi, hdev, rfl⟩ := hb
        exact Subtype.ext ((hholds i hi (by rwa [hsec])).trans (hheld i hi hdev).symm)
      · push Not at hb
        exact hout b hb

/-- A write to the raw disk is all or nothing, unless its range is of whole blocks, begins
before the end of the disk and goes past it, and the blocks in front of the end do not hold the
bytes already. -/
theorem allOrNothing_iff (off : Nat) (buf : Bytes) (k : Kernel) :
    AllOrNothing off buf k ↔ (Straddles off buf k.disk → Holds off buf k.disk) := by
  by_cases hne : buf = []
  · subst hne
    refine iff_of_true (allOrNothing_empty off k) fun hs => absurd hs.2.2 ?_
    have hstart := hs.2.1
    rw [List.length_nil]
    omega
  · by_cases h : Aligned off buf
    · by_cases hfit : off + buf.length ≤ k.disk.sectors * blockSize
      · exact iff_of_true (allOrNothing_fits hne h hfit) fun hs =>
          absurd hs.2.2 (Nat.not_lt.mpr hfit)
      · rw [allOrNothing_past_iff hne h (Nat.lt_of_not_le hfit)]
        refine ⟨fun hheld _ => hheld, fun hcond i hi hdev =>
          hcond ⟨h, ?_, Nat.lt_of_not_le hfit⟩ i hi hdev⟩
        have hoff := Nat.div_mul_cancel (Nat.dvd_of_mod_eq_zero h.1)
        unfold blockSize at hoff hdev ⊢
        omega
    · exact iff_of_true (allOrNothing_misaligned hne h) fun hs => absurd hs.1 h

end RawDisk

def emptyKernel : Kernel where
  disk := ⟨4, fun _ => zeroBlock⟩
  ticks := 0
  console := []
  serial := none

/-- Two blocks of ones written to the last block and the one behind the end. -/
theorem allOrNothing_fails :
    ¬ AllOrNothing (3 * blockSize) (List.replicate (2 * blockSize) 1) emptyKernel := by
  intro hall
  have hlen : (List.replicate (2 * blockSize) (1 : UInt8)).length = 2 * blockSize :=
    List.length_replicate
  have hne : List.replicate (2 * blockSize) (1 : UInt8) ≠ [] :=
    List.ne_nil_of_length_pos (by rw [hlen]; decide)
  have haligned : Aligned (3 * blockSize) (List.replicate (2 * blockSize) 1) :=
    ⟨by decide, by rw [hlen]; decide⟩
  have hheld := (allOrNothing_past_iff hne haligned (by rw [hlen]; decide)).mp hall 0
    (by rw [hlen]; decide) (by decide)
  have hbyte := congrArg (byteAt · 0) hheld
  revert hbyte
  decide +kernel

end Willo.KernelFs
