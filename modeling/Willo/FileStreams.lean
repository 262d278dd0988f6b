import Willo.RawDisk
import Willo.ShellFiles

/-! Reading and writing at offsets (`read_at` and `write_at` of `fs/mod.rs`), by a caller
that goes on where its last call ended. Three of the backends cut what is asked for out of
the whole file; the raw disk is an array of bytes, taken in whole blocks. However the
caller cuts its buffers, it gets the same bytes. -/

namespace Willo.KernelFs
open Text Paths ByteCodec BlockDevice FaultState TreeStore MountTable

/-- `read_at` as the trait has it, over `read_file`. -/
def readAtOf (read : KernelM Bytes) (off : Nat) : TransferM Nat := do
  let data ← onKernel read
  if data.length ≤ off then pure 0
  else do
    let t ← get
    let n := min (data.length - off) t.buf.length
    set { t with buf := patch t.buf 0 (slice data off n) }
    pure n

def Backend.readAt : Backend → Str → Nat → TransferM Nat
  | .dev, rel, off => devReadAt rel off
  | b, rel, off => readAtOf (b.readFile rel) off

def Backend.writeAt : Backend → Str → Nat → Bytes → KernelM Nat
  | .dev, rel, off, buf => devWriteAt rel off buf
  | _, _, _, _ => throw (.err .unsupported)

def readAt (v : Vfs Backend) (abs : Str) (off : Nat) : TransferM Nat := do
  let (fs, rel) ← onKernel (ofResult (resolve v abs))
  fs.readAt rel off

def writeAt (v : Vfs Backend) (abs : Str) (off : Nat) (buf : Bytes) : KernelM Nat := do
  let (fs, rel) ← ofResult (resolve v abs)
  fs.writeAt rel off buf

def into (buf : Bytes) (x : TransferM Nat) : KernelM (Nat × Bytes) :=
  ExceptT.mk fun k => let r := exec x ⟨buf, k⟩; (r.1.map fun n => (n, r.2.buf), r.2.kernel)

def readOn (v : Vfs Backend) (abs : Str) : List Bytes → Nat → KernelM Bytes
  | [], _ => pure []
  | buf :: bufs, off => do
    let (n, got) ← into buf (readAt v abs off)
    let rest ← readOn v abs bufs (off + n)
    pure (got.take n ++ rest)

def writeOn (v : Vfs Backend) (abs : Str) : List Bytes → Nat → KernelM Unit
  | [], _ => pure ()
  | buf :: bufs, off => do
    let n ← writeAt v abs off buf
    writeOn v abs bufs (off + n)

/-! Files. -/

section Files

variable {v : Vfs Backend} {abs rel : Str} {fs : Backend} {off : Nat}
    {buf data : Bytes} {k : Kernel}

theorem readAt_file (hfs : fs ≠ .dev) (rel : Str) (off : Nat) :
    fs.readAt rel off = readAtOf (fs.readFile rel) off := by
  cases fs with
  | dev => exact absurd rfl hfs
  | _ => rfl

theorem exec_resolved {α : Type} {r : Backend × Str} (hres : resolve v abs = .ok r)
    (x : Backend × Str → TransferM α)
    (t : Transfer) : exec (onKernel (ofResult (resolve v abs)) >>= x) t = exec (x r) t := by
  rw [hres]
  exact exec_bind_ok rfl

theorem exec_into {x : TransferM Nat} {n : Nat} {got : Bytes}
    (h : exec x ⟨buf, k⟩ = (.ok n, ⟨got, k⟩)) :
    exec (into buf x) k = (.ok (n, got), k) := by
  change ((exec x ⟨buf, k⟩).1.map _, (exec x ⟨buf, k⟩).2.kernel) = _
  rw [h]
  rfl

theorem exec_readFile_resolved (hres : resolve v abs = .ok (fs, rel)) (k : Kernel) :
    exec (fs.readFile rel) k = exec (readFile v abs) k := by
  rw [readFile, hres]
  rfl

theorem exec_readAt_file (hres : resolve v abs = .ok (fs, rel)) (hfs : fs ≠ .dev)
    (h : exec (readFile v abs) k = (.ok data, k)) :
    ∃ got, exec (readAt v abs off) ⟨buf, k⟩ = (.ok (min (data.length - off) buf.length), ⟨got, k⟩) ∧
      got.take (min (data.length - off) buf.length) =
      (data.drop off).take (min (data.length - off) buf.length) := by
  have hread : exec (onKernel (fs.readFile rel)) ⟨buf, k⟩ = (.ok data, ⟨buf, k⟩) := by
    rw [exec_onKernel, exec_readFile_resolved hres, h]
  rw [readAt, exec_resolved hres]
  dsimp only
  rw [readAt_file hfs, readAtOf, exec_bind_ok hread]
  by_cases hend : data.length ≤ off
  · rw [if_pos hend, Nat.sub_eq_zero_of_le hend, Nat.zero_min]
    exact ⟨buf, rfl, rfl⟩
  · rw [if_neg hend]
    refine ⟨patch buf 0 (slice data off (min (data.length - off) buf.length)), rfl, ?_⟩
    have hlen : (slice data off (min (data.length - off) buf.length)).length =
      min (data.length - off) buf.length :=
      length_slice (by omega)
    have hself := @slice_patch_self buf (slice data off (min (data.length - off) buf.length)) 0
      (Nat.zero_le _)
    rwa [hlen] at hself

theorem take_min_append (l : Bytes) (a b : Nat) :
    l.take (min l.length a) ++ (l.drop (min l.length a)).take b = l.take (a + b) := by
  rcases Nat.le_total l.length a with h | h
  · rw [Nat.min_eq_left h, List.take_length, List.drop_length, List.take_nil, List.append_nil,
      List.take_of_length_le (by omega)]
  · rw [Nat.min_eq_right h, List.take_add]

theorem exec_readOn_file (hres : resolve v abs = .ok (fs, rel)) (hfs : fs ≠ .dev)
    (h : exec (readFile v abs) k = (.ok data, k)) (bufs : List Bytes) (off : Nat) :
    exec (readOn v abs bufs off) k = (.ok ((data.drop off).take bufs.flatten.length), k) := by
  induction bufs generalizing off with
  | nil => rw [readOn, exec_pure, List.flatten_nil, List.length_nil, List.take_zero]
  | cons buf bufs ih =>
    obtain ⟨got, hcall, hgot⟩ := @exec_readAt_file _ _ _ _ off buf _ _ hres hfs h
    rw [readOn, exec_bind_ok (exec_into hcall), exec_bind_ok (ih _), exec_pure, hgot,
      List.flatten_cons, List.length_append, ← take_min_append, List.length_drop, List.drop_drop]

end Files

/-- Read in buffers of any sizes, a file on any backend but the device files is what `read_file`
returns, as far as the buffers go; with an error of `read_file` the first call ends. -/
theorem readOn_file {v : Vfs Backend} {abs rel : Str} {fs : Backend}
    (hres : resolve v abs = .ok (fs, rel))
    (hfs : fs ≠ .dev) (k : Kernel) (buf : Bytes) (bufs : List Bytes) :
    exec (readOn v abs (buf :: bufs) 0) k =
      ((exec (readFile v abs) k).1.map fun data => data.take (buf :: bufs).flatten.length, k) := by
  have hreads : (exec (readFile v abs) k).2 = k := readFile_reads abs k
  rcases hrun : exec (readFile v abs) k with ⟨e | data, k'⟩
  · rw [hrun] at hreads
    dsimp only at hreads
    subst hreads
    have hcall : exec (readAt v abs 0) ⟨buf, k'⟩ = (.error e, ⟨buf, k'⟩) := by
      have hread : exec (onKernel (fs.readFile rel)) ⟨buf, k'⟩ = (.error e, ⟨buf, k'⟩) := by
        rw [exec_onKernel, exec_readFile_resolved hres, hrun]
      rw [readAt, exec_resolved hres]
      dsimp only
      rw [readAt_file hfs, readAtOf, exec_bind_error hread]
    have hinto : exec (into buf (readAt v abs 0)) k' = (.error e, k') := by
      change ((exec (readAt v abs 0) ⟨buf, k'⟩).1.map _,
        (exec (readAt v abs 0) ⟨buf, k'⟩).2.kernel) = _
      rw [hcall]
      rfl
    rw [readOn, exec_bind_error hinto]
    rfl
  · rw [hrun] at hreads
    dsimp only at hreads
    subst hreads
    rw [exec_readOn_file hres hfs hrun, List.drop_zero]
    rfl

theorem readOn_file_tmp :
    exec (readOn ⟨[⟨[], .tmp (.dir [([97], .file [1, 2, 3])])⟩]⟩ [47, 97] [[0, 0], [],
      [0, 0]] 0) emptyKernel =
      (.ok [1, 2, 3], emptyKernel) := by
  have hres : resolve ⟨[⟨[], Backend.tmp (.dir [([97], .file [1, 2, 3])])⟩]⟩ [47, 97] =
      .ok (.tmp (.dir [([97], .file [1, 2, 3])]), [47, 97]) := rfl
  exact readOn_file hres nofun emptyKernel _ _

/-! The raw disk. -/

def diskByte (d : Disk) (i : Nat) : UInt8 := byteAt (d.block (i / blockSize)).1 (i % blockSize)

def diskRange (d : Disk) (off n : Nat) : Bytes := (List.range' off n).map (diskByte d)

def Whole (bufs : List Bytes) : Prop := ∀ b ∈ bufs, b.length % blockSize = 0

section Ranges

variable {d : Disk} {off n : Nat} {buf : Bytes}

@[simp] theorem length_diskRange (d : Disk) (off n : Nat) : (diskRange d off n).length = n := by
  rw [diskRange, List.length_map, List.length_range']

theorem byteAt_diskRange {i : Nat} (h : i < n) :
    byteAt (diskRange d off n) i = diskByte d (off + i) := by
  rw [byteAt, diskRange, List.getD_eq_getElem?_getD, List.getElem?_map, List.getElem?_range' h,
    Nat.one_mul]
  rfl

theorem diskRange_append (d : Disk) (off a b : Nat) :
    diskRange d off a ++ diskRange d (off + a) b = diskRange d off (a + b) := by
  rw [diskRange, diskRange, diskRange, ← List.map_append, List.range'_append_1]

theorem diskByte_block (d : Disk) (b : Nat) {j : Nat} (hj : j < blockSize) :
    diskByte d (b * blockSize + j) = byteAt (d.block b).1 j := by
  unfold diskByte blockSize at *
  rw [show (b * 512 + j) / 512 = b by omega, show (b * 512 + j) % 512 = j by omega]

theorem holds_diskRange (ha : off % blockSize = 0) : Holds off (diskRange d off n) d := by
  intro i hi _
  rw [length_diskRange] at hi
  have hlen : i * blockSize + blockSize ≤ n := by
    unfold blockSize at hi ⊢
    omega
  refine bytes_ext ?_ fun j hj => ?_
  · rw [length_slice (by rw [length_diskRange]; exact hlen)]
    exact (d.block _).2
  · have hj : j < blockSize := by rwa [(d.block _).2] at hj
    rw [byteAt_slice hj, byteAt_diskRange (by omega), ← diskByte_block d _ hj]
    congr 1
    unfold blockSize at ha ⊢
    omega

theorem diskByte_written {d' : Disk} (h : Aligned off buf)
    (hfit : off + buf.length ≤ d.sectors * blockSize)
    (hholds : Holds off buf d') (hsec : d'.sectors = d.sectors)
    (hout : ∀ b, (∀ i < buf.length / blockSize, off / blockSize + i < d.sectors →
      b ≠ off / blockSize + i) →
      d'.block b = d.block b) (i : Nat) :
    diskByte d' i = if off ≤ i ∧ i < off + buf.length then byteAt buf (i - off)
      else diskByte d i := by
  have hoff := h.1
  have hlen := h.2
  by_cases hi : off ≤ i ∧ i < off + buf.length
  · rw [if_pos hi]
    have hblock : i / blockSize = off / blockSize + (i - off) / blockSize := by
      unfold blockSize at hoff ⊢
      omega
    have hindex : (i - off) / blockSize < buf.length / blockSize := by
      unfold blockSize at hlen ⊢
      omega
    have hdev : off / blockSize + (i - off) / blockSize < d'.sectors := by
      unfold blockSize at hfit hblock ⊢
      omega
    have hmod : i % blockSize < blockSize := Nat.mod_lt _ (by decide)
    rw [diskByte, hblock, hholds _ hindex hdev, byteAt_slice hmod]
    congr 1
    unfold blockSize at hoff ⊢
    omega
  · rw [if_neg hi, diskByte, diskByte, hout]
    intro j hj _ heq
    unfold blockSize at hoff hlen hj heq
    omega

end Ranges

section Streams

variable {v : Vfs Backend} {abs : Str} {off : Nat} {buf : Bytes} {k : Kernel}

theorem exec_writeAt_disk0 (hres : resolve v abs = .ok (.dev, disk0Path)) (off : Nat)
    (buf : Bytes) :
    writeAt v abs off buf = devWriteAt disk0Path off buf := by
  rw [writeAt, hres]
  rfl

theorem exec_readAt_disk0 (hres : resolve v abs = .ok (.dev, disk0Path)) (off : Nat)
    (t : Transfer) :
    exec (readAt v abs off) t = exec (devReadAt disk0Path off) t := by
  rw [readAt, exec_resolved hres]
  rfl

theorem exec_readOn_disk0 (hres : resolve v abs = .ok (.dev, disk0Path)) {bufs : List Bytes}
    (hbufs : Whole bufs)
    (ha : off % blockSize = 0) (hfit : off + bufs.flatten.length ≤ k.disk.sectors * blockSize) :
    exec (readOn v abs bufs off) k = (.ok (diskRange k.disk off bufs.flatten.length), k) := by
  induction bufs generalizing off with
  | nil => rfl
  | cons buf bufs ih =>
    rw [Whole, List.forall_mem_cons] at hbufs
    rw [List.flatten_cons, List.length_append] at hfit ⊢
    have hcall : exec (readAt v abs off) ⟨buf, k⟩ =
      (.ok buf.length, ⟨diskRange k.disk off buf.length, k⟩) := by
      rw [exec_readAt_disk0 hres]
      by_cases hne : buf = []
      · subst hne
        rw [exec_devReadAt_disk0]
        rfl
      · have hlen := length_diskRange k.disk off buf.length
        have hrange : diskRange k.disk off buf.length ≠ [] := by
          intro hnil
          rw [hnil] at hlen
          exact hne (List.eq_nil_of_length_eq_zero hlen.symm)
        have hread := @exec_read_aligned off _ buf k hrange ⟨ha, by rw [hlen]; exact hbufs.1⟩
          (by rw [hlen]; omega) (holds_diskRange ha) hlen.symm
        rwa [hlen] at hread
    have hrest := @ih (off + buf.length) hbufs.2
      (by have := hbufs.1; unfold blockSize at *; omega) (by omega)
    rw [readOn, exec_bind_ok (exec_into hcall), exec_bind_ok hrest, exec_pure,
      List.take_of_length_le (Nat.le_of_eq (length_diskRange _ _ _)), diskRange_append]

theorem exec_writeOn_disk0 (hres : resolve v abs = .ok (.dev, disk0Path)) {bufs : List Bytes}
    (hbufs : Whole bufs)
    (ha : off % blockSize = 0) (hfit : off + bufs.flatten.length ≤ k.disk.sectors * blockSize) :
    ∃ d', exec (writeOn v abs bufs off) k = (.ok (), { k with disk := d' }) ∧
      d'.sectors = k.disk.sectors ∧
      ∀ i, diskByte d' i = if off ≤ i ∧
        i < off + bufs.flatten.length then byteAt bufs.flatten (i - off)
        else diskByte k.disk i := by
  induction bufs generalizing off k with
  | nil => exact ⟨k.disk, rfl, rfl, fun i =>
    (if_neg (by rw [List.flatten_nil, List.length_nil]; omega)).symm⟩
  | cons buf bufs ih =>
    rw [Whole, List.forall_mem_cons] at hbufs
    rw [List.flatten_cons, List.length_append] at hfit ⊢
    have hnext : (off + buf.length) % blockSize = 0 := by
      have := hbufs.1
      unfold blockSize at *
      omega
    obtain ⟨d₁, hcall, hsec, hbytes⟩ : ∃ d₁,
      exec (devWriteAt disk0Path off buf) k = (.ok buf.length, { k with disk := d₁ }) ∧
        d₁.sectors = k.disk.sectors ∧
        ∀ i, diskByte d₁ i = if off ≤ i ∧ i < off + buf.length then byteAt buf (i - off)
          else diskByte k.disk i := by
      by_cases hne : buf = []
      · subst hne
        exact ⟨k.disk, exec_write_empty off k, rfl, fun i =>
          (if_neg (by rw [List.length_nil]; omega)).symm⟩
      · obtain ⟨d₁, hrun, hsec, hholds, hout⟩ := exec_write_aligned (k := k) hne ⟨ha, hbufs.1⟩
        rw [if_pos (by omega)] at hrun
        exact ⟨d₁, hrun, hsec, diskByte_written ⟨ha, hbufs.1⟩ (by omega) hholds hsec hout⟩
    obtain ⟨d', hrest, hsec', hbytes'⟩ := ih (k := { k with disk := d₁ }) hbufs.2 hnext
      (by dsimp only; rw [hsec]; omega)
    refine ⟨d', ?_, hsec'.trans hsec, fun i => ?_⟩
    · rw [writeOn, exec_writeAt_disk0 hres, exec_bind_ok hcall]
      exact hrest
    · rw [hbytes' i]
      dsimp only
      rw [hbytes i]
      by_cases h₁ : off ≤ i ∧ i < off + buf.length
      · rw [if_neg (by omega), if_pos h₁, if_pos (by omega), byteAt_append_left (by omega)]
      · by_cases h₂ : off + buf.length ≤ i ∧ i < off + buf.length + bufs.flatten.length
        · rw [if_pos h₂, if_pos (by omega), byteAt_append_right (by omega), Nat.sub_sub]
        · rw [if_neg h₂, if_neg h₁, if_neg (by omega)]

/-- Data written to the raw disk in buffers of whole blocks is read back through any other such
buffers of the same total, and no byte outside its range has changed. -/
theorem raw_round_trip (hres : resolve v abs = .ok (.dev, disk0Path)) {chunks : List Bytes}
    (hchunks : Whole chunks)
    (ha : off % blockSize = 0) (hfit : off + chunks.flatten.length ≤ k.disk.sectors * blockSize) :
    ∃ d', exec (writeOn v abs chunks off) k = (.ok (), { k with disk := d' }) ∧
      (∀ i, i < off ∨ off + chunks.flatten.length ≤ i → diskByte d' i = diskByte k.disk i) ∧
      ∀ bufs, Whole bufs → bufs.flatten.length = chunks.flatten.length →
        exec (readOn v abs bufs off) { k with disk := d' } =
          (.ok chunks.flatten, { k with disk := d' }) := by
  obtain ⟨d', hrun, hsec, hbytes⟩ := exec_writeOn_disk0 (k := k) hres hchunks ha hfit
  refine ⟨d', hrun, fun i hi => ?_, fun bufs hbufs hlen => ?_⟩
  · rw [hbytes, if_neg (by omega)]
  · rw [exec_readOn_disk0 hres hbufs ha (by dsimp only; rw [hsec, hlen]; exact hfit), hlen]
    refine congrArg (fun b => (Except.ok b, { k with disk := d' })) ?_
    refine bytes_ext (length_diskRange _ _ _) fun i hi => ?_
    rw [length_diskRange] at hi
    rw [byteAt_diskRange hi, hbytes, if_pos (by omega), Nat.add_sub_cancel_left]

end Streams

/-- Three blocks in two buffers, read back in buffers of one and two. -/
theorem raw_round_trip_emptyKernel :
    ∃ d', exec (writeOn ⟨[⟨[], .dev⟩]⟩ disk0Path [List.replicate 1024 7,
      List.replicate 512 8] 512) emptyKernel =
        (.ok (), { emptyKernel with disk := d' }) ∧
      exec (readOn ⟨[⟨[], .dev⟩]⟩ disk0Path [List.replicate 512 0, List.replicate 1024 0] 512)
        { emptyKernel with disk := d' } =
        (.ok [List.replicate 1024 7, List.replicate 512 8].flatten,
          { emptyKernel with disk := d' }) := by
  have hslash : disk0Path.head? = some slash := by decide +kernel
  have hres : resolve ⟨[⟨[], Backend.dev⟩]⟩ disk0Path = .ok (.dev, disk0Path) := by
    rw [resolve, resolveMount, if_neg (not_not.mpr hslash)]
    rfl
  have hwhole : ∀ m n x y, m % blockSize = 0 → n % blockSize = 0 →
    Whole [List.replicate m x, List.replicate n y] := by
    intro m n x y hm hn
    refine List.forall_mem_cons.mpr ⟨?_, List.forall_mem_singleton.mpr ?_⟩ <;>
      rwa [List.length_replicate]
  have hlen : ∀ m n (x y : UInt8),
    [List.replicate m x, List.replicate n y].flatten.length = m + n := by
    intro m n x y
    rw [List.flatten_cons, List.flatten_cons, List.flatten_nil, List.append_nil, List.length_append,
      List.length_replicate, List.length_replicate]
  obtain ⟨d', hwrite, -, hread⟩ :=
    raw_round_trip (k := emptyKernel) hres (hwhole 1024 512 7 8 (by decide) (by decide))
    (show 512 % blockSize = 0 by decide) (by rw [hlen]; decide)
  exact ⟨d', hwrite, hread _ (hwhole 512 1024 0 0 (by decide) (by decide)) (by rw [hlen, hlen])⟩

end Willo.KernelFs
