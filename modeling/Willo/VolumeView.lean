import Mathlib.Data.Nat.Bitwise
import Mathlib.Data.List.Range
import Willo.FatFs

/-! What the driver's calls depend on: the view of a disk through a mounted
volume. A view keeps the number of sectors, the masked entries of the first
FAT, and the bytes of each data cluster; the boot sector, the FSInfo sector and
the other FAT copies are out of sight. `Runs` states what a driver call does to
every disk that shows a given view, and each device-level function of the
driver gets its rule here. -/

namespace Willo.Fat
open ByteCodec BlockDevice FaultState

/-- Number of entries of one FAT; clusters are numbered from 2 below it. -/
def clusterCount (v : FatFs) : Nat := v.sectorsPerFat * 128

def clusterLba (v : FatFs) (c : Nat) : Nat := v.dataStartLba + (c - 2) * v.sectorsPerCluster

/-- The geometry a driver call relies on, for a device of so many sectors. -/
structure Geometry (v : FatFs) (sectors : Nat) : Prop where
  sectorSize : v.bytesPerSector = blockSize
  clusterPos : 0 < v.sectorsPerCluster
  clusterLe : v.sectorsPerCluster ≤ 255
  copiesPos : 0 < v.numFats
  fatStart : v.fatStartLba = v.reservedSectors
  dataStart : v.dataStartLba = v.reservedSectors + v.numFats * v.sectorsPerFat
  dataStartLt : v.dataStartLba < 2 ^ 32
  reserved : 2 ≤ v.reservedSectors
  countLe : clusterCount v ≤ 0x0FFFFFF7
  lbaLt : ∀ c, 2 ≤ c → c < clusterCount v → clusterLba v c < 2 ^ 32
  onDevice : v.dataStartLba ≤ sectors

/-- What calls on the FAT alone rely on: its copies lie on the device, in front of the data. -/
structure FatArea (v : FatFs) (sectors : Nat) : Prop where
  sectorSize : v.bytesPerSector = blockSize
  copiesPos : 0 < v.numFats
  fatStart : v.fatStartLba = v.reservedSectors
  dataStart : v.dataStartLba = v.reservedSectors + v.numFats * v.sectorsPerFat
  dataStartLt : v.dataStartLba < 2 ^ 32
  countLe : clusterCount v ≤ 0x0FFFFFF7
  onDevice : v.dataStartLba ≤ sectors

theorem Geometry.fatArea {v : FatFs} {sectors : Nat} (g : Geometry v sectors) : FatArea v sectors :=
  ⟨g.sectorSize, g.copiesPos, g.fatStart, g.dataStart, g.dataStartLt, g.countLe, g.onDevice⟩

structure View where
  sectors : Nat
  fat : Nat → Nat
  data : Nat → Bytes

def fatValue (v : FatFs) (d : Disk) (c : Nat) : Nat :=
  le32 (d.block (v.fatStartLba + c * 4 / blockSize)).1 (c * 4 % blockSize) &&& clusterMask

def clusterData (v : FatFs) (d : Disk) (c : Nat) : Bytes :=
  (List.range v.sectorsPerCluster).flatMap fun k => (d.block (clusterLba v c + k)).1

def view (v : FatFs) (d : Disk) : View where
  sectors := d.sectors
  fat c := if c < clusterCount v then fatValue v d c else 0
  data c := if 2 ≤ c ∧ c < clusterCount v then clusterData v d c else []

/-- A cluster number that the FAT has an entry for and the data area a place. -/
def InFat (v : FatFs) (c : Nat) : Prop := 2 ≤ c ∧ c < clusterCount v

instance (v : FatFs) (c : Nat) : Decidable (InFat v c) := inferInstanceAs (Decidable (_ ∧ _))

def Fits (v : FatFs) (w : View) (c : Nat) : Prop :=
  clusterLba v c + v.sectorsPerCluster ≤ w.sectors

instance (v : FatFs) (w : View) (c : Nat) : Decidable (Fits v w c) :=
  inferInstanceAs (Decidable (_ ≤ _))

def View.setFat (w : View) (c x : Nat) : View := { w with fat := Function.update w.fat c x }

def View.setData (w : View) (c : Nat) (b : Bytes) : View :=
  { w with data := Function.update w.data c b }

section ViewUpdates

variable (w : View) (c x n : Nat) (b : Bytes)

@[simp] theorem View.setFat_sectors : (w.setFat c x).sectors = w.sectors := rfl

@[simp] theorem View.setFat_data : (w.setFat c x).data = w.data := rfl

@[simp] theorem View.setFat_fat_self : (w.setFat c x).fat c = x := by simp [View.setFat]

theorem View.setFat_fat_of_ne (h : n ≠ c) : (w.setFat c x).fat n = w.fat n := by
  simp [View.setFat, h]

theorem View.setFat_fat : (w.setFat c x).fat n = if n = c then x else w.fat n := by
  simp [View.setFat, Function.update_apply]

@[simp] theorem View.setData_sectors : (w.setData c b).sectors = w.sectors := rfl

@[simp] theorem View.setData_fat : (w.setData c b).fat = w.fat := rfl

@[simp] theorem View.setData_data_self : (w.setData c b).data c = b := by simp [View.setData]

theorem View.setData_data_of_ne (h : n ≠ c) : (w.setData c b).data n = w.data n := by
  simp [View.setData, h]

end ViewUpdates

/-! Rules for sequences of driver calls. -/

/-- On every disk with view `w` the call ends as `r` and leaves a disk with view `w'`. -/
def Runs {α : Type} (v : FatFs) (x : FatM α) (w : View) (r : Except Fault α) (w' : View) : Prop :=
  ∀ d, view v d = w → ∃ d', exec x d = (r, d') ∧ view v d' = w'

section Rules

variable {α β : Type} {v : FatFs} {w w₁ w₂ : View}

theorem Runs.pure (a : α) : Runs v (pure a : FatM α) w (.ok a) w :=
  fun d hd => ⟨d, exec_pure a d, hd⟩

theorem Runs.throw (f : Fault) : Runs v (throw f : FatM α) w (.error f) w :=
  fun d hd => ⟨d, exec_throw f d, hd⟩

theorem Runs.bind {x : FatM α} {f : α → FatM β} {a : α} {r : Except Fault β}
    (hx : Runs v x w (.ok a) w₁) (hf : Runs v (f a) w₁ r w₂) : Runs v (x >>= f) w r w₂ := by
  intro d hd
  obtain ⟨d₁, hrun, hview⟩ := hx d hd
  obtain ⟨d₂, hrun', hview'⟩ := hf d₁ hview
  exact ⟨d₂, by rw [exec_bind_ok hrun, hrun'], hview'⟩

theorem Runs.bind_error {x : FatM α} {f : α → FatM β} {e : Fault}
    (hx : Runs v x w (.error e) w₁) : Runs v (x >>= f) w (.error e) w₁ := by
  intro d hd
  obtain ⟨d₁, hrun, hview⟩ := hx d hd
  exact ⟨d₁, exec_bind_error hrun, hview⟩

theorem Runs.attempt_ok {x : FatM α} {a : α} (hx : Runs v x w (.ok a) w₁) :
    Runs v (attempt x) w (.ok (.ok a)) w₁ := by
  intro d hd
  obtain ⟨d₁, hrun, hview⟩ := hx d hd
  exact ⟨d₁, exec_attempt_ok hrun, hview⟩

theorem Runs.attempt_error {x : FatM α} {e : Paths.FsError}
    (hx : Runs v x w (.error (.err e)) w₁) : Runs v (attempt x) w (.ok (.error e)) w₁ := by
  intro d hd
  obtain ⟨d₁, hrun, hview⟩ := hx d hd
  exact ⟨d₁, by rw [exec_attempt, hrun], hview⟩

/-- A call has one outcome per view, so an observed run is the one the rules derive. -/
theorem Runs.exec_eq {x : FatM α} {r r' : Except Fault α} {d d' : Disk}
    (hx : Runs v x (view v d) r w₁) (he : exec x d = (r', d')) : r' = r ∧ view v d' = w₁ := by
  obtain ⟨d₁, hrun, hview⟩ := hx d rfl
  rw [hrun] at he
  obtain ⟨rfl, rfl⟩ := Prod.mk.inj he
  exact ⟨rfl, hview⟩

end Rules

/-! Machine arithmetic inside the geometry. -/

theorem addU32_eq {a b : Nat} (h : a + b < 2 ^ 32) : addU32 a b = pure (a + b) := if_pos h

theorem mulU32_eq {a b : Nat} (h : a * b < 2 ^ 32) : mulU32 a b = pure (a * b) := if_pos h

theorem subU32_eq {a b : Nat} (h : b ≤ a) : subU32 a b = pure (a - b) := if_pos h

section Device

variable {v : FatFs} {w : View} {c : Nat}

theorem InFat.lt_eoc (g : Geometry v w.sectors) (hc : InFat v c) : c < eocThreshold := by
  have := g.countLe
  have := hc.2
  unfold eocThreshold
  omega

theorem clusterToLba_eq (g : Geometry v w.sectors) (hc : InFat v c) :
    clusterToLba v c = pure (clusterLba v c) := by
  have h := g.lbaLt c hc.1 hc.2
  have hmul : (c - 2) * v.sectorsPerCluster < 2 ^ 32 := by
    unfold clusterLba at h
    omega
  simp only [clusterToLba, subU32_eq hc.1, mulU32_eq hmul, pure_bind]
  exact addU32_eq h

theorem entrySector_lt (hc : c < clusterCount v) : c * 4 / blockSize < v.sectorsPerFat := by
  unfold clusterCount at hc
  unfold blockSize
  omega

theorem copy_lt_dataStart {n : Nat} (A : FatArea v n) {i k : Nat} (hi : i < v.numFats)
    (hk : k < v.sectorsPerFat) : v.fatStartLba + i * v.sectorsPerFat + k < v.dataStartLba := by
  have h : (i + 1) * v.sectorsPerFat ≤ v.numFats * v.sectorsPerFat := Nat.mul_le_mul_right _ hi
  rw [A.fatStart, A.dataStart]
  rw [Nat.add_mul, Nat.one_mul] at h
  omega

theorem firstFat_lt_dataStart {n : Nat} (A : FatArea v n) (hc : c < clusterCount v) :
    v.fatStartLba + c * 4 / blockSize < v.dataStartLba := by
  have h := copy_lt_dataStart A A.copiesPos (entrySector_lt hc)
  omega

theorem view_fat (d : Disk) (hc : c < clusterCount v) : (view v d).fat c = fatValue v d c :=
  if_pos hc

theorem view_data (d : Disk) (hc : InFat v c) : (view v d).data c = clusterData v d c :=
  if_pos hc

theorem exec_nextCluster_of {d : Disk} (hsize : v.bytesPerSector = blockSize) (hc : c * 4 < 2 ^ 32)
    (hsector : v.fatStartLba + c * 4 / blockSize < 2 ^ 32)
    (hdev : v.fatStartLba + c * 4 / blockSize < d.sectors) :
    exec (nextCluster v c) d = (.ok (fatValue v d c), d) := by
  simp only [nextCluster, mulU32_eq hc, pure_bind, hsize, addU32_eq hsector]
  rw [exec_bind_ok (exec_readBlock hdev), exec_pure]
  rfl

theorem exec_nextCluster {d : Disk} (A : FatArea v d.sectors) (hc : c < clusterCount v) :
    exec (nextCluster v c) d = (.ok (fatValue v d c), d) := by
  have hle := A.countLe
  have hlt := firstFat_lt_dataStart A hc
  have hlt32 := A.dataStartLt
  exact exec_nextCluster_of A.sectorSize (by omega) (by omega) (Nat.lt_of_lt_of_le hlt A.onDevice)

theorem nextCluster_runs (g : Geometry v w.sectors) (hc : c < clusterCount v) :
    Runs v (nextCluster v c) w (.ok (w.fat c)) w := by
  rintro d rfl
  exact ⟨d, by rw [view_fat d hc, exec_nextCluster (d := d) g.fatArea hc], rfl⟩

/-! Data clusters. -/

theorem length_clusterData (d : Disk) (c : Nat) :
    (clusterData v d c).length = v.sectorsPerCluster * blockSize :=
  length_flatMap_range (fun k => (d.block (clusterLba v c + k)).2) _

theorem byteAt_clusterData (d : Disk) {i : Nat} (hi : i < v.sectorsPerCluster * blockSize) :
    byteAt (clusterData v d c) i =
      byteAt (d.block (clusterLba v c + i / blockSize)).1 (i % blockSize) :=
  byteAt_flatMap_range (fun k => (d.block (clusterLba v c + k)).2) hi

theorem clusterLba_ne {c' k k' : Nat} (hc : 2 ≤ c) (hc' : 2 ≤ c') (hne : c ≠ c')
    (hk : k < v.sectorsPerCluster) (hk' : k' < v.sectorsPerCluster) :
    clusterLba v c + k ≠ clusterLba v c' + k' := by
  intro h
  have hpos : 0 < v.sectorsPerCluster := by omega
  have heq : k + v.sectorsPerCluster * (c - 2) = k' + v.sectorsPerCluster * (c' - 2) := by
    simp only [clusterLba, Nat.mul_comm _ v.sectorsPerCluster] at h
    omega
  have hdiv : c - 2 = c' - 2 := by
    have h1 := Nat.add_mul_div_left k (c - 2) hpos
    have h2 := Nat.add_mul_div_left k' (c' - 2) hpos
    rw [Nat.div_eq_of_lt hk, Nat.zero_add] at h1
    rw [Nat.div_eq_of_lt hk', Nat.zero_add] at h2
    rw [← h1, ← h2, heq]
  omega

theorem clusterData_congr {d d' : Disk}
    (h : ∀ k < v.sectorsPerCluster, d'.block (clusterLba v c + k) = d.block (clusterLba v c + k)) :
    clusterData v d' c = clusterData v d c := by
  unfold clusterData
  refine List.flatMap_congr fun k hk => ?_
  rw [h k (List.mem_range.mp hk)]

theorem dataStart_le_clusterLba (c : Nat) : v.dataStartLba ≤ clusterLba v c := Nat.le_add_right _ _

theorem view_congr {d d' : Disk} (hs : d'.sectors = d.sectors)
    (hfat : ∀ k < v.sectorsPerFat, d'.block (v.fatStartLba + k) = d.block (v.fatStartLba + k))
    (hdata : ∀ n, v.dataStartLba ≤ n → d'.block n = d.block n) : view v d' = view v d := by
  have h1 : (view v d').fat = (view v d).fat := by
    funext c
    by_cases hc : c < clusterCount v
    · rw [view_fat d' hc, view_fat d hc, fatValue, fatValue, hfat _ (entrySector_lt hc)]
    · simp [view, hc]
  have h2 : (view v d').data = (view v d).data := by
    funext c
    by_cases hc : InFat v c
    · rw [view_data d' hc, view_data d hc]
      refine clusterData_congr fun k _ => hdata _ ?_
      have := dataStart_le_clusterLba (v := v) c
      omega
    · change (if InFat v c then _ else _) = if InFat v c then _ else _
      rw [if_neg hc, if_neg hc]
  exact View.mk.injEq .. |>.mpr ⟨hs, h1, h2⟩

theorem view_setData (g : Geometry v w.sectors) (hc : InFat v c) {d d' : Disk}
    (hs : d'.sectors = d.sectors)
    (hother : ∀ n, (∀ k < v.sectorsPerCluster, n ≠ clusterLba v c + k) → d'.block n = d.block n) :
    view v d' = (view v d).setData c (clusterData v d' c) := by
  have h1 : (view v d').fat = (view v d).fat := by
    funext x
    by_cases hx : x < clusterCount v
    · have hlt := firstFat_lt_dataStart g.fatArea hx
      have hge := dataStart_le_clusterLba (v := v) c
      rw [view_fat d' hx, view_fat d hx, fatValue, fatValue, hother _ (fun k _ => by omega)]
    · simp [view, hx]
  have h2 : (view v d').data = Function.update (view v d).data c (clusterData v d' c) := by
    funext x
    by_cases hxc : x = c
    · rw [hxc, Function.update_self, view_data d' hc]
    · rw [Function.update_of_ne hxc]
      by_cases hx : InFat v x
      · rw [view_data d' hx, view_data d hx]
        refine clusterData_congr fun k hk => hother _ fun k' hk' => ?_
        exact clusterLba_ne hx.1 hc.1 hxc hk hk'
      · change (if InFat v x then _ else _) = if InFat v x then _ else _
        rw [if_neg hx, if_neg hx]
  exact View.mk.injEq .. |>.mpr ⟨hs, h1, h2⟩

theorem exec_readSectors {d : Disk} {lba n : Nat} (h : lba + n ≤ d.sectors) :
    exec (readSectors lba n) d =
      (.ok ((List.range n).flatMap fun k => (d.block (lba + k)).1), d) := by
  induction n with
  | zero => rfl
  | succ n ih =>
    rw [readSectors, exec_bind_ok (ih (by omega)), exec_bind_ok (exec_readBlock (by omega)),
      exec_pure]
    simp [List.range_succ]

theorem readSectors_runs (hc : InFat v c) (hf : Fits v w c) :
    Runs v (readSectors (clusterLba v c) v.sectorsPerCluster) w (.ok (w.data c)) w := by
  rintro d rfl
  exact ⟨d, by rw [exec_readSectors hf, view_data d hc]; rfl, rfl⟩

theorem exec_writeSectors (lba : Nat) (data : Bytes) (m k : Nat) (d : Disk)
    (hlen : (k + m) * blockSize ≤ data.length) :
    ∃ d', exec (writeSectors lba data (List.range' k m)) d =
        (if lba + (k + m) ≤ d.sectors ∨ m = 0 then .ok () else .error (.err .io), d') ∧
      d'.sectors = d.sectors ∧
      (∀ s, k ≤ s → s < k + m → lba + s < d.sectors →
        (d'.block (lba + s)).1 = slice data (s * blockSize) blockSize) ∧
      ∀ n, (∀ s, k ≤ s → s < k + m → lba + s < d.sectors → n ≠ lba + s) →
        d'.block n = d.block n := by
  induction m generalizing k d with
  | zero =>
    refine ⟨d, by simp [writeSectors], rfl, fun s h1 h2 => by omega, fun n _ => rfl⟩
  | succ m ih =>
    have hslice : (slice data (k * blockSize) blockSize).length = blockSize := by
      rw [Nat.add_mul, Nat.add_mul] at hlen
      simp only [slice, List.length_take, List.length_drop, blockSize] at hlen ⊢
      omega
    simp only [List.range'_succ, writeSectors]
    by_cases hk : lba + k < d.sectors
    · rw [exec_bind_ok (exec_writeBlock hk hslice)]
      obtain ⟨d', hrun, hsec, hin, hout⟩ := ih (k + 1) (d.write (lba + k) ⟨_, hslice⟩)
        (by rw [show k + 1 + m = k + (m + 1) by omega]; exact hlen)
      refine ⟨d', ?_, hsec, fun s h1 h2 h3 => ?_, fun n hn => ?_⟩
      · rw [hrun, Disk.write_sectors]
        congr 1
        by_cases hm : m = 0
        · subst hm
          rw [if_pos (by omega), if_pos (by omega)]
        · by_cases hle : lba + (k + 1 + m) ≤ d.sectors
          · rw [if_pos (Or.inl hle), if_pos (by omega)]
          · rw [if_neg (by omega), if_neg (by omega)]
      · by_cases hs : s = k
        · subst hs
          rw [hout _ (fun t h4 _ _ => by omega), Disk.write_same]
        · exact hin s (by omega) (by omega) h3
      · have hne := hn k le_rfl (by omega) hk
        rw [hout n (fun s h4 h5 h6 => hn s (by omega) (by omega) h6), Disk.write_other _ _ hne]
    · refine ⟨d, ?_, rfl, fun s _ _ _ => by omega, fun n _ => rfl⟩
      rw [exec_bind_error (exec_writeBlock_past hk), if_neg (by omega)]

def torn (v : FatFs) (w : View) (c : Nat) (data : Bytes) : Bytes :=
  data.take ((w.sectors - clusterLba v c) * blockSize) ++
    (w.data c).drop ((w.sectors - clusterLba v c) * blockSize)

theorem writeCluster_outcome (g : Geometry v w.sectors) (hc : InFat v c) {data : Bytes}
    (hlen : data.length = clusterBytes v) :
    Runs v (writeCluster v c data) w (if Fits v w c then .ok () else .error (.err .io))
      (w.setData c (torn v w c data)) := by
  rintro d rfl
  have hlen' : data.length = v.sectorsPerCluster * blockSize := by
    rw [hlen, clusterBytes, g.sectorSize]
  have hpos := g.clusterPos
  simp only [writeCluster, clusterToLba_eq g hc, pure_bind, List.range_eq_range']
  obtain ⟨d', hrun, hsec, hin, hout⟩ := exec_writeSectors (clusterLba v c) data
    v.sectorsPerCluster 0 d (by rw [Nat.zero_add]; exact hlen'.ge)
  have hdata : clusterData v d' c = torn v (view v d) c data := by
    apply bytes_ext
    · rw [length_clusterData]
      simp only [torn, view_data d hc, List.length_append, List.length_take, List.length_drop,
        length_clusterData, hlen']
      omega
    intro i hi
    rw [length_clusterData] at hi
    have hsector : i / blockSize < v.sectorsPerCluster :=
      Nat.div_lt_of_lt_mul (by rwa [Nat.mul_comm])
    have hsplit : blockSize * (i / blockSize) + i % blockSize = i := Nat.div_add_mod i blockSize
    have hmod : i % blockSize < blockSize := Nat.mod_lt _ (by decide)
    rw [byteAt_clusterData d' hi, torn, view_data d hc]
    change _ = byteAt (data.take ((d.sectors - _) * _) ++ List.drop ((d.sectors - _) * _) _) i
    by_cases hs : clusterLba v c + i / blockSize < d.sectors
    · have hbelow : i < (d.sectors - clusterLba v c) * blockSize := by
        unfold blockSize at hsplit hmod hs ⊢
        omega
      rw [hin _ (Nat.zero_le _) (by omega) hs, byteAt_slice hmod, byteAt_append_left]
      · rw [Nat.mul_comm, hsplit]
        simp [byteAt, hbelow]
      · rw [List.length_take, hlen']
        omega
    · have habove : (d.sectors - clusterLba v c) * blockSize ≤ i := by
        unfold blockSize at hsplit hmod hs ⊢
        omega
      rw [hout _ (fun s _ _ h => by omega), ← byteAt_clusterData d hi, byteAt_append_right]
      · have hle : (d.sectors - clusterLba v c) * blockSize ≤ data.length := by omega
        rw [List.length_take, Nat.min_eq_left hle, byteAt_drop, Nat.add_sub_cancel' habove]
      · rw [List.length_take]
        omega
  refine ⟨d', ?_, ?_⟩
  · rw [hrun]
    congr 1
    rw [Nat.zero_add]
    by_cases hf : Fits v (view v d) c
    · have hin : clusterLba v c + v.sectorsPerCluster ≤ d.sectors := hf
      rw [if_pos hf, if_pos (Or.inl hin)]
    · have hpast : ¬ clusterLba v c + v.sectorsPerCluster ≤ d.sectors := hf
      rw [if_neg hf, if_neg (by omega)]
  · rw [view_setData g hc hsec (fun n hn => hout n fun s _ hs _ => hn s (by omega)), hdata]

theorem writeCluster_runs (g : Geometry v w.sectors) (hc : InFat v c) (hf : Fits v w c)
    {data : Bytes} (hlen : data.length = clusterBytes v) :
    Runs v (writeCluster v c data) w (.ok ()) (w.setData c data) := by
  rintro d rfl
  have h := writeCluster_outcome g hc hlen d rfl
  have hle : v.sectorsPerCluster ≤ d.sectors - clusterLba v c := by
    have hf' : clusterLba v c + v.sectorsPerCluster ≤ d.sectors := hf
    omega
  have hbytes : v.sectorsPerCluster * blockSize ≤ (d.sectors - clusterLba v c) * blockSize :=
    Nat.mul_le_mul_right _ hle
  have htorn : torn v (view v d) c data = data := by
    rw [clusterBytes, g.sectorSize] at hlen
    change data.take ((d.sectors - _) * _) ++ List.drop ((d.sectors - _) * _) _ = data
    rw [view_data d hc, List.take_of_length_le (by omega),
      List.drop_eq_nil_of_le (by rw [length_clusterData]; exact hbytes), List.append_nil]
  rwa [if_pos hf, htorn] at h

theorem zeroCluster_runs (g : Geometry v w.sectors) (hc : InFat v c) (hf : Fits v w c) :
    Runs v (zeroCluster v c) w (.ok ()) (w.setData c (List.replicate (clusterBytes v) 0)) :=
  writeCluster_runs g hc hf List.length_replicate

theorem zeroCluster_past (g : Geometry v w.sectors) (hc : InFat v c) (hf : ¬ Fits v w c) :
    Runs v (zeroCluster v c) w (.error (.err .io))
      (w.setData c (torn v w c (List.replicate (clusterBytes v) 0))) := by
  have h := writeCluster_outcome g hc (List.length_replicate (n := clusterBytes v) (a := 0))
  rwa [if_neg hf] at h

def Shown (v : FatFs) (w : View) : Prop := ∃ d, view v d = w

theorem Shown.length_data (h : Shown v w) (g : Geometry v w.sectors) (hc : InFat v c) :
    (w.data c).length = clusterBytes v := by
  obtain ⟨d, rfl⟩ := h
  rw [view_data d hc, length_clusterData, clusterBytes, g.sectorSize]

theorem Runs.shown {α : Type} {x : FatM α} {r : Except Fault α} {w' : View}
    (hx : Runs v x w r w') (h : Shown v w) : Shown v w' := by
  obtain ⟨d, hd⟩ := h
  obtain ⟨d', _, hd'⟩ := hx d hd
  exact ⟨d', hd'⟩

/-! FAT entries. -/

theorem and_clusterMask (n : Nat) : n &&& clusterMask = n % 2 ^ 28 :=
  Nat.and_two_pow_sub_one_eq_mod n 28

theorem maskedEntry_lt (value old : Nat) (h : old < 2 ^ 32) : maskedEntry value old < 2 ^ 32 := by
  apply Nat.or_lt_two_pow
  · rw [and_clusterMask]
    omega
  · exact Nat.lt_of_le_of_lt Nat.and_le_left h

theorem maskedEntry_and_mask {value : Nat} (old : Nat) (h : value < 2 ^ 28) :
    maskedEntry value old &&& clusterMask = value := by
  have hhigh : old &&& 0xF0000000 &&& clusterMask = 0 := by
    rw [Nat.and_assoc, show 0xF0000000 &&& clusterMask = 0 from by decide, Nat.and_zero]
  rw [maskedEntry, Nat.and_or_distrib_right, hhigh, Nat.or_zero, Nat.and_assoc, Nat.and_self,
    and_clusterMask, Nat.mod_eq_of_lt h]

def patchEntry (b : Block) (off value : Nat) : Bytes :=
  patch b.1 off (toLe32 (maskedEntry value (le32 b.1 off)))

theorem length_patchEntry {b : Block} {off : Nat} (h : off + 4 ≤ blockSize) (value : Nat) :
    (patchEntry b off value).length = blockSize := by
  rw [patchEntry, length_patch (by rw [length_toLe32, b.2]; exact h), b.2]

def copySector (v : FatFs) (i n : Nat) : Nat := v.fatStartLba + i * v.sectorsPerFat + n

theorem copySector_inj {i j n k : Nat} (hn : n < v.sectorsPerFat) (hk : k < v.sectorsPerFat)
    (h : copySector v i n = copySector v j k) : i = j ∧ n = k := by
  have hpos : 0 < v.sectorsPerFat := by omega
  have heq : n + v.sectorsPerFat * i = k + v.sectorsPerFat * j := by
    simp only [copySector, Nat.mul_comm _ v.sectorsPerFat] at h
    omega
  have hdiv : i = j := by
    have h1 := Nat.add_mul_div_left n i hpos
    have h2 := Nat.add_mul_div_left k j hpos
    rw [Nat.div_eq_of_lt hn, Nat.zero_add] at h1
    rw [Nat.div_eq_of_lt hk, Nat.zero_add] at h2
    rw [← h1, ← h2, heq]
  subst hdiv
  exact ⟨rfl, by omega⟩

theorem exec_writeFatCopies {d : Disk} (A : FatArea v d.sectors) (hc : c < clusterCount v)
    (value : Nat) (is : List Nat) (his : ∀ i ∈ is, i < v.numFats) (hnodup : is.Nodup) :
    ∃ d', exec (writeFatCopies v (c * 4) value is) d = (.ok (), d') ∧ d'.sectors = d.sectors ∧
      (∀ i ∈ is, (d'.block (copySector v i (c * 4 / blockSize))).1 =
        patchEntry (d.block (copySector v i (c * 4 / blockSize))) (c * 4 % blockSize) value) ∧
      ∀ n, (∀ i ∈ is, n ≠ copySector v i (c * 4 / blockSize)) → d'.block n = d.block n := by
  induction is generalizing d with
  | nil => exact ⟨d, rfl, rfl, by simp, fun _ _ => rfl⟩
  | cons i is ih =>
    obtain ⟨hfirst, hnodup⟩ := List.nodup_cons.mp hnodup
    have hk := entrySector_lt hc
    have hlt := copy_lt_dataStart A (his i (by simp)) hk
    have hcopy := Nat.lt_trans hlt A.dataStartLt
    have hbase : v.fatStartLba + i * v.sectorsPerFat < 2 ^ 32 :=
      Nat.lt_of_le_of_lt (Nat.le_add_right _ _) hcopy
    have hmul : i * v.sectorsPerFat < 2 ^ 32 := Nat.lt_of_le_of_lt (Nat.le_add_left _ _) hbase
    have hdev : copySector v i (c * 4 / blockSize) < d.sectors := Nat.lt_of_lt_of_le hlt A.onDevice
    have hoff : c * 4 % blockSize + 4 ≤ blockSize := by
      unfold blockSize
      omega
    have hlen := length_patchEntry (b := d.block (copySector v i (c * 4 / blockSize))) hoff value
    obtain ⟨d', hrun, hsec, hin, hout⟩ :=
      ih (d := d.write (copySector v i (c * 4 / blockSize)) ⟨_, hlen⟩) A
      (fun j hj => his j (by simp [hj])) hnodup
    have hother : ∀ j ∈ is,
      copySector v j (c * 4 / blockSize) ≠ copySector v i (c * 4 / blockSize) := by
      intro j hj h
      exact hfirst ((copySector_inj hk hk h).1 ▸ hj)
    refine ⟨d', ?_, hsec, fun j hj => ?_, fun n hn => ?_⟩
    · simp only [writeFatCopies, A.sectorSize, mulU32_eq hmul, addU32_eq hbase, addU32_eq hcopy,
        pure_bind]
      rw [← copySector, exec_bind_ok (exec_readBlock hdev), ← patchEntry,
        exec_bind_ok (exec_writeBlock hdev hlen), hrun]
    · rcases List.mem_cons.mp hj with rfl | hj
      · rw [hout _ (fun j hj => (hother j hj).symm), Disk.write_same]
      · rw [hin j hj, Disk.write_other _ _ (hother j hj)]
    · rw [hout n (fun j hj => hn j (by simp [hj])), Disk.write_other _ _ (hn i (by simp))]

theorem exec_writeFatEntry {d : Disk} (A : FatArea v d.sectors) (hc : c < clusterCount v)
    (value : Nat) :
    ∃ d', exec (writeFatEntry v c value) d = (.ok (), d') ∧ d'.sectors = d.sectors ∧
      (∀ i < v.numFats, (d'.block (copySector v i (c * 4 / blockSize))).1 =
        patchEntry (d.block (copySector v i (c * 4 / blockSize))) (c * 4 % blockSize) value) ∧
      ∀ n, (∀ i < v.numFats, n ≠ copySector v i (c * 4 / blockSize)) → d'.block n = d.block n := by
  have hle := A.countLe
  obtain ⟨d', hrun, hsec, hin, hout⟩ := exec_writeFatCopies A hc value (List.range v.numFats)
    (by simp) List.nodup_range
  refine ⟨d', ?_, hsec, fun i hi => hin i (List.mem_range.mpr hi), fun n hn =>
    hout n (by simpa using hn)⟩
  rw [writeFatEntry, mulU32_eq (show c * 4 < 2 ^ 32 by omega), pure_bind, hrun]

theorem entry_patchEntry {b : Block} {off off' value : Nat} (h : off + 4 ≤ blockSize)
    (hne : off' = off ∨ off' + 4 ≤ off ∨ off + 4 ≤ off') (hv : value < 2 ^ 28) :
    le32 (patchEntry b off value) off' &&& clusterMask =
      if off' = off then value else le32 b.1 off' &&& clusterMask := by
  have hlen : off + (toLe32 (maskedEntry value (le32 b.1 off))).length ≤ b.1.length := by
    rw [length_toLe32, b.2]
    exact h
  by_cases heq : off' = off
  · rw [if_pos heq, heq, patchEntry, le32_patch_self (by omega),
      Nat.mod_eq_of_lt (maskedEntry_lt _ _ (le32_lt _ _)), maskedEntry_and_mask _ hv]
  · rw [if_neg heq, patchEntry, le32_patch_other hlen (by rw [length_toLe32]; omega)]

theorem view_setFat {d d' : Disk} (g : Geometry v (view v d).sectors) (hc : c < clusterCount v)
    {value : Nat} (hv : value < 2 ^ 28) (hsec : d'.sectors = d.sectors)
    (hlen : (patchEntry (d.block (v.fatStartLba + c * 4 / blockSize))
      (c * 4 % blockSize) value).length =
      blockSize)
    (hsame : ∀ n, n < v.fatStartLba + v.sectorsPerFat ∨ v.dataStartLba ≤ n →
      d'.block n = (d.write (v.fatStartLba + c * 4 / blockSize) ⟨_, hlen⟩).block n) :
    view v d' = (view v d).setFat c value := by
  have hlt := firstFat_lt_dataStart g.fatArea hc
  have hoff : c * 4 % blockSize + 4 ≤ blockSize := by
    unfold blockSize
    omega
  have hfat : (view v d').fat = Function.update (view v d).fat c value := by
    funext x
    rw [Function.update_apply]
    by_cases hx : x < clusterCount v
    · have hxk := entrySector_lt hx
      rw [view_fat d' hx, view_fat d hx, fatValue, fatValue, hsame _ (by omega)]
      by_cases hsector : x * 4 / blockSize = c * 4 / blockSize
      · rw [hsector, Disk.write_same,
          entry_patchEntry hoff (by unfold blockSize at hsector ⊢; omega) hv]
        refine if_congr ?_ rfl rfl
        unfold blockSize at hsector ⊢
        omega
      · rw [Disk.write_other _ _ (by omega), if_neg (fun h => hsector (by rw [h]))]
    · rw [if_neg (by omega)]
      simp [view, hx]
  have hdata : (view v d').data = (view v d).data := by
    funext x
    by_cases hx : InFat v x
    · rw [view_data d' hx, view_data d hx]
      refine clusterData_congr fun k _ => ?_
      have hge := dataStart_le_clusterLba (v := v) x
      rw [hsame _ (by omega), Disk.write_other _ _ (by omega)]
    · change (if InFat v x then _ else _) = if InFat v x then _ else _
      rw [if_neg hx, if_neg hx]
  exact View.mk.injEq .. |>.mpr ⟨hsec, hfat, hdata⟩

theorem writeFatEntry_runs (g : Geometry v w.sectors) (hc : c < clusterCount v) {value : Nat}
    (hv : value < 2 ^ 28) : Runs v (writeFatEntry v c value) w (.ok ()) (w.setFat c value) := by
  rintro d rfl
  have hk := entrySector_lt hc
  have hoff : c * 4 % blockSize + 4 ≤ blockSize := by
    unfold blockSize
    omega
  have hlen := length_patchEntry (b := d.block (v.fatStartLba + c * 4 / blockSize)) hoff value
  have hfirst : copySector v 0 (c * 4 / blockSize) = v.fatStartLba + c * 4 / blockSize := by
    rw [copySector, Nat.zero_mul, Nat.add_zero]
  obtain ⟨d', hrun, hsec, hin, hout⟩ := exec_writeFatEntry (d := d) g.fatArea hc value
  refine ⟨d', hrun, view_setFat g hc hv hsec hlen fun n hn => ?_⟩
  -- the first copy is the one in sight; the others lie behind it
  by_cases hn0 : n = v.fatStartLba + c * 4 / blockSize
  · rw [hn0, Disk.write_same]
    have hzero := hin 0 g.copiesPos
    rw [hfirst] at hzero
    exact Subtype.ext hzero
  · rw [Disk.write_other _ _ hn0]
    refine hout n fun i hi h => ?_
    have hlt : copySector v i (c * 4 / blockSize) < v.dataStartLba :=
      copy_lt_dataStart g.fatArea hi hk
    rcases Nat.eq_zero_or_pos i with rfl | hpos
    · exact hn0 (h.trans hfirst)
    · have hge : v.sectorsPerFat ≤ i * v.sectorsPerFat := Nat.le_mul_of_pos_left _ hpos
      have hle : v.fatStartLba + i * v.sectorsPerFat ≤ copySector v i (c * 4 / blockSize) :=
        Nat.le_add_right _ _
      rw [← h] at hlt hle
      omega

/-- The FSInfo sector after its free count changed by `delta`, with `last` allocated last. -/
def notedBytes (b : Bytes) (delta : Int) (last : Nat) : Bytes :=
  if le32 b 0 ≠ 0x41615252 ∨ le32 b 484 ≠ 0x61417272 then b
  else
    let free := le32 b 0x1E8
    let b := if free ≠ 0xFFFFFFFF then patch b 0x1E8 (toLe32 ((free + delta) ⊔ 0).toNat) else b
    if last ≠ 0 then patch b 0x1EC (toLe32 last) else b

theorem length_patchLe32 {b : Bytes} {off : Nat} (hoff : off + 4 ≤ b.length) (n : Nat) :
    (patch b off (toLe32 n)).length = b.length :=
  length_patch (by rwa [length_toLe32])

theorem length_notedBytes {b : Bytes} (hb : b.length = blockSize) (delta : Int) (last : Nat) :
    (notedBytes b delta last).length = blockSize := by
  have hoff : 0x1E8 + 4 ≤ b.length ∧ 0x1EC + 4 ≤ b.length := by
    rw [hb]
    decide
  have hfree (n : Nat) : (if le32 b 0x1E8 ≠ 0xFFFFFFFF then patch b 0x1E8 (toLe32 n)
    else b).length = b.length := by
    split_ifs
    · exact length_patchLe32 hoff.1 n
    · rfl
  unfold notedBytes
  dsimp only
  by_cases hsig : le32 b 0 ≠ 0x41615252 ∨ le32 b 484 ≠ 0x61417272
  · rw [if_pos hsig, hb]
  · rw [if_neg hsig]
    by_cases hlast : last ≠ 0
    · rw [if_pos hlast, length_patchLe32 (by rw [hfree]; exact hoff.2), hfree, hb]
    · rw [if_neg hlast, hfree, hb]

def noted (b : Block) (u : Int × Nat) : Block :=
  ⟨notedBytes b.1 u.1 u.2, length_notedBytes b.2 u.1 u.2⟩

def Signed (b : Block) : Prop := le32 b.1 0 = 0x41615252 ∧ le32 b.1 484 = 0x61417272

instance (b : Block) : Decidable (Signed b) := inferInstanceAs (Decidable (_ ∧ _))

theorem noted_of_not_signed {b : Block} (h : ¬ Signed b) (u : Int × Nat) : noted b u = b :=
  Subtype.ext (if_pos (by
    rw [Signed] at h
    tauto))

def SameFrame (b b' : Block) : Prop := ∀ i, i < 0x1E8 ∨ 0x1F0 ≤ i → byteAt b'.1 i = byteAt b.1 i

theorem SameFrame.le32_eq {b b' : Block} (h : SameFrame b b') {off : Nat}
    (hoff : off + 4 ≤ 0x1E8 ∨ 0x1F0 ≤ off) :
    le32 b'.1 off = le32 b.1 off := by
  unfold le32 le16
  rw [h off (by omega), h (off + 1) (by omega), h (off + 2) (by omega), h (off + 2 + 1) (by omega)]

theorem byteAt_patchLe32 {b : Bytes} {off i n : Nat} (hoff : off + 4 ≤ b.length)
    (hi : i < off ∨ off + 4 ≤ i) :
    byteAt (patch b off (toLe32 n)) i = byteAt b i := by
  have hlen := length_toLe32 n
  rw [byteAt_patch (by rwa [hlen]), if_neg (by omega)]

theorem sameFrame_noted (b : Block) (u : Int × Nat) : SameFrame b (noted b u) := by
  intro i hi
  have hlen : b.1.length = 512 := b.2
  have hfree (n : Nat) : (if le32 b.1 0x1E8 ≠ 0xFFFFFFFF then patch b.1 0x1E8 (toLe32 n)
    else b.1).length = 512 ∧
      byteAt (if le32 b.1 0x1E8 ≠ 0xFFFFFFFF then patch b.1 0x1E8 (toLe32 n) else b.1) i =
        byteAt b.1 i := by
    split_ifs
    · exact ⟨by rw [length_patchLe32 (by omega), hlen], byteAt_patchLe32 (by omega) (by omega)⟩
    · exact ⟨hlen, rfl⟩
  change byteAt (notedBytes b.1 u.1 u.2) i = _
  unfold notedBytes
  split_ifs with hsig hlast
  · rfl
  · rw [byteAt_patchLe32 (by rw [(hfree _).1]; decide) (by omega), (hfree _).2]
  · exact (hfree _).2

theorem Disk.write_self (d : Disk) (lba : Nat) : d.write lba (d.block lba) = d := by
  rw [Disk.write, Function.update_eq_self]

theorem exec_updateFsinfo {d : Disk} (h : 1 < d.sectors) (delta : Int) (last : Nat) :
    exec (updateFsinfo delta last) d = (.ok (), d.write 1 (noted (d.block 1) (delta, last))) := by
  rw [updateFsinfo, exec_bind_ok (exec_readBlock h)]
  by_cases hsig : le32 (d.block 1).1 0 ≠ 0x41615252 ∨ le32 (d.block 1).1 484 ≠ 0x61417272
  · have hunsigned : ¬ Signed (d.block 1) := fun hs => hsig.elim (· hs.1) (· hs.2)
    rw [if_pos hsig, exec_pure, noted_of_not_signed hunsigned, Disk.write_self]
  · have hbytes : (noted (d.block 1) (delta, last)).1 = _ := if_neg hsig
    rw [if_neg hsig]
    dsimp only at hbytes ⊢
    rw [← hbytes]
    exact exec_writeBlock h _

theorem updateFsinfo_runs (g : Geometry v w.sectors) (delta : Int) (last : Nat) :
    Runs v (updateFsinfo delta last) w (.ok ()) w := by
  rintro d rfl
  have hres := g.reserved
  have hstart := g.fatStart
  have hdata := g.dataStart
  have hdev : v.dataStartLba ≤ d.sectors := g.onDevice
  refine ⟨_, exec_updateFsinfo (by omega) delta last, view_congr rfl ?_ ?_⟩
  · intro k _
    exact Disk.write_other _ _ (by omega)
  · intro n hn
    exact Disk.write_other _ _ (by omega)

/-! The search for a free cluster. -/

def freeClusters (v : FatFs) (w : View) : List Nat :=
  (List.range' 2 (clusterCount v - 2)).filter fun c => w.fat c = 0

theorem mem_freeClusters : c ∈ freeClusters v w ↔ InFat v c ∧ w.fat c = 0 := by
  simp only [freeClusters, List.mem_filter, List.mem_range'_1, decide_eq_true_eq, InFat]
  omega

/-- The sector kept from the last turn is read again only when the sector changes. -/
theorem exec_findFreeLoop {d : Disk} (g : Geometry v d.sectors) {cs : List Nat}
    (hcs : ∀ c ∈ cs, c < clusterCount v) {current : Option Nat} {buf : Bytes}
    (hbuf : ∀ s, current = some s → buf = (d.block s).1) :
    exec (findFreeLoop v cs current buf) d =
      (match cs.find? (fun c => (view v d).fat c = 0) with
        | some c => .ok c
        | none => .error (.err .io), d) := by
  induction cs generalizing current buf with
  | nil => rfl
  | cons c cs ih =>
    have hc := hcs c (by simp)
    have hle := g.countLe
    have hlt := firstFat_lt_dataStart (n := d.sectors) g.fatArea hc
    have hdev : v.fatStartLba + c * 4 / blockSize < d.sectors := Nat.lt_of_lt_of_le hlt g.onDevice
    have hentry : le32 (d.block (v.fatStartLba + c * 4 / blockSize)).1 (c * 4 % blockSize) &&&
        clusterMask = (view v d).fat c := (view_fat d hc).symm
    have hturn : exec (findFreeLoop v (c :: cs) current buf) d =
        exec (if (view v d).fat c = 0 then pure c
          else findFreeLoop v cs (some (v.fatStartLba + c * 4 / blockSize))
            (d.block (v.fatStartLba + c * 4 / blockSize)).1) d := by
      simp only [findFreeLoop, g.sectorSize, mulU32_eq (show c * 4 < 2 ^ 32 by omega), pure_bind,
        addU32_eq (Nat.lt_trans hlt g.dataStartLt)]
      by_cases hcur : some (v.fatStartLba + c * 4 / blockSize) = current
      · rw [if_neg (by simpa using hcur), hbuf _ hcur.symm, hentry]
      · rw [if_pos hcur, exec_bind_ok (exec_readBlock hdev), hentry]
    rw [hturn]
    by_cases hz : (view v d).fat c = 0
    · simp [hz]
    · rw [if_neg hz, ih (fun x hx =>
        hcs x (by simp [hx])) (fun s hs => by rw [← Option.some.inj hs]),
        List.find?_cons_of_neg (by simpa using hz)]

theorem findFreeCluster_runs (g : Geometry v w.sectors) :
    Runs v (findFreeCluster v) w
      (match (freeClusters v w).head? with
        | some c => .ok c
        | none => .error (.err .io)) w := by
  rintro d rfl
  have hle := g.countLe
  unfold clusterCount at hle
  have hmul : v.sectorsPerFat * blockSize < 2 ^ 32 := by
    unfold blockSize
    omega
  have hcount : v.sectorsPerFat * blockSize / 4 = clusterCount v := by
    unfold blockSize clusterCount
    omega
  refine ⟨d, ?_, rfl⟩
  simp only [findFreeCluster, g.sectorSize, mulU32_eq hmul, pure_bind, hcount]
  rw [exec_findFreeLoop g (fun c hc => by have := List.mem_range'_1.mp hc; omega) (by simp),
    freeClusters, List.head?_filter]

theorem findFreeCluster_some (g : Geometry v w.sectors) {cs : List Nat}
    (h : freeClusters v w = c :: cs) : Runs v (findFreeCluster v) w (.ok c) w := by
  simpa [h] using findFreeCluster_runs g

theorem findFreeCluster_none (g : Geometry v w.sectors) (h : freeClusters v w = []) :
    Runs v (findFreeCluster v) w (.error (.err .io)) w := by
  simpa [h] using findFreeCluster_runs g

end Device

end Willo.Fat
