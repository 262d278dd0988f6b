import Willo.FatCopies
import Willo.Volumes

/-! What `find_free_cluster` hands out. The scan runs over the entries of the FAT and
never looks at the size of the device, so on a full disk it goes on into the
entries that round the FAT up to a whole sector. -/

namespace Willo.Fat
open Text Paths ByteCodec BlockDevice FaultState

structure Narrow (v : FatFs) : Prop where
  fat : v.sectorsPerFat * v.bytesPerSector < 2 ^ 32
  lba : ∀ c, InFat v c → clusterLba v c < 2 ^ 32

/-- A cluster with a zero entry in the part of the FAT that is on the device. -/
def LooksFree (v : FatFs) (d : Disk) (c : Nat) : Prop :=
  InFat v c ∧ v.fatStartLba + c * 4 / blockSize < d.sectors ∧ fatValue v d c = 0

def Available (v : FatFs) (d : Disk) (c : Nat) : Prop :=
  InFat v c ∧ fatValue v d c = 0 ∧
    ∃ lba, exec (clusterToLba v c) d = (.ok lba, d) ∧ lba + v.sectorsPerCluster ≤ d.sectors

/-- The search returns an available cluster, or an error when there is none. -/
def FindsAvailable (v : FatFs) (d : Disk) : Prop :=
  (∃ c, exec (findFreeCluster v) d = (.ok c, d) ∧ Available v d c) ∨
    (∃ e, exec (findFreeCluster v) d = (.error (.err e), d)) ∧ ∀ c, ¬ Available v d c

section Scan

variable {v : FatFs} {d d₀ : Disk} {c : Nat}

theorem InFat.fatSector_lt (hm : (exec mount d₀).1 = .ok v) (hc : InFat v c) :
    v.fatStartLba + c * 4 / blockSize < v.dataStartLba := by
  obtain ⟨-, -, -, hfats, hstart, hdata, -⟩ := mount_ok hm
  have hone : 1 * v.sectorsPerFat ≤ v.numFats * v.sectorsPerFat := Nat.mul_le_mul_right _ hfats
  have hcount := hc.2
  unfold clusterCount at hcount
  unfold blockSize
  omega

theorem exec_clusterToLba (N : Narrow v) (hc : InFat v c) :
    exec (clusterToLba v c) d = (.ok (clusterLba v c), d) := by
  have h := N.lba c hc
  have hmul : (c - 2) * v.sectorsPerCluster < 2 ^ 32 := by
    unfold clusterLba at h
    omega
  simp only [clusterToLba, subU32_eq hc.1, mulU32_eq hmul, pure_bind]
  rw [addU32_eq h, exec_pure]
  rfl

theorem available_iff (N : Narrow v) : Available v d c ↔
    InFat v c ∧ fatValue v d c = 0 ∧ clusterLba v c + v.sectorsPerCluster ≤ d.sectors := by
  constructor
  · intro ⟨hc, hzero, lba, hrun, hfit⟩
    rw [exec_clusterToLba N hc] at hrun
    obtain rfl : clusterLba v c = lba := Except.ok.inj (Prod.mk.inj hrun).1
    exact ⟨hc, hzero, hfit⟩
  · intro ⟨hc, hzero, hfit⟩
    exact ⟨hc, hzero, _, exec_clusterToLba N hc, hfit⟩

/-- The FAT lies in front of the clusters, so the entry of a cluster on the device is there too. -/
theorem Available.looksFree (hm : (exec mount d₀).1 = .ok v) (N : Narrow v) (h : Available v d c) :
    LooksFree v d c := by
  obtain ⟨hc, hzero, hfit⟩ := (available_iff N).mp h
  have hfat := hc.fatSector_lt hm
  have hle := dataStart_le_clusterLba (v := v) c
  exact ⟨hc, by omega, hzero⟩

theorem exec_findFreeLoop_cons (hm : (exec mount d₀).1 = .ok v) (N : Narrow v) {cs : List Nat}
    (hc : InFat v c) {current : Option Nat} {buf : Bytes}
    (hbuf : ∀ s, current = some s → s < d.sectors ∧ buf = (d.block s).1) :
    exec (findFreeLoop v (c :: cs) current buf) d =
      if v.fatStartLba + c * 4 / blockSize < d.sectors then
        exec (if fatValue v d c = 0 then pure c
          else findFreeLoop v cs (some (v.fatStartLba + c * 4 / blockSize))
            (d.block (v.fatStartLba + c * 4 / blockSize)).1) d
      else (.error (.err .io), d) := by
  obtain ⟨hsize, -, -, -, -, -, hlt, -⟩ := mount_ok hm
  have hmul : c * 4 < 2 ^ 32 := by
    have hfat := N.fat
    have hcount := hc.2
    unfold clusterCount at hcount
    rw [hsize, blockSize] at hfat
    omega
  have hsum : v.fatStartLba + c * 4 / blockSize < 2 ^ 32 := Nat.lt_trans (hc.fatSector_lt hm) hlt
  simp only [findFreeLoop, hsize, mulU32_eq hmul, addU32_eq hsum, pure_bind]
  by_cases hcur : some (v.fatStartLba + c * 4 / blockSize) = current
  · obtain ⟨hdev, hbytes⟩ := hbuf _ hcur.symm
    rw [if_neg (by simpa using hcur), if_pos hdev, hbytes]
    rfl
  · rw [if_pos hcur]
    by_cases hdev : v.fatStartLba + c * 4 / blockSize < d.sectors
    · rw [if_pos hdev, exec_bind_ok (exec_readBlock hdev)]
      rfl
    · rw [if_neg hdev, exec_bind_error (exec_readBlock_past hdev)]

theorem exec_findFreeLoop_first (hm : (exec mount d₀).1 = .ok v) (N : Narrow v) {cs : List Nat}
    (hcs : ∀ c ∈ cs, InFat v c) (hsorted : cs.Pairwise (· < ·)) {current : Option Nat} {buf : Bytes}
    (hbuf : ∀ s, current = some s → s < d.sectors ∧ buf = (d.block s).1) :
    (∃ c ∈ cs, exec (findFreeLoop v cs current buf) d = (.ok c, d) ∧ LooksFree v d c ∧
        ∀ c' ∈ cs, LooksFree v d c' → c ≤ c') ∨
      exec (findFreeLoop v cs current buf) d = (.error (.err .io), d) ∧
      ∀ c ∈ cs, ¬ LooksFree v d c := by
  induction cs generalizing current buf with
  | nil => exact Or.inr ⟨rfl, by simp⟩
  | cons c cs ih =>
    obtain ⟨hfirst, hsorted⟩ := List.pairwise_cons.mp hsorted
    rw [exec_findFreeLoop_cons hm N (hcs c (by simp)) hbuf]
    by_cases hdev : v.fatStartLba + c * 4 / blockSize < d.sectors
    · rw [if_pos hdev]
      by_cases hzero : fatValue v d c = 0
      · rw [if_pos hzero, exec_pure]
        refine Or.inl ⟨c, by simp, rfl, ⟨hcs c (by simp), hdev, hzero⟩, fun c' hc' _ => ?_⟩
        rcases List.mem_cons.mp hc' with rfl | hc'
        · exact Nat.le_refl _
        · exact (hfirst c' hc').le
      · rw [if_neg hzero]
        have hnext : ∀ s, some (v.fatStartLba + c * 4 / blockSize) = some s → s < d.sectors ∧
            (d.block (v.fatStartLba + c * 4 / blockSize)).1 = (d.block s).1 := by
          intro s hs
          rw [← Option.some.inj hs]
          exact ⟨hdev, rfl⟩
        have hhere : ¬ LooksFree v d c := fun h => hzero h.2.2
        obtain ⟨x, hx, hrun, hfree, hmin⟩ | ⟨hrun, hnone⟩ :=
          ih (fun x hx => hcs x (by simp [hx])) hsorted hnext
        · refine Or.inl ⟨x, by simp [hx], hrun, hfree, fun c' hc' h => ?_⟩
          rcases List.mem_cons.mp hc' with rfl | hc'
          · exact absurd h hhere
          · exact hmin c' hc' h
        · refine Or.inr ⟨hrun, fun c' hc' h => ?_⟩
          rcases List.mem_cons.mp hc' with rfl | hc'
          · exact hhere h
          · exact hnone c' hc' h
    · -- this entry is past the device, and so are all the later ones
      rw [if_neg hdev]
      refine Or.inr ⟨rfl, fun c' hc' h => hdev ?_⟩
      have hle : c ≤ c' := by
        rcases List.mem_cons.mp hc' with rfl | hc'
        · exact Nat.le_refl _
        · exact (hfirst c' hc').le
      have hsector : c * 4 / blockSize ≤ c' * 4 / blockSize := Nat.div_le_div_right (by omega)
      have := h.2.1
      omega

theorem exec_findFreeCluster (hm : (exec mount d₀).1 = .ok v) (N : Narrow v) :
    (∃ c, exec (findFreeCluster v) d = (.ok c, d) ∧ LooksFree v d c ∧
      ∀ c', LooksFree v d c' → c ≤ c') ∨
      exec (findFreeCluster v) d = (.error (.err .io), d) ∧ ∀ c, ¬ LooksFree v d c := by
  obtain ⟨hsize, -⟩ := mount_ok hm
  have hcount : v.sectorsPerFat * v.bytesPerSector / 4 = clusterCount v := by
    rw [hsize]
    unfold blockSize clusterCount
    omega
  have hmem : ∀ c, c ∈ List.range' 2 (clusterCount v - 2) ↔ InFat v c := by
    intro c
    rw [List.mem_range'_1, InFat]
    omega
  have hloop : exec (findFreeCluster v) d =
      exec (findFreeLoop v (List.range' 2 (clusterCount v - 2)) none
        (List.replicate blockSize 0)) d := by
    rw [findFreeCluster, mulU32_eq N.fat, pure_bind, hcount]
  have hempty : ∀ s, none = some s → s < d.sectors ∧
    List.replicate blockSize 0 = (d.block s).1 := by simp
  rw [hloop]
  obtain ⟨c, -, hrun, hfree, hmin⟩ | ⟨hrun, hnone⟩ := exec_findFreeLoop_first hm N
    (fun c hc => (hmem c).mp hc) List.pairwise_lt_range' hempty
  · exact Or.inl ⟨c, hrun, hfree, fun c' h => hmin c' ((hmem c').mpr h.1) h⟩
  · exact Or.inr ⟨hrun, fun c h => hnone c ((hmem c).mpr h.1) h⟩

end Scan

/-- The search does what it is for exactly when a cluster is available or no entry of the
FAT looks free. -/
theorem findsAvailable_iff {v : FatFs} {d₀ : Disk} (hm : (exec mount d₀).1 = .ok v)
    (N : Narrow v) (d : Disk) :
    FindsAvailable v d ↔ (∃ c, Available v d c) ∨ ∀ c, ¬ LooksFree v d c := by
  have hscan := exec_findFreeCluster (d := d) hm N
  constructor
  · intro h
    obtain ⟨c, -, hc⟩ | ⟨⟨e, hrun⟩, -⟩ := h
    · exact Or.inl ⟨c, hc⟩
    · obtain ⟨c, hok, -⟩ | ⟨-, hnone⟩ := hscan
      · rw [hrun] at hok
        cases (Prod.mk.inj hok).1
      · exact Or.inr hnone
  · intro h
    obtain ⟨c, hrun, hfree, hmin⟩ | ⟨hrun, hnone⟩ := hscan
    · obtain ⟨x, hx⟩ | hno := h
      · -- the cluster found is no later than the available one, so it ends no later
        have hle : c ≤ x := hmin x (hx.looksFree hm N)
        have hfit := ((available_iff N).mp hx).2.2
        have hmono : (c - 2) * v.sectorsPerCluster ≤ (x - 2) * v.sectorsPerCluster :=
          Nat.mul_le_mul_right _ (by omega)
        refine Or.inl ⟨c, hrun, (available_iff N).mpr ⟨hfree.1, hfree.2.2, ?_⟩⟩
        unfold clusterLba at hfit ⊢
        omega
      · exact absurd hfree (hno c)
    · exact Or.inr ⟨⟨.io, hrun⟩, fun c hc => hnone c (hc.looksFree hm N)⟩

theorem smallVolume_narrow : Narrow smallVolume where
  fat := by decide
  lba c hc := by
    have hcount : c < 128 := hc.2
    change 3 + (c - 2) * 1 < 2 ^ 32
    omega

theorem findsAvailable_blankDisk : FindsAvailable smallVolume (blankDisk 5) := by
  have hm : (exec mount (blankDisk 5)).1 = .ok smallVolume := by decide +kernel
  refine (findsAvailable_iff hm smallVolume_narrow _).mpr (Or.inl ⟨3, ?_⟩)
  exact (available_iff smallVolume_narrow).mpr ⟨by decide, by decide +kernel, by decide⟩

/-- On a device that ends behind the root directory the search returns the cluster after it. -/
theorem findsAvailable_fails_fullDisk : (exec mount (blankDisk 4)).1 = .ok smallVolume ∧
    exec (findFreeCluster smallVolume) (blankDisk 4) = (.ok 3, blankDisk 4) ∧
    clusterLba smallVolume 3 + smallVolume.sectorsPerCluster = 5 ∧ (blankDisk 4).sectors = 4 ∧
    ¬ FindsAvailable smallVolume (blankDisk 4) := by
  have hrun : (exec (findFreeCluster smallVolume) (blankDisk 4)).1 = .ok 3 := by decide +kernel
  have hexec := (findFreeCluster_reads smallVolume).exec_ok hrun
  refine ⟨by decide +kernel, hexec, rfl, rfl, fun h => ?_⟩
  obtain ⟨c, hok, hc⟩ | ⟨⟨e, herr⟩, -⟩ := h
  · rw [hexec] at hok
    obtain rfl : 3 = c := Except.ok.inj (Prod.mk.inj hok).1
    exact absurd ((available_iff smallVolume_narrow).mp hc).2.2 (by decide)
  · rw [hexec] at herr
    cases (Prod.mk.inj herr).1

end Willo.Fat
