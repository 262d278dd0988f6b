import Willo.AtaDriver
import Willo.FatCopies
import Willo.ShellCore
import Willo.VfsListings

/-! The mounts of the running kernel (`mount_root`): the FAT volume or, without one, the
seeded tree at the root, and three more below it. What the probe of the drive found is
an argument. After it every path is routed by its first component. -/

namespace Willo.KernelFs
open Text Paths ByteCodec BlockDevice FaultState TreeStore MountTable

def serialPrintln (s : Str) : KernelM Unit :=
  modify fun k => { k with serial := k.serial.map fun sent => sent ++ s ++ text "\n" }

def blockErrorName : Ata.BlockError → Str
  | .timeout => text "Timeout"
  | .driveError => text "DriveError"
  | .outOfRange => text "OutOfRange"

/-- A mount that must not fail. -/
def expectMount (v : Vfs Backend) (pfx : Str) (fs : Backend) : KernelM (Vfs Backend) :=
  match mount v pfx fs with
  | (.ok _, v') => pure v'
  | (.error _, _) => throw .panic

def rootBackend : Except Ata.BlockError Unit → KernelM Backend
  | .ok _ => do
    match ← onDisk (attempt Fat.mount) with
    | .ok fat => do
      serialPrintln (text "[fs] mounted FAT32 on primary IDE slave")
      pure (.fat fat)
    | .error e => do
      serialPrintln (text "[fs] FAT mount failed (" ++ ShellCore.debugName e ++
        text "); falling back to ramfs")
      pure (.ram seed)
  | .error e => do
    serialPrintln (text "[fs] no data disk on primary IDE slave (" ++ blockErrorName e ++
      text "); using ramfs")
    pure (.ram seed)

/-- `mount_root`, after the probe. -/
def mountRoot (probe : Except Ata.BlockError Unit) : KernelM (Vfs Backend) := do
  let root ← rootBackend probe
  let vfs ← expectMount new (text "/") root
  let vfs ← expectMount vfs (text "/tmp") (.tmp TmpFs.new)
  let vfs ← expectMount vfs (text "/dev") .dev
  expectMount vfs (text "/ram") (.ram seed)

def rootTable (root tmp : Backend) : Vfs Backend :=
  ⟨[⟨[], root⟩, ⟨join [text "tmp"], tmp⟩, ⟨join [text "dev"], .dev⟩,
    ⟨join [text "ram"], .ram seed⟩]⟩

def routed (root tmp : Backend) : List Str → Mount Backend
  | [] => ⟨[], root⟩
  | s :: _ =>
    if s = text "tmp" then ⟨join [text "tmp"], tmp⟩
    else if s = text "dev" then ⟨join [text "dev"], .dev⟩
    else if s = text "ram" then ⟨join [text "ram"], .ram seed⟩
    else ⟨[], root⟩

section Routing

variable {root tmp : Backend} {segs : List Str} {name : Str}

theorem covers_single (hn : Plain name) (hs : ∀ s ∈ segs, Plain s) :
    covers (join [name]) (render segs) = decide (segs.head? = some name) := by
  have hne : join [name] ≠ [] := by simp
  rw [Bool.eq_iff_iff, covers_iff hne, matches_render_iff (by simpa using hn) hs, decide_eq_true_eq]
  cases segs with
  | nil => simp
  | cons s segs => simp [List.cons_prefix_cons, eq_comm]

theorem mountNames : Plain (text "tmp") ∧ Plain (text "dev") ∧ Plain (text "ram") := by
  decide +kernel

theorem mountNames_apart : text "dev" ≠ text "tmp" ∧ text "ram" ≠ text "tmp" ∧
    text "ram" ≠ text "dev" := by
  decide +kernel

theorem bestMount_rootTable (hs : ∀ s ∈ segs, Plain s) :
    bestMount (rootTable root tmp) (render segs) = some (routed root tmp segs) := by
  obtain ⟨htmp, hdev, hram⟩ := mountNames
  obtain ⟨hdt, hrt, hrd⟩ := mountNames_apart
  have hne : ∀ n : Str, join [n] ≠ [] := fun n => by simp
  simp only [bestMount, rootTable, List.foldl_cons, List.foldl_nil, scan, hne, if_false, if_true,
    Option.isNone_none, covers_single htmp hs, covers_single hdev hs, covers_single hram hs]
  cases segs with
  | nil => simp [routed]
  | cons s segs =>
    simp only [List.head?_cons, Option.some.injEq, decide_eq_true_eq, routed]
    by_cases h₁ : s = text "tmp"
    · subst h₁
      simp [hdt.symm, hrt.symm]
    · by_cases h₂ : s = text "dev"
      · subst h₂
        simp [h₁, hrd.symm]
      · by_cases h₃ : s = text "ram"
        · subst h₃
          simp [h₁, h₂]
        · simp [h₁, h₂, h₃]

def below : List Str → List Str
  | [] => []
  | s :: segs => if s ∈ [text "tmp", text "dev", text "ram"] then segs else s :: segs

theorem routed_split (root tmp : Backend) (segs : List Str) :
    ∃ as, (routed root tmp segs).pfx = join as ∧ segs = as ++ below segs := by
  cases segs with
  | nil => exact ⟨[], rfl, rfl⟩
  | cons s segs =>
    rw [routed, below]
    by_cases hm : s ∈ [text "tmp", text "dev", text "ram"]
    · rw [if_pos hm]
      refine ⟨[s], ?_, rfl⟩
      simp only [List.mem_cons, List.not_mem_nil, or_false] at hm
      split_ifs with h₁ h₂ h₃
      · rw [h₁]
      · rw [h₂]
      · rw [h₃]
      · rcases hm with hm | hm | hm
        · exact absurd hm h₁
        · exact absurd hm h₂
        · exact absurd hm h₃
    · rw [if_neg hm]
      simp only [List.mem_cons, List.not_mem_nil, or_false, not_or] at hm
      exact ⟨[], by rw [if_neg hm.1, if_neg hm.2.1, if_neg hm.2.2]; rfl, rfl⟩

theorem resolve_rootTable (hs : ∀ s ∈ segs, Plain s) :
    resolve (rootTable root tmp) (render segs) =
      .ok ((routed root tmp segs).fs, render (below segs)) :=
  resolve_some (bestMount_rootTable hs) (routed_split root tmp segs)

end Routing

/-! The call. -/

section Calls

variable {v : Vfs Backend} {pfx : Str} {k k' : Kernel} {root : Backend}
    {probe : Except Ata.BlockError Unit}

theorem mount_free (fs : Backend) (hroom : v.mounts.length < maxMounts)
    (hhead : pfx.head? = some slash) (hfree : canonicalPrefix pfx ∉ v.mounts.map Mount.pfx) :
    mount v pfx fs = (.ok (), ⟨v.mounts ++ [⟨canonicalPrefix pfx, fs⟩]⟩) := by
  have hany : v.mounts.any (·.pfx == canonicalPrefix pfx) = false := by
    rw [List.any_eq_false]
    exact fun m hm heq => hfree (List.mem_map.mpr ⟨m, hm, by simpa using heq⟩)
  rw [mount, if_neg (Nat.not_le.mpr hroom), if_neg (not_not.mpr hhead)]
  simp only [hany, Bool.false_eq_true, if_false]

theorem mounts_rootTable (root tmp : Backend) :
    let v₁ : Vfs Backend := ⟨[⟨[], root⟩]⟩
    let v₂ : Vfs Backend := ⟨[⟨[], root⟩, ⟨join [text "tmp"], tmp⟩]⟩
    let v₃ : Vfs Backend := ⟨[⟨[], root⟩, ⟨join [text "tmp"], tmp⟩, ⟨join [text "dev"], .dev⟩]⟩
    mount new (text "/") root = (.ok (), v₁) ∧ mount v₁ (text "/tmp") tmp = (.ok (), v₂) ∧
      mount v₂ (text "/dev") .dev = (.ok (), v₃) ∧
      mount v₃ (text "/ram") (.ram seed) = (.ok (), rootTable root tmp) := by
  have hcanon : canonicalPrefix (text "/") = [] ∧
    canonicalPrefix (text "/tmp") = join [text "tmp"] ∧
      canonicalPrefix (text "/dev") = join [text "dev"] ∧
        canonicalPrefix (text "/ram") = join [text "ram"] := by
    decide +kernel
  have hhead : ∀ s ∈ ["/", "/tmp", "/dev", "/ram"], (text s).head? = some slash := by decide +kernel
  obtain ⟨hdt, hrt, hrd⟩ := mountNames_apart
  obtain ⟨hroot, htmp, hdev, hram⟩ := hcanon
  refine ⟨?_, ?_, ?_, ?_⟩
  · rw [mount_free _ (by decide) (hhead _ (by simp)) (by simp [new]), hroot]
    rfl
  · rw [mount_free _ (by simp [maxMounts]) (hhead _ (by simp)) (by simp [htmp]), htmp]
    rfl
  · rw [mount_free _ (by simp [maxMounts]) (hhead _ (by simp)) (by simp [hdev, hdt]), hdev]
    rfl
  · rw [mount_free _ (by simp [maxMounts]) (hhead _ (by simp)) (by simp [hram, hrt, hrd]), hram]
    rfl

theorem rootTable_reachable (root tmp : Backend) : Reachable (rootTable root tmp) := by
  obtain ⟨h₁, h₂, h₃, h₄⟩ := mounts_rootTable root tmp
  have hall := Reachable.new.mount (text "/") root |>.mount (text "/tmp") tmp |>.mount
    (text "/dev") .dev
    |>.mount (text "/ram") (.ram seed)
  rwa [h₁, h₂, h₃, h₄] at hall

theorem exec_mountRoot (h : exec (rootBackend probe) k = (.ok root, k')) :
    exec (mountRoot probe) k = (.ok (rootTable root (.tmp TmpFs.new)), k') := by
  obtain ⟨h₁, h₂, h₃, h₄⟩ := mounts_rootTable root (.tmp TmpFs.new)
  rw [mountRoot, exec_bind_ok h]
  simp only [expectMount, h₁, h₂, h₃, h₄, pure_bind]
  rfl

theorem exec_mountRoot_error {f : Fault} (h : exec (rootBackend probe) k = (.error f, k')) :
    exec (mountRoot probe) k = (.error f, k') := exec_bind_error h

theorem exec_rootBackend (probe : Except Ata.BlockError Unit) (k : Kernel) :
    (∃ f, exec (rootBackend probe) k = (.error f, k) ∧ probe = .ok () ∧
      (exec Fat.mount k.disk).1 = .error f ∧
      ∀ e, f ≠ .err e) ∨
    ∃ root serial, exec (rootBackend probe) k = (.ok root, { k with serial := serial }) ∧
      (∀ v, root = .fat v ↔ probe = .ok () ∧ (exec Fat.mount k.disk).1 = .ok v) ∧
      ((∃ v, root = .fat v) ∨ root = .ram seed) := by
  cases probe with
  | error e => exact Or.inr ⟨.ram seed, _, rfl, by simp, Or.inr rfl⟩
  | ok u =>
    have hsame : (exec Fat.mount k.disk).2 = k.disk := Fat.mount_reads k.disk
    have hcall : exec (onDisk (attempt Fat.mount)) k = ((exec (attempt Fat.mount) k.disk).1,
        { k with disk := (exec (attempt Fat.mount) k.disk).2 }) := rfl
    unfold rootBackend
    rw [exec_bind, hcall, exec_attempt]
    rcases hrun : exec Fat.mount k.disk with ⟨(e | _ | _) | v, d⟩ <;>
      rw [hrun] at hsame <;> cases hsame
    · exact Or.inr ⟨.ram seed, _, rfl, by simp, Or.inr rfl⟩
    · exact Or.inl ⟨.panic, rfl, rfl, rfl, by simp⟩
    · exact Or.inl ⟨.diverge, rfl, rfl, rfl, by simp⟩
    · exact Or.inr ⟨.fat v, _, rfl, fun v' => by simp, Or.inl ⟨v, rfl⟩⟩

end Calls

/-- Whatever is on the drive, `mount_root` stops only where the mount of the volume stops;
else it leaves the drive as it is, the volume stands at the root exactly if the drive was
found and mounts, and every path goes to the place its first component names. -/
theorem mountRoot_routes (probe : Except Ata.BlockError Unit) (k : Kernel) :
    (∃ f, exec (mountRoot probe) k = (.error f, k) ∧ probe = .ok () ∧
      (exec Fat.mount k.disk).1 = .error f ∧
      ∀ e, f ≠ .err e) ∨
    ∃ vfs root serial, exec (mountRoot probe) k = (.ok vfs, { k with serial := serial }) ∧
      Reachable vfs ∧
      (∀ v, root = .fat v ↔ probe = .ok () ∧ (exec Fat.mount k.disk).1 = .ok v) ∧
      ((∃ v, root = .fat v) ∨ root = .ram seed) ∧
      ∀ segs, (∀ s ∈ segs, Component s) →
        resolve vfs (render segs) =
          .ok ((routed root (.tmp TmpFs.new) segs).fs, render (below segs)) := by
  rcases exec_rootBackend probe k with ⟨f, hrun, hrest⟩ | ⟨root, serial, hrun, hfat, hkind⟩
  · exact Or.inl ⟨f, exec_mountRoot_error hrun, hrest⟩
  · exact Or.inr ⟨_, root, serial, exec_mountRoot hrun, rootTable_reachable _ _, hfat, hkind,
      fun segs hs => resolve_rootTable fun s h => (hs s h).1⟩

end Willo.KernelFs
