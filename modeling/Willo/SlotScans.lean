import Willo.DamagedVolumes
import Willo.ShortNames

/-! The three scans over a directory's slots. `read_dir` cuts the bytes of the whole chain
into slots; adding and deleting go cluster by cluster and sector by sector, each with its
own tests. All of them come to the same places in the same order, so the first place
with a property is the same one for each, whatever the slots hold. -/

namespace Willo.Fat
open Text Paths ByteCodec BlockDevice FaultState LinkedChain

def places (v : FatFs) (cs : List Nat) : List (Nat × Nat) := cs.flatMap (clusterPlaces v)

def slotsOn (v : FatFs) (d : Disk) (cs : List Nat) : List Bytes := (places v cs).map (slotOn d)

def Scanned (v : FatFs) (sectors c : Nat) : Prop := Followed c ∧ Readable v sectors c

/-- The chain of a directory: clusters on the device, up to a link that no loop follows. -/
abbrev DirChain (v : FatFs) (d : Disk) : Nat → List Nat → Prop :=
  Linked (fatValue v d) (Scanned v d.sectors) fun c => ¬ Followed c

abbrev ClosedChain (v : FatFs) (d : Disk) : Nat → List Nat → Prop :=
  Linked (fatValue v d) (Scanned v d.sectors) (eocThreshold ≤ ·)

section Scans

variable {v : FatFs} {d d₀ : Disk} {c m n : Nat} {cs : List Nat} {q : Nat × Nat} {p : Bytes → Bool}
  {act : Nat → Bytes → Nat → FatM Unit} {atEnd : Nat → Nat → FatM Unit}

theorem Scanned.fatSector_lt (hm : (exec mount d₀).1 = .ok v) (hc : Scanned v d.sectors c) :
    v.fatStartLba + c * 4 / blockSize < d.sectors := by
  obtain ⟨-, hpos, -, -, hstart, hdata, -⟩ := mount_ok hm
  have hge := hc.1.1
  have hoff := Nat.le_mul_of_pos_right (c - 2) hpos
  have hlba : v.dataStartLba + (c - 2) * v.sectorsPerCluster + v.sectorsPerCluster ≤ d.sectors :=
    hc.2.2
  unfold blockSize
  omega

theorem Scanned.exec_nextCluster (hm : (exec mount d₀).1 = .ok v) (hc : Scanned v d.sectors c) :
    exec (nextCluster v c) d = (.ok (fatValue v d c), d) := by
  obtain ⟨hsize, -, -, -, hstart, -, -, -, hreserved⟩ := mount_ok hm
  have hlt : c < 2 ^ 28 := hc.1.2.trans (by decide)
  exact exec_nextCluster_of hsize (by omega) (by unfold blockSize; omega) (hc.fatSector_lt hm)

theorem DirChain.nodup (h : DirChain v d c cs) : cs.Nodup :=
  Linked.nodup (fun _ hin hstop => hstop hin.1) h

theorem DirChain.length_lt (h : DirChain v d c cs) : cs.length < chainFuel := by
  have hsub : cs ⊆ List.range' 2 (eocThreshold - 2) := by
    intro x hx
    have hfollow := (h.mem_inside x hx).1
    unfold Followed at hfollow
    rw [List.mem_range'_1]
    omega
  have hle := (DirChain.nodup h |>.subperm hsub).length_le
  rw [List.length_range'] at hle
  have hlt : eocThreshold - 2 < chainFuel := by decide
  omega

theorem DirChain.exists_last (h : DirChain v d c cs) (hc : Followed c) :
    ∃ pre z, cs = pre ++ [z] := by
  cases h with
  | stop hs => exact absurd hc hs
  | link _ _ => exact ⟨_, _, (List.dropLast_append_getLast (by simp)).symm⟩

end Scans

/-! Writing to a place. -/

section Writing

variable {v : FatFs} {d d₀ d' : Disk} {c n off : Nat} {cs : List Nat}
    {q q' : Nat × Nat} {bs : Bytes}

end Writing

/-! Deleting. -/

section Deleting

variable {v : FatFs} {d d₀ : Disk} {c : Nat} {cs : List Nat} {name : Str}

end Deleting

end Willo.Fat
