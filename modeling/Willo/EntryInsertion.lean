import Willo.SlotScans

/-! Adding an entry, against what is listed afterwards. The entry takes the first slot that
is unused or deleted, in a fresh cluster when the directory has none, and the listing
gains it between the entries in front of that slot and those behind it. -/

namespace Willo.Fat
open Text Paths ByteCodec BlockDevice FaultState LinkedChain

def blankSlots (v : FatFs) : List Bytes :=
  List.replicate (16 * v.sectorsPerCluster) (List.replicate 32 0)

/-- From `d` to `d'` the entry was written to slot `i` of the directory, the first that can be
written to, and to no other slot of the disk. `cs'` is the chain afterwards and `blank` the
slots of the cluster behind `cs`, if the directory had no such slot. -/
structure TakesSlot (v : FatFs) (d d' : Disk) (c : Nat) (cs : List Nat) (entry : Bytes)
    (cs' : List Nat) (blank : List Bytes) (i : Nat) : Prop where
  sectors : d'.sectors = d.sectors
  chain : ClosedChain v d' c cs'
  grown : cs' = cs ∧ blank = [] ∧ (∀ m, (∀ q ∈ places v cs, q.1 ≠ m) → d'.block m = d.block m) ∨
    ∃ n, cs' = cs ++ [n] ∧ blank = blankSlots v ∧
      (slotsOn v d cs).findIdx? vacant = none ∧ InFat v n ∧
      fatValue v d n = 0
  first : (slotsOn v d cs ++ blank).findIdx? vacant = some i
  written : slotsOn v d' cs' = (slotsOn v d cs ++ blank).set i entry
  elsewhere : ∀ m, v.dataStartLba ≤ m → (∀ q ∈ places v cs', q.1 ≠ m) → d'.block m = d.block m
  links : ∀ x < clusterCount v, x ∉ cs' → Hushed v d ∨ ¬ Counted v x →
    fatValue v d' x = fatValue v d x

section Places

variable {v : FatFs} {d d' : Disk} {c i : Nat} {cs : List Nat} {q q' : Nat × Nat} {bs : Bytes}

end Places

/-! Listings cut at a slot. -/

section Listings

variable {as ss blank : List Bytes} {s t : Bytes} {i : Nat}

end Listings

/-! The search for the slot. -/

section Room

variable {bad : Fault} {v : FatFs} {d d₀ d' : Disk} {c i z : Nat} {cs : List Nat} {entry : Bytes}
    {p : Bytes → Bool}

theorem ClosedChain.congr (h : ClosedChain v d c cs) (hs : d'.sectors = d.sectors)
    (hfat : ∀ b ∈ cs, fatValue v d' b = fatValue v d b) : ClosedChain v d' c cs := by
  unfold ClosedChain
  rw [hs]
  exact Linked.congr h hfat

end Room

/-! A directory that grows. -/

section Growth

variable {v : FatFs} {d d₀ d' : Disk} {c n z : Nat} {cs : List Nat} {entry : Bytes}

end Growth

/-! What is listed afterwards. -/

section Listed

variable {v : FatFs} {d d₀ d' : Disk} {c i : Nat} {cs cs' : List Nat} {name : Str} {attrs : UInt8}
    {cluster size : Nat}
  {entry : Bytes} {e : DirEntry} {blank : List Bytes}

theorem TakesSlot.unused (h : TakesSlot v d d' c cs entry cs' blank i) :
    ∀ s ∈ blank, byteAt s 0 = 0x00 := by
  intro s hs
  rcases h.grown with ⟨-, hnil, -⟩ | ⟨n, -, hblank, -⟩
  · rw [hnil] at hs
    cases hs
  · rw [hblank] at hs
    rw [List.eq_of_mem_replicate hs]
    rfl

end Listed

end Willo.Fat
