import Willo.CallFaults

/-! What happens when the clusters with a 32-bit address run out before the free ones
do: a call that takes clusters comes to one without an address, and panics there. -/

namespace Willo.Fat
open Text Paths ByteCodec BlockDevice FaultState PartialWalks

/-- The free cluster `z` has no address, though its entries can be written, and nothing in front
of it keeps the driver from taking it. -/
structure Doomed (v : FatFs) (d : Disk) (z : Nat) : Prop where
  inFat : InFat v z
  free : fatValue v d z = 0
  unaddressable : ¬ Addressable v z
  onDevice : ∀ i < v.numFats, copySector v i (z * 4 / blockSize) < d.sectors
  readable : ∀ c, InFat v c → Addressable v c → fatValue v d c = 0 → Readable v d.sectors c
  numbered : Numbered v d

def stock (v : FatFs) (d : Disk) : Finset Nat :=
  (Finset.range (clusterCount v)).filter fun c => InFat v c ∧ Addressable v c ∧ fatValue v d c = 0

section Shortage

variable {v : FatFs} {d d' : Disk} {c n z value : Nat}

theorem mem_stock : c ∈ stock v d ↔ InFat v c ∧ Addressable v c ∧ fatValue v d c = 0 := by
  rw [stock, Finset.mem_filter, Finset.mem_range, and_iff_right_iff_imp]
  exact fun h => h.1.2

theorem Doomed.mono (h : Doomed v d z) (hs : d'.sectors = d.sectors) (hz : fatValue v d' z = 0)
    (hfree : ∀ x, InFat v x → fatValue v d' x = 0 → fatValue v d x = 0) :
    Doomed v d' z ∧ stock v d' ⊆ stock v d := by
  refine ⟨⟨h.inFat, hz, h.unaddressable, by rw [hs]; exact h.onDevice, fun x hx haddr hzero => ?_,
    h.numbered.mono hs fun x hx _ hzero => Or.inl (hfree x hx hzero)⟩, fun x hx => ?_⟩
  · rw [hs]
    exact h.readable x hx haddr (hfree x hx hzero)
  · obtain ⟨hx, haddr, hzero⟩ := mem_stock.mp hx
    exact mem_stock.mpr ⟨hx, haddr, hfree x hx hzero⟩

end Shortage

end Willo.Fat
