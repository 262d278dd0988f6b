import Mathlib.Order.Interval.Finset.Nat
import Willo.FatCopies
import Willo.PartialWalks

/-! How the driver's steps can stop, on whatever disk. The disk is taken as it is: its
links may lead anywhere, come back to where they were, or leave the FAT. For one
fault `bad`, a panic or a loop that never ends, the lemmas say what keeps a step
from stopping with it, and that the walks of directories stay in order. -/

namespace Willo.Fat
open Text Paths ByteCodec BlockDevice FaultState PartialWalks

def Followed (n : Nat) : Prop := 2 ≤ n ∧ n < eocThreshold

instance (n : Nat) : Decidable (Followed n) := inferInstanceAs (Decidable (_ ∧ _))

def Readable (v : FatFs) (sectors c : Nat) : Prop :=
  Addressable v c ∧ clusterLba v c + v.sectorsPerCluster ≤ sectors

instance (v : FatFs) (sectors c : Nat) : Decidable (Readable v sectors c) :=
  inferInstanceAs (Decidable (_ ∧ _))

def hop (v : FatFs) (d : Disk) (c : Nat) : Option Nat :=
  if Readable v d.sectors c ∧ v.fatStartLba + c * 4 / blockSize < d.sectors ∧
    Followed (fatValue v d c) then
    some (fatValue v d c)
  else none

/-- The clusters that, if a walk gets to read them, have numbers that loops follow and links that
are taken from the FATs. -/
def enclosure (v : FatFs) (sectors : Nat) : Set Nat :=
  {c | Readable v sectors c → c < eocThreshold ∧ (v.fatStartLba + c * 4 / blockSize < sectors →
    v.fatStartLba + c * 4 / blockSize < v.dataStartLba)}

/-- The clusters a walk may come to. Where a panic is to be kept away each needs an address. -/
def territory (bad : Fault) (v : FatFs) (sectors : Nat) : Set Nat :=
  {c | (bad = .panic → Addressable v c) ∧ c ∈ enclosure v sectors}

structure Walkable (bad : Fault) (v : FatFs) (d : Disk) (c : Nat) : Prop where
  within : Within (hop v d) (territory bad v d.sectors) c
  halts : bad = .diverge → Halts (hop v d) c

/-- What `mount` promises of a volume. -/
structure Accepted (v : FatFs) : Prop where
  sectorSize : v.bytesPerSector = blockSize
  clusterPos : 0 < v.sectorsPerCluster
  clusterMax : v.sectorsPerCluster ≤ 255
  copiesPos : 0 < v.numFats
  copiesMax : v.numFats ≤ 255
  fatStart : v.fatStartLba = v.reservedSectors
  dataStart : v.dataStartLba = v.reservedSectors + v.numFats * v.sectorsPerFat
  dataStartLt : v.dataStartLba < 2 ^ 32
  reservedLt : v.reservedSectors < 2 ^ 16

/-- The free clusters on the device have numbers that loops follow. -/
def Numbered (v : FatFs) (d : Disk) : Prop :=
  ∀ c, InFat v c → Readable v d.sectors c → fatValue v d c = 0 → c < eocThreshold

/-- `update_fsinfo` writes in front of the FATs or not at all: sector 1 lacks a signature, and no
link that a call can write makes up for it. With one reserved sector the first signature lies on
the entry of cluster 0, which no call writes. -/
def Hushed (v : FatFs) (d : Disk) : Prop :=
  2 ≤ v.reservedSectors ∨
    le32 (d.block 1).1 0 ≠ 0x41615252 ∧
      (v.reservedSectors = 1 ∨ clusterCount v ≤ 0x01615252) ∨
    le32 (d.block 1).1 484 ≠ 0x61417272 ∧ clusterCount v ≤ 0x01417272

/-- The link of cluster `c` lies where `update_fsinfo` puts the two counters. -/
def Counted (v : FatFs) (c : Nat) : Prop := v.fatStartLba + c * 4 / blockSize = 1 ∧
  0x1E8 ≤ c * 4 % blockSize ∧
  c * 4 % blockSize < 0x1F0

/-- It writes over links of clusters off the device only, which no walk comes past, and no search
that must not panic. -/
def Remote (bad : Fault) (v : FatFs) (sectors : Nat) : Prop :=
  (∀ c, Counted v c → ¬ Readable v sectors c) ∧ (bad = .panic → ∀ c, InFat v c → Addressable v c)

/-- Whatever `update_fsinfo` writes over, it is no link that a walk takes: it writes behind the
FATs, in front of them, not at all, or over such links. -/
def Calm (bad : Fault) (v : FatFs) (d : Disk) : Prop :=
  v.dataStartLba ≤ 1 ∨ Hushed v d ∨ Remote bad v d.sectors

/-- The cluster has an address, or `write_fat_entry` fails on it before the address is computed. -/
def Placeable (v : FatFs) (sectors c : Nat) : Prop :=
  Addressable v c ∨ ∃ i < v.numFats, sectors ≤ copySector v i (c * 4 / blockSize)

/-- A free cluster that has an address but is not on the device: `find_free_cluster` gets no
further, and taking it fails. -/
def Barred (v : FatFs) (d : Disk) : Prop :=
  ∃ c, InFat v c ∧ Addressable v c ∧ ¬ Readable v d.sectors c ∧ fatValue v d c = 0

/-- No cluster without an address is taken. -/
def Takeable (v : FatFs) (d : Disk) : Prop :=
  Barred v d ∨ ∀ c, InFat v c → fatValue v d c = 0 → Placeable v d.sectors c

section Walking

variable {bad : Fault} {v : FatFs} {d d' : Disk} {c n sectors : Nat}

theorem hop_eq_none_of_link (h : ¬ Followed (fatValue v d c)) : hop v d c = none :=
  if_neg fun hcond => h hcond.2.2

theorem link_lt_dataStart (A : Accepted v) (hc : c < clusterCount v) :
    v.fatStartLba + c * 4 / blockSize < v.dataStartLba := by
  have hfats := Nat.le_mul_of_pos_left v.sectorsPerFat A.copiesPos
  have hstart := A.fatStart
  have hdata := A.dataStart
  unfold clusterCount at hc
  unfold blockSize
  omega

theorem Numbered.mono (h : Numbered v d) (hs : d'.sectors = d.sectors)
    (hfree : ∀ c, InFat v c → Readable v d.sectors c → fatValue v d' c = 0 →
      fatValue v d c = 0 ∨ c < eocThreshold) : Numbered v d' := by
  intro c hc hread hzero
  rw [hs] at hread
  exact (hfree c hc hread hzero).elim (h c hc hread) id

theorem Walkable.next (h : Walkable bad v d c) (hn : hop v d c = some n) : Walkable bad v d n :=
  ⟨h.within.next hn, fun hb => (h.halts hb).next hn⟩

theorem Walkable.of_last (hc : c ∈ territory bad v d.sectors) (h : hop v d c = none) :
    Walkable bad v d c :=
  ⟨.of_last hc h, fun _ => .of_last h⟩

theorem Readable.mem_territory (A : Accepted v) (h : Readable v sectors c)
    (hc : c < clusterCount v) (hlt : c < eocThreshold) : c ∈ territory bad v sectors :=
  ⟨fun _ => h.1, fun _ => ⟨hlt, fun _ => link_lt_dataStart A hc⟩⟩

structure Milder (bad : Fault) (v : FatFs) (d d' : Disk) : Prop where
  sectors : d'.sectors = d.sectors
  walkable : ∀ c, Walkable bad v d c → Walkable bad v d' c
  calm : Calm bad v d → Calm bad v d'
  numbered : Numbered v d → Numbered v d'

structure Tamer (bad : Fault) (v : FatFs) (d d' : Disk) : Prop extends Milder bad v d d' where
  takes : bad = .panic → Takeable v d → Takeable v d'

theorem Milder.refl (d : Disk) : Milder bad v d d := ⟨rfl, fun _ h => h, id, id⟩

theorem Milder.trans {d₁ : Disk} (h : Milder bad v d d₁) (h' : Milder bad v d₁ d') :
    Milder bad v d d' :=
  ⟨h'.sectors.trans h.sectors, fun c hc => h'.walkable c (h.walkable c hc), h'.calm ∘ h.calm,
    h'.numbered ∘ h.numbered⟩

theorem Tamer.refl (d : Disk) : Tamer bad v d d := ⟨.refl d, fun _ => id⟩

theorem Tamer.trans {d₁ : Disk} (h : Tamer bad v d d₁) (h' : Tamer bad v d₁ d') :
    Tamer bad v d d' :=
  ⟨h.toMilder.trans h'.toMilder, fun hb => h'.takes hb ∘ h.takes hb⟩

theorem Takeable.mono (h : Takeable v d) (hs : d'.sectors = d.sectors)
    (hbar : Barred v d → Barred v d')
    (hfree : ∀ c, InFat v c → fatValue v d' c = 0 → fatValue v d c = 0 ∨ Placeable v d.sectors c) :
    Takeable v d' := by
  rcases h with hb | hall
  · exact Or.inl (hbar hb)
  · refine Or.inr fun c hc hzero => ?_
    rw [hs]
    rcases hfree c hc hzero with hold | hplace
    · exact hall c hc hold
    · exact hplace

theorem Barred.mono (h : Barred v d) (hs : d'.sectors = d.sectors)
    (hfree : ∀ c, InFat v c → ¬ Readable v d.sectors c → fatValue v d c = 0 → fatValue v d' c = 0) :
    Barred v d' := by
  obtain ⟨c, hc, haddr, hread, hzero⟩ := h
  exact ⟨c, hc, haddr, by rwa [hs], hfree c hc hread hzero⟩

end Walking

/-! Reading. -/

section Reading

variable {P : Fault → Prop} {bad : Fault} {v : FatFs} {d : Disk} {c n : Nat}

end Reading

/-! Writing. -/

def linkAt (d : Disk) (n off : Nat) : Nat := le32 (d.block n).1 off &&& clusterMask

/-- From `d` to `d'`, entry `c` of the copies `is` of the FAT took `value`, wherever on the disk
that is. -/
structure Stamped (v : FatFs) (is : List Nat) (c value : Nat) (d d' : Disk) : Prop where
  sectors : d'.sectors = d.sectors
  outside : ∀ n, (∀ i ∈ is, n ≠ copySector v i (c * 4 / blockSize)) → d'.block n = d.block n
  entries : ∀ n off, off % 4 = 0 → le32 (d'.block n).1 off = le32 (d.block n).1 off ∨
    off = c * 4 % blockSize ∧ linkAt d' n off = value
  written : ∀ i ∈ is, linkAt d' (copySector v i (c * 4 / blockSize)) (c * 4 % blockSize) = value
  onDevice : ∀ i ∈ is, copySector v i (c * 4 / blockSize) < d.sectors

section Writing

variable {P : Fault → Prop} {bad : Fault} {v : FatFs} {d d' : Disk} {c n value : Nat}
    {is : List Nat}

theorem le32_write {s off n off' : Nat} (hoff : off + 4 ≤ blockSize)
    (hlen : (patchEntry (d.block s) off value).length = blockSize) (h : off % 4 = 0)
    (h' : off' % 4 = 0) (hne : ¬ (n = s ∧ off' = off)) :
    le32 ((d.write s ⟨_, hlen⟩).block n).1 off' = le32 (d.block n).1 off' := by
  by_cases hn : n = s
  · have hfit : off + (toLe32 (maskedEntry value (le32 (d.block s).1 off))).length ≤
      (d.block s).1.length := by
      rw [length_toLe32, (d.block s).2]
      exact hoff
    have hoffs : off' ≠ off := fun heq => hne ⟨hn, heq⟩
    rw [hn, Disk.write_same]
    exact le32_patch_other hfit (by rw [length_toLe32]; omega)
  · rw [Disk.write_other _ _ hn]

theorem linkAt_write {s off : Nat} (hoff : off + 4 ≤ blockSize) (hv : value < 2 ^ 28)
    (hlen : (patchEntry (d.block s) off value).length = blockSize) :
    linkAt (d.write s ⟨_, hlen⟩) s off = value := by
  rw [linkAt, Disk.write_same, entry_patchEntry hoff (Or.inl rfl) hv, if_pos rfl]

theorem copySector_zero (v : FatFs) (n : Nat) : copySector v 0 n = v.fatStartLba + n := by
  rw [copySector, Nat.zero_mul, Nat.add_zero]

theorem Stamped.nil (v : FatFs) (c value : Nat) (d : Disk) : Stamped v [] c value d d :=
  ⟨rfl, fun _ _ => rfl, fun _ _ _ => Or.inl rfl, by simp, by simp⟩

theorem Stamped.cons {i : Nat} (hv : value < 2 ^ 28)
    (hdev : copySector v i (c * 4 / blockSize) < d.sectors)
    {hlen : (patchEntry (d.block (copySector v i (c * 4 / blockSize)))
      (c * 4 % blockSize) value).length = blockSize}
    (h : Stamped v is c value (d.write (copySector v i (c * 4 / blockSize)) ⟨_, hlen⟩) d') :
    Stamped v (i :: is) c value d d' := by
  have hoff : c * 4 % blockSize + 4 ≤ blockSize := by
    unfold blockSize
    omega
  have haligned : c * 4 % blockSize % 4 = 0 := by
    unfold blockSize
    omega
  have hnew := linkAt_write hoff hv hlen
  refine ⟨h.sectors, fun n hn => ?_, fun n off halign => ?_, fun j hj => ?_, ?_⟩
  · rw [h.outside n fun j hj => hn j (by simp [hj]), Disk.write_other _ _ (hn i (by simp))]
  · rcases h.entries n off halign with heq | hlater
    · by_cases hcond : n = copySector v i (c * 4 / blockSize) ∧ off = c * 4 % blockSize
      · refine Or.inr ⟨hcond.2, ?_⟩
        rw [linkAt, heq, hcond.1, hcond.2]
        exact hnew
      · exact Or.inl (heq.trans (le32_write hoff hlen haligned halign hcond))
    · exact Or.inr hlater
  · rcases List.mem_cons.mp hj with rfl | hj
    · rcases h.entries (copySector v j (c * 4 / blockSize)) _ haligned with heq | hlater
      · rw [linkAt, heq]
        exact hnew
      · exact hlater.2
    · exact h.written j hj
  · exact List.forall_mem_cons.mpr ⟨hdev, h.onDevice⟩

theorem Stamped.fatValue_cases (h : Stamped v is c value d d') (x : Nat) :
    fatValue v d' x = fatValue v d x ∨ fatValue v d' x = value := by
  have haligned : x * 4 % blockSize % 4 = 0 := by
    unfold blockSize
    omega
  rcases h.entries (v.fatStartLba + x * 4 / blockSize) _ haligned with heq | ⟨-, hnew⟩
  · exact Or.inl (congrArg (· &&& clusterMask) heq)
  · exact Or.inr hnew

theorem Stamped.fatValue_self (h : Stamped v (List.range v.numFats) c value d d')
    (hpos : 0 < v.numFats) :
    fatValue v d' c = value := by
  have hfirst := h.written 0 (List.mem_range.mpr hpos)
  rwa [copySector_zero] at hfirst

theorem Stamped.fatValue_other (h : Stamped v is c value d d') {x : Nat} (hx : x < clusterCount v)
    (hne : x ≠ c) : fatValue v d' x = fatValue v d x := by
  have haligned : x * 4 % blockSize % 4 = 0 := by
    unfold blockSize
    omega
  by_cases hsector : ∀ i ∈ is,
    v.fatStartLba + x * 4 / blockSize ≠ copySector v i (c * 4 / blockSize)
  · rw [fatValue, fatValue, h.outside _ hsector]
  · push Not at hsector
    obtain ⟨i, -, hi⟩ := hsector
    have hxs := entrySector_lt hx
    have hc : c * 4 / blockSize < v.sectorsPerFat := by
      unfold copySector at hi
      omega
    rw [← copySector_zero] at hi
    have hsame := (copySector_inj hxs hc hi).2
    rcases h.entries (v.fatStartLba + x * 4 / blockSize) _ haligned with heq | ⟨hoff, -⟩
    · exact congrArg (· &&& clusterMask) heq
    · unfold blockSize at hoff hsame
      omega

theorem Stamped.le32_first (h : Stamped v is c value d d') (A : Accepted v) (hc : 0 < c)
    (hreserved : v.reservedSectors = 1) : le32 (d'.block 1).1 0 = le32 (d.block 1).1 0 := by
  have hstart := A.fatStart
  by_cases hoff : c * 4 % blockSize = 0
  · rw [h.outside 1 fun i _ heq => ?_]
    unfold copySector at heq
    unfold blockSize at heq hoff
    omega
  · exact (h.entries 1 0 rfl).resolve_right fun hnew => hoff hnew.1.symm

theorem Stamped.le32_ne (h : Stamped v is c value d d') {sig off : Nat} (halign : off % 4 = 0)
    (hv : value ≠ sig &&& clusterMask) (hsig : le32 (d.block 1).1 off ≠ sig) :
    le32 (d'.block 1).1 off ≠ sig := by
  rcases h.entries 1 off halign with heq | ⟨-, hnew⟩
  · rwa [heq]
  · rintro hsig'
    rw [linkAt, hsig'] at hnew
    exact hv hnew.symm

theorem Stamped.hushed (h : Stamped v is c value d d') (A : Accepted v) (hc : 0 < c)
    (hv : value = 0 ∨ value = endOfChain ∨ value < clusterCount v) (hush : Hushed v d) :
    Hushed v d' := by
  have hvalues : (0x41615252 &&& clusterMask, 0x61417272 &&& clusterMask, endOfChain) =
      (0x01615252, 0x01417272, 0x0FFFFFFF) := by decide
  simp only [Prod.mk.injEq] at hvalues
  rw [hvalues.2.2] at hv
  rcases hush with hfront | ⟨hlead, hreserved | hcount⟩ | ⟨hstruct, hcount⟩
  · exact Or.inl hfront
  · exact Or.inr (Or.inl ⟨by rwa [h.le32_first A hc hreserved], Or.inl hreserved⟩)
  · refine Or.inr (Or.inl ⟨h.le32_ne rfl ?_ hlead, Or.inr hcount⟩)
    rw [hvalues.1]
    omega
  · refine Or.inr (Or.inr ⟨h.le32_ne rfl ?_ hstruct, hcount⟩)
    rw [hvalues.2.1]
    omega

theorem Stamped.calm (h : Stamped v is c value d d') (A : Accepted v) (hc : 0 < c)
    (hv : value = 0 ∨ value = endOfChain ∨ value < clusterCount v) (hcalm : Calm bad v d) :
    Calm bad v d' :=
  hcalm.imp_right (.imp (h.hushed A hc hv) fun hremote => by rwa [h.sectors])

theorem Stamped.numbered (h : Stamped v (List.range v.numFats) c value d d') (A : Accepted v)
    (hv : value = 0 → c < eocThreshold) (hnumbers : Numbered v d) : Numbered v d' := by
  refine hnumbers.mono h.sectors fun x hx _ hzero => ?_
  by_cases hxc : x = c
  · rw [hxc, h.fatValue_self A.copiesPos] at hzero
    exact Or.inr (hxc ▸ hv hzero)
  · exact Or.inl ((h.fatValue_other hx.2 hxc).symm.trans hzero)

/-- Where the links lead, whether or not the clusters themselves can be read. -/
def trail (v : FatFs) (d : Disk) (c : Nat) : Option Nat :=
  if v.fatStartLba + c * 4 / blockSize < d.sectors ∧
    Followed (fatValue v d c) then some (fatValue v d c) else none

def Releasable (v : FatFs) (d : Disk) (c : Nat) : Prop :=
  Barred v d ∨ ∀ x, Visits (trail v d) c x → InFat v x → Placeable v d.sectors x

theorem Stamped.barred_of_free (h : Stamped v is c 0 d d') (hb : Barred v d) : Barred v d' := by
  refine hb.mono h.sectors fun x _ _ hzero => ?_
  rcases h.fatValue_cases x with heq | hnew
  · rw [heq, hzero]
  · exact hnew

theorem Stamped.trail_of_free (h : Stamped v is c 0 d d') {a b : Nat}
    (hab : trail v d' a = some b) :
    trail v d a = some b := by
  unfold trail at hab ⊢
  split_ifs at hab with hcond
  rw [h.sectors] at hcond
  rcases h.fatValue_cases a with heq | hnew
  · rw [heq] at hcond hab
    rw [if_pos hcond, hab]
  · rw [hnew] at hcond
    exact absurd hcond.2 (by decide)

theorem Releasable.next (h : Releasable v d c) (hs : Stamped v is c 0 d d')
    (hdev : v.fatStartLba + c * 4 / blockSize < d.sectors) (hnext : Followed (fatValue v d c)) :
    Releasable v d' (fatValue v d c) := by
  rcases h with hb | hall
  · exact Or.inl (hs.barred_of_free hb)
  · refine Or.inr fun x hx hin => ?_
    rw [hs.sectors]
    have hback : Visits (trail v d) (fatValue v d c) x :=
      Relation.ReflTransGen.mono (fun _ _ => hs.trail_of_free) _ _ hx
    have hstep : trail v d c = some (fatValue v d c) := if_pos ⟨hdev, hnext⟩
    exact hall x (.from_next hstep hback) hin

end Writing

end Willo.Fat
