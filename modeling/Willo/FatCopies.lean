import Willo.DriverSteps

/-! What the driver's calls write where, below the view: the sectors in front of the
FATs, the FSInfo sector, the copies of the FAT and the bits of an entry that are
not part of its value. Writes to data clusters lie behind all of them. -/

namespace Willo.Fat
open Text Paths ByteCodec BlockDevice FaultState LinkedChain RootedGraph

/-! Calls that write nothing. -/

section Readers

variable {α : Type} (v : FatFs)

theorem Reads.attempt {x : FatM α} (hx : Reads x) : Reads (attempt x) := by
  intro d
  have hd := hx d
  rw [exec_attempt]
  rcases hrun : exec x d with ⟨(e | _ | _) | a, d'⟩ <;> rw [hrun] at hd <;> exact hd

theorem readBlock_reads (lba : Nat) : Reads (readBlock lba) := by
  intro d
  by_cases h : lba < d.sectors
  · rw [exec_readBlock h]
  · rw [exec_readBlock_past h]

theorem addU32_reads (a b : Nat) : Reads (addU32 a b) := .ite (.pure _) (.throw _)

theorem subU32_reads (a b : Nat) : Reads (subU32 a b) := .ite (.pure _) (.throw _)

theorem mulU32_reads (a b : Nat) : Reads (mulU32 a b) := .ite (.pure _) (.throw _)

theorem mount_reads : Reads mount := (readBlock_reads 0).bind fun _ =>
  .ite (.throw _) ((mulU32_reads _ _).bind fun _ => (addU32_reads _ _).bind fun _ => .pure _)

theorem clusterToLba_reads (c : Nat) : Reads (clusterToLba v c) :=
  (subU32_reads _ _).bind fun _ => (mulU32_reads _ _).bind fun _ => addU32_reads _ _

theorem nextCluster_reads (c : Nat) : Reads (nextCluster v c) :=
  (mulU32_reads _ _).bind fun _ => (addU32_reads _ _).bind fun _ =>
    (readBlock_reads _).bind fun _ => .pure _

theorem readSectors_reads (lba n : Nat) : Reads (readSectors lba n) := by
  induction n with
  | zero => exact .pure _
  | succ n ih => exact ih.bind fun _ => (readBlock_reads _).bind fun _ => .pure _

theorem readChainLoop_reads (maxBytes fuel c : Nat) (out : Bytes) :
    Reads (readChainLoop v maxBytes fuel c out) := by
  induction fuel generalizing c out with
  | zero => exact .throw _
  | succ fuel ih =>
    refine .ite ((clusterToLba_reads v c).bind fun _ =>
      (readSectors_reads _ _).bind fun _ => ?_) (.pure _)
    exact .ite (.pure _) ((nextCluster_reads v c).bind fun _ => ih _ _)

theorem readChain_reads (start maxBytes : Nat) : Reads (readChain v start maxBytes) :=
  readChainLoop_reads v maxBytes chainFuel start []

theorem readDir_reads (c : Nat) : Reads (readDir v c) :=
  (readChain_reads v c _).bind fun _ => .pure _

theorem findInDir_reads (c : Nat) (name : Str) : Reads (findInDir v c name) :=
  (readDir_reads v c).bind fun _ => .pure _

theorem lookupLoop_reads (c : Nat) (found : Option DirEntry) (segs : List Str) :
    Reads (lookupLoop v c found segs) := by
  induction segs generalizing c found with
  | nil =>
    cases found with
    | none => exact .throw _
    | some e => exact .pure e
  | cons seg segs ih =>
    cases found with
    | none =>
      refine (findInDir_reads v c seg).bind fun r => ?_
      cases r with
      | none => exact .throw _
      | some e => exact ih _ _
    | some f =>
      refine .ite ((findInDir_reads v f.cluster seg).bind fun r => ?_) (.throw _)
      cases r with
      | none => exact .throw _
      | some e => exact ih _ _

theorem lookup_reads (abs : Str) : Reads (lookup v abs) := .ite (.pure _) (lookupLoop_reads v _ _ _)

theorem readFile_reads (abs : Str) : Reads (readFile v abs) := by
  refine (lookup_reads v abs).bind fun e => .ite (.throw _) (.ite (.pure _) ?_)
  exact (readChain_reads v _ _).bind fun _ => .pure _

theorem isDir_reads (abs : Str) : Reads (isDir v abs) := by
  refine (Reads.attempt (lookup_reads v abs)).bind fun r => ?_
  cases r with
  | error _ => exact .pure _
  | ok e => exact .pure _

theorem clusterFor_reads (abs : Str) : Reads (clusterFor v abs) :=
  .ite (.pure _) ((lookup_reads v abs).bind fun _ => .ite (.pure _) (.throw _))

theorem splitParent_reads (abs : Str) : Reads (splitParent abs) := by
  unfold splitParent
  refine .ite (.throw _) ?_
  split
  · exact .throw _
  · exact .ite (.throw _) (.pure _)

theorem openParent_reads (abs : Str) : Reads (openParent v abs) :=
  (splitParent_reads abs).bind fun _ => (isDir_reads v _).bind fun _ =>
    .ite ((clusterFor_reads v _).bind fun _ => .pure _) (.throw _)

theorem findFreeLoop_reads (cs : List Nat) (current : Option Nat) (buf : Bytes) :
    Reads (findFreeLoop v cs current buf) := by
  induction cs generalizing current buf with
  | nil => exact .throw _
  | cons c cs ih =>
    refine (mulU32_reads _ _).bind fun _ => (addU32_reads _ _).bind fun _ => ?_
    split
    · exact (readBlock_reads _).bind fun _ => .ite (.pure _) (ih _ _)
    · exact .ite (.pure _) (ih _ _)

theorem findFreeCluster_reads : Reads (findFreeCluster v) :=
  (mulU32_reads _ _).bind fun _ => findFreeLoop_reads v _ _ _

end Readers

/-! What lies in front of the data. -/

def Mirrored (v : FatFs) (d : Disk) : Prop :=
  ∀ i < v.numFats, ∀ n < v.sectorsPerFat, d.block (copySector v i n) = d.block (v.fatStartLba + n)

/-- The four bits above the value of entry `c`, in copy `i`. -/
def topBits (v : FatFs) (d : Disk) (i c : Nat) : Nat :=
  le32 (d.block (copySector v i (c * 4 / blockSize))).1 (c * 4 % blockSize) / 2 ^ 28

/-- From `d` to `d'` the FSInfo sector took the updates `us`, the rest in front of the FATs
and the top bits of their entries stayed, and copies that agreed still agree. -/
structure Wrote (v : FatFs) (us : List (Int × Nat)) (d d' : Disk) : Prop where
  sectors : d'.sectors = d.sectors
  reserved : ∀ n < v.fatStartLba, n ≠ 1 → d'.block n = d.block n
  fsinfo : d'.block 1 = us.foldl noted (d.block 1)
  mirrored : Mirrored v d → Mirrored v d'
  top : ∀ i < v.numFats, ∀ c < clusterCount v, topBits v d' i c = topBits v d i c

section Writes

variable {v : FatFs} {us us' : List (Int × Nat)} {d d₁ d' : Disk} {c : Nat}

theorem Wrote.refl (v : FatFs) (d : Disk) : Wrote v [] d d :=
  ⟨rfl, fun _ _ _ => rfl, rfl, id, fun _ _ _ _ => rfl⟩

theorem Wrote.trans (h : Wrote v us d d₁) (h' : Wrote v us' d₁ d') : Wrote v (us ++ us') d d' where
  sectors := h'.sectors.trans h.sectors
  reserved n hn h1 := (h'.reserved n hn h1).trans (h.reserved n hn h1)
  fsinfo := by rw [h'.fsinfo, h.fsinfo, List.foldl_append]
  mirrored := h'.mirrored ∘ h.mirrored
  top i hi c hc := (h'.top i hi c hc).trans (h.top i hi c hc)

theorem copySector_lt (g : Geometry v d.sectors) {i n : Nat} (hi : i < v.numFats)
    (hn : n < v.sectorsPerFat) :
    v.fatStartLba ≤ copySector v i n ∧ copySector v i n < v.dataStartLba := by
  refine ⟨?_, copy_lt_dataStart g.fatArea hi hn⟩
  unfold copySector
  omega

theorem Wrote.of_data (g : Geometry v d.sectors) (hs : d'.sectors = d.sectors)
    (h : ∀ n < v.dataStartLba, d'.block n = d.block n) : Wrote v [] d d' where
  sectors := hs
  reserved n hn _ := h n (by rw [g.dataStart, ← g.fatStart]; omega)
  fsinfo := h 1 (by rw [g.dataStart]; have := g.reserved; omega)
  mirrored hm i hi n hn := by
    have hfirst := copySector_lt g g.copiesPos hn
    rw [copySector, Nat.zero_mul, Nat.add_zero] at hfirst
    rw [h _ (copySector_lt g hi hn).2, h _ hfirst.2, hm i hi n hn]
  top i hi c hc := by
    unfold topBits
    rw [h _ (copySector_lt g hi (entrySector_lt hc)).2]

/-! One FAT entry, in every copy. -/

theorem maskedEntry_top {value old : Nat} (h : old < 2 ^ 32) :
    maskedEntry value old / 2 ^ 28 = old / 2 ^ 28 := by
  have hlow : (value &&& clusterMask) / 2 ^ 28 = 0 := by
    rw [and_clusterMask]
    omega
  have hmask : 0xF0000000 = 15 <<< 28 := by decide
  rw [maskedEntry, ← Nat.shiftRight_eq_div_pow, Nat.shiftRight_or_distrib,
    Nat.shiftRight_eq_div_pow _ 28, hlow, Nat.zero_or, Nat.shiftRight_and_distrib, hmask,
    Nat.shiftLeft_shiftRight, Nat.shiftRight_eq_div_pow, show (15 : Nat) = 2 ^ 4 - 1 from rfl,
    Nat.and_two_pow_sub_one_eq_mod]
  omega

theorem top_patchEntry {b : Block} {off off' : Nat} (value : Nat) (h : off + 4 ≤ blockSize)
    (hne : off' = off ∨ off' + 4 ≤ off ∨ off + 4 ≤ off') :
    le32 (patchEntry b off value) off' / 2 ^ 28 = le32 b.1 off' / 2 ^ 28 := by
  have hlen : off + (toLe32 (maskedEntry value (le32 b.1 off))).length ≤ b.1.length := by
    rw [length_toLe32, b.2]
    exact h
  by_cases heq : off' = off
  · rw [heq, patchEntry, le32_patch_self (by omega),
      Nat.mod_eq_of_lt (maskedEntry_lt _ _ (le32_lt _ _)), maskedEntry_top (le32_lt _ _)]
  · rw [patchEntry, le32_patch_other hlen (by rw [length_toLe32]; omega)]

theorem writeFatEntry_wrote (g : Geometry v d.sectors) (hc : c < clusterCount v) (value : Nat) :
    Wrote v [] d (exec (writeFatEntry v c value) d).2 := by
  obtain ⟨d', hrun, hsec, hin, hout⟩ := exec_writeFatEntry g.fatArea hc value
  have hk := entrySector_lt hc
  have hreserved := g.reserved
  have hstart := g.fatStart
  have hbefore : ∀ n < v.fatStartLba, d'.block n = d.block n := by
    intro n hn
    refine hout n fun i hi h => ?_
    have := (copySector_lt g hi hk).1
    omega
  have hother : ∀ i < v.numFats, ∀ n < v.sectorsPerFat, n ≠ c * 4 / blockSize →
      d'.block (copySector v i n) = d.block (copySector v i n) := by
    intro i hi n hn hne
    exact hout _ fun j _ h => hne (copySector_inj hn hk h).2
  have hfirst (n : Nat) : v.fatStartLba + n = copySector v 0 n := by
    rw [copySector, Nat.zero_mul, Nat.add_zero]
  rw [hrun]
  refine ⟨hsec, fun n hn _ => hbefore n hn, hbefore 1 (by omega), fun hm i hi n hn => ?_,
    fun i hi x hx => ?_⟩
  · by_cases hne : n = c * 4 / blockSize
    · subst hne
      apply Subtype.ext
      rw [hfirst, hin i hi, hin 0 g.copiesPos, hm i hi _ hn, hfirst]
    · rw [hfirst, hother i hi n hn hne, hother 0 g.copiesPos n hn hne, hm i hi n hn, hfirst]
  · unfold topBits
    by_cases hne : x * 4 / blockSize = c * 4 / blockSize
    · rw [hne, hin i hi]
      refine top_patchEntry value ?_ ?_
      · unfold blockSize
        omega
      · unfold blockSize at hne ⊢
        omega
    · rw [hother i hi _ (entrySector_lt hx) hne]

theorem updateFsinfo_wrote (g : Geometry v d.sectors) (delta : Int) (last : Nat) :
    Wrote v [(delta, last)] d (exec (attempt (updateFsinfo delta last)) d).2 := by
  have hres := g.reserved
  have hstart := g.fatStart
  have hdata := g.dataStart
  have hdev := g.onDevice
  have hother : ∀ n, n ≠ 1 → (d.write 1 (noted (d.block 1) (delta, last))).block n = d.block n :=
    fun n hn =>
    Disk.write_other _ _ hn
  rw [exec_attempt, exec_updateFsinfo (by omega)]
  refine ⟨rfl, fun n _ hn => hother n hn, Disk.write_same _ _ _, fun hm i hi n hn => ?_,
    fun i hi c hc => ?_⟩
  · have hcopy := (copySector_lt g hi hn).1
    rw [hother _ (by omega), hother _ (by omega), hm i hi n hn]
  · have hcopy := (copySector_lt g hi (entrySector_lt hc)).1
    unfold topBits
    rw [hother _ (by omega)]

end Writes

/-! Calls that write behind the FATs only, on whatever disk. -/

def Behind {α : Type} (v : FatFs) (x : FatM α) : Prop :=
  ∀ d, (exec x d).2.sectors = d.sectors ∧ ∀ n < v.dataStartLba, (exec x d).2.block n = d.block n

section Data

variable {α β : Type} {v : FatFs} {c : Nat}

theorem Reads.behind {x : FatM α} (hx : Reads x) : Behind v x := by
  intro d
  rw [hx d]
  exact ⟨rfl, fun _ _ => rfl⟩

theorem Behind.bind_of {x : FatM α} {f : α → FatM β} {P : α → Prop} (hx : Behind v x)
    (hP : ∀ {d d' a}, exec x d = (.ok a, d') → P a) (hf : ∀ a, P a → Behind v (f a)) :
    Behind v (x >>= f) := by
  intro d
  have hd := hx d
  rw [exec_bind]
  rcases hrun : exec x d with ⟨e | a, d'⟩
  · rw [hrun] at hd
    exact hd
  · rw [hrun] at hd
    have hd' := hf a (hP hrun) d'
    exact ⟨hd'.1.trans hd.1, fun n hn => (hd'.2 n hn).trans (hd.2 n hn)⟩

theorem Behind.bind {x : FatM α} {f : α → FatM β} (hx : Behind v x) (hf : ∀ a, Behind v (f a)) :
    Behind v (x >>= f) :=
  hx.bind_of (P := fun _ => True) (fun _ => trivial) fun a _ => hf a

theorem Behind.ite {p : Prop} [Decidable p] {x y : FatM α} (hx : Behind v x) (hy : Behind v y) :
    Behind v (if p then x else y) := by
  split_ifs
  · exact hx
  · exact hy

theorem Behind.pure (a : α) : Behind v (pure a) := Reads.behind (.pure a)

theorem Behind.throw (f : Fault) : Behind v (throw f : FatM α) := Reads.behind (.throw f)

theorem writeBlock_behind {lba : Nat} (h : v.dataStartLba ≤ lba) (buf : Bytes) :
    Behind v (writeBlock lba buf) := by
  intro d
  by_cases hdev : lba < d.sectors
  · change (exec (if lba < d.sectors then _ else _) d).2.sectors = _ ∧
      ∀ n < v.dataStartLba, (exec (if lba < d.sectors then _ else _) d).2.block n = _
    rw [if_pos hdev]
    split_ifs with hlen
    · exact ⟨rfl, fun n hn => Disk.write_other d _ (by omega)⟩
    · exact ⟨rfl, fun _ _ => rfl⟩
  · rw [exec_writeBlock_past hdev]
    exact ⟨rfl, fun _ _ => rfl⟩

def Addressable (v : FatFs) (c : Nat) : Prop := 2 ≤ c ∧ clusterLba v c < 2 ^ 32

instance (v : FatFs) (c : Nat) : Decidable (Addressable v c) := inferInstanceAs (Decidable (_ ∧ _))

theorem clusterToLba_eq_ite (v : FatFs) (c : Nat) :
    clusterToLba v c = if Addressable v c then pure (clusterLba v c) else throw .panic := by
  unfold clusterToLba
  by_cases hc : 2 ≤ c
  · rw [subU32_eq hc, pure_bind]
    by_cases hlba : clusterLba v c < 2 ^ 32
    · have hmul : (c - 2) * v.sectorsPerCluster < 2 ^ 32 :=
        Nat.lt_of_le_of_lt (Nat.le_add_left _ _) hlba
      rw [mulU32_eq hmul, pure_bind, if_pos ⟨hc, hlba⟩]
      exact addU32_eq hlba
    · rw [if_neg fun h => hlba h.2]
      by_cases hmul : (c - 2) * v.sectorsPerCluster < 2 ^ 32
      · rw [mulU32_eq hmul, pure_bind]
        exact if_neg hlba
      · rw [mulU32, if_neg hmul]
        rfl
  · rw [subU32, if_neg hc, if_neg fun h => hc h.1]
    rfl

theorem clusterToLba_ge {d d' : Disk} {lba : Nat} (h : exec (clusterToLba v c) d = (.ok lba, d')) :
    v.dataStartLba ≤ lba := by
  rw [clusterToLba_eq_ite] at h
  split_ifs at h
  · cases h
    exact dataStart_le_clusterLba c
  · cases h

theorem writeSectors_behind {lba : Nat} (h : v.dataStartLba ≤ lba) (data : Bytes)
    (secs : List Nat) :
    Behind v (writeSectors lba data secs) := by
  induction secs with
  | nil => exact .pure ()
  | cons sec secs ih =>
    exact (writeBlock_behind (h.trans (Nat.le_add_right _ _)) _).bind fun _ => ih

theorem writeCluster_behind (c : Nat) (data : Bytes) : Behind v (writeCluster v c data) :=
  (Reads.behind (clusterToLba_reads v c)).bind_of clusterToLba_ge fun _ h =>
    writeSectors_behind h _ _

theorem writeChainLoop_behind (fuel c : Nat) (rest : Bytes) :
    Behind v (writeChainLoop v fuel c rest) := by
  induction fuel generalizing c rest with
  | zero => exact .pure ()
  | succ fuel ih =>
    refine .ite ((writeCluster_behind c _).bind fun _ => ?_) (.pure ())
    exact .ite (.pure ()) ((Reads.behind (nextCluster_reads v c)).bind fun _ => ih _ _)

theorem addInSectors_behind {lba : Nat} (h : v.dataStartLba ≤ lba) (entry : Bytes)
    (secs : List Nat) :
    Behind v (addInSectors lba entry secs) := by
  induction secs with
  | nil => exact .pure _
  | cons sec secs ih =>
    refine (Reads.behind (readBlock_reads _)).bind fun buf => ?_
    cases freeSlot buf with
    | none => exact ih
    | some off => exact (writeBlock_behind (h.trans (Nat.le_add_right _ _)) _).bind fun _ => .pure _

theorem deleteInSectors_behind {lba : Nat} (h : v.dataStartLba ≤ lba) (name : Str)
    (secs : List Nat) :
    Behind v (deleteInSectors lba name secs) := by
  induction secs with
  | nil => exact .pure _
  | cons sec secs ih =>
    refine (Reads.behind (readBlock_reads _)).bind fun buf => ?_
    cases scanBlock buf name ((List.range (blockSize / 32)).map (· * 32)) with
    | endOfDir => exact .pure _
    | missing => exact ih
    | found off =>
      exact (writeBlock_behind (h.trans (Nat.le_add_right _ _)) _).bind fun _ => .pure _

theorem deleteDirEntry_behind (c : Nat) (name : Str) : Behind v (deleteDirEntry v c name) := by
  unfold deleteDirEntry
  generalize chainFuel = fuel
  induction fuel generalizing c with
  | zero => exact .throw _
  | succ fuel ih =>
    refine (Reads.behind (clusterToLba_reads v c)).bind_of clusterToLba_ge fun lba h => ?_
    refine (deleteInSectors_behind h name _).bind fun found => .ite (.pure ()) ?_
    exact (Reads.behind (nextCluster_reads v c)).bind fun _ => .ite (.throw _) (ih _)

theorem Behind.wrote {x : FatM α} (hx : Behind v x) {d : Disk} (g : Geometry v d.sectors) :
    Wrote v [] d (exec x d).2 :=
  .of_data g (hx d).1 (hx d).2

theorem Behind.fat {x : FatM α} (hx : Behind v x) {d : Disk} (g : Geometry v d.sectors) :
    (view v (exec x d).2).fat = (view v d).fat := by
  funext c
  by_cases hc : c < clusterCount v
  · have hlt := firstFat_lt_dataStart g.fatArea hc
    rw [view_fat _ hc, view_fat _ hc, fatValue, fatValue, (hx d).2 _ hlt]
  · simp [view, hc]

end Data

/-! Calls that write no update to the FSInfo sector. -/

def Tame {α : Type} (v : FatFs) (x : FatM α) : Prop :=
  ∀ d, Geometry v d.sectors → Wrote v [] d (exec x d).2

section Taming

variable {α β : Type} {v : FatFs} {c : Nat}

theorem Behind.tame {x : FatM α} (hx : Behind v x) : Tame v x := fun _ g => hx.wrote g

theorem Tame.bind_of {x : FatM α} {f : α → FatM β} {P : α → Prop} (hx : Tame v x)
    (hP : ∀ {d d' a}, Geometry v d.sectors → exec x d = (.ok a, d') → P a)
    (hf : ∀ a, P a → Tame v (f a)) :
    Tame v (x >>= f) := by
  intro d g
  have hd := hx d g
  rw [exec_bind]
  rcases hrun : exec x d with ⟨e | a, d'⟩
  · rw [hrun] at hd
    exact hd
  · rw [hrun] at hd
    have g' : Geometry v d'.sectors := by rwa [hd.sectors]
    exact hd.trans (hf a (hP g hrun) d' g')

theorem Tame.bind {x : FatM α} {f : α → FatM β} (hx : Tame v x) (hf : ∀ a, Tame v (f a)) :
    Tame v (x >>= f) :=
  hx.bind_of (P := fun _ => True) (fun _ _ => trivial) fun a _ => hf a

theorem findFreeCluster_inFat {d d' : Disk} (g : Geometry v d.sectors)
    (h : exec (findFreeCluster v) d = (.ok c, d')) : InFat v c := by
  obtain ⟨hr, -⟩ := (findFreeCluster_runs (w := view v d) g).exec_eq h
  cases hfree : freeClusters v (view v d) with
  | nil =>
    rw [hfree] at hr
    cases hr
  | cons x rest =>
    rw [hfree] at hr
    cases hr
    exact (freeClusters_head hfree).1

theorem writeFatEntry_tame (hc : c < clusterCount v) (value : Nat) :
    Tame v (writeFatEntry v c value) :=
  fun _ g => writeFatEntry_wrote g hc value

theorem allocateLoop_tame (n head : Nat) {prev : Nat} (last : Nat)
    (hprev : prev ≠ 0 → prev < clusterCount v) :
    Tame v (allocateLoop v n head prev last) := by
  induction n generalizing head prev last with
  | zero => exact (Behind.pure _).tame
  | succ n ih =>
    refine (Reads.behind (findFreeCluster_reads v)).tame.bind_of findFreeCluster_inFat
      fun c hc => ?_
    refine (writeFatEntry_tame hc.2 _).bind fun _ => (writeCluster_behind c _).tame.bind fun _ => ?_
    split_ifs with hp
    · exact ih _ _ fun _ => hc.2
    · exact (writeFatEntry_tame (hprev hp) _).bind fun _ => ih _ _ fun _ => hc.2

end Taming

end Willo.Fat
