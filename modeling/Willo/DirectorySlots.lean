import Willo.ClusterChains

/-! The 32-byte slots of a directory chain, and the two searches through them.
Adding an entry takes the first slot that is unused or deleted and grows the
chain by one zeroed cluster when there is none; deleting marks the first slot
that carries the name. Both walk sector by sector; here they become one search
for the first slot of the chain with a property. -/

namespace Willo.Fat
open Text ByteCodec BlockDevice FaultState LinkedChain

def vacant (s : Bytes) : Bool := byteAt s 0 == 0x00 || byteAt s 0 == 0xE5

def hit (name : Str) (s : Bytes) : Bool :=
  byteAt s 0 != 0x00 && !skipped s && eqIgnoreAsciiCase (decodeShortName s) name

/-- Where the scan for a name ends. -/
def stops (name : Str) (s : Bytes) : Bool := byteAt s 0 == 0x00 || hit name s

def deleted (s : Bytes) : Bytes := patch s 0 [0xE5]

def slots (w : View) (cs : List Nat) : List Bytes := cs.flatMap fun c => chunksExact 32 (w.data c)

@[simp] theorem slots_nil (w : View) : slots w [] = [] := rfl

@[simp] theorem slots_cons (w : View) (c : Nat) (cs : List Nat) :
    slots w (c :: cs) = chunksExact 32 (w.data c) ++ slots w cs := rfl

theorem slots_append (w : View) (as bs : List Nat) :
    slots w (as ++ bs) = slots w as ++ slots w bs :=
  List.flatMap_append

theorem slots_congr {w w' : View} {cs : List Nat} (h : ∀ c ∈ cs, w'.data c = w.data c) :
    slots w' cs = slots w cs :=
  List.flatMap_congr fun c hc => by rw [h c hc]

/-! One search for both loops over the sectors of a cluster. -/

def searchSectors (p : Bytes → Bool) (act : Nat → Bytes → Nat → FatM Unit) (lba : Nat) :
    List Nat → FatM Bool
  | [] => pure false
  | sec :: secs => do
    let buf ← readBlock (lba + sec)
    match (List.range 16).find? fun o => p (slice buf (32 * o) 32) with
    | some o => do
      act (lba + sec) buf (32 * o)
      pure true
    | none => searchSectors p act lba secs

theorem byteAt_slot (buf : Bytes) (off : Nat) : byteAt (slice buf off 32) 0 = byteAt buf off :=
  byteAt_slice (by decide)

theorem freeSlot_eq (buf : Bytes) :
    freeSlot buf = ((List.range 16).find? fun o =>
      vacant (slice buf (32 * o) 32)).map (32 * ·) := by
  have hfun : (fun o => vacant (slice buf (32 * o) 32)) =
      (fun off => byteAt buf off == 0x00 || byteAt buf off == 0xE5) ∘ fun o => o * 32 := by
    funext o
    simp only [vacant, byteAt_slot, Function.comp_apply, Nat.mul_comm]
  rw [freeSlot, List.find?_map, hfun]
  congr 1
  funext o
  exact Nat.mul_comm o 32

theorem addInSectors_eq (lba : Nat) (entry : Bytes) (secs : List Nat) :
    addInSectors lba entry secs =
      searchSectors vacant (fun n buf off => writeBlock n (patch buf off entry)) lba secs := by
  induction secs with
  | nil => rfl
  | cons sec secs ih =>
    rw [addInSectors, searchSectors, ih]
    congr 1
    funext buf
    rw [freeSlot_eq]
    cases (List.range 16).find? fun o => vacant (slice buf (32 * o) 32) <;> rfl

theorem scanBlock_eq (buf : Bytes) (name : Str) (offs : List Nat) :
    scanBlock buf name offs =
      match offs.find? fun off => stops name (slice buf off 32) with
      | none => .missing
      | some off => if byteAt (slice buf off 32) 0 = 0x00 then .endOfDir else .found off := by
  induction offs with
  | nil => rfl
  | cons off offs ih =>
    by_cases hz : byteAt (slice buf off 32) 0 = 0x00
    · simp [scanBlock, hz, stops]
    · by_cases hs : skipped (slice buf off 32)
      · simp [scanBlock, hz, hs, stops, hit, ih]
      · by_cases he : eqIgnoreAsciiCase (decodeShortName (slice buf off 32)) name
        · rw [scanBlock, List.find?_cons_of_pos (by simp [stops, hit, hz, hs, he])]
          simp [hz, hs, he]
        · rw [scanBlock, List.find?_cons_of_neg (by simp [stops, hit, hz, hs, he]), ← ih]
          simp [hz, hs, he]

/-- Deleting at a stop: nothing at the end marker, the deletion mark otherwise. -/
def deleteAt (n : Nat) (buf : Bytes) (off : Nat) : FatM Unit :=
  if byteAt (slice buf off 32) 0 = 0x00 then pure () else writeBlock n (patch buf off [0xE5])

theorem deleteInSectors_eq (lba : Nat) (name : Str) (secs : List Nat) :
    deleteInSectors lba name secs = searchSectors (stops name) deleteAt lba secs := by
  induction secs with
  | nil => rfl
  | cons sec secs ih =>
    rw [deleteInSectors, searchSectors, ih]
    congr 1
    funext buf
    rw [scanBlock_eq, List.find?_map]
    have hfun : (fun off => stops name (slice buf off 32)) ∘ (fun o => o * 32) =
        fun o => stops name (slice buf (32 * o) 32) := by
      funext o
      simp only [Function.comp_apply, Nat.mul_comm]
    rw [show blockSize / 32 = 16 from rfl, hfun]
    cases (List.range 16).find? fun o => stops name (slice buf (32 * o) 32) with
    | none => rfl
    | some o =>
      simp only [Option.map_some, Nat.mul_comm o 32, deleteAt]
      split_ifs
      · rfl
      · rfl

/-! The slots on the disk. -/

def sectorPlaces (lba : Nat) (secs : List Nat) : List (Nat × Nat) :=
  secs.flatMap fun sec => (List.range 16).map fun o => (lba + sec, 32 * o)

def clusterPlaces (v : FatFs) (c : Nat) : List (Nat × Nat) :=
  sectorPlaces (clusterLba v c) (List.range v.sectorsPerCluster)

def slotOn (d : Disk) (q : Nat × Nat) : Bytes := slice (d.block q.1).1 q.2 32

section Places

variable {v : FatFs} {d : Disk} {c i lba : Nat} {l : List (Nat × Nat)} {p : Bytes → Bool}
  {act : Nat → Bytes → Nat → FatM Unit}

theorem exists_place (h : (l.map (slotOn d)).findIdx? p = some i) :
    ∃ q, l[i]? = some q ∧ l.find? (fun q => p (slotOn d q)) = some q := by
  rw [List.findIdx?_map] at h
  obtain ⟨hi, hp, hfirst⟩ := List.findIdx?_eq_some_iff_getElem.mp h
  refine ⟨_, List.getElem?_eq_getElem hi,
    List.find?_eq_some_iff_getElem.mpr ⟨hp, i, hi, rfl, fun j hj => ?_⟩⟩
  simpa using hfirst j hj

theorem no_place (h : (l.map (slotOn d)).findIdx? p = none) :
    l.find? (fun q => p (slotOn d q)) = none := by
  rw [List.findIdx?_map, List.findIdx?_eq_none_iff] at h
  exact List.find?_eq_none.mpr fun q hq => by simpa using h q hq

theorem length_clusterPlaces (v : FatFs) (c : Nat) :
    (clusterPlaces v c).length = 16 * v.sectorsPerCluster := by
  simp [clusterPlaces, sectorPlaces, Nat.mul_comm]

theorem getElem?_clusterPlaces (hi : i < 16 * v.sectorsPerCluster) :
    (clusterPlaces v c)[i]? = some (clusterLba v c + i / 16, 32 * (i % 16)) := by
  rw [clusterPlaces, sectorPlaces, getElem?_flatMap_range (n := 16) (by simp) (by omega),
    List.getElem?_map, List.getElem?_range (Nat.mod_lt i (by decide)), Option.map_some]

theorem chunksExact_clusterData (v : FatFs) (d : Disk) (c : Nat) :
    chunksExact 32 (clusterData v d c) = (clusterPlaces v c).map (slotOn d) := by
  have hblock : ∀ b : Block, chunksExact 32 b.1 = (List.range 16).map fun o =>
    slice b.1 (32 * o) 32 := by
    intro b
    rw [chunksExact, b.2]
    rfl
  have hcut : chunksExact 32 (clusterData v d c) =
      (List.range v.sectorsPerCluster).flatMap fun k =>
        chunksExact 32 (d.block (clusterLba v c + k)).1 :=
    chunksExact_flatMap (k := 16) (by decide) fun k _ => (d.block (clusterLba v c + k)).2
  rw [hcut, clusterPlaces, sectorPlaces, List.map_flatMap]
  refine List.flatMap_congr fun k _ => ?_
  rw [hblock, List.map_map]
  rfl

theorem exec_searchSectors {secs : List Nat} (hdev : ∀ sec ∈ secs, lba + sec < d.sectors) :
    exec (searchSectors p act lba secs) d =
      exec (((sectorPlaces lba secs).find? fun q => p (slotOn d q)).elim (pure false) fun q => do
        act q.1 (d.block q.1).1 q.2
        pure true) d := by
  induction secs with
  | nil => rfl
  | cons sec secs ih =>
    have hsplit : sectorPlaces lba (sec :: secs) =
        ((List.range 16).map fun o => (lba + sec, 32 * o)) ++ sectorPlaces lba secs := rfl
    rw [searchSectors, exec_bind_ok (exec_readBlock (hdev sec (by simp))), hsplit,
      List.find?_append, List.find?_map]
    have hfun : ((fun q => p (slotOn d q)) ∘ fun o => (lba + sec, 32 * o)) =
        fun o => p (slice (d.block (lba + sec)).1 (32 * o) 32) := rfl
    rw [hfun]
    cases (List.range 16).find? fun o => p (slice (d.block (lba + sec)).1 (32 * o) 32) with
    | none => exact ih fun s hs => hdev s (by simp [hs])
    | some o => rfl

theorem exec_searchCluster (hfit : clusterLba v c + v.sectorsPerCluster ≤ d.sectors) :
    exec (searchSectors p act (clusterLba v c) (List.range v.sectorsPerCluster)) d =
      exec (((clusterPlaces v c).find? fun q => p (slotOn d q)).elim (pure false) fun q => do
        act q.1 (d.block q.1).1 q.2
        pure true) d := by
  refine exec_searchSectors fun sec hsec => ?_
  have hlt := List.mem_range.mp hsec
  omega

end Places

section Search

variable {v : FatFs} {w w' : View} {c i : Nat} {p : Bytes → Bool}
  {act : Nat → Bytes → Nat → FatM Unit}

def slotAt (d : Disk) (lba i : Nat) : Bytes := slice (d.block (lba + i / 16)).1 (32 * (i % 16)) 32

theorem length_slots_cluster (hw : Shown v w) (g : Geometry v w.sectors) (hc : InFat v c) :
    (chunksExact 32 (w.data c)).length = 16 * v.sectorsPerCluster := by
  rw [length_chunksExact, hw.length_data g hc, clusterBytes, g.sectorSize, blockSize]
  omega

theorem slotAt_eq (hc : InFat v c) {d : Disk} (hd : view v d = w)
    (hi : i < (chunksExact 32 (w.data c)).length) :
    (chunksExact 32 (w.data c))[i] = slotAt d (clusterLba v c) i := by
  subst hd
  simp only [view_data d hc, chunksExact_clusterData, List.length_map, length_clusterPlaces] at hi ⊢
  rw [List.getElem_map, (List.getElem?_eq_some_iff.mp (getElem?_clusterPlaces hi)).2]
  rfl

theorem searchSectors_none (act : Nat → Bytes → Nat → FatM Unit) (hc : InFat v c) (hf : Fits v w c)
    (h : (chunksExact 32 (w.data c)).findIdx? p = none) :
    Runs v (searchSectors p act (clusterLba v c) (List.range v.sectorsPerCluster)) w
      (.ok false) w := by
  rintro d rfl
  rw [view_data d hc, chunksExact_clusterData] at h
  exact ⟨d, by rw [exec_searchCluster hf, no_place h, Option.elim_none, exec_pure], rfl⟩

theorem searchSectors_some (hc : InFat v c) (hf : Fits v w c)
    (h : (chunksExact 32 (w.data c)).findIdx? p = some i)
    (hact : ∀ d, view v d = w → ∃ d', exec (act (clusterLba v c + i / 16)
      (d.block (clusterLba v c + i / 16)).1 (32 * (i % 16))) d = (.ok (), d') ∧ view v d' = w') :
    Runs v (searchSectors p act (clusterLba v c) (List.range v.sectorsPerCluster)) w
      (.ok true) w' := by
  rintro d rfl
  rw [view_data d hc, chunksExact_clusterData] at h
  obtain ⟨q, hq, hfind⟩ := exists_place h
  have hi : i < 16 * v.sectorsPerCluster := by
    rw [← length_clusterPlaces v c]
    exact (List.getElem?_eq_some_iff.mp hq).1
  rw [getElem?_clusterPlaces hi] at hq
  obtain rfl := Option.some.inj hq
  obtain ⟨d', hrun, hview⟩ := hact d rfl
  exact ⟨d', by rw [exec_searchCluster hf, hfind, Option.elim_some, exec_bind_ok hrun,
    exec_pure], hview⟩

theorem exec_patchSlot (g : Geometry v w.sectors) (hc : InFat v c) (hf : Fits v w c) {bs : Bytes}
    (hi : i < (chunksExact 32 (w.data c)).length) (hbs : bs.length ≤ 32) {d : Disk}
    (hd : view v d = w) :
    ∃ d', exec (writeBlock (clusterLba v c + i / 16)
        (patch (d.block (clusterLba v c + i / 16)).1 (32 * (i % 16)) bs)) d = (.ok (), d') ∧
      view v d' = w.setData c (patch (w.data c) (32 * i) bs) := by
  have hlen := length_slots_cluster ⟨d, hd⟩ g hc
  subst hd
  have hdev : clusterLba v c + v.sectorsPerCluster ≤ d.sectors := hf
  have hoff : 32 * (i % 16) + bs.length ≤ blockSize := by
    unfold blockSize
    omega
  have hinside : 32 * (i % 16) + bs.length ≤ (d.block (clusterLba v c + i / 16)).1.length := by
    rwa [(d.block (clusterLba v c + i / 16)).2]
  obtain ⟨d', hrun, hover⟩ :=
    exec_overwrite (show clusterLba v c + i / 16 < d.sectors by omega) hoff
  refine ⟨d', hrun, ?_⟩
  rw [view_setData g hc hover.sectors fun n hn => hover.others n (hn (i / 16) (by omega)),
    view_data d hc]
  congr 1
  have hfit : 32 * i + bs.length ≤ (clusterData v d c).length := by
    rw [length_clusterData, blockSize]
    omega
  apply bytes_ext
  · rw [length_clusterData, length_patch hfit, length_clusterData]
  · intro x hx
    rw [length_clusterData] at hx
    rw [byteAt_clusterData _ hx, byteAt_patch hfit, byteAt_clusterData d hx]
    have hdiv : x / blockSize = x / 512 := rfl
    have hmod : x % blockSize = x % 512 := rfl
    by_cases hs : x / blockSize = i / 16
    · rw [hs, hover.block, byteAt_patch hinside]
      refine if_congr (by omega) ?_ rfl
      congr 1
      omega
    · rw [hover.others _ (by omega), if_neg (by omega)]

theorem addInSectors_some (g : Geometry v w.sectors) (hc : InFat v c) (hf : Fits v w c)
    (h : (chunksExact 32 (w.data c)).findIdx? vacant = some i) {entry : Bytes}
    (he : entry.length = 32) :
    Runs v (addInSectors (clusterLba v c) entry (List.range v.sectorsPerCluster)) w (.ok true)
      (w.setData c (patch (w.data c) (32 * i) entry)) := by
  have hi := (List.findIdx?_eq_some_iff_getElem.mp h).1
  rw [addInSectors_eq]
  exact searchSectors_some hc hf h fun d hd => exec_patchSlot g hc hf hi he.le hd

theorem deleteInSectors_some (g : Geometry v w.sectors) (hc : InFat v c) (hf : Fits v w c)
    {name : Str} (h : (chunksExact 32 (w.data c)).findIdx? (stops name) = some i)
    (hhit : ∀ s, (chunksExact 32 (w.data c))[i]? = some s → hit name s) :
    Runs v (deleteInSectors (clusterLba v c) name (List.range v.sectorsPerCluster)) w (.ok true)
      (w.setData c (patch (w.data c) (32 * i) [0xE5])) := by
  have hi := (List.findIdx?_eq_some_iff_getElem.mp h).1
  have hslot := hhit _ (List.getElem?_eq_getElem hi)
  rw [deleteInSectors_eq]
  refine searchSectors_some hc hf h fun d hd => ?_
  have hne : byteAt (slice (d.block (clusterLba v c + i / 16)).1 (32 * (i % 16)) 32) 0 ≠ 0x00 := by
    rw [slotAt_eq hc hd hi] at hslot
    simp only [hit, Bool.and_eq_true, bne_iff_ne] at hslot
    exact hslot.1.1
  rw [deleteAt, if_neg hne]
  exact exec_patchSlot g hc hf hi (by decide) hd

end Search

/-! The searches along a chain. -/

section Chains

variable {v : FatFs} {w w' : View} {c i : Nat} {cs : List Nat}

theorem slots_setData_of_notMem {a : Nat} (b : Bytes) (ha : a ∉ cs) :
    slots (w.setData a b) cs = slots w cs :=
  slots_congr fun _ hc => View.setData_data_of_ne _ _ _ _ fun h => ha (h ▸ hc)

theorem slots_patch_head {a : Nat} {bs : Bytes} (ha : a ∉ cs)
    (hi : i < (chunksExact 32 (w.data a)).length) (hbs : bs.length ≤ 32) {s : Bytes}
    (hs : (chunksExact 32 (w.data a))[i]? = some s) :
    slots (w.setData a (patch (w.data a) (32 * i) bs)) (a :: cs) =
      (slots w (a :: cs)).set i (patch s 0 bs) := by
  have hslot : slice (w.data a) (32 * i) 32 = s := by
    rw [List.getElem?_eq_getElem hi, getElem_chunksExact] at hs
    exact Option.some.inj hs
  rw [length_chunksExact] at hi
  have hpatch := chunksExact_patch (o := 0) hi (by rwa [Nat.zero_add])
  rw [Nat.add_zero, hslot] at hpatch
  rw [slots_cons, slots_cons, View.setData_data_self, slots_setData_of_notMem _ ha, hpatch,
    List.set_append_left _ _ (by rwa [length_chunksExact])]

theorem findIdx?_slots_cons {p : Bytes → Bool} {a : Nat}
    (h : (slots w (a :: cs)).findIdx? p = some i) :
    (chunksExact 32 (w.data a)).findIdx? p = some i ∨
      (chunksExact 32 (w.data a)).findIdx? p = none ∧
        ∃ j, (slots w cs).findIdx? p = some j ∧ i = (chunksExact 32 (w.data a)).length + j := by
  rw [slots_cons, List.findIdx?_append] at h
  cases hfirst : (chunksExact 32 (w.data a)).findIdx? p with
  | some k =>
    rw [hfirst, Option.some_or] at h
    exact Or.inl h
  | none =>
    rw [hfirst, Option.none_or, Option.map_eq_some_iff] at h
    obtain ⟨j, hj, rfl⟩ := h
    exact Or.inr ⟨rfl, j, hj, Nat.add_comm _ _⟩

theorem deleteDirEntryLoop_runs (g : Geometry v w.sectors) (h : Chain v w c cs)
    (hf : ∀ x ∈ cs, Fits v w x) {name : Str} {s : Bytes} {fuel : Nat} (hfuel : cs.length ≤ fuel)
    (hi : (slots w cs).findIdx? (stops name) = some i) (hs : (slots w cs)[i]? = some s)
    (hhit : hit name s) :
    ∃ a ∈ cs, ∃ b, Runs v (deleteDirEntryLoop v name fuel c) w (.ok ()) (w.setData a b) ∧
      slots (w.setData a b) cs = (slots w cs).set i (deleted s) := by
  induction cs generalizing c i fuel with
  | nil => simp at hi
  | cons a cs ih =>
    have hnodup := List.nodup_cons.mp (h.nodup g)
    obtain ⟨n, rfl⟩ : ∃ n, fuel = n + 1 := ⟨fuel - 1, by rw [List.length_cons] at hfuel; omega⟩
    cases h with
    | link hin htail =>
      rw [deleteDirEntryLoop, clusterToLba_eq g hin, pure_bind]
      rcases findIdx?_slots_cons hi with hfirst | ⟨hnone, j, hj, rfl⟩
      · have hlt := (List.findIdx?_eq_some_iff_getElem.mp hfirst).1
        rw [slots_cons, List.getElem?_append_left hlt] at hs
        refine ⟨a, by simp, patch (w.data a) (32 * i) [0xE5], ?_, ?_⟩
        · refine (deleteInSectors_some g hin (hf a (by simp)) hfirst fun t ht => ?_).bind ?_
          · rw [hs] at ht
            rwa [← Option.some.inj ht]
          · exact .pure ()
        · exact slots_patch_head hnodup.1 hlt (by decide) hs
      · rw [slots_cons, List.getElem?_append_right (Nat.le_add_right _ _),
          Nat.add_sub_cancel_left] at hs
        have hle : cs.length ≤ n := by
          rw [List.length_cons] at hfuel
          omega
        obtain ⟨x, hx, b, hrun, hslots⟩ := ih htail (fun y hy => hf y (by simp [hy])) hle hj hs
        have hax : x ≠ a := fun h => hnodup.1 (h ▸ hx)
        refine ⟨x, by simp [hx], b, ?_, ?_⟩
        · have hsearch := searchSectors_none deleteAt hin (hf a (by simp)) hnone
          rw [← deleteInSectors_eq] at hsearch
          refine hsearch.bind ((nextCluster_runs g hin.2).bind ?_)
          have hinside : InFat v (w.fat a) := by
            cases htail with
            | stop _ => simp at hj
            | link hin' _ => exact hin'
          have := hinside.lt_eoc g
          have := hinside.1
          rw [if_neg (by omega)]
          exact hrun
        · rw [slots_cons, slots_cons, View.setData_data_of_ne _ _ _ _ hax.symm, hslots,
            List.set_append_right _ _ (Nat.le_add_right _ _), Nat.add_sub_cancel_left]

theorem deleteDirEntry_runs (g : Geometry v w.sectors) (h : Chain v w c cs)
    (hf : ∀ x ∈ cs, Fits v w x) {name : Str} {s : Bytes}
    (hi : (slots w cs).findIdx? (stops name) = some i) (hs : (slots w cs)[i]? = some s)
    (hhit : hit name s) :
    ∃ a ∈ cs, ∃ b, Runs v (deleteDirEntry v c name) w (.ok ()) (w.setData a b) ∧
      slots (w.setData a b) cs = (slots w cs).set i (deleted s) :=
  deleteDirEntryLoop_runs g h hf (h.length_lt g).le hi hs hhit

theorem length_of_mem_slots {s : Bytes} (h : s ∈ slots w cs) : s.length = 32 := by
  obtain ⟨c, -, hs⟩ := List.mem_flatMap.mp h
  obtain ⟨i, hi, rfl⟩ := List.getElem_of_mem hs
  rw [getElem_chunksExact, length_slice (chunk_le (by rwa [length_chunksExact] at hi))]

variable {entry : Bytes}

theorem addDirEntryLoop_skip (g : Geometry v w.sectors) {a n : Nat} {r : Except Fault Unit}
    (hin : InFat v a) (hf : Fits v w a) (hnext : InFat v (w.fat a))
    (hnone : (chunksExact 32 (w.data a)).findIdx? vacant = none)
    (hrun : Runs v (addDirEntryLoop v entry n (w.fat a)) w r w') :
    Runs v (addDirEntryLoop v entry (n + 1) a) w r w' := by
  have hsearch := searchSectors_none (fun n buf off =>
    writeBlock n (patch buf off entry)) hin hf hnone
  rw [← addInSectors_eq] at hsearch
  rw [addDirEntryLoop, clusterToLba_eq g hin, pure_bind]
  refine hsearch.bind ((nextCluster_runs g hin.2).bind ?_)
  have := hnext.lt_eoc g
  have := hnext.1
  rw [if_neg (by omega)]
  exact hrun

theorem addDirEntryLoop_slot (g : Geometry v w.sectors) (h : Chain v w c cs)
    (hf : ∀ x ∈ cs, Fits v w x) {fuel : Nat} (hfuel : cs.length ≤ fuel) (he : entry.length = 32)
    (hi : (slots w cs).findIdx? vacant = some i) :
    ∃ a ∈ cs, ∃ b, Runs v (addDirEntryLoop v entry fuel c) w (.ok ()) (w.setData a b) ∧
      slots (w.setData a b) cs = (slots w cs).set i entry := by
  induction cs generalizing c i fuel with
  | nil => simp at hi
  | cons a cs ih =>
    have hnodup := List.nodup_cons.mp (h.nodup g)
    obtain ⟨n, rfl⟩ : ∃ n, fuel = n + 1 := ⟨fuel - 1, by rw [List.length_cons] at hfuel; omega⟩
    cases h with
    | link hin htail =>
      rcases findIdx?_slots_cons hi with hfirst | ⟨hnone, j, hj, rfl⟩
      · have hlt := (List.findIdx?_eq_some_iff_getElem.mp hfirst).1
        have hs := List.getElem?_eq_getElem hlt
        have hmem : (chunksExact 32 (w.data a))[i] ∈ slots w [a] := by simp [slots]
        have hlen := length_of_mem_slots hmem
        refine ⟨a, by simp, patch (w.data a) (32 * i) entry, ?_, ?_⟩
        · rw [addDirEntryLoop, clusterToLba_eq g hin, pure_bind]
          exact (addInSectors_some g hin (hf a (by simp)) hfirst he).bind (.pure ())
        · rw [slots_patch_head hnodup.1 hlt he.le hs, patch_self (by rw [he, hlen])]
      · have hle : cs.length ≤ n := by
          rw [List.length_cons] at hfuel
          omega
        obtain ⟨x, hx, b, hrun, hslots⟩ := ih htail (fun y hy => hf y (by simp [hy])) hle hj
        have hax : x ≠ a := fun h => hnodup.1 (h ▸ hx)
        have hinside : InFat v (w.fat a) := by
          cases htail with
          | stop _ => simp at hj
          | link hin' _ => exact hin'
        refine ⟨x, by simp [hx], b, addDirEntryLoop_skip g hin (hf a
          (by simp)) hinside hnone hrun, ?_⟩
        rw [slots_cons, slots_cons, View.setData_data_of_ne _ _ _ _ hax.symm, hslots,
          List.set_append_right _ _ (Nat.le_add_right _ _), Nat.add_sub_cancel_left]

theorem addDirEntryLoop_reach (g : Geometry v w.sectors) {z m : Nat} {r : Except Fault Unit}
    (h : Chain v w c (cs ++ [z])) (hf : ∀ x ∈ cs, Fits v w x)
    (hnone : (slots w cs).findIdx? vacant = none)
    (hlast : Runs v (addDirEntryLoop v entry m z) w r w') :
    Runs v (addDirEntryLoop v entry (cs.length + m) c) w r w' := by
  induction cs generalizing c with
  | nil =>
    cases h with
    | link _ _ => rwa [List.length_nil, Nat.zero_add]
  | cons a cs ih =>
    rw [slots_cons, List.findIdx?_append, Option.or_eq_none_iff, Option.map_eq_none_iff] at hnone
    cases h with
    | link hin htail =>
      have hinside : InFat v (w.fat a) := by
        cases cs with
        | nil => cases htail with | link hin' _ => exact hin'
        | cons b cs => cases htail with | link hin' _ => exact hin'
      rw [List.length_cons, show cs.length + 1 + m = cs.length + m + 1 by omega]
      exact addDirEntryLoop_skip g hin (hf a (by simp)) hinside hnone.1
        (ih htail (fun x hx => hf x (by simp [hx])) hnone.2)

/-- What the loop does behind the last cluster: one more cluster, then the entry in it. -/
def growDir (v : FatFs) (entry : Bytes) (fuel z : Nat) : FatM Unit := do
  let newCluster ← findFreeCluster v
  writeFatEntry v newCluster endOfChain
  zeroCluster v newCluster
  writeFatEntry v z newCluster
  let _ ← attempt (updateFsinfo (-1) newCluster)
  addDirEntryLoop v entry fuel newCluster

theorem addDirEntryLoop_atEnd (g : Geometry v w.sectors) {z n : Nat} {r : Except Fault Unit}
    (hin : InFat v z) (hf : Fits v w z) (hend : eocThreshold ≤ w.fat z)
    (hnone : (chunksExact 32 (w.data z)).findIdx? vacant = none)
    (hrun : Runs v (growDir v entry n z) w r w') :
    Runs v (addDirEntryLoop v entry (n + 1) z) w r w' := by
  have hsearch := searchSectors_none (fun n buf off =>
    writeBlock n (patch buf off entry)) hin hf hnone
  rw [← addInSectors_eq] at hsearch
  rw [addDirEntryLoop, clusterToLba_eq g hin, pure_bind]
  refine hsearch.bind ((nextCluster_runs g hin.2).bind ?_)
  rw [if_pos (Or.inr hend)]
  exact hrun

theorem vacant_zeros (g : Geometry v w.sectors) :
    (chunksExact 32 (zeros v)).findIdx? vacant = some 0 := by
  have hlen : 0 < (chunksExact 32 (zeros v)).length := by
    have := g.clusterPos
    rw [length_chunksExact, zeros, List.length_replicate, clusterBytes, g.sectorSize, blockSize]
    omega
  refine List.findIdx?_eq_some_iff_getElem.mpr ⟨hlen, ?_, fun j hj => by omega⟩
  rw [getElem_chunksExact, vacant, byteAt_slot]
  simp [zeros, byteAt, clusterBytes_pos g]

theorem length_padField (n : Nat) (s : Str) : (padField n s).length = n := by
  simp only [padField, List.length_append, List.length_take, List.length_replicate]
  omega

theorem length_nameField (name : Str) : (nameField name).length = 11 := by
  unfold nameField
  split_ifs
  · rfl
  · rfl
  · rw [List.length_append, length_padField, length_padField]

@[simp] theorem length_writeShortEntry (name : Str) (attrs : UInt8) (cluster size : Nat) :
    (writeShortEntry name attrs cluster size).length = 32 := by
  simp [writeShortEntry, length_nameField]

/-- What adding an entry to the directory chain `cs` leaves: the chain, perhaps with one
cluster more, and in its slots the entry at the first vacant place. -/
structure Added (v : FatFs) (w w' : View) (c : Nat) (cs : List Nat) (entry : Bytes)
    (cs' : List Nat) (blank : List Bytes) (i : Nat) : Prop where
  sectors : w'.sectors = w.sectors
  chain : Chain v w' c cs'
  grown : cs' = cs ∧ blank = [] ∨
    ∃ n, cs' = cs ++ [n] ∧ InFat v n ∧ w.fat n = 0 ∧ Fits v w n ∧ n = (freeClusters v w).headD 0
  unused : ∀ s ∈ blank, byteAt s 0 = 0x00
  place : (slots w cs ++ blank).findIdx? vacant = some i
  written : slots w' cs' = (slots w cs ++ blank).set i entry
  fat : ∀ x, x ∉ cs' → w'.fat x = w.fat x
  data : ∀ x, x ∉ cs' → w'.data x = w.data x

def crowded (w : View) (cs : List Nat) : Bool := ((slots w cs).findIdx? vacant).isNone

theorem addDirEntryLoop_grow (g : Geometry v w.sectors) {z n : Nat} {rest : List Nat}
    (h : Chain v w c (cs ++ [z])) (hf : ∀ x ∈ cs ++ [z], Fits v w x)
    (hnone : (slots w (cs ++ [z])).findIdx? vacant = none) (he : entry.length = 32)
    (hfree : freeClusters v w = n :: rest) (hfit : Fits v w n) :
    Runs v (addDirEntryLoop v entry chainFuel c) w (.ok ())
      ((w.grow v z n).setData n (patch (zeros v) 0 entry)) := by
  have hin := (freeClusters_head hfree).1
  have hz : InFat v z := h.mem_inside z (by simp)
  have hzpos : z ≠ 0 := by have := hz.1; omega
  have hlt := hin.lt_eoc g
  have hend : eocThreshold ≤ w.fat z := h.last_stop
  have hfuel := h.length_lt g
  rw [List.length_append, List.length_singleton] at hfuel
  obtain ⟨m, hm⟩ : ∃ m, chainFuel = cs.length + (m + 1 + 1) := ⟨chainFuel - cs.length - 2, by omega⟩
  rw [slots_append, List.findIdx?_append, Option.or_eq_none_iff, Option.map_eq_none_iff] at hnone
  rw [hm]
  refine addDirEntryLoop_reach g h (fun x hx => hf x (by simp [hx])) hnone.1 ?_
  refine addDirEntryLoop_atEnd g hz (hf z (by simp)) hend (by simpa [slots] using hnone.2) ?_
  have hgrow : ((w.setFat n endOfChain).setData n (zeros v)).setFat z n = w.grow v z n := by
    rw [View.grow, if_neg hzpos]
  have hdata : (w.grow v z n).data n = zeros v := by rw [View.grow_data, if_pos rfl]
  have hg : Geometry v (w.grow v z n).sectors := by rwa [View.grow_sectors]
  have hfit' : Fits v (w.grow v z n) n := by unfold Fits; rwa [View.grow_sectors]
  refine (findFreeCluster_some g hfree).bind ((writeFatEntry_runs g hin.2 endOfChain_lt).bind
    ((zeroCluster_runs (w := w.setFat n endOfChain) g hin hfit).bind ?_))
  refine (writeFatEntry_runs (w := (w.setFat n endOfChain).setData n (zeros v)) g hz.2
    (by unfold eocThreshold at hlt; omega)).bind ?_
  rw [hgrow]
  refine (updateFsinfo_runs hg (-1) n).attempt_ok.bind ?_
  rw [addDirEntryLoop, clusterToLba_eq hg hin, pure_bind]
  have hvacant : (chunksExact 32 ((w.grow v z n).data n)).findIdx? vacant = some 0 := by
    rw [hdata]
    exact vacant_zeros g
  have hadd := addInSectors_some hg hin hfit' hvacant he
  rw [hdata, Nat.mul_zero] at hadd
  exact hadd.bind (.pure ())

theorem unused_zeros (v : FatFs) : ∀ s ∈ chunksExact 32 (zeros v), byteAt s 0 = 0x00 := by
  intro s hs
  obtain ⟨j, hj, rfl⟩ := List.getElem_of_mem hs
  have hle := chunk_le (by rwa [length_chunksExact] at hj)
  have hpos : 32 * j < clusterBytes v := by
    rw [zeros, List.length_replicate] at hle
    omega
  rw [getElem_chunksExact, byteAt_slot]
  simp [zeros, byteAt, hpos]

theorem chunksExact_patch_zeros (g : Geometry v w.sectors) (he : entry.length = 32) :
    chunksExact 32 (patch (zeros v) 0 entry) = (chunksExact 32 (zeros v)).set 0 entry := by
  have hlt := (List.findIdx?_eq_some_iff_getElem.mp (vacant_zeros g)).1
  rw [length_chunksExact] at hlt
  have hpatch := chunksExact_patch (b := zeros v) (i := 0) (o := 0) hlt
    (by rw [Nat.zero_add]; exact he.le)
  have hslice : entry.length = (slice (zeros v) (32 * 0) 32).length := by
    rw [he, length_slice (chunk_le hlt)]
  rwa [patch_self hslice] at hpatch

theorem Added.of_grow (g : Geometry v w.sectors) {z n : Nat} {rest : List Nat}
    (h : Chain v w c (cs ++ [z])) (hnone : (slots w (cs ++ [z])).findIdx? vacant = none)
    (he : entry.length = 32) (hfree : freeClusters v w = n :: rest) (hfit : Fits v w n) :
    Added v w ((w.grow v z n).setData n (patch (zeros v) 0 entry)) c (cs ++ [z]) entry
      (cs ++ [z] ++ [n]) (chunksExact 32 (zeros v)) (slots w (cs ++ [z])).length := by
  have hn := freeClusters_head hfree
  have hzpos : z ≠ 0 := by have := (h.mem_inside z (by simp)).1; omega
  have hne : ∀ x ∈ cs ++ [z], x ≠ n := fun x hx hxn => h.fat_ne_zero x hx (hxn ▸ hn.2)
  have hzn := hne z (by simp)
  have hdata : ∀ x, x ≠ n → ((w.grow v z n).setData n (patch (zeros v) 0 entry)).data x =
    w.data x := by
    intro x hx
    rw [View.setData_data_of_ne _ _ _ _ hx, View.grow_data, if_neg hx]
  refine ⟨?_, ?_, ?_, unused_zeros v, ?_, ?_, fun x hx => ?_, fun x hx => ?_⟩
  · rw [View.setData_sectors, View.grow_sectors]
  · rw [List.append_assoc]
    refine h.extend (fun b hb => ?_) ?_ hn.1 ?_
    · have hbz : b ≠ z := fun hbz => (List.nodup_append.mp (h.nodup g)).2.2 b hb z (by simp) hbz
      rw [View.setData_fat, View.grow_fat hzn, if_neg (hne b (by simp [hb])), if_neg (by tauto)]
    · rw [View.setData_fat, View.grow_fat hzn, if_neg hzn, if_pos ⟨rfl, hzpos⟩]
    · rw [View.setData_fat, View.grow_fat hzn, if_pos rfl]
      exact eoc_le_endOfChain
  · exact Or.inr ⟨n, rfl, hn.1, hn.2, hfit, by rw [hfree]; rfl⟩
  · rw [List.findIdx?_append, hnone, vacant_zeros g]
    simp
  · rw [slots_append, slots_congr fun x hx => hdata x (hne x hx), List.set_append_right _ _ le_rfl,
      Nat.sub_self, ← chunksExact_patch_zeros g he]
    simp [slots]
  · simp only [List.mem_append, List.mem_singleton, not_or] at hx
    rw [View.setData_fat, View.grow_fat hzn, if_neg hx.2, if_neg (by tauto)]
  · simp only [List.mem_append, List.mem_singleton, not_or] at hx
    exact hdata x hx.2

theorem Chain.exists_last (g : Geometry v w.sectors) (h : Chain v w c cs) (hc : InFat v c) :
    ∃ pre z, cs = pre ++ [z] := by
  obtain ⟨tail, rfl⟩ := h.head (inFat_not_eoc g) hc
  exact ⟨_, _, (List.dropLast_append_getLast (by simp)).symm⟩

theorem addDirEntryLoop_ok (g : Geometry v w.sectors) (h : Chain v w c cs) (hc : InFat v c)
    (hf : ∀ x ∈ cs, Fits v w x) (he : entry.length = 32)
    (hroom : crowded w cs = true → 1 ≤ usable v w) :
    ∃ w' cs' blank i, Runs v (addDirEntryLoop v entry chainFuel c) w (.ok ()) w' ∧
      Added v w w' c cs entry cs' blank i := by
  cases hi : (slots w cs).findIdx? vacant with
  | some i =>
    obtain ⟨a, ha, b, hrun, hslots⟩ := addDirEntryLoop_slot g h hf (h.length_lt g).le he hi
    refine ⟨w.setData a b, cs, [], i, hrun, rfl, h, Or.inl ⟨rfl, rfl⟩, by simp, ?_, ?_,
      fun _ _ => rfl, fun x hx => ?_⟩
    · rwa [List.append_nil]
    · rwa [List.append_nil]
    · exact View.setData_data_of_ne _ _ _ _ fun hxa => hx (hxa ▸ ha)
  | none =>
    obtain ⟨hle, hfits⟩ := le_usable_iff.mp (hroom (by simp [crowded, hi]))
    obtain ⟨n, rest, hfree⟩ :=
      List.exists_cons_of_length_pos (Nat.lt_of_lt_of_le Nat.zero_lt_one hle)
    have hfit : Fits v w n := hfits n (by simp [hfree])
    obtain ⟨pre, z, rfl⟩ := Chain.exists_last g h hc
    exact ⟨_, _, _, _, addDirEntryLoop_grow g h hf hi he hfree hfit,
      Added.of_grow g h hi he hfree hfit⟩

theorem addDirEntryLoop_error (g : Geometry v w.sectors) (h : Chain v w c cs) (hc : InFat v c)
    (hf : ∀ x ∈ cs, Fits v w x) (hfull : crowded w cs = true) (hroom : ¬ 1 ≤ usable v w) :
    ∃ w', Runs v (addDirEntryLoop v entry chainFuel c) w (.error (.err .io)) w' ∧ Spares w w' ∧
      (freeClusters v w = [] → w' = w) := by
  have hi : (slots w cs).findIdx? vacant = none := by simpa [crowded] using hfull
  obtain ⟨pre, z, rfl⟩ := Chain.exists_last g h hc
  have hz := h.mem_inside z (by simp)
  have hfuel := h.length_lt g
  rw [List.length_append, List.length_singleton] at hfuel
  obtain ⟨m, hm⟩ : ∃ m, chainFuel = pre.length + (m + 1) := ⟨chainFuel - pre.length - 1, by omega⟩
  rw [slots_append, List.findIdx?_append, Option.or_eq_none_iff, Option.map_eq_none_iff] at hi
  have hreach : ∀ {w' : View}, Runs v (growDir v entry m z) w (.error (.err .io)) w' →
      Runs v (addDirEntryLoop v entry chainFuel c) w (.error (.err .io)) w' := by
    intro w' hrun
    rw [hm]
    exact addDirEntryLoop_reach g h (fun x hx => hf x (by simp [hx])) hi.1
      (addDirEntryLoop_atEnd g hz (hf z (by simp)) h.last_stop (by simpa [slots] using hi.2) hrun)
  cases hfree : freeClusters v w with
  | nil => exact ⟨w, hreach (findFreeCluster_none g hfree).bind_error, .refl w, fun _ => rfl⟩
  | cons n rest =>
    have hn := freeClusters_head hfree
    have hfit : ¬ Fits v w n := fun hfit =>
      hroom (le_usable_iff.mpr ⟨by simp [hfree], by simpa [hfree] using hfit⟩)
    refine ⟨_, hreach ((findFreeCluster_some g hfree).bind
      ((writeFatEntry_runs g hn.1.2 endOfChain_lt).bind
      (zeroCluster_past (w := w.setFat n endOfChain) g hn.1 hfit).bind_error)),
        ⟨rfl, fun x hx => ?_,
      fun x hx => ?_⟩, by simp⟩
    · exact View.setFat_fat_of_ne _ _ _ _ fun h => hx (h ▸ hn.2)
    · exact View.setData_data_of_ne _ _ _ _ fun h => hx (h ▸ hn.2)

end Chains

end Willo.Fat
