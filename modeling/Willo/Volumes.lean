import Willo.DriverFrames

/-! Volumes as the driver meets them, and sequences of calls on them. `WellFormed`
spells out what a volume in order is, on the disk; the views of the earlier
modules are sound on such disks. A run executes calls one after the other, each
on the disk the one before left, whatever it returned. -/

namespace Willo.Fat
open Text Paths ByteCodec BlockDevice FaultState LinkedChain RootedGraph TreeStore

/-- The volume was mounted, and its numbers leave room for the driver's arithmetic. -/
structure Layout (v : FatFs) (d : Disk) : Prop where
  mounted : (exec mount d).1 = .ok v
  rootCluster : 2 ≤ v.rootCluster
  reserved : 2 ≤ v.reservedSectors
  clusters : v.sectorsPerFat * 128 ≤ 0x0FFFFFF7
  lbas : ∀ c, InFat v c → clusterLba v c + v.sectorsPerCluster ≤ 2 ^ 32
  fats : v.dataStartLba ≤ d.sectors

/-- The chains in reach of the root: each stays inside the FAT, comes to an end mark and
so repeats no cluster, shares none with another, and lies on the device. -/
structure Chains (v : FatFs) (w : View) : Prop where
  root : Proper v w v.rootCluster
  entries : ∀ {dir i e}, Reach (graph v w) dir → entryAt v w dir i = some e → 2 ≤ e.cluster →
    Proper v w e.cluster
  apart : ∀ {o o' c}, Holds (graph v w) o c → Holds (graph v w) o' c → o = o'
  onDevice : ∀ {c}, Held (graph v w) c → Fits v w c

structure WellFormed (v : FatFs) (d : Disk) : Prop extends Layout v d, Chains v (view v d) where
  copies : ∀ i < v.numFats, ∀ n < v.sectorsPerFat,
    d.block (v.fatStartLba + i * v.sectorsPerFat + n) = d.block (v.fatStartLba + n)
  dirs : ∀ {dir i e}, Reach (graph v (view v d)) dir → entryAt v (view v d) dir i = some e →
    e.isDir = true → 2 ≤ e.cluster
  sizes : ∀ {dir i e}, Reach (graph v (view v d)) dir → entryAt v (view v d) dir i = some e →
    e.isDir = false → (chainOf v (view v d) e.cluster).length =
      (e.size + clusterBytes v - 1) / clusterBytes v
  names : UniqueNames v (view v d)
  tails : ∀ {dir}, Reach (graph v (view v d)) dir → ZeroTail (dirSlots v (view v d) dir)

/-- The structure of a volume: its chains, none through a free cluster, its dot entries,
and nothing behind the end of a directory. -/
structure Intact (v : FatFs) (w : View) : Prop extends Chains v w where
  used : ∀ {c}, Held (graph v w) c → w.fat c ≠ 0
  dots : Dotted v w
  tails : ∀ {dir}, Reach (graph v w) dir → ZeroTail (dirSlots v w dir)

section Volumes

variable {v : FatFs} {d : Disk} {w : View}

theorem mount_ok (h : (exec mount d).1 = .ok v) :
    v.bytesPerSector = blockSize ∧ 0 < v.sectorsPerCluster ∧ v.sectorsPerCluster ≤ 255 ∧
      0 < v.numFats ∧ v.fatStartLba = v.reservedSectors ∧
      v.dataStartLba = v.reservedSectors + v.numFats * v.sectorsPerFat ∧ v.dataStartLba < 2 ^ 32 ∧
      v.numFats ≤ 255 ∧ v.reservedSectors < 2 ^ 16 := by
  unfold mount at h
  by_cases hsec : 0 < d.sectors
  · rw [exec_bind_ok (exec_readBlock hsec)] at h
    dsimp only at h
    by_cases hbad : le16 (d.block 0).1 0x0B ≠ blockSize ∨ (byteAt (d.block 0).1 0x0D).toNat = 0 ∨
        (byteAt (d.block 0).1 0x10).toNat = 0
    · rw [if_pos hbad, exec_throw] at h
      cases h
    · rw [if_neg hbad] at h
      push Not at hbad
      by_cases hmul : (byteAt (d.block 0).1 0x10).toNat * le32 (d.block 0).1 0x24 < 2 ^ 32
      · rw [mulU32_eq hmul, pure_bind] at h
        by_cases hadd : le16 (d.block 0).1 0x0E +
            (byteAt (d.block 0).1 0x10).toNat * le32 (d.block 0).1 0x24 < 2 ^ 32
        · rw [addU32_eq hadd, pure_bind, exec_pure] at h
          have hv := Except.ok.inj h
          have hclusters := (byteAt (d.block 0).1 0x0D).toNat_lt
          have hfats := (byteAt (d.block 0).1 0x10).toNat_lt
          have hreserved := le16_lt (d.block 0).1 0x0E
          rw [← hv]
          refine ⟨hbad.1, ?_, ?_, ?_, rfl, rfl, hadd, ?_, hreserved⟩ <;> dsimp only <;> omega
        · rw [addU32, if_neg hadd, exec_bind_error (exec_throw _ _)] at h
          cases h
      · rw [mulU32, if_neg hmul, exec_bind_error (exec_throw _ _)] at h
        cases h
  · rw [exec_bind_error (exec_readBlock_past hsec)] at h
    cases h

theorem Layout.geometry (L : Layout v d) : Geometry v d.sectors := by
  obtain ⟨h1, h2, h3, h4, h5, h6, h7, -⟩ := mount_ok L.mounted
  exact ⟨h1, h2, h3, h4, h5, h6, h7, L.reserved, L.clusters,
    fun c h2 hlt => by have := L.lbas c ⟨h2, hlt⟩; omega, L.fats⟩

theorem Chains.sturdy (C : Chains v (view v d)) (g : Geometry v d.sectors)
    (hdirs : ∀ {dir i e}, Reach (graph v (view v d)) dir → entryAt v (view v d) dir i = some e →
      e.isDir = true → 2 ≤ e.cluster) : Sturdy v (view v d) where
  geometry := g
  shown := ⟨d, rfl⟩
  root := C.root
  entries hr he hcase := by
    rcases hcase with hd | hge
    · exact C.entries hr he (hdirs hr he hd)
    · exact C.entries hr he hge
  forest := by
    refine ⟨C.root.start_mem g, fun hr he hm => ?_, C.apart⟩
    obtain ⟨hd, rfl⟩ := DirEntry.child_eq_some.mp hm
    exact (C.entries hr he (hdirs hr he hd)).start_mem g
  fits := C.onDevice

theorem WellFormed.sound (W : WellFormed v d) : Sound v (view v d) where
  toSturdy := W.toChains.sturdy W.geometry W.dirs
  tails := W.tails

theorem Intact.sound (L : Layout v d) (I : Intact v (view v d)) : Sound v (view v d) where
  toSturdy := by
    refine I.toChains.sturdy L.geometry fun {dir i e} hr he hd => ?_
    obtain ⟨s, hs, -⟩ := (I.dots dir i e hr he hd).itself
    by_contra hlt
    rw [dirSlots, chainOf_small (by omega)] at hs
    simp at hs
  tails := I.tails

theorem Sound.intact (S : Sound v w) (D : Dotted v w) : Intact v w where
  root := S.root
  entries hr he hge := S.entries hr he (Or.inr hge)
  apart := S.forest.separated
  onDevice := S.fits
  used := S.held_used
  dots := D
  tails := S.tails

end Volumes

/-! What a caller sees. -/

def answer {α : Type} (x : FatM α) (d : Disk) : Except Fault α := (exec x d).1

section Answers

variable {v : FatFs} {d : Disk}

theorem answer_readFile (S : Sturdy v (view v d)) (abs : Str) :
    answer (readFile v abs) d = outcome (fileAt v (view v d) abs) :=
  ((readFile_runs S abs).exec_eq rfl).1

theorem answer_listDir (S : Sturdy v (view v d)) (abs : Str) :
    answer (listDir v abs) d = outcome (namesAt v (view v d) abs) :=
  ((listDir_runs S abs).exec_eq rfl).1

theorem answer_isDir (S : Sturdy v (view v d)) (abs : Str) :
    answer (isDir v abs) d = .ok (dirAt v (view v d) abs) :=
  ((isDir_runs S abs).exec_eq rfl).1

theorem outcome_eq_ok {α : Type} {x : Except FsError α} {a : α} :
    outcome x = .ok a ↔ x = .ok a := by
  cases x <;> simp [outcome]

end Answers

/-! Sequences of calls. -/

structure Call where
  path : List Str
  op : Mutation UInt8

def perform (v : FatFs) (c : Call) (d : Disk) : Except Fault Unit × Disk :=
  exec (apply v (render c.path) c.op) d

def runCalls (v : FatFs) (calls : List Call) (d : Disk) : Disk :=
  calls.foldl (fun d c => (perform v c d).2) d

def Along (v : FatFs) (P : Disk → Call → Prop) : List Call → Disk → Prop
  | [], _ => True
  | c :: calls, d => P d c ∧ Along v P calls (perform v c d).2

def beginsWithMark (path : List Str) : Bool := path.getLast?.bind List.head? == some 0x00

section Calls

variable {v : FatFs} {d : Disk}

theorem runCalls_invariant {I : Disk → Prop} {P : Disk → Call → Prop}
    (hstep : ∀ d c, I d → P d c → I (perform v c d).2) {calls : List Call}
    (hrun : Along v P calls d) (h : I d) : I (runCalls v calls d) := by
  induction calls generalizing d with
  | nil => exact h
  | cons c calls ih => exact ih hrun.2 (hstep d c h hrun.1)

theorem along_of_forall {P : Disk → Call → Prop} {calls : List Call} (h : ∀ c ∈ calls, ∀ d, P d c) :
    Along v P calls d := by
  induction calls generalizing d with
  | nil => trivial
  | cons c calls ih =>
    exact ⟨h c (by simp) d, ih fun c' hc' => h c' (by simp [hc'])⟩

theorem Along.and_forall {P : Disk → Call → Prop} {Q : Call → Prop} {calls : List Call}
    (h : Along v P calls d) (hq : ∀ c ∈ calls, Q c) : Along v (fun d c => Q c ∧ P d c) calls d := by
  induction calls generalizing d with
  | nil => trivial
  | cons c calls ih => exact ⟨⟨hq c (by simp), h.1⟩, ih h.2 fun c' hc' => hq c' (by simp [hc'])⟩

theorem perform_effect (S : Sound v (view v d)) {c : Call} (hc : ∀ s ∈ c.path, Component s) :
    (c.path = [] ∧ (∃ err, (perform v c d).1 = .error (.err err)) ∧
      view v (perform v c d).2 = view v d) ∨
    ∃ ps name, c.path = ps ++ [name] ∧ Component name ∧
      Effect v (view v d) ps name c.op (perform v c d).1 (view v (perform v c d).2) := by
  rcases List.eq_nil_or_concat c.path with hnil | ⟨ps, name, hpath⟩
  · obtain ⟨err, hrun⟩ := apply_root S.toSturdy c.op
    have hexec : exec (apply v (render []) c.op) d = ((perform v c d).1, (perform v c d).2) := by
      rw [← hnil]
      rfl
    obtain ⟨hr, hw⟩ := hrun.exec_eq hexec
    exact Or.inl ⟨hnil, ⟨err, hr⟩, hw⟩
  · rw [List.concat_eq_append] at hpath
    have hn : Component name := hc name (by simp [hpath])
    have hps : ∀ s ∈ ps, Component s := fun s hs => hc s (by simp [hpath, hs])
    obtain ⟨r, w', hrun, E⟩ := apply_effect S hps hn c.op
    have hexec : exec (apply v (render (ps ++ [name])) c.op) d =
        ((perform v c d).1, (perform v c d).2) := by
      rw [← hpath]
      rfl
    obtain ⟨hr, hw⟩ := hrun.exec_eq hexec
    exact Or.inr ⟨ps, name, hpath, hn, by rwa [hr, hw]⟩

theorem ShortName.components {path : List Str} (h : ∀ s ∈ path, ShortName s) :
    ∀ s ∈ path, Component s := fun s hs => (h s hs).component

theorem kept_of_last {ps : List Str} {name : Str} (h : ∀ s ∈ ps ++ [name], ShortName s)
    (hmark : ¬ beginsWithMark (ps ++ [name])) : Kept name := by
  rw [(h name (by simp)).kept_iff]
  simpa [beginsWithMark] using hmark

end Calls

/-! Volumes whose root holds empty files only. -/

section Flat

variable {v : FatFs} {w : View} {d : Disk}

theorem entryAt_mem {dir i : Nat} {e : DirEntry} (h : entryAt v w dir i = some e) :
    e ∈ (dirSlots v w dir).filterMap decodeSlot := by
  obtain ⟨s, hs, he⟩ := Option.bind_eq_some_iff.mp h
  exact List.mem_filterMap.mpr ⟨s, List.mem_of_getElem? hs, he⟩

/-- The root's chain is one cluster, and every entry an empty file without one. -/
structure Flat (v : FatFs) (w : View) : Prop where
  root : InFat v v.rootCluster
  ends : eocThreshold ≤ w.fat v.rootCluster
  onDevice : Fits v w v.rootCluster
  files : ∀ e ∈ (dirSlots v w v.rootCluster).filterMap decodeSlot,
    e.isDir = false ∧ e.cluster = 0 ∧ e.size = 0
  tail : ZeroTail (dirSlots v w v.rootCluster)

theorem Flat.chain (F : Flat v w) : Chain v w v.rootCluster [v.rootCluster] :=
  .link F.root (.stop F.ends)

theorem Flat.reach (F : Flat v w) {n : Nat} (h : Reach (graph v w) n) : n = v.rootCluster := by
  induction h with
  | root => rfl
  | step _ he hm ih =>
    subst ih
    have hfile := (F.files _ (entryAt_mem he)).1
    rw [(DirEntry.child_eq_some.mp hm).1] at hfile
    cases hfile

theorem Flat.entry (F : Flat v w) {dir i : Nat} {e : DirEntry} (hr : Reach (graph v w) dir)
    (he : entryAt v w dir i = some e) : e.isDir = false ∧ e.cluster = 0 ∧ e.size = 0 := by
  rw [F.reach hr] at he
  exact F.files e (entryAt_mem he)

theorem Flat.held (F : Flat v w) (g : Geometry v w.sectors) {o : Owner Nat Nat} {c : Nat}
    (h : Holds (graph v w) o c) : o = .root ∧ c = v.rootCluster := by
  cases h with
  | root hb =>
    change c ∈ chainOf v w v.rootCluster at hb
    rw [chainOf_eq g F.chain] at hb
    exact ⟨rfl, List.mem_singleton.mp hb⟩
  | slot hr he hp =>
    change c ∈ chainOf v w _ at hp
    rw [chainOf_small (by rw [(F.entry hr he).2.1]; decide)] at hp
    simp at hp

theorem Flat.chains (F : Flat v w) (g : Geometry v w.sectors) : Chains v w where
  root := .of_chain g F.root F.chain
  entries hr he hge := by
    rw [(F.entry hr he).2.1] at hge
    omega
  apart h h' := by rw [(F.held g h).1, (F.held g h').1]
  onDevice := by
    rintro c ⟨o, ho⟩
    rw [(F.held g ho).2]
    exact F.onDevice

theorem Flat.intact (L : Layout v d) (F : Flat v (view v d)) : Intact v (view v d) where
  toChains := F.chains L.geometry
  used := by
    rintro c ⟨o, ho⟩
    rw [(F.held L.geometry ho).2]
    have := F.ends
    unfold eocThreshold at this
    omega
  dots dir i e hr he hd := by
    rw [(F.entry hr he).1] at hd
    cases hd
  tails hr := by
    rw [F.reach hr]
    exact F.tail

theorem Flat.wellFormed (L : Layout v d) (F : Flat v (view v d))
    (hcopies : ∀ i < v.numFats, ∀ n < v.sectorsPerFat,
      d.block (v.fatStartLba + i * v.sectorsPerFat + n) = d.block (v.fatStartLba + n))
    (hnames : (dirSlots v (view v d) v.rootCluster).Pairwise fun s t =>
      ∀ e ∈ decodeSlot s, ∀ f ∈ decodeSlot t, lower e.name ≠ lower f.name) : WellFormed v d where
  toLayout := L
  toChains := F.chains L.geometry
  copies := hcopies
  dirs hr he hd := by
    rw [(F.entry hr he).1] at hd
    cases hd
  sizes hr he _ := by
    obtain ⟨-, hcluster, hsize⟩ := F.entry hr he
    have g : Geometry v (view v d).sectors := L.geometry
    have := clusterBytes_pos g
    rw [hcluster, chainOf_small (by decide), hsize, Nat.div_eq_of_lt (by omega)]
    rfl
  names dir hr i j e f he hf hname := by
    rw [F.reach hr] at he hf
    obtain ⟨s, hs, hes⟩ := Option.bind_eq_some_iff.mp he
    obtain ⟨t, ht, hft⟩ := Option.bind_eq_some_iff.mp hf
    obtain ⟨hi, rfl⟩ := List.getElem?_eq_some_iff.mp hs
    obtain ⟨hj, rfl⟩ := List.getElem?_eq_some_iff.mp ht
    rcases Nat.lt_trichotomy i j with hlt | heq | hgt
    · exact absurd hname (List.pairwise_iff_getElem.mp hnames i j hi hj hlt e hes f hft)
    · exact heq
    · exact absurd hname.symm (List.pairwise_iff_getElem.mp hnames j i hj hi hgt f hft e hes)
  tails hr := by
    rw [F.reach hr]
    exact F.tail

theorem Flat.noLost (F : Flat v w) (g : Geometry v w.sectors)
    (h : ∀ c, InFat v c → w.fat c ≠ 0 → c = v.rootCluster) : NoLost v w := by
  intro c hc hused _
  rw [h c hc hused]
  refine ⟨.root, .root ?_⟩
  change _ ∈ chainOf v w _
  rw [chainOf_eq g F.chain]
  simp

theorem copies_of_one (hone : v.numFats = 1) : ∀ i < v.numFats, ∀ n < v.sectorsPerFat,
    d.block (v.fatStartLba + i * v.sectorsPerFat + n) = d.block (v.fatStartLba + n) := by
  intro i hi n _
  obtain rfl : i = 0 := by omega
  rw [Nat.zero_mul, Nat.add_zero]

end Flat

/-- A volume of 128 FAT entries, one sector per cluster, its root at cluster 2. -/
def smallVolume : FatFs := ⟨512, 1, 2, 1, 1, 2, 2, 3⟩

def sector (b : Bytes) : Block :=
  ⟨(b ++ List.replicate blockSize 0).take blockSize, by
    rw [List.length_take, List.length_append, List.length_replicate,
      Nat.min_eq_left (Nat.le_add_left _ _)]⟩

theorem byteAt_sector {b : Bytes} {i : Nat} (h : b.length ≤ i) : byteAt (sector b).1 i = 0 := by
  rw [sector, byteAt, List.getD_eq_getElem?_getD]
  rcases Nat.lt_or_ge i blockSize with hi | hi
  · rw [List.getElem?_take_of_lt hi, List.getElem?_append_right h, List.getElem?_replicate]
    split_ifs <;> rfl
  · rw [List.getElem?_eq_none (by rw [List.length_take]; omega)]
    rfl

theorem le32_sector {b : Bytes} {i : Nat} (h : b.length ≤ i) : le32 (sector b).1 i = 0 := by
  rw [le32, le16, le16, byteAt_sector h, byteAt_sector (by omega), byteAt_sector (by omega),
    byteAt_sector (by omega)]
  rfl

/-- Its disk, with these slots in the root. -/
def smallDisk (sectors : Nat) (rootSlots : List Bytes) : Disk where
  sectors := sectors
  block
    | 0 => sector (List.replicate 0x0B 0 ++ [0, 2, 1, 2, 0, 1] ++
      List.replicate 0x13 0 ++ toLe32 1 ++
        List.replicate 4 0 ++ toLe32 2)
    | 2 => sector (toLe32 0x0FFFFFF8 ++ toLe32 0x0FFFFFFF ++ toLe32 0x0FFFFFFF)
    | 3 => sector rootSlots.flatten
    | _ => sector []

theorem smallDisk_fat (sectors : Nat) (rootSlots : List Bytes) {c : Nat} (h3 : 3 ≤ c)
    (hc : c < 128) :
    (view smallVolume (smallDisk sectors rootSlots)).fat c = 0 := by
  have hsector : c * 4 / 512 = 0 := by omega
  have hoff : c * 4 % 512 = c * 4 := by omega
  have hpast : 12 ≤ c * 4 := by omega
  change (if c < 128 then
    le32 ((smallDisk sectors rootSlots).block (2 + c * 4 / 512)).1 (c * 4 % 512) &&&
    clusterMask else 0) = 0
  rw [if_pos hc, hsector, hoff]
  exact congrArg (· &&& clusterMask) (le32_sector hpast)

theorem usable_smallDisk {sectors : Nat} (hs : 5 ≤ sectors) (rootSlots : List Bytes) :
    1 ≤ usable smallVolume (view smallVolume (smallDisk sectors rootSlots)) := by
  have hfree : 3 ∈ freeClusters smallVolume (view smallVolume (smallDisk sectors rootSlots)) :=
    mem_freeClusters.mpr ⟨by decide, smallDisk_fat sectors rootSlots (by decide) (by decide)⟩
  have hfits : Fits smallVolume (view smallVolume (smallDisk sectors rootSlots)) 3 := hs
  exact List.length_pos_of_mem (List.mem_filter.mpr ⟨hfree, by simpa using hfits⟩)

theorem mount_smallDisk {sectors : Nat} (hs : 3 ≤ sectors) (rootSlots : List Bytes) :
    (exec mount (smallDisk sectors rootSlots)).1 = .ok smallVolume := by
  have hread : exec (readBlock 0) (smallDisk sectors rootSlots) =
      (.ok ((smallDisk 4 []).block 0).1, smallDisk sectors rootSlots) :=
    exec_readBlock (show 0 < sectors by omega)
  have hbytes : le16 ((smallDisk 4 []).block 0).1 0x0B = 512 := by decide +kernel
  have hsectors : (byteAt ((smallDisk 4 []).block 0).1 0x0D).toNat = 1 := by decide +kernel
  have hreserved : le16 ((smallDisk 4 []).block 0).1 0x0E = 2 := by decide +kernel
  have hfats : (byteAt ((smallDisk 4 []).block 0).1 0x10).toNat = 1 := by decide +kernel
  have hfat : le32 ((smallDisk 4 []).block 0).1 0x24 = 1 := by decide +kernel
  have hroot : le32 ((smallDisk 4 []).block 0).1 0x2C = 2 := by decide +kernel
  rw [mount, exec_bind_ok hread]
  simp only [hbytes, hsectors, hreserved, hfats, hfat, hroot]
  rfl

theorem smallDisk_layout {sectors : Nat} (hs : 3 ≤ sectors) (rootSlots : List Bytes) :
    Layout smallVolume (smallDisk sectors rootSlots) where
  mounted := mount_smallDisk hs rootSlots
  rootCluster := by decide
  reserved := by decide
  clusters := by decide
  lbas c hc := by
    have h : 2 ≤ c ∧ c < 128 := hc
    change 3 + (c - 2) * 1 + 1 ≤ 2 ^ 32
    omega
  fats := hs

structure EmptyFiles (rootSlots : List Bytes) : Prop where
  length : ∀ s ∈ rootSlots, s.length = 32
  room : rootSlots.length ≤ 16
  files : ∀ e ∈ rootSlots.filterMap decodeSlot, e.isDir = false ∧ e.cluster = 0 ∧ e.size = 0
  tail : ZeroTail rootSlots

section SmallDisk

variable {sectors : Nat} {rootSlots : List Bytes}

-- the FAT depends neither on the number of sectors nor on the root's slots
theorem smallDisk_ends (sectors : Nat) (rootSlots : List Bytes) :
    eocThreshold ≤ (view smallVolume (smallDisk sectors rootSlots)).fat 2 := by
  change eocThreshold ≤ (view smallVolume (smallDisk 4 [])).fat 2
  decide +kernel

theorem EmptyFiles.padded_length (E : EmptyFiles rootSlots) :
    ∀ s ∈ rootSlots ++ List.replicate (16 - rootSlots.length) (List.replicate 32 0),
    s.length = 32 := by
  intro s hs
  rcases List.mem_append.mp hs with hs | hs
  · exact E.length s hs
  · rw [List.eq_of_mem_replicate hs, List.length_replicate]

theorem EmptyFiles.sector_eq (E : EmptyFiles rootSlots) : (sector rootSlots.flatten).1 =
    (rootSlots ++ List.replicate (16 - rootSlots.length) (List.replicate 32 0)).flatMap id := by
  have hroom := E.room
  have hsum : rootSlots.flatten.length = rootSlots.length * 32 := by
    rw [← List.flatMap_id]
    exact length_flatMap_of_length E.length
  have hpad : blockSize - rootSlots.flatten.length = (16 - rootSlots.length) * 32 := by
    rw [hsum, blockSize]
    omega
  change (rootSlots.flatten ++ List.replicate blockSize 0).take blockSize = _
  rw [List.flatMap_id, List.flatten_append, List.flatten_replicate_replicate, List.take_append,
    List.take_replicate, List.take_of_length_le, hpad, Nat.min_eq_left]
  · rw [blockSize]
    omega
  · rw [hsum, blockSize]
    omega

theorem smallDisk_slots (hs : 4 ≤ sectors) (E : EmptyFiles rootSlots) :
    dirSlots smallVolume (view smallVolume (smallDisk sectors rootSlots)) 2 =
      rootSlots ++ List.replicate (16 - rootSlots.length) (List.replicate 32 0) := by
  have g : Geometry smallVolume (view smallVolume (smallDisk sectors rootSlots)).sectors :=
    (smallDisk_layout (show 3 ≤ sectors by omega) rootSlots).geometry
  have hchain : chainOf smallVolume (view smallVolume (smallDisk sectors rootSlots)) 2 = [2] :=
    chainOf_eq g (.link (by decide) (.stop (smallDisk_ends sectors rootSlots)))
  have hdata : (view smallVolume (smallDisk sectors rootSlots)).data 2 =
    (sector rootSlots.flatten).1 :=
    List.append_nil _
  have hslots := E.padded_length
  rw [dirSlots, hchain, slots_cons, slots_nil, List.append_nil, hdata, E.sector_eq,
    chunksExact_flatMap (k := 1) (by decide) hslots]
  exact (List.flatMap_congr fun s hs =>
    chunksExact_one (by decide) (hslots s hs)).trans (List.flatMap_singleton' _)

theorem unused_slot {n : Nat} {s : Bytes}
    (h : s ∈ List.replicate n (List.replicate 32 (0 : UInt8))) :
    byteAt s 0 = 0x00 ∧ decodeSlot s = none := by
  rw [List.eq_of_mem_replicate h]
  exact ⟨rfl, if_pos (Or.inl rfl)⟩

theorem smallDisk_flat (hs : 4 ≤ sectors) (E : EmptyFiles rootSlots) :
    Flat smallVolume (view smallVolume (smallDisk sectors rootSlots)) where
  root := by decide
  ends := smallDisk_ends sectors rootSlots
  onDevice := hs
  files e he := by
    change e ∈ (dirSlots smallVolume _ 2).filterMap decodeSlot at he
    rw [smallDisk_slots hs E, List.filterMap_append, List.mem_append] at he
    rcases he with he | he
    · exact E.files e he
    · obtain ⟨s, hs, hdecode⟩ := List.mem_filterMap.mp he
      rw [(unused_slot hs).2] at hdecode
      cases hdecode
  tail := by
    change ZeroTail (dirSlots smallVolume _ 2)
    rw [smallDisk_slots hs E]
    have hunused : ZeroTail (List.replicate (16 - rootSlots.length) (List.replicate 32 0)) :=
      List.pairwise_replicate.mpr (Or.inr id)
    exact List.pairwise_append.mpr ⟨E.tail, hunused, fun s _ t ht _ => (unused_slot ht).1⟩

theorem smallDisk_wellFormed (hs : 4 ≤ sectors) (E : EmptyFiles rootSlots)
    (hnames : rootSlots.Pairwise fun s t => ∀ e ∈ decodeSlot s, ∀ f ∈ decodeSlot t,
      lower e.name ≠ lower f.name) :
    WellFormed smallVolume (smallDisk sectors rootSlots) := by
  refine (smallDisk_flat hs E).wellFormed (smallDisk_layout (show 3 ≤ sectors by omega) _)
    (copies_of_one rfl) ?_
  change (dirSlots smallVolume _ 2).Pairwise _
  rw [smallDisk_slots hs E]
  refine List.pairwise_append.mpr ⟨hnames, ?_, fun _ _ t ht _ _ f hf => ?_⟩
  · refine List.pairwise_of_forall_mem_list fun s hs _ _ e he => ?_
    rw [(unused_slot hs).2] at he
    cases he
  · rw [(unused_slot ht).2] at hf
    cases hf

end SmallDisk

def blankDisk (sectors : Nat) : Disk := smallDisk sectors []

section Blank

variable {sectors : Nat}

theorem blankDisk_layout (hs : 4 ≤ sectors) : Layout smallVolume (blankDisk sectors) :=
  smallDisk_layout (by omega) []

theorem blank_emptyFiles : EmptyFiles [] := ⟨by simp, by simp, by simp, .nil⟩

theorem blankDisk_flat (hs : 4 ≤ sectors) :
    Flat smallVolume (view smallVolume (blankDisk sectors)) :=
  smallDisk_flat hs blank_emptyFiles

theorem blankDisk_wellFormed (hs : 4 ≤ sectors) : WellFormed smallVolume (blankDisk sectors) :=
  smallDisk_wellFormed hs blank_emptyFiles .nil

theorem blankDisk_noLost (hs : 4 ≤ sectors) :
    NoLost smallVolume (view smallVolume (blankDisk sectors)) := by
  refine (blankDisk_flat hs).noLost (blankDisk_layout hs).geometry ?_
  intro c hc hused
  by_contra hne
  have h3 : 3 ≤ c := by
    have : 2 ≤ c := hc.1
    have : c ≠ 2 := hne
    omega
  exact hused (smallDisk_fat sectors [] h3 hc.2)

end Blank

end Willo.Fat
