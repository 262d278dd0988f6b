import Willo.VolumeUpkeep

/-! The counters of the FSInfo sector across a call that succeeds: the free count moves
with the number of free FAT entries, and the hint names the last cluster taken. -/

namespace Willo.Fat
open Text Paths ByteCodec BlockDevice FaultState LinkedChain RootedGraph TreeStore

def freeCount (b : Block) : Nat := le32 b.1 0x1E8

def nextFree (b : Block) : Nat := le32 b.1 0x1EC

section Updates

variable {b : Block} {u : Int × Nat} {us : List (Int × Nat)}

theorem SameFrame.trans {b' b'' : Block} (h : SameFrame b b') (h' : SameFrame b' b'') :
    SameFrame b b'' :=
  fun i hi => (h' i hi).trans (h i hi)

theorem SameFrame.signed {b' : Block} (h : SameFrame b b') (hs : Signed b) : Signed b' := by
  unfold Signed at hs ⊢
  rwa [h.le32_eq (by decide), h.le32_eq (by decide)]

theorem noted_spec (hs : Signed b) (hf : freeCount b ≠ 0xFFFFFFFF) (h0 : 0 ≤ freeCount b + u.1)
    (h1 : freeCount b + u.1 < 2 ^ 32) (hu : u.2 < 2 ^ 32) :
    SameFrame b (noted b u) ∧ (freeCount (noted b u) : Int) = freeCount b + u.1 ∧
      nextFree (noted b u) = if u.2 ≠ 0 then u.2 else nextFree b := by
  have hlen := b.2
  unfold blockSize at hlen
  have hsigned : ¬(le32 b.1 0 ≠ 0x41615252 ∨ le32 b.1 484 ≠ 0x61417272) := by
    rw [hs.1, hs.2]
    simp
  obtain ⟨count, hcount⟩ : ∃ count : Nat, (count : Int) = freeCount b + u.1 :=
    ⟨(freeCount b + u.1).toNat, Int.toNat_of_nonneg h0⟩
  have hmax : ((le32 b.1 0x1E8 + u.1) ⊔ 0).toNat = count := by
    change ((freeCount b + u.1) ⊔ 0).toNat = count
    rw [← hcount]
    omega
  have hbytes : (noted b u).1 = if u.2 ≠ 0 then
    patch (patch b.1 0x1E8 (toLe32 count)) 0x1EC (toLe32 u.2)
      else patch b.1 0x1E8 (toLe32 count) := by
    change notedBytes b.1 u.1 u.2 = _
    unfold notedBytes
    rw [if_neg hsigned]
    have hknown : le32 b.1 0x1E8 ≠ 0xFFFFFFFF := hf
    dsimp only
    rw [if_pos hknown, hmax]
  have hsmall : count < 2 ^ 32 := by omega
  have hin : 0x1E8 + (toLe32 count).length ≤ b.1.length := by
    rw [length_toLe32]
    omega
  have hin' : 0x1EC + (toLe32 u.2).length ≤ (patch b.1 0x1E8 (toLe32 count)).length := by
    rw [length_patch hin, length_toLe32]
    omega
  have hself : le32 (patch b.1 0x1E8 (toLe32 count)) 0x1E8 = count := by
    rw [le32_patch_self (by omega), Nat.mod_eq_of_lt hsmall]
  refine ⟨sameFrame_noted b u, ?_⟩
  unfold freeCount nextFree
  rw [hbytes]
  by_cases hz : u.2 ≠ 0
  · rw [if_pos hz, if_pos hz]
    refine ⟨?_, ?_⟩
    · rw [le32_patch_other hin' (Or.inl (by decide)), hself]
      exact hcount
    · rw [le32_patch_self (by rw [length_patch hin]; omega), Nat.mod_eq_of_lt hu]
  · rw [if_neg hz, if_neg hz]
    refine ⟨?_, ?_⟩
    · rw [hself]
      exact hcount
    · rw [le32_patch_other hin (Or.inr (by rw [length_toLe32]))]

theorem netChange_cons (u : Int × Nat) (us : List (Int × Nat)) :
    netChange (u :: us) = u.1 + netChange us := by
  simp [netChange]

theorem netChange_nonpos (h : ∀ u ∈ us, u.1 ≤ 0) : netChange us ≤ 0 := by
  induction us with
  | nil => simp [netChange]
  | cons u us ih =>
    have hhead := h u (by simp)
    have htail := ih fun x hx => h x (by simp [hx])
    rw [netChange_cons]
    omega

theorem foldl_noted (hs : Signed b) (hf : freeCount b < 0xFFFFFFFF) (hfall : ∀ u ∈ us, u.1 ≤ 0)
    (hsmall : ∀ u ∈ us, u.2 < 2 ^ 32) (hnet : 0 ≤ freeCount b + netChange us) :
    SameFrame b (us.foldl noted b) ∧
      (freeCount (us.foldl noted b) : Int) = freeCount b + netChange us ∧
      nextFree (us.foldl noted b) = (lastHint us).getD (nextFree b) := by
  induction us generalizing b with
  | nil => exact ⟨fun _ _ => rfl, by simp [netChange], rfl⟩
  | cons u us ih =>
    have hhead := hfall u (by simp)
    have htail : netChange us ≤ 0 := netChange_nonpos fun x hx => hfall x (by simp [hx])
    rw [netChange_cons] at hnet ⊢
    obtain ⟨hframe, hcount, hnext⟩ :=
      noted_spec hs (Nat.ne_of_lt hf) (by omega) (by omega) (hsmall u (by simp))
    obtain ⟨hframe', hcount', hnext'⟩ :=
      ih (hframe.signed hs) (by omega) (fun x hx => hfall x (by simp [hx]))
      (fun x hx => hsmall x (by simp [hx])) (by omega)
    refine ⟨hframe.trans hframe', ?_, ?_⟩
    · rw [List.foldl_cons, hcount', hcount]
      omega
    · have hhint : lastHint (u :: us) = (lastHint us).or (lastHint [u]) := lastHint_append [u] us
      rw [List.foldl_cons, hnext', hnext, hhint]
      cases lastHint us with
      | some x => rfl
      | none =>
        by_cases hz : u.2 = 0
        · simp [lastHint, hz]
        · simp [lastHint, hz]

end Updates

def replaced (v : FatFs) (w : View) (path : List Str) : Option DirEntry :=
  path.getLast?.bind (oldAt v w path.dropLast)

/-- The clusters a call takes, in the order it takes them: free once the chain of the old
entry is, and in use afterwards. The lowest free cluster is taken first. -/
def allocated (v : FatFs) (c : Call) (d : Disk) : List Nat :=
  (freeClusters v (released v (view v d) (replaced v (view v d) c.path))).filter fun x =>
    (view v (perform v c d).2).fat x ≠ 0

section Counting

variable {v : FatFs} {d : Disk} {w w' : View} {us : List (Int × Nat)} {n : Nat}

theorem Taken.filter_used (h : Taken v w w' us n) :
    (freeClusters v w).filter (fun x => w'.fat x ≠ 0) = (freeClusters v w).take n := by
  have hsplit := List.take_append_drop n (freeClusters v w)
  have hapart := List.nodup_append.mp (hsplit ▸ freeClusters_nodup v w)
  have hused : ∀ x ∈ (freeClusters v w).take n, w'.fat x ≠ 0 := by
    intro x hx hzero
    have hin := (mem_freeClusters.mp (List.mem_of_mem_take hx)).1
    have hfree : x ∈ freeClusters v w' := mem_freeClusters.mpr ⟨hin, hzero⟩
    rw [h.rest] at hfree
    exact hapart.2.2 x hx x hfree rfl
  have hrest : ∀ x ∈ (freeClusters v w).drop n, w'.fat x = 0 := by
    intro x hx
    rw [← h.rest] at hx
    exact (mem_freeClusters.mp hx).2
  calc (freeClusters v w).filter (fun x => w'.fat x ≠ 0)
      = ((freeClusters v w).take n ++ (freeClusters v w).drop n).filter (fun x =>
        w'.fat x ≠ 0) := by rw [hsplit]
    _ = (freeClusters v w).take n ++ [] := by
      rw [List.filter_append, List.filter_eq_self.mpr fun x hx => by simpa using hused x hx,
        List.filter_eq_nil_iff.mpr fun x hx => by simpa using hrest x hx]
    _ = (freeClusters v w).take n := List.append_nil _

theorem Taken.length_free (h : Taken v w w' us n) :
    ((freeClusters v w').length : Int) = (freeClusters v w).length + netChange us := by
  have hroom := h.room
  rw [h.rest, List.length_drop, h.total]
  omega

theorem length_released (S : Sturdy v w) {old : Option DirEntry}
    (hold : ∀ e, old = some e → ∃ dir i, Reach (graph v w) dir ∧ entryAt v w dir i = some e) :
    ((freeClusters v (released v w old)).length : Int) =
      (freeClusters v w).length + netChange (releaseNotes v w old) := by
  cases old with
  | none => simp [released, releaseNotes, netChange]
  | some e =>
    obtain ⟨dir, i, hr, he⟩ := hold e rfl
    change ((freeClusters v (w.clear (chainOf v w e.cluster))).length : Int) = _
    have hlen : (freeClusters v (w.clear (chainOf v w e.cluster))).length =
        (freeClusters v w).length + (chainOf v w e.cluster).length := by
      rcases S.start hr he with hlt | hproper
      · simp [chainOf_small hlt, View.clear]
      · exact length_freeClusters_clear S.geometry hproper.2
    rw [hlen, releaseNotes]
    by_cases hnil : chainOf v w e.cluster = []
    · simp [hnil, netChange]
    · simp [hnil, netChange]

theorem replaced_snoc (w : View) (ps : List Str) (name : Str) :
    replaced v w (ps ++ [name]) = oldAt v w ps name := by
  rw [replaced, List.getLast?_concat, Option.bind_some, List.dropLast_concat]

theorem oldAt_entry {ps : List Str} {name : Str} (hn : Component name) {e : DirEntry}
    (h : oldAt v w ps name = some e) :
    ∃ dir i, Reach (graph v w) dir ∧ entryAt v w dir i = some e := by
  obtain ⟨dir, hdir, hf⟩ := Option.bind_eq_some_iff.mp h
  obtain ⟨i, -, -, he, -⟩ := find_entry hn hf
  exact ⟨dir, i, parentDir_reach hdir, he⟩

theorem releaseNotes_noted (S : Sturdy v w) {old : Option DirEntry} {b : Block}
    (hold : ∀ e, old = some e → ∃ dir i, Reach (graph v w) dir ∧ entryAt v w dir i = some e)
    (hs : Signed b) (hmax : freeCount b ≤ clusterCount v) :
    let b₁ := (releaseNotes v w old).foldl noted b
    SameFrame b b₁ ∧ (freeCount b₁ : Int) = freeCount b + netChange (releaseNotes v w old) ∧
      nextFree b₁ = nextFree b ∧ freeCount b₁ < 0xFFFFFFFF ∧
        0 ≤ netChange (releaseNotes v w old) := by
  have hcount := S.geometry.countLe
  have hnothing : releaseNotes v w old = [] → _ := fun h => show
      let b₁ := (releaseNotes v w old).foldl noted b
      SameFrame b b₁ ∧ (freeCount b₁ : Int) = freeCount b + netChange (releaseNotes v w old) ∧
        nextFree b₁ = nextFree b ∧ freeCount b₁ < 0xFFFFFFFF ∧
          0 ≤ netChange (releaseNotes v w old) by
    rw [h]
    exact ⟨fun _ _ => rfl, by
      simp [netChange], rfl, by change freeCount b < _; omega, by simp [netChange]⟩
  cases old with
  | none => exact hnothing rfl
  | some e =>
    by_cases hnil : chainOf v w e.cluster = []
    · exact hnothing (if_pos hnil)
    · obtain ⟨dir, i, hr, he⟩ := hold e rfl
      have hnotes : releaseNotes v w (some e) = [(((chainOf v w e.cluster).length : Int), 0)] :=
        if_neg hnil
      have hlen : (chainOf v w e.cluster).length ≤ clusterCount v := by
        rcases S.start hr he with hlt | hproper
        · simp [chainOf_small hlt]
        · exact hproper.2.length_le S.geometry
      obtain ⟨hframe, hfree, hnext⟩ := noted_spec (u := ((chainOf v w e.cluster).length, 0)) hs
        (by omega) (by omega) (by dsimp only; omega) (show 0 < 2 ^ 32 by decide)
      rw [hnotes]
      refine ⟨hframe, ?_, ?_, ?_, by simp [netChange]⟩
      · simpa [netChange] using hfree
      · simpa using hnext
      · change freeCount (noted b _) < _
        dsimp only at hfree
        omega

end Counting

def zeroEntries (v : FatFs) (d : Disk) : Nat := (freeClusters v (view v d)).length

/-- A call that succeeds moves the free count by as much as the number of free entries,
and changes nothing else in the FSInfo sector but the hint, to the last cluster taken. -/
theorem perform_fsinfo {v : FatFs} {d : Disk} {c : Call} (W : WellFormed v d)
    (hshort : ∀ s ∈ c.path, ShortName s)
    (hs : Signed (d.block 1)) (hmax : freeCount (d.block 1) ≤ v.sectorsPerFat * 128)
    (hmin : (allocated v c d).length ≤ freeCount (d.block 1)) (hok : (perform v c d).1 = .ok ()) :
    (freeCount ((perform v c d).2.block 1) : Int) - freeCount (d.block 1) =
        zeroEntries v (perform v c d).2 - zeroEntries v d ∧
      SameFrame (d.block 1) ((perform v c d).2.block 1) ∧
      (nextFree ((perform v c d).2.block 1) = nextFree (d.block 1) ∨
        (allocated v c d).getLast? = some (nextFree ((perform v c d).2.block 1))) := by
  have S := W.sound.toSturdy
  rcases List.eq_nil_or_concat c.path with hnil | ⟨ps, name, hpath⟩
  · obtain ⟨err, hrun⟩ := apply_root S c.op
    have hexec : exec (apply v (render []) c.op) d = (.ok (), (perform v c d).2) := by
      rw [← hok, ← hnil]
      rfl
    have := (hrun.exec_eq hexec).1
    cases this
  · rw [List.concat_eq_append] at hpath
    have hcomps := ShortName.components hshort
    have hn : Component name := hcomps name (by simp [hpath])
    have hps : ∀ s ∈ ps, Component s := fun s hs => hcomps s (by simp [hpath, hs])
    have hexec : exec (apply v (render (ps ++ [name])) c.op) d = (.ok (), (perform v c d).2) := by
      rw [← hok, ← hpath]
      rfl
    obtain ⟨us, n, hwrote, htaken⟩ := (apply_leaves S hps hn c.op).of_ok hexec
    have hold : replaced v (view v d) c.path = oldAt v (view v d) ps name := by
      rw [hpath, replaced_snoc]
    have hentry : ∀ e, oldAt v (view v d) ps name = some e →
        ∃ dir i, Reach (graph v (view v d)) dir ∧ entryAt v (view v d) dir i = some e :=
      fun _ h => oldAt_entry hn h
    have hall : allocated v c d =
        (freeClusters v (released v (view v d) (oldAt v (view v d) ps name))).take n := by
      rw [allocated, hold, htaken.filter_used]
    have hlen : (allocated v c d).length = n := by
      rw [hall, List.length_take]
      exact Nat.min_eq_left htaken.room
    obtain ⟨hframe, hcount, hnext, hbelow, hrise⟩ := releaseNotes_noted S hentry hs hmax
    obtain ⟨hframe', hcount', hnext'⟩ :=
      foldl_noted (hframe.signed hs) hbelow htaken.falling htaken.hints
      (by rw [hcount, htaken.total]; omega)
    rw [← List.foldl_append, ← hwrote.fsinfo] at hframe' hcount' hnext'
    have hreleased := length_released S hentry
    have hfree := htaken.length_free
    refine ⟨?_, hframe.trans hframe', ?_⟩
    · unfold zeroEntries
      omega
    · rw [hnext', hnext, htaken.hint, ← hall]
      cases (allocated v c d).getLast? with
      | none => exact Or.inl rfl
      | some x => exact Or.inr rfl

theorem twinDisk_fat {c : Nat} (h3 : 3 ≤ c) (hc : c < 128) :
    (view twinVolume twinDisk).fat c = 0 := by
  have hsector : c * 4 / 512 = 0 := by omega
  have hoff : c * 4 % 512 = c * 4 := by omega
  have hpast : 12 ≤ c * 4 := by omega
  change (if c < 128 then le32 (twinDisk.block (2 + c * 4 / 512)).1 (c * 4 % 512) &&& clusterMask
    else 0) = 0
  rw [if_pos hc, hsector, hoff]
  exact congrArg (· &&& clusterMask) (le32_sector hpast)

theorem twinDisk_free : freeClusters twinVolume (view twinVolume twinDisk) = List.range' 3 125 := by
  have hroot : (view twinVolume twinDisk).fat 2 ≠ 0 := by decide +kernel
  change (List.range' 2 126).filter _ = _
  rw [List.range'_succ, List.filter_cons_of_neg (by simpa using hroot), List.filter_eq_self]
  intro c hc
  obtain ⟨hle, hlt⟩ := List.mem_range'_1.mp hc
  simpa using twinDisk_fat hle hlt

def longWrite : Call := ⟨[[97]], .writeFile (List.replicate 600 7)⟩

/-- Stored on a disk whose 125 clusters behind the root are free: the hint goes from 3 to 4. -/
theorem perform_fsinfo_twinDisk :
    (freeCount ((perform twinVolume longWrite twinDisk).2.block 1) : Int) - 125 =
        zeroEntries twinVolume (perform twinVolume longWrite twinDisk).2 - 125 ∧
      nextFree (twinDisk.block 1) = 3 ∧
      nextFree ((perform twinVolume longWrite twinDisk).2.block 1) = 4 := by
  have hshort : ∀ s ∈ [[97]], ShortName s := by
    simpa using ShortName.singleton (b := 97) (by decide)
  have hsigned : Signed (twinDisk.block 1) := ⟨by decide +kernel, by decide +kernel⟩
  have hcount : freeCount (twinDisk.block 1) = 125 := by decide +kernel
  have hzeros : zeroEntries twinVolume twinDisk = 125 := by
    rw [zeroEntries, twinDisk_free, List.length_range']
  have hfresh : replaced twinVolume (view twinVolume twinDisk) [[97]] = none := by decide +kernel
  have htakes : (allocated twinVolume longWrite twinDisk).length ≤ 125 := by
    rw [allocated, longWrite, hfresh, released, twinDisk_free]
    exact (List.length_filter_le _ _).trans (List.length_range').le
  have hok : (perform twinVolume longWrite twinDisk).1 = .ok () := by decide +kernel
  obtain ⟨hfree, -, -⟩ := perform_fsinfo (c := longWrite) twinDisk_wellFormed hshort hsigned
    (by rw [hcount]; decide) (by rw [hcount]; exact htakes) hok
  rw [hcount, hzeros] at hfree
  exact ⟨hfree, by decide +kernel, by decide +kernel⟩

end Willo.Fat
