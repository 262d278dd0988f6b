import Willo.DriverFaults
import Willo.Volumes

/-! What giving back a chain clears. The loop keeps no list of the clusters it has
met: it goes on as long as the FAT leads it, and a chain that comes back to one of
them finds the entry it has cleared itself. Whatever the FAT holds, the entries
cleared are those of the walk that the FAT described before. -/

namespace Willo.Fat
open ByteCodec BlockDevice FaultState PartialWalks

def fatLink (v : FatFs) (d : Disk) (c : Nat) : Option Nat :=
  if Followed (fatValue v d c) then some (fatValue v d c) else none

/-- The clusters that a loop from `start` is led to, each until a value that is not followed
or a cluster met before. -/
def OnWalk (v : FatFs) (d : Disk) (start c : Nat) : Prop :=
  Followed start ∧ Visits (fatLink v d) start c

def copyEntry (v : FatFs) (d : Disk) (i c : Nat) : Nat :=
  le32 (d.block (copySector v i (c * 4 / blockSize))).1 (c * 4 % blockSize)

/-- From `d` to `d'` the entries with `P` lost their value in every copy of the FAT, and
nothing else between them, in front of them or behind them changed. -/
structure Freed (v : FatFs) (P : Nat → Prop) (d d' : Disk) : Prop where
  sectors : d'.sectors = d.sectors
  cleared : ∀ i < v.numFats, ∀ c < clusterCount v, P c →
    copyEntry v d' i c = maskedEntry 0 (copyEntry v d i c)
  kept : ∀ i < v.numFats, ∀ c < clusterCount v, ¬ P c → copyEntry v d' i c = copyEntry v d i c
  outside : ∀ n, n < v.fatStartLba ∨ v.dataStartLba ≤ n → d'.block n = d.block n

section Freeing

variable {v : FatFs} {d d₀ d₁ d' : Disk} {c n i : Nat} {P Q : Nat → Prop}

theorem copyEntry_lt (v : FatFs) (d : Disk) (i c : Nat) : copyEntry v d i c < 2 ^ 32 := le32_lt _ _

theorem copyEntry_zero (v : FatFs) (d : Disk) (c : Nat) :
    copyEntry v d 0 c &&& clusterMask = fatValue v d c := by
  rw [copyEntry, copySector_zero]
  rfl

theorem FatArea.of_mount (hm : (exec mount d₀).1 = .ok v) (hcount : clusterCount v ≤ 0x0FFFFFF7)
    (hdev : v.dataStartLba ≤ d.sectors) : FatArea v d.sectors := by
  obtain ⟨hsector, -, -, hcopies, hstart, hdata, hlt, -⟩ := mount_ok hm
  exact ⟨hsector, hcopies, hstart, hdata, hlt, hcount, hdev⟩

/-! Entries without value. -/

theorem maskedEntry_zero_value (old : Nat) : maskedEntry 0 old &&& clusterMask = 0 :=
  maskedEntry_and_mask old (by decide)

theorem maskedEntry_zero_idem (old : Nat) :
    maskedEntry 0 (maskedEntry 0 old) = maskedEntry 0 old := by
  have hlow : 0 &&& clusterMask = 0 := Nat.zero_and _
  rw [maskedEntry, maskedEntry, hlow, Nat.zero_or, Nat.zero_or, Nat.and_assoc, Nat.and_self]

theorem Freed.refl (v : FatFs) (d : Disk) (h : ∀ c, ¬ P c) : Freed v P d d :=
  ⟨rfl, fun _ _ c _ hc => absurd hc (h c), fun _ _ _ _ _ => rfl, fun _ _ => rfl⟩

theorem Freed.trans (h : Freed v P d d₁) (h' : Freed v Q d₁ d') :
    Freed v (fun c => P c ∨ Q c) d d' where
  sectors := h'.sectors.trans h.sectors
  cleared i hi c hc hor := by
    by_cases hP : P c
    · have hfirst := h.cleared i hi c hc hP
      by_cases hQ : Q c
      · rw [h'.cleared i hi c hc hQ, hfirst, maskedEntry_zero_idem]
      · rw [h'.kept i hi c hc hQ, hfirst]
    · rw [h'.cleared i hi c hc (hor.resolve_left hP), h.kept i hi c hc hP]
  kept i hi c hc hnone := by
    push Not at hnone
    rw [h'.kept i hi c hc hnone.2, h.kept i hi c hc hnone.1]
  outside n hn := (h'.outside n hn).trans (h.outside n hn)

theorem Freed.congr (h : Freed v P d d') (hiff : ∀ c, P c ↔ Q c) : Freed v Q d d' := by
  obtain rfl : P = Q := funext fun c => propext (hiff c)
  exact h

theorem Freed.fatArea (h : Freed v P d d') (A : FatArea v d.sectors) : FatArea v d'.sectors := by
  rwa [h.sectors]

theorem Freed.fatValue_cleared (h : Freed v P d d') (A : FatArea v d.sectors)
    (hc : c < clusterCount v) (hP : P c) :
    fatValue v d' c = 0 := by
  rw [← copyEntry_zero, h.cleared 0 A.copiesPos c hc hP, maskedEntry_zero_value]

theorem Freed.fatValue_kept (h : Freed v P d d') (A : FatArea v d.sectors) (hc : c < clusterCount v)
    (hP : ¬ P c) :
    fatValue v d' c = fatValue v d c := by
  rw [← copyEntry_zero, h.kept 0 A.copiesPos c hc hP, copyEntry_zero]

/-! One entry, in every copy. -/

theorem le32_patchEntry_zero {b : Block} {off off' : Nat} (hoff : off + 4 ≤ blockSize)
    (hne : off' = off ∨ off' + 4 ≤ off ∨ off + 4 ≤ off') :
    le32 (patchEntry b off 0) off' = if off' = off then maskedEntry 0 (le32 b.1 off)
      else le32 b.1 off' := by
  have hlen : off + (toLe32 (maskedEntry 0 (le32 b.1 off))).length ≤ b.1.length := by
    rw [length_toLe32, b.2]
    exact hoff
  by_cases heq : off' = off
  · rw [if_pos heq, heq, patchEntry, le32_patch_self (by omega),
      Nat.mod_eq_of_lt (maskedEntry_lt _ _ (le32_lt _ _))]
  · rw [if_neg heq, patchEntry, le32_patch_other hlen (by rw [length_toLe32]; omega)]

theorem exec_clearEntry (A : FatArea v d.sectors) (hc : c < clusterCount v) :
    ∃ d₁, exec (writeFatEntry v c 0) d = (.ok (), d₁) ∧ Freed v (· = c) d d₁ := by
  obtain ⟨d₁, hrun, hsec, hin, hout⟩ := exec_writeFatEntry A hc 0
  have hk := entrySector_lt hc
  have hentry : ∀ i < v.numFats, ∀ x < clusterCount v,
      copyEntry v d₁ i x = if x = c then maskedEntry 0 (copyEntry v d i c)
        else copyEntry v d i x := by
    intro i hi x hx
    unfold copyEntry
    by_cases hsector : x * 4 / blockSize = c * 4 / blockSize
    · rw [hsector, hin i hi,
        le32_patchEntry_zero (by unfold blockSize; omega) (by unfold blockSize at hsector ⊢; omega)]
      refine if_congr ?_ rfl rfl
      unfold blockSize at hsector ⊢
      omega
    · rw [hout _ fun j _ h => hsector (copySector_inj (entrySector_lt hx) hk h).2,
        if_neg fun h => hsector (by rw [h])]
  refine ⟨d₁, hrun, hsec, fun i hi x hx hxc => ?_, fun i hi x hx hxc => ?_, fun k hk' =>
    hout k fun i hi h => ?_⟩
  · rw [hentry i hi x hx, if_pos hxc, hxc]
  · rw [hentry i hi x hx, if_neg hxc]
  · have hlt : copySector v i (c * 4 / blockSize) < v.dataStartLba := copy_lt_dataStart A hi hk
    have hge : v.fatStartLba ≤ copySector v i (c * 4 / blockSize) :=
      (Nat.le_add_right _ _).trans (Nat.le_add_right _ _)
    omega

/-! The walk. -/

theorem fatLink_eq_some {x : Nat} (h : fatLink v d c = some x) :
    Followed x ∧ x = fatValue v d c := by
  unfold fatLink at h
  split_ifs at h with hf
  cases h
  exact ⟨hf, rfl⟩

theorem fatLink_of_followed (h : Followed (fatValue v d c)) :
    fatLink v d c = some (fatValue v d c) := if_pos h

theorem OnWalk.start (h : Followed c) : OnWalk v d c c := ⟨h, .refl⟩

theorem onWalk_iff (A : FatArea v d.sectors) (hc : Followed c)
    (hwalk : ∀ x, OnWalk v d c x → x < clusterCount v) (hf : Freed v (· = c) d d₁) (x : Nat) :
    OnWalk v d c x ↔ x = c ∨ OnWalk v d₁ (fatValue v d c) x := by
  have hlink : ∀ b, fatLink v d c = some b → ∀ y, Visits (cut (fatLink v d) c) b y →
      fatLink v d₁ y = cut (fatLink v d) c y := by
    intro b hb y hy
    have hlt := hwalk y ⟨hc, .from_next hb hy.of_cut⟩
    by_cases hyc : y = c
    · rw [hyc, cut_self, fatLink, hf.fatValue_cleared A (hyc ▸ hlt) rfl]
      exact if_neg (by decide)
    · rw [cut_other _ hyc, fatLink, fatLink, hf.fatValue_kept A hlt hyc]
  rw [OnWalk, and_iff_right hc, visits_iff_cut]
  refine or_congr_right ⟨fun ⟨b, hb, hmet⟩ => ?_, fun ⟨hfollow, hmet⟩ => ?_⟩
  · obtain ⟨hfollow, rfl⟩ := fatLink_eq_some hb
    exact ⟨hfollow, (visits_congr (hlink _ hb)).mpr hmet⟩
  · have hb := fatLink_of_followed hfollow
    exact ⟨_, hb, (visits_congr (hlink _ hb)).mp hmet⟩

def valued (v : FatFs) (d : Disk) : Finset Nat :=
  (Finset.Ico 2 (clusterCount v)).filter fun c => fatValue v d c ≠ 0

theorem card_valued_le (v : FatFs) (d : Disk) : (valued v d).card ≤ clusterCount v - 2 := by
  have hle : (valued v d).card ≤ (Finset.Ico 2 (clusterCount v)).card := Finset.card_filter_le _ _
  rwa [Nat.card_Ico] at hle

theorem Freed.card_valued_lt (h : Freed v (· = c) d d₁) (A : FatArea v d.sectors) (hc : InFat v c)
    (hvalue : fatValue v d c ≠ 0) : (valued v d₁).card < (valued v d).card := by
  refine Finset.card_lt_card (Finset.ssubset_iff_of_subset (fun x hx => ?_) |>.mpr ⟨c, ?_,
    fun hmem => ?_⟩)
  · obtain ⟨hx, hne⟩ := Finset.mem_filter.mp hx
    refine Finset.mem_filter.mpr ⟨hx, ?_⟩
    have hlt := (Finset.mem_Ico.mp hx).2
    by_cases hxc : x = c
    · rwa [hxc]
    · rwa [← h.fatValue_kept A hlt hxc]
  · exact Finset.mem_filter.mpr ⟨Finset.mem_Ico.mpr hc, hvalue⟩
  · exact (Finset.mem_filter.mp hmem).2 (h.fatValue_cleared A hc.2 rfl)

/-- One turn clears an entry that had a value, or is the last but one. -/
theorem freeLoop_frees (A : FatArea v d.sectors) (freed : Nat)
    (hwalk : ∀ x, OnWalk v d c x → x < clusterCount v)
    (hfuel : 0 < n ∧ (Followed c → (valued v d).card + 2 ≤ n)) :
    ∃ m d', exec (freeLoop v n c freed) d = (.ok m, d') ∧ Freed v (OnWalk v d c) d d' := by
  induction n generalizing d c freed with
  | zero => exact absurd hfuel.1 (Nat.lt_irrefl 0)
  | succ n ih =>
    by_cases hc : Followed c
    · have hin : InFat v c := ⟨hc.1, hwalk c (.start hc)⟩
      obtain ⟨d₁, hclear, hf⟩ := exec_clearEntry A hin.2
      have hsplit := onWalk_iff A hc hwalk hf
      have hleft := hfuel.2 hc
      obtain ⟨m, d', hrun, hrest⟩ := ih (hf.fatArea A) (freed + 1)
        (fun x hx => hwalk x ((hsplit x).mpr (Or.inr hx)))
        ⟨by omega, fun hnext => by
          have hvalue : fatValue v d c ≠ 0 := Nat.ne_of_gt (Nat.lt_of_lt_of_le Nat.two_pos hnext.1)
          have := hf.card_valued_lt A hin hvalue
          omega⟩
      refine ⟨m, d', ?_, (hf.trans hrest).congr fun x => (hsplit x).symm⟩
      rw [freeLoop, if_pos (show 2 ≤ c ∧ c < eocThreshold from hc),
        exec_bind_ok (exec_nextCluster A hin.2), exec_bind_ok hclear, hrun]
    · refine ⟨freed, d, ?_, .refl v d fun x hx => hc hx.1⟩
      rw [freeLoop, if_neg (show ¬ (2 ≤ c ∧ c < eocThreshold) from hc), exec_pure]

theorem exec_noteFreed (A : FatArea v d.sectors) (hres : 2 ≤ v.reservedSectors) (m : Nat) :
    ∃ d', exec (if 0 < m then do
        let _ ← attempt (updateFsinfo m 0)
        pure ()
      else pure () : FatM Unit) d = (.ok (), d') ∧ d'.sectors = d.sectors ∧
      ∀ n, n ≠ 1 → d'.block n = d.block n := by
  have hone : 1 < d.sectors := by
    have := A.dataStart
    have := A.onDevice
    omega
  by_cases hm : 0 < m
  · refine ⟨d.write 1 (noted (d.block 1) (m, 0)), ?_, rfl, fun n hn => Disk.write_other _ _ hn⟩
    rw [if_pos hm, exec_bind_ok (exec_attempt_ok (exec_updateFsinfo hone _ _)), exec_pure]
  · exact ⟨d, by rw [if_neg hm, exec_pure], rfl, fun _ _ => rfl⟩

/-- On a device that holds the copies of the FAT, behind at least two sectors, `freeChain` ends
for every content of the FAT. In each copy it takes their value from the entries of the walk, the
other entries stay, and so do the four bits above a value and what lies in front of the copies
or behind. -/
theorem freeChain_frees {start : Nat} (hm : (exec mount d₀).1 = .ok v)
    (hres : 2 ≤ v.reservedSectors) (hcount : clusterCount v ≤ 0x0FFFFFF7)
    (hdev : v.fatStartLba + v.numFats * v.sectorsPerFat ≤ d.sectors)
    (hwalk : ∀ c, OnWalk v d start c → c < clusterCount v) :
    ∃ d', exec (freeChain v start) d = (.ok (), d') ∧ d'.sectors = d.sectors ∧
      (∀ i < v.numFats, ∀ c < clusterCount v,
        (copyEntry v d' i c &&& clusterMask = 0 ↔ OnWalk v d start c ∨
        copyEntry v d i c &&& clusterMask = 0) ∧
        (¬ OnWalk v d start c → copyEntry v d' i c = copyEntry v d i c) ∧
        copyEntry v d' i c / 2 ^ 28 = copyEntry v d i c / 2 ^ 28) ∧
      ∀ n, n ≠ 1 → n < v.fatStartLba ∨ v.dataStartLba ≤ n → d'.block n = d.block n := by
  obtain ⟨-, -, -, -, hstart, hdata, -⟩ := mount_ok hm
  have A : FatArea v d.sectors := .of_mount hm hcount (by omega)
  have hle := card_valued_le v d
  have hroom : (valued v d).card + 2 ≤ chainFuel := by
    unfold chainFuel eocThreshold
    omega
  obtain ⟨m, d₁, hloop, hf⟩ := freeLoop_frees A 0 hwalk ⟨by decide, fun _ => hroom⟩
  obtain ⟨d', hnote, hsec, hsame⟩ := exec_noteFreed (hf.fatArea A) hres m
  have hcopies : ∀ i < v.numFats, ∀ c < clusterCount v,
    copyEntry v d' i c = copyEntry v d₁ i c := by
    intro i hi c hc
    have hge : v.fatStartLba ≤ copySector v i (c * 4 / blockSize) :=
      (Nat.le_add_right _ _).trans (Nat.le_add_right _ _)
    rw [copyEntry, hsame _ (by omega)]
    rfl
  refine ⟨d', by rw [freeChain, exec_bind_ok hloop,
    hnote], hsec.trans hf.sectors, fun i hi c hc => ?_,
    fun n hn hout => (hsame n hn).trans (hf.outside n hout)⟩
  rw [hcopies i hi c hc]
  by_cases hc' : OnWalk v d start c
  · rw [hf.cleared i hi c hc hc', maskedEntry_zero_value]
    exact ⟨iff_of_true rfl (Or.inl hc'), fun h => absurd hc' h,
      maskedEntry_top (copyEntry_lt v d i c)⟩
  · rw [hf.kept i hi c hc hc']
    exact ⟨(or_iff_right hc').symm, fun _ => rfl, rfl⟩

end Freeing

/-- A chain from cluster 2 that comes back to its second cluster, and one from cluster 5 that
runs into it. -/
def ringDisk : Disk where
  sectors := 3
  block
    | 0 => (blankDisk 4).block 0
    | 2 => sector ([0x0FFFFFF8, 0x0FFFFFFF, 0x30000003, 4, 3, 4].flatMap toLe32)
    | _ => sector []

theorem freeChain_frees_ringDisk : ∃ d', exec (freeChain smallVolume 2) ringDisk = (.ok (), d') ∧
    d'.sectors = ringDisk.sectors ∧
    (∀ i < smallVolume.numFats, ∀ c < clusterCount smallVolume,
      (copyEntry smallVolume d' i c &&& clusterMask = 0 ↔
        OnWalk smallVolume ringDisk 2 c ∨ copyEntry smallVolume ringDisk i c &&& clusterMask = 0) ∧
      (¬ OnWalk smallVolume ringDisk 2 c →
      copyEntry smallVolume d' i c = copyEntry smallVolume ringDisk i c) ∧
      copyEntry smallVolume d' i c / 2 ^ 28 = copyEntry smallVolume ringDisk i c / 2 ^ 28) ∧
    ∀ n, n ≠ 1 → n < smallVolume.fatStartLba ∨ smallVolume.dataStartLba ≤ n →
    d'.block n = ringDisk.block n := by
  have hm : (exec mount ringDisk).1 = .ok smallVolume := by decide +kernel
  have hring : fatLink smallVolume ringDisk 2 = some 3 ∧ fatLink smallVolume ringDisk 3 = some 4 ∧
      fatLink smallVolume ringDisk 4 = some 3 := by decide +kernel
  have hwithin : Within (fatLink smallVolume ringDisk) {2, 3, 4} 2 := by
    refine .of_closed (by simp) fun b hb c hc => ?_
    rcases hb with rfl | rfl | rfl
    · rw [hring.1] at hc
      cases hc
      simp
    · rw [hring.2.1] at hc
      cases hc
      simp
    · rw [hring.2.2] at hc
      cases hc
      simp
  refine freeChain_frees hm (by decide) (by decide) (by decide) fun c hc => ?_
  have hc := hwithin c hc.2
  have hlast : c ≤ 4 := by
    rcases hc with rfl | rfl | rfl <;> decide
  exact Nat.lt_of_le_of_lt hlast (by decide)

end Willo.Fat
