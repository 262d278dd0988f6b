import Willo.Volumes

/-! Whole runs of mutating calls. The structure of a volume survives every run in
which no call creates a name that begins with the end marker; no cluster is lost
in those in which, besides, no call fails with some clusters still free. -/

namespace Willo.Fat
open Text Paths ByteCodec BlockDevice FaultState LinkedChain RootedGraph TreeStore

section Steps

variable {v : FatFs} {d : Disk} {c : Call}

theorem perform_kept (hshort : ∀ s ∈ c.path, ShortName s)
    (hmark : c.op ≠ .remove → ¬ beginsWithMark c.path) {ps : List Str} {name : Str}
    (hpath : c.path = ps ++ [name]) : c.op ≠ .remove → Kept name := by
  intro hop
  have hm := hmark hop
  rw [hpath] at hm
  exact kept_of_last (by rwa [hpath] at hshort) hm

theorem perform_sound (S : Sound v (view v d)) (hshort : ∀ s ∈ c.path, ShortName s)
    (hmark : c.op ≠ .remove → ¬ beginsWithMark c.path) : Sound v (view v (perform v c d).2) := by
  rcases perform_effect S (ShortName.components hshort) with ⟨-, -, hsame⟩ | ⟨ps, name, hpath, -, E⟩
  · rwa [hsame]
  · exact E.sound S fun hop => (perform_kept hshort hmark hpath hop).first

theorem perform_dotted (S : Sound v (view v d)) (D : Dotted v (view v d))
    (hshort : ∀ s ∈ c.path, ShortName s) : Dotted v (view v (perform v c d).2) := by
  rcases perform_effect S (ShortName.components hshort) with ⟨-, -, hsame⟩ | ⟨ps, name, -, -, E⟩
  · rwa [hsame]
  · exact E.dotted D S

end Steps

/-- The structure of a volume survives every run of calls on 8.3 paths, whatever they
return, if none creates a name that begins with the end marker. -/
theorem runCalls_intact {v : FatFs} {d : Disk} (L : Layout v d) (I : Intact v (view v d))
    {calls : List Call} (hshort : ∀ c ∈ calls, ∀ s ∈ c.path, ShortName s)
    (hmark : ∀ c ∈ calls, c.op ≠ .remove → ¬ beginsWithMark c.path) :
    Intact v (view v (runCalls v calls d)) := by
  have hrun : Along v (fun _ c => (∀ s ∈ c.path, ShortName s) ∧
      (c.op ≠ .remove → ¬ beginsWithMark c.path)) calls d :=
    along_of_forall fun c hc _ => ⟨hshort c hc, hmark c hc⟩
  obtain ⟨S, D⟩ := runCalls_invariant (I := fun d => Sound v (view v d) ∧ Dotted v (view v d))
    (fun d c ⟨S, D⟩ ⟨hs, hm⟩ => ⟨perform_sound S hs hm, perform_dotted S D hs⟩) hrun
      ⟨I.sound L, I.dots⟩
  exact S.intact D

/-- A root with a deleted slot before a live one. -/
def gappedDisk : Disk := smallDisk 20 [0xE5 :: List.replicate 31 0, writeShortEntry [66] 0x20 0 0]

theorem gappedDisk_layout : Layout smallVolume gappedDisk := smallDisk_layout (by decide) _

theorem gappedDisk_flat : Flat smallVolume (view smallVolume gappedDisk) :=
  smallDisk_flat (by decide) ⟨by decide, by decide, by decide, by
    unfold ZeroTail
    decide⟩

/-- Creating a file whose name is the end marker puts that marker before the live slot. -/
theorem createMark_breaks_tail :
    Layout smallVolume gappedDisk ∧ Intact smallVolume (view smallVolume gappedDisk) ∧
      ShortName [0x00] ∧
      ¬ Intact smallVolume
      (view smallVolume (runCalls smallVolume [⟨[[0x00]], .createFile⟩] gappedDisk)) := by
  refine ⟨gappedDisk_layout, gappedDisk_flat.intact gappedDisk_layout,
    .singleton (by decide), fun I => ?_⟩
  have htail := I.tails .root
  have hfirst : (dirSlots smallVolume (view smallVolume
      (runCalls smallVolume [⟨[[0x00]], .createFile⟩] gappedDisk)) 2).map (byteAt · 0) =
      0 :: 66 :: List.replicate 14 0 := by decide +kernel
  have hpair : (0 :: 66 :: List.replicate 14 0 : Bytes).Pairwise fun a b => a = 0x00 →
    b = 0x00 := by
    rw [← hfirst, List.pairwise_map]
    exact htail
  simp at hpair

/-- The structure theorem on a run with a failing call, a new directory and a reused slot. -/
theorem runCalls_intact_gappedDisk : Intact smallVolume (view smallVolume (runCalls smallVolume
    [⟨[[100]], .createDir⟩, ⟨[[100], [97]], .writeFile [1, 2]⟩, ⟨[[100]], .remove⟩,
      ⟨[[66]], .remove⟩]
    gappedDisk)) :=
  runCalls_intact gappedDisk_layout (gappedDisk_flat.intact gappedDisk_layout)
    (by
      have ha : ShortName [97] := .singleton (by decide)
      have hB : ShortName [66] := .singleton (by decide)
      have hd : ShortName [100] := .singleton (by decide)
      simp [ha, hB, hd])
    (by simp [beginsWithMark])

/-! Lost clusters. -/

/-- If the call gets past its checks, it neither creates a name that begins with the
end marker nor fails for lack of clusters with some left. -/
def Thrifty (v : FatFs) (d : Disk) (c : Call) : Prop :=
  ∀ ps name, c.path = ps ++ [name] → Ready v (view v d) ps name c.op →
    (c.op ≠ .remove → ¬ beginsWithMark c.path) ∧
      (Enough v (view v d) ps name c.op ∨ Exhausted v (view v d) ps name c.op)

theorem perform_thrifty {v : FatFs} {d : Disk} {c : Call} (S : Sound v (view v d))
    (hshort : ∀ s ∈ c.path, ShortName s) (h : Thrifty v d c) :
    Sound v (view v (perform v c d).2) ∧
      (NoLost v (view v d) → NoLost v (view v (perform v c d).2)) := by
  rcases perform_effect S (ShortName.components hshort) with ⟨-, -, hsame⟩ | ⟨ps, name, hpath, -, E⟩
  · rw [hsame]
    exact ⟨S, id⟩
  · by_cases hready : Ready v (view v d) ps name c.op
    · obtain ⟨hmark, henough⟩ := h ps name hpath hready
      have hkept := perform_kept hshort hmark hpath
      exact ⟨E.sound S fun hop => (hkept hop).first,
        fun L => E.noLost L S (fun hop => (hkept hop).1) henough⟩
    · rw [(E.refused_of hready).2]
      exact ⟨S, id⟩

/-- No cluster is lost in a run of such calls. -/
theorem runCalls_noLost {v : FatFs} {d : Disk} (W : WellFormed v d) (L : NoLost v (view v d))
    {calls : List Call} (hshort : ∀ c ∈ calls, ∀ s ∈ c.path, ShortName s)
    (hrun : Along v (Thrifty v) calls d) : NoLost v (view v (runCalls v calls d)) := by
  have hall : Along v (fun d c => (∀ s ∈ c.path, ShortName s) ∧ Thrifty v d c) calls d :=
    hrun.and_forall hshort
  have hstep : ∀ d c, Sound v (view v d) ∧ NoLost v (view v d) →
      (∀ s ∈ c.path, ShortName s) ∧ Thrifty v d c →
      Sound v (view v (perform v c d).2) ∧ NoLost v (view v (perform v c d).2) := by
    rintro d c ⟨S, L⟩ ⟨hs, ht⟩
    obtain ⟨S', hkeep⟩ := perform_thrifty S hs ht
    exact ⟨S', hkeep L⟩
  exact (runCalls_invariant (I := fun d => Sound v (view v d) ∧ NoLost v (view v d)) hstep hall
    ⟨W.sound, L⟩).2

/-- On a disk with room for the root alone, storing a byte marks a cluster and fails. -/
theorem failedWrite_loses_cluster :
    WellFormed smallVolume (blankDisk 4) ∧ NoLost smallVolume (view smallVolume (blankDisk 4)) ∧
      ShortName [97] ∧
      ¬ NoLost smallVolume
      (view smallVolume (runCalls smallVolume [⟨[[97]], .writeFile [1]⟩] (blankDisk 4))) := by
  refine ⟨blankDisk_wellFormed (by decide), blankDisk_noLost (by decide),
    .singleton (by decide), fun L => ?_⟩
  generalize hd : runCalls smallVolume [⟨[[97]], .writeFile [1]⟩] (blankDisk 4) = d at L
  have hflat : Flat smallVolume (view smallVolume d) := by
    subst hd
    exact ⟨by decide, by decide +kernel, by decide +kernel, by decide +kernel,
      by unfold ZeroTail; decide +kernel⟩
  have hsectors : d.sectors = 4 := by
    subst hd
    decide +kernel
  have hmarked : (view smallVolume d).fat 3 = 0x0FFFFFFF := by
    subst hd
    decide +kernel
  have g : Geometry smallVolume (view smallVolume d).sectors := by
    change Geometry smallVolume d.sectors
    rw [hsectors]
    exact (blankDisk_layout (show 4 ≤ 4 by decide)).geometry
  obtain ⟨o, ho⟩ := L 3 (by decide) (by rw [hmarked]; decide) (by rw [hmarked]; decide)
  exact absurd (hflat.held g ho).2 (by decide)

/-- With a cluster to spare the same call loses none, and a call that is refused may name
anything. -/
theorem runCalls_noLost_blankDisk : NoLost smallVolume (view smallVolume (runCalls smallVolume
    [⟨[[97]], .writeFile [1]⟩, ⟨[[110], [0]], .createFile⟩] (blankDisk 20))) := by
  refine runCalls_noLost (blankDisk_wellFormed (by decide)) (blankDisk_noLost (by decide)) ?_ ?_
  · have ha : ShortName [97] := .singleton (by decide)
    have hn : ShortName [110] := .singleton (by decide)
    have hmark : ShortName [0] := .singleton (by decide)
    simp [ha, hn, hmark]
  · refine ⟨fun ps name hpath _ => ⟨by simp [beginsWithMark], Or.inl ?_⟩,
      fun ps name hpath hready => absurd hready ?_, trivial⟩
    · obtain ⟨rfl, rfl⟩ :=
        List.append_singleton_inj.mp (show [] ++ [[97]] = ps ++ [name] from hpath)
      intro dir hdir _ _
      obtain rfl : 2 = dir := Option.some.inj hdir
      have hnone : findIn smallVolume (view smallVolume (blankDisk 20)) 2 [97] = none := by
        decide +kernel
      have hdemand : demand smallVolume (view smallVolume (blankDisk 20)) 2 none (.writeFile [1]) =
        1 := by
        decide +kernel
      rw [hnone, hdemand]
      exact usable_smallDisk (by decide) []
    · obtain ⟨rfl, rfl⟩ :=
        List.append_singleton_inj.mp (show [[110]] ++ [[0]] = ps ++ [name] from hpath)
      -- the directory of the second path does not exist
      exact not_ready (by decide +kernel)

end Willo.Fat
