import Willo.StoredFiles

/-! Calls that fail. Only lack of clusters can fail a call after it has changed the
disk, and what it took then was free. The one thing a failed call can destroy is
the file it was about to replace, whose chain and entry go first. -/

namespace Willo.Fat
open Text Paths ByteCodec BlockDevice FaultState LinkedChain RootedGraph TreeStore

def SameAnswers (v : FatFs) (d d' : Disk) : Prop :=
  ∀ abs, answer (readFile v abs) d' = answer (readFile v abs) d ∧
    answer (listDir v abs) d' = answer (listDir v abs) d ∧
    answer (isDir v abs) d' = answer (isDir v abs) d

section Sparing

variable {v : FatFs} {w w' : View} {d d' : Disk}

theorem Spares.lookupIn_eq (S : Sturdy v w) (h : Spares w w') (abs : Str) :
    lookupIn v w' abs = lookupIn v w abs := by
  have hwalk : walk v w' (rootEntry v) (segments abs) = walk v w (rootEntry v) (segments abs) :=
    walk_congr fun _ s _ _ n hn => by
      rw [findIn, S.entriesIn_spares h (parentDir_reach hn), findIn]
  rw [lookupIn, lookupIn, hwalk]

theorem Spares.fileAt_eq (S : Sturdy v w) (h : Spares w w') (abs : Str) :
    fileAt v w' abs = fileAt v w abs := by
  rw [fileAt, fileAt, h.lookupIn_eq S abs]
  cases hl : lookupIn v w abs with
  | error _ => rfl
  | ok e =>
    change (if e.isDir then _ else _) = (if e.isDir then _ else _)
    split_ifs with hd
    · rfl
    · rcases lookupIn_located hl with rfl | ⟨n, i, hr, hi⟩
      · exact absurd rfl hd
      · rw [S.content_spares h hr hi]

theorem Spares.namesAt_eq (S : Sturdy v w) (h : Spares w w') (abs : Str) :
    namesAt v w' abs = namesAt v w abs := by
  rw [namesAt, namesAt, h.lookupIn_eq S abs]
  cases hl : lookupIn v w abs with
  | error _ => rfl
  | ok e =>
    change (if e.isDir then _ else _) = (if e.isDir then _ else _)
    split_ifs with hd
    · rw [S.entriesIn_spares h ((lookupIn_located hl).reach hd)]
    · rfl

theorem Spares.sameAnswers (S : Sturdy v (view v d)) (S' : Sturdy v (view v d'))
    (h : Spares (view v d) (view v d')) : SameAnswers v d d' := by
  intro abs
  rw [answer_readFile S', answer_readFile S, answer_listDir S', answer_listDir S, answer_isDir S',
    answer_isDir S, h.fileAt_eq S, h.namesAt_eq S, dirAt, h.lookupIn_eq S, dirAt]
  exact ⟨rfl, rfl, rfl⟩

end Sparing

/-- The call replaces a file that is there, and the new content needs more clusters than
the device has free once the old chain is given back. -/
def Overrun (v : FatFs) (w : View) (p : List Str) (op : Mutation UInt8) : Prop :=
  ∃ ps name dir e data, p = ps ++ [name] ∧ parentDir v w ps = some dir ∧
    findIn v w dir name = some e ∧ e.isDir = false ∧ newData v w (some e) op = some data ∧
    usable v (released v w (some e)) < clustersFor v data.length

section Failing

variable {v : FatFs} {d d' : Disk} {w w' : View} {ps : List Str} {name : Str} {op : Mutation UInt8}
  {r : Except Fault Unit}

/-- A failing call that is no such replacement changes free clusters only. -/
theorem Effect.spares_of_failed (E : Effect v w ps name op r w')
    (hfail : r ≠ .ok ()) (hover : ¬ Overrun v w (ps ++ [name]) op) : Spares w w' := by
  cases E with
  | refused _ => exact .refl w
  | removed => exact absurd rfl hfail
  | stored => exact absurd rfl hfail
  | @starved dir w₁ _ hdir hperm hop hlack C hspare _ _ =>
    cases hf : findIn v w dir name with
    | none =>
      rw [hf] at C
      cases C
      exact hspare
    | some e =>
      exfalso
      rw [hf] at C hlack hperm
      cases C with
      | dropped hfile _ _ _ =>
        cases hdata : newData v w (some e) op with
        | none =>
          cases op with
          | createDir => cases hperm
          | remove => exact hop rfl
          | _ => cases hdata
        | some data =>
          refine hover ⟨ps, name, dir, e, data, rfl, hdir, hf, hfile, hdata, ?_⟩
          rw [demand, hdata] at hlack
          simpa using hlack

theorem Effect.unreadable_of_overrun (S : Sound v w) (U : UniqueNames v w) (hn : Component name)
    (hps : ∀ s ∈ ps, Component s) (E : Effect v w ps name op r w')
    (hover : Overrun v w (ps ++ [name]) op) :
    r ≠ .ok () ∧ (∃ b, fileAt v w (render (ps ++ [name])) = .ok b) ∧
      fileAt v w' (render (ps ++ [name])) = .error .notFound := by
  obtain ⟨ps', name', dir, e, data, hpath, hdir, hf, hfile, hdata, hlack⟩ := hover
  obtain ⟨rfl, rfl⟩ := List.append_singleton_inj.mp hpath
  have hcomps : ∀ s ∈ ps ++ [name], Component s :=
    List.forall_mem_append.mpr ⟨hps, List.forall_mem_singleton.mpr hn⟩
  have hop : op ≠ .remove := by
    rintro rfl
    cases hdata
  have hready : Ready v w ps name op := by
    refine ⟨dir, hdir, ?_⟩
    rw [hf]
    cases op with
    | createDir => cases hdata
    | remove => exact absurd rfl hop
    | _ => exact fun f hf' => Option.some.inj hf' ▸ hfile
  have hdemand : ¬ demand v w dir (some e) op ≤ usable v (released v w (some e)) := by
    rw [demand, hdata]
    simpa using hlack
  have hbefore : fileAt v w (render (ps ++ [name])) = .ok (content v w e) := by
    rw [fileAt_snoc hcomps hdir, hf]
    exact if_neg (by simp [hfile])
  cases E with
  | refused hno => exact absurd hready hno
  | removed h => exact absurd h hop
  | stored hdir' _ _ hroom =>
    obtain rfl := Option.some.inj (hdir.symm.trans hdir')
    rw [hf] at hroom
    exact absurd hroom hdemand
  | @starved dir' w₁ _ hdir' hperm _ _ C hspare _ hw =>
    obtain rfl := Option.some.inj (hdir.symm.trans hdir')
    have hr := parentDir_reach hdir
    have S₁ := (C.sound S).toSturdy
    have hr₁ := C.reach S.toSturdy hr
    have F := C.framed_trans S U hr (hspare.confined S₁ hr₁ name).toFramed
    refine ⟨by simp, ⟨_, hbefore⟩, ?_⟩
    rw [fileAt_snoc hcomps (F.parentDir_eq S.toSturdy hdir), findIn, S₁.entriesIn_spares hspare hr₁]
    have hnone := C.findIn_self S.toSturdy U
    rw [findIn] at hnone
    rw [hnone]

end Failing

/-- A failing call leaves every answer as it was exactly when it is not the replacement of
a file by a content for which there are too few clusters. -/
theorem failure_harmless_iff {v : FatFs} {d : Disk} (W : WellFormed v d) {p : List Str}
    (hp : ∀ s ∈ p, ShortName s) (op : Mutation UInt8) :
    ((perform v ⟨p, op⟩ d).1 ≠ .ok () → SameAnswers v d (perform v ⟨p, op⟩ d).2) ↔
      ¬ Overrun v (view v d) p op := by
  have S := W.sound
  have hcomps := ShortName.components hp
  rcases perform_effect (c := ⟨p, op⟩) S hcomps with ⟨hnil, -, hsame⟩ | ⟨ps, name, hpath, hn, E⟩
  · -- the root itself: refused, and no entry to replace
    change p = [] at hnil
    subst hnil
    constructor
    · rintro - ⟨ps, name, -, -, -, hpath, -⟩
      simp at hpath
    · intro _ _
      refine Spares.sameAnswers S.toSturdy ?_ ?_ <;> rw [hsame]
      · exact S.toSturdy
      · exact .refl _
  · change p = ps ++ [name] at hpath
    subst hpath
    have hps : ∀ s ∈ ps, Component s := fun s hs => hcomps s (by simp [hs])
    constructor
    · intro h hover
      obtain ⟨hfail, ⟨b, hbefore⟩, hafter⟩ := E.unreadable_of_overrun S W.names hn hps hover
      have hread := (h hfail (render (ps ++ [name]))).1
      rw [answer_readFile (E.sturdy S.toSturdy), answer_readFile S.toSturdy, hbefore,
        hafter] at hread
      cases hread
    · intro hover hfail
      exact (E.spares_of_failed hfail hover).sameAnswers S.toSturdy (E.sturdy S.toSturdy)

/-- A root that holds the empty file `a`, on a device with room for nothing else. -/
def fullDisk : Disk := smallDisk 4 [writeShortEntry [97] 0x20 0 0]

theorem fullDisk_wellFormed : WellFormed smallVolume fullDisk :=
  smallDisk_wellFormed (by decide) ⟨by decide, by decide, by decide, List.pairwise_singleton _ _⟩
    (List.pairwise_singleton _ _)

/-- Overwriting `a` fails, and `a` is gone. -/
theorem failedOverwrite_loses_file :
    WellFormed smallVolume fullDisk ∧ (∀ s ∈ [[97]], ShortName s) ∧
      (perform smallVolume ⟨[[97]], .writeFile [1]⟩ fullDisk).1 ≠ .ok () ∧
      ¬ SameAnswers smallVolume fullDisk
      (perform smallVolume ⟨[[97]], .writeFile [1]⟩ fullDisk).2 :=
  ⟨fullDisk_wellFormed, by simpa using shortName_a, by decide +kernel,
    fun h => absurd (h (render [[97]])).1 (by decide +kernel)⟩

/-- A new file that does not fit leaves everything as it was. -/
theorem failure_harmless_fullDisk :
    (perform smallVolume ⟨[[98]], .writeFile [1]⟩ fullDisk).1 ≠ .ok () ∧
      SameAnswers smallVolume fullDisk
      (perform smallVolume ⟨[[98]], .writeFile [1]⟩ fullDisk).2 := by
  have hfail : (perform smallVolume ⟨[[98]], .writeFile [1]⟩ fullDisk).1 ≠ .ok () := by
    decide +kernel
  refine ⟨hfail, (failure_harmless_iff fullDisk_wellFormed ?_ _).mpr ?_ hfail⟩
  · simpa using ShortName.singleton (b := 98) (by decide)
  · rintro ⟨ps, name, dir, e, data, hpath, hdir, hf, -⟩
    obtain ⟨rfl, rfl⟩ := List.append_singleton_inj.mp (show [] ++ [[98]] = ps ++ [name] from hpath)
    obtain rfl : 2 = dir := Option.some.inj hdir
    have hnone : findIn smallVolume (view smallVolume fullDisk) 2 [98] = none := by decide +kernel
    rw [hnone] at hf
    cases hf

end Willo.Fat
