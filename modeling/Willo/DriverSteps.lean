import Willo.TreeInvariants

/-! The steps the driver's mutations are made of, as they run on a sound view:
splitting the path and opening the parent, dropping the old entry of a name, and
hooking a new entry into a directory. -/

namespace Willo.Fat
open Text Paths ByteCodec BlockDevice FaultState LinkedChain RootedGraph

section Paths

variable {v : FatFs} {w : View} {ps : List Str} {name : Str}

theorem render_snoc (ps : List Str) (name : Str) :
    render (ps ++ [name]) = join ps ++ slash :: name := by
  rw [render_eq_join (by simp), join_append, join_cons, join_nil, List.append_nil]

theorem join_eq_nil_iff {ps : List Str} : join ps = [] ↔ ps = [] := by
  cases ps <;> simp

theorem splitParent_append (hname : Plain name) (abs : Str) :
    splitParent (abs ++ slash :: name) = pure (if abs.length = 0 then [slash] else abs, name) := by
  have hlast : (abs ++ slash :: name).getLast? ≠ some slash := by
    intro h
    rw [List.getLast?_append_of_ne_nil _ (by simp)] at h
    cases name with
    | nil => exact hname.1 rfl
    | cons b t =>
      rw [List.getLast?_cons_cons] at h
      exact hname.2 (List.mem_of_getLast? h)
  have htake : (abs ++ slash :: name).take abs.length = abs := by simp
  have hdrop : (abs ++ slash :: name).drop (abs.length + 1) = name := by
    rw [← List.drop_drop, List.drop_left]
    rfl
  simp only [splitParent, trimEnd_eq_self hlast]
  rw [if_neg (by simp), rfind_append_cons hname.2]
  simp only [hdrop, htake]
  rw [if_neg hname.1]

theorem splitParent_render (hn : Component name) :
    splitParent (render (ps ++ [name])) = pure (render ps, name) := by
  rw [render_snoc, splitParent_append hn.1]
  by_cases hps : ps = []
  · simp [hps]
  · have hlen : (join ps).length ≠ 0 := by
      rw [Ne, List.length_eq_zero_iff, join_eq_nil_iff]
      exact hps
    rw [if_neg hlen, render_eq_join hps]

theorem splitParent_root : splitParent (render []) = throw (.err .io) := by
  unfold splitParent
  exact if_pos (by decide)

theorem render_eq_slash (hps : ∀ s ∈ ps, Component s) : render ps = [slash] ↔ ps = [] := by
  constructor
  · intro h
    exact render_injective hps (by simp) h
  · rintro rfl
    rfl

theorem lookupIn_render (hps : ∀ s ∈ ps, Component s) :
    lookupIn v w (render ps) = walk v w (rootEntry v) ps := by
  unfold lookupIn
  rw [segments_render hps]
  by_cases h : ps = []
  · subst h
    rfl
  · have hne : render ps ≠ [] := by
      intro he
      have := render_head ps
      rw [he] at this
      cases this
    rw [if_neg (by rw [render_eq_slash hps]; tauto), if_neg h]

theorem clusterFor_runs (S : Sturdy v w) (hps : ∀ s ∈ ps, Component s) :
    Runs v (clusterFor v (render ps)) w
      (outcome (do
        let e ← walk v w (rootEntry v) ps
        if e.isDir then .ok e.cluster else .error .notADir)) w := by
  have hl := lookup_runs S (render ps)
  rw [lookupIn_render hps] at hl
  unfold clusterFor
  by_cases h : ps = []
  · subst h
    rw [if_pos (by rfl)]
    exact .pure _
  · rw [if_neg (by rwa [render_eq_slash hps])]
    cases hw : walk v w (rootEntry v) ps with
    | error err =>
      rw [hw] at hl
      exact hl.bind_error
    | ok e =>
      rw [hw] at hl
      refine hl.bind ?_
      change Runs v _ w (outcome (if e.isDir then .ok e.cluster else .error .notADir)) w
      split_ifs
      · exact .pure _
      · exact .throw _

def parentDir (v : FatFs) (w : View) (ps : List Str) : Option Nat :=
  match walk v w (rootEntry v) ps with
  | .ok e => e.child
  | .error _ => none

theorem parentDir_reach {dir : Nat} (h : parentDir v w ps = some dir) : Reach (graph v w) dir := by
  unfold parentDir at h
  split at h
  · rename_i e he
    obtain ⟨hd, rfl⟩ := DirEntry.child_eq_some.mp h
    exact (walk_located (Or.inl rfl) he).reach hd
  · cases h

theorem walk_snoc (ps : List Str) (name : Str) : walk v w (rootEntry v) (ps ++ [name]) =
    match parentDir v w ps with
    | some dir =>
      match findIn v w dir name with
      | some e => .ok e
      | none => .error .notFound
    | none =>
      match walk v w (rootEntry v) ps with
      | .ok _ => .error .notADir
      | .error err => .error err := by
  rw [walk_append, parentDir]
  cases walk v w (rootEntry v) ps with
  | error err => rfl
  | ok d =>
    change walk v w d [name] = _
    cases hd : d.isDir with
    | false => simp [walk, DirEntry.child, hd]
    | true =>
      cases hf : findIn v w d.cluster name <;> simp [walk, DirEntry.child, hd, hf]

theorem parentDir_root_iff (S : Sturdy v w) {dir : Nat} (h : parentDir v w ps = some dir) :
    dir = v.rootCluster ↔ ps = [] := by
  constructor
  · rintro rfl
    by_contra hne
    unfold parentDir at h
    split at h
    · rename_i e he
      obtain ⟨n, i, hr, hi⟩ := walk_slot (Or.inl rfl) hne he
      exact S.forest.child_ne_root hr hi h
    · cases h
  · rintro rfl
    exact (Option.some.inj h).symm

theorem clusterFor_some (S : Sturdy v w) (hps : ∀ s ∈ ps, Component s) {dir : Nat}
    (h : parentDir v w ps = some dir) : Runs v (clusterFor v (render ps)) w (.ok dir) w := by
  have hc := clusterFor_runs S hps
  unfold parentDir at h
  split at h
  · rename_i e he
    obtain ⟨hd, rfl⟩ := DirEntry.child_eq_some.mp h
    rw [he] at hc
    change Runs v _ w (outcome (if e.isDir then .ok e.cluster else .error .notADir)) w at hc
    rwa [if_pos hd] at hc
  · cases h

theorem clusterFor_none (S : Sturdy v w) (hps : ∀ s ∈ ps, Component s)
    (h : parentDir v w ps = none) :
    ∃ err, Runs v (clusterFor v (render ps)) w (.error (.err err)) w := by
  have hc := clusterFor_runs S hps
  unfold parentDir at h
  split at h
  · rename_i e he
    have hd : e.isDir = false := by
      unfold DirEntry.child at h
      split_ifs at h with hd
      simpa using hd
    rw [he] at hc
    change Runs v _ w (outcome (if e.isDir then .ok e.cluster else .error .notADir)) w at hc
    rw [if_neg (by simp [hd])] at hc
    exact ⟨_, hc⟩
  · rename_i err he
    rw [he] at hc
    exact ⟨err, hc⟩

theorem dirAt_render (hps : ∀ s ∈ ps, Component s) :
    dirAt v w (render ps) = (parentDir v w ps).isSome := by
  rw [dirAt, lookupIn_render hps, parentDir]
  cases walk v w (rootEntry v) ps with
  | error _ => rfl
  | ok e =>
    change e.isDir = (e.child).isSome
    unfold DirEntry.child
    split_ifs with hd <;> simp [hd]

theorem openParent_some (S : Sturdy v w) (hps : ∀ s ∈ ps, Component s) (hn : Component name)
    {dir : Nat} (h : parentDir v w ps = some dir) :
    Runs v (openParent v (render (ps ++ [name]))) w (.ok (render ps, dir, name)) w := by
  have hdir := isDir_runs S (render ps)
  rw [dirAt_render hps, h] at hdir
  rw [openParent, splitParent_render hn, pure_bind]
  exact hdir.bind ((clusterFor_some S hps h).bind (.pure _))

theorem openParent_none (S : Sturdy v w) (hps : ∀ s ∈ ps, Component s) (hn : Component name)
    (h : parentDir v w ps = none) :
    Runs v (openParent v (render (ps ++ [name]))) w (.error (.err .notADir)) w := by
  have hdir := isDir_runs S (render ps)
  rw [dirAt_render hps, h] at hdir
  rw [openParent, splitParent_render hn, pure_bind]
  exact hdir.bind (.throw _)

end Paths

/-! Dropping. -/

section Dropping

variable {v : FatFs} {w : View} {dir : Nat} {name : Str} {e : DirEntry}

theorem isDotName_lower (s : Str) : isDotName (lower s) = isDotName s := by
  have hone : lower s = [dot] ↔ s = [dot] := by
    rcases s with - | ⟨a, - | ⟨b, t⟩⟩ <;> simp [lower, toAsciiLower_eq_dot]
  have htwo : lower s = [dot, dot] ↔ s = [dot, dot] := by
    rcases s with - | ⟨a, - | ⟨b, - | ⟨c, t⟩⟩⟩ <;> simp [lower, toAsciiLower_eq_dot]
  rw [Bool.eq_iff_iff]
  simp only [isDotName, Bool.or_eq_true, beq_iff_eq, hone, htwo]

theorem dotName_ne (hn : isDotName name = false) {s : Str} (hs : isDotName s = true) :
    lower s ≠ lower name := by
  intro h
  rw [← isDotName_lower, h, isDotName_lower, hn] at hs
  cases hs

theorem not_dotName (hn : Component name) : isDotName name = false := by
  simp [isDotName, hn.2.1, hn.2.2]

theorem decodeSlot_of_hit (hn : isDotName name = false) {s : Bytes} (h : hit name s = true) :
    decodeSlot s = some (decodeEntry s) := by
  simp only [hit, Bool.and_eq_true, bne_iff_ne, Bool.not_eq_true', eqIgnoreAsciiCase_iff] at h
  refine if_neg ?_
  rintro (h0 | hskip | hdot)
  · exact h.1.1 h0
  · rw [h.1.2] at hskip
    cases hskip
  · exact dotName_ne hn hdot h.2

def listed {α : Type} (slot : α → Bytes) (l : List α) : List α :=
  (l.takeWhile fun a => byteAt (slot a) 0 != 0x00).filter fun a => (decodeSlot (slot a)).isSome

section Listed

variable {α : Type} (slot : α → Bytes) (l : List α)

theorem scanDir_map : scanDir (l.map slot) = (listed slot l).map fun a => decodeEntry (slot a) := by
  induction l with
  | nil => rfl
  | cons a l ih =>
    rw [List.map_cons, scanDir, listed]
    by_cases h1 : byteAt (slot a) 0 = 0x00
    · simp [h1]
    · rw [if_neg h1, List.takeWhile_cons_of_pos (by simpa using h1)]
      by_cases h2 : skipped (slot a) = true
      · rw [if_pos h2, ih, List.filter_cons_of_neg (by simp [decodeSlot, h2]), listed]
      · by_cases h3 : isDotName (decodeShortName (slot a)) = true
        · rw [if_neg h2, if_pos h3, ih, List.filter_cons_of_neg (by simp [decodeSlot, h3]), listed]
        · rw [if_neg h2, if_neg h3, ih, List.filter_cons_of_pos (by simp [decodeSlot, h1, h2, h3]),
            List.map_cons, listed]

theorem find?_listed (hn : isDotName name = false) :
    (listed slot l).find? (fun a => eqIgnoreAsciiCase (decodeEntry (slot a)).name name) =
      (l.find? fun a => stops name (slot a)).filter fun a => hit name (slot a) := by
  induction l with
  | nil => rfl
  | cons a l ih =>
    by_cases h1 : byteAt (slot a) 0 = 0x00
    · have hmiss : hit name (slot a) = false := by simp [hit, h1]
      rw [listed, List.takeWhile_cons_of_neg (by simp [h1]),
        List.find?_cons_of_pos (by simp [stops, h1]), Option.filter_some, if_neg (by simp [hmiss]),
        List.filter_nil, List.find?_nil]
    · have hcons : listed slot (a :: l) =
          if (decodeSlot (slot a)).isSome then a :: listed slot l else listed slot l := by
        rw [listed, List.takeWhile_cons_of_pos (by simpa using h1), List.filter_cons, listed]
      rw [hcons]
      by_cases h2 : hit name (slot a) = true
      · have hname : eqIgnoreAsciiCase (decodeEntry (slot a)).name name = true := by
          simp only [hit, Bool.and_eq_true] at h2
          exact h2.2
        rw [if_pos (by rw [decodeSlot_of_hit hn h2, Option.isSome_some]),
          List.find?_cons_of_pos (by exact hname), List.find?_cons_of_pos (by simp [stops, h2]),
          Option.filter_some, if_pos h2]
      · have hmiss : stops name (slot a) = false := by simp [stops, h1, h2]
        rw [List.find?_cons_of_neg (by simp [hmiss]), ← ih]
        split_ifs with hsome
        · refine List.find?_cons_of_neg fun hname => h2 ?_
          have hlive : ¬ skipped (slot a) = true := by
            intro hskip
            simp [decodeSlot, hskip] at hsome
          simp only [hit, Bool.and_eq_true, bne_iff_ne, Bool.not_eq_true',
            Bool.not_eq_true _ ▸ hlive]
          exact ⟨⟨h1, trivial⟩, hname⟩
        · rfl

end Listed

theorem find_slot (hn : Component name) {ss : List Bytes}
    (h : (scanDir ss).find? (fun e => eqIgnoreAsciiCase e.name name) = some e) :
    ∃ i s, ss[i]? = some s ∧ decodeSlot s = some e ∧ ss.findIdx? (stops name) = some i ∧
      hit name s = true ∧ lower e.name = lower name := by
  have hscan := scanDir_map id ss
  rw [List.map_id] at hscan
  rw [hscan, List.find?_map] at h
  have hfind := find?_listed id ss (not_dotName hn)
  obtain ⟨s, hs, rfl⟩ := Option.map_eq_some_iff.mp h
  change (listed id ss).find? (fun a => eqIgnoreAsciiCase (decodeEntry a).name name) = some s at hs
  have hname := List.find?_some hs
  obtain ⟨hstop, hhit⟩ := Option.filter_eq_some_iff.mp (hfind.symm.trans hs)
  obtain ⟨hp, i, hi, rfl, hfirst⟩ := List.find?_eq_some_iff_getElem.mp hstop
  refine ⟨i, _, List.getElem?_eq_getElem hi, decodeSlot_of_hit (not_dotName hn) hhit, ?_, hhit, ?_⟩
  · exact List.findIdx?_eq_some_iff_getElem.mpr ⟨hi, hp, fun j hj => by simpa using hfirst j hj⟩
  · exact (eqIgnoreAsciiCase_iff _ _).mp hname

theorem find_entry (hn : Component name) (h : findIn v w dir name = some e) :
    ∃ i s, (dirSlots v w dir)[i]? = some s ∧ entryAt v w dir i = some e ∧
      (dirSlots v w dir).findIdx? (stops name) = some i ∧ hit name s = true ∧
      lower e.name = lower name := by
  obtain ⟨i, s, hs, hdec, hidx, hhit, hname⟩ := find_slot hn h
  exact ⟨i, s, hs, by rw [entryAt, hs, Option.bind_some, hdec], hidx, hhit, hname⟩

def freeOld (v : FatFs) (e : DirEntry) : FatM Unit :=
  if 2 ≤ e.cluster then freeChain v e.cluster else pure ()

theorem freeOld_bind {α : Type} (k : FatM α) : (freeOld v e >>= fun _ => k) =
    if 2 ≤ e.cluster then (do freeChain v e.cluster; k) else k := by
  unfold freeOld
  split_ifs
  · rfl
  · rw [pure_bind]

theorem freeOld_runs (S : Sturdy v w) {i : Nat} (hr : Reach (graph v w) dir)
    (he : entryAt v w dir i = some e) :
    Runs v (freeOld v e) w (.ok ()) (w.clear (chainOf v w e.cluster)) := by
  unfold freeOld
  split_ifs with h
  · exact freeChain_runs S.geometry (S.entries hr he (Or.inr h)).2
  · rw [chainOf_small (by omega)]
    simpa [View.clear] using Runs.pure (v := v) (w := w) ()

theorem cut_runs (S : Sturdy v w) (hn : Component name) (hr : Reach (graph v w) dir)
    (hfind : findIn v w dir name = some e) :
    ∃ w' i, Runs v (freeOld v e >>= fun _ => deleteDirEntry v dir name) w (.ok ()) w' ∧
      Cut v w w' dir i e ∧ w'.fat = (w.clear (chainOf v w e.cluster)).fat := by
  obtain ⟨i, s, hs, he, hidx, hhit, -⟩ := find_entry hn hfind
  have hdir := S.proper hr
  have hapart : ∀ x ∈ chainOf v w dir, x ∉ chainOf v w e.cluster := by
    intro x hx hxe
    exact S.forest.child_ne_self hr he (S.child_of_shared hr hr he hxe hx)
  have hchain : Chain v (w.clear (chainOf v w e.cluster)) dir (chainOf v w dir) :=
    hdir.2.congr fun x hx => View.clear_fat_of_notMem _ (hapart x hx)
  obtain ⟨a, ha, b, hrun, hslots⟩ := deleteDirEntry_runs
    (w := w.clear (chainOf v w e.cluster)) S.geometry hchain (S.fits_dir hr) hidx hs hhit
  refine ⟨_, i, (freeOld_runs S hr he).bind hrun, ⟨hr, he, rfl, fun c hc => ?_, fun c hc => ?_,
    fun t ht => ?_⟩, rfl⟩
  · exact View.clear_fat_of_notMem _ hc
  · exact View.setData_data_of_ne _ _ _ _ fun h => hc (h ▸ ha)
  · rw [hs] at ht
    rw [← Option.some.inj ht]
    exact hslots

theorem drop_runs (S : Sturdy v w) (hn : Component name) (hr : Reach (graph v w) dir)
    (hfind : findIn v w dir name = some e)
    (hempty : e.isDir = true → ∀ j, entryAt v w e.cluster j = none) :
    ∃ w' i, Runs v (freeOld v e >>= fun _ => deleteDirEntry v dir name) w (.ok ()) w' ∧
      Dropped v w w' dir i e ∧ w'.fat = (w.clear (chainOf v w e.cluster)).fat := by
  obtain ⟨w', i, hrun, T, hfat⟩ := cut_runs S hn hr hfind
  refine ⟨w', i, hrun,
    ⟨T.reach, T.was, hempty, T.sectors, fun c hc => ?_, T.fat, T.data, T.marked⟩, hfat⟩
  rw [hfat]
  exact View.clear_fat_of_mem _ hc

theorem Dropped.not_crowded (S : Sturdy v w) {w' : View} {i : Nat} (T : Dropped v w w' dir i e) :
    crowded w' (chainOf v w' dir) = false := by
  obtain ⟨s, hs, -, -⟩ := T.slot
  have hi := (List.getElem?_eq_some_iff.mp hs).1
  have hmem : deleted s ∈ dirSlots v w' dir := by
    rw [T.dirSlots_self S hs]
    exact List.mem_iff_getElem?.mpr ⟨i, List.getElem?_set_self hi⟩
  rw [crowded, Option.isNone_eq_false_iff, Option.isSome_iff_ne_none]
  intro hnone
  have := List.findIdx?_eq_none_iff.mp hnone _ hmem
  simp [vacant, byteAt_deleted] at this

end Dropping

/-! Hooking. -/

section Hooking

variable {v : FatFs} {w w₁ : View} {dir : Nat} {cs : List Nat} {entry : Bytes}

theorem Fresh.eq_of_nil (F : Fresh v w w₁ []) : w₁ = w :=
  View.mk.injEq .. |>.mpr ⟨F.sectors, funext fun c => F.fat c (by simp), funext fun c =>
    F.data c (by simp)⟩

theorem Sturdy.crowded_fresh (S : Sturdy v w) (hr : Reach (graph v w) dir) (F : Fresh v w w₁ cs) :
    crowded w₁ (chainOf v w dir) = crowded w (chainOf v w dir) := by
  have hdir := S.proper hr
  rw [crowded, slots_congr fun x hx => F.spares.data x (hdir.fat_ne_zero hx), crowded]

theorem hook_ok (S : Sturdy v w) (hr : Reach (graph v w) dir) (F : Fresh v w w₁ cs)
    (he : entry.length = 32)
    (hroom : crowded w (chainOf v w dir) = true → cs.length + 1 ≤ usable v w) :
    ∃ w' cs' blank i, Runs v (addDirEntryLoop v entry chainFuel dir) w₁ (.ok ()) w' ∧
      Added v w₁ w' dir (chainOf v w dir) entry cs' blank i := by
  have hdir := S.proper hr
  have hg : Geometry v w₁.sectors := by rw [F.sectors]; exact S.geometry
  have huse := F.usable
  refine addDirEntryLoop_ok hg (F.spares.chain hdir.2) hdir.1 (fun x hx => ?_) he fun hc => ?_
  · unfold Fits
    rw [F.sectors]
    exact S.fits_dir hr x hx
  · have := hroom (by rwa [← S.crowded_fresh hr F])
    omega

theorem hook_error (S : Sturdy v w) (hr : Reach (graph v w) dir) (F : Fresh v w w₁ cs)
    (hfull : crowded w (chainOf v w dir) = true) (hroom : ¬ cs.length + 1 ≤ usable v w) :
    ∃ w', Runs v (addDirEntryLoop v entry chainFuel dir) w₁ (.error (.err .io)) w' ∧ Spares w w' ∧
      (freeClusters v w = [] → w' = w) := by
  have hdir := S.proper hr
  have hg : Geometry v w₁.sectors := by rw [F.sectors]; exact S.geometry
  have huse := F.usable
  obtain ⟨w', hrun, hspare, hsame⟩ := addDirEntryLoop_error hg (F.spares.chain hdir.2) hdir.1
    (fun x hx => by unfold Fits; rw [F.sectors]; exact S.fits_dir hr x hx)
    (by rw [S.crowded_fresh hr F]; exact hfull) (by omega)
  refine ⟨w', hrun, F.spares.trans hspare, fun hfree => ?_⟩
  have hnil : cs = [] := by
    rw [F.lowest, hfree, List.take_nil]
  subst hnil
  have hw := F.eq_of_nil
  rw [hw] at hsame
  exact hsame hfree

end Hooking

end Willo.Fat
