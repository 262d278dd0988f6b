import Willo.VolumeTree

/-! How a sound view changes: a call that takes only free clusters changes nothing
in reach; dropping an entry frees its chain and marks its slot; adding an entry
hooks a fresh chain into a vacant slot of a directory, which may grow. Each is an
instance of a rule for rooted graphs, and each keeps the view sound. -/

namespace Willo.Fat
open Text Paths ByteCodec BlockDevice FaultState LinkedChain RootedGraph

section Frames

variable {v : FatFs} {w w' : View} {dir dir' i c : Nat} {e : DirEntry}

theorem Sturdy.start (S : Sturdy v w) (h : Reach (graph v w) dir)
    (he : entryAt v w dir i = some e) : e.cluster < 2 ∨ Proper v w e.cluster := by
  rcases Nat.lt_or_ge e.cluster 2 with hlt | hge
  · exact Or.inl hlt
  · exact Or.inr (S.entries h he (Or.inr hge))

theorem chainOf_congr (g : Geometry v w.sectors) (hs : w'.sectors = w.sectors)
    (h : c < 2 ∨ Proper v w c) (heq : ∀ x ∈ chainOf v w c, w'.fat x = w.fat x) :
    chainOf v w' c = chainOf v w c := by
  rcases h with h | h
  · rw [chainOf_small h, chainOf_small h]
  · exact (h.congr g hs heq).2

theorem dirSlots_congr (hc : chainOf v w' dir = chainOf v w dir)
    (heq : ∀ x ∈ chainOf v w dir, w'.data x = w.data x) : dirSlots v w' dir = dirSlots v w dir := by
  rw [dirSlots, hc, slots_congr heq, dirSlots]

theorem Sturdy.dir_unique (S : Sturdy v w) (h : Reach (graph v w) dir)
    (h' : Reach (graph v w) dir') (hc : c ∈ chainOf v w dir) (hc' : c ∈ chainOf v w dir') :
    dir = dir' := by
  cases h with
  | root =>
    cases h' with
    | root => rfl
    | step hn he hm =>
      obtain ⟨-, rfl⟩ := DirEntry.child_eq_some.mp hm
      cases S.forest.separated (.root hc) (.slot hn he hc')
  | step hn he hm =>
    obtain ⟨-, rfl⟩ := DirEntry.child_eq_some.mp hm
    cases h' with
    | root => cases S.forest.separated (.root hc') (.slot hn he hc)
    | step hn' he' hm' =>
      obtain ⟨-, rfl⟩ := DirEntry.child_eq_some.mp hm'
      obtain ⟨rfl, rfl⟩ := Owner.slot.inj (S.forest.separated (.slot hn he hc) (.slot hn' he' hc'))
      rw [Option.some.inj (he.symm.trans he')]

theorem Sturdy.child_of_shared (S : Sturdy v w) (h : Reach (graph v w) dir)
    (h' : Reach (graph v w) dir') (he : entryAt v w dir i = some e)
    (hc : c ∈ chainOf v w e.cluster) (hc' : c ∈ chainOf v w dir') : e.child = some dir' := by
  cases h' with
  | root => cases S.forest.separated (.root hc') (.slot h he hc)
  | step hn he' hm =>
    obtain ⟨-, rfl⟩ := DirEntry.child_eq_some.mp hm
    obtain ⟨rfl, rfl⟩ := Owner.slot.inj (S.forest.separated (.slot h he hc) (.slot hn he' hc'))
    rw [Option.some.inj (he.symm.trans he')]
    exact hm

end Frames

/-! Free clusters only. -/

section Sparing

variable {v : FatFs} {w w' : View} {dir i : Nat}

theorem Sturdy.chainOf_spares (S : Sturdy v w) (h : Spares w w') {c : Nat}
    (hc : c < 2 ∨ Proper v w c) : chainOf v w' c = chainOf v w c := by
  rcases hc with hc | hc
  · rw [chainOf_small hc, chainOf_small hc]
  · exact (hc.congr S.geometry h.sectors fun x hx => h.fat x (hc.fat_ne_zero hx)).2

theorem Sturdy.dirSlots_spares (S : Sturdy v w) (h : Spares w w') (hr : Reach (graph v w) dir) :
    dirSlots v w' dir = dirSlots v w dir := by
  have hp := S.proper hr
  exact dirSlots_congr (S.chainOf_spares h (Or.inr hp)) fun x hx => h.data x (hp.fat_ne_zero hx)

theorem Sturdy.agrees (S : Sturdy v w) (h : Spares w w') : Agrees (graph v w) (graph v w') where
  root := rfl
  child := rfl
  base r := by
    change r ∈ chainOf v w' _ ↔ r ∈ chainOf v w _
    rw [S.chainOf_spares h (Or.inr S.root)]
  entry n hn i := by
    change entryAt v w' n i = entryAt v w n i
    rw [entryAt, S.dirSlots_spares h hn, entryAt]
  part n i e hn he r := by
    change r ∈ chainOf v w' _ ↔ r ∈ chainOf v w _
    rw [S.chainOf_spares h (S.start hn he)]

theorem Sturdy.spares (S : Sturdy v w) (h : Spares w w') (hw : Shown v w') : Sturdy v w' where
  geometry := by rw [h.sectors]; exact S.geometry
  shown := hw
  root := (S.root.congr S.geometry h.sectors fun x hx => h.fat x (S.root.fat_ne_zero hx)).1
  entries {dir i e} hr he hcase := by
    have A := S.agrees h
    have hr := (A.reach dir).mp hr
    have he : entryAt v w dir i = some e := (A.entry dir hr i).symm.trans he
    have hp := S.entries hr he hcase
    exact (hp.congr S.geometry h.sectors fun x hx => h.fat x (hp.fat_ne_zero hx)).1
  forest := (S.agrees h).forest S.forest
  fits {c} hc := by
    obtain ⟨o, ho⟩ := hc
    have hf := S.fits ⟨o, ((S.agrees h).holds o c).mp ho⟩
    unfold Fits at hf ⊢
    rwa [h.sectors]

theorem Sound.spares (S : Sound v w) (h : Spares w w') (hw : Shown v w') : Sound v w' where
  toSturdy := S.toSturdy.spares h hw
  tails {dir} hr := by
    have hr := ((S.agrees h).reach dir).mp hr
    rw [S.dirSlots_spares h hr]
    exact S.tails hr

end Sparing

/-! Slots replaced. -/

section Slots

variable {ss : List Bytes} {i : Nat} {s t : Bytes}

theorem ZeroTail.set (h : ZeroTail ss) (ht : byteAt t 0 ≠ 0x00)
    (hbefore : ∀ j < i, ∀ s, ss[j]? = some s → byteAt s 0 ≠ 0x00) : ZeroTail (ss.set i t) := by
  unfold ZeroTail at h ⊢
  rw [List.pairwise_iff_getElem] at h ⊢
  intro a b ha hb hab hz
  rw [List.length_set] at ha hb
  rw [List.getElem_set] at hz ⊢
  split_ifs at hz with hia
  · exact absurd hz ht
  · split_ifs with hib
    · subst hib
      exact absurd hz (hbefore a hab _ (List.getElem?_eq_getElem ha))
    · exact h a b ha hb hab hz

theorem ZeroTail.before (h : ZeroTail ss) (hs : ss[i]? = some s) (hne : byteAt s 0 ≠ 0x00) :
    ∀ j < i, ∀ t, ss[j]? = some t → byteAt t 0 ≠ 0x00 := by
  intro j hj t ht hz
  obtain ⟨hi, rfl⟩ := List.getElem?_eq_some_iff.mp hs
  obtain ⟨hj', rfl⟩ := List.getElem?_eq_some_iff.mp ht
  exact hne (List.pairwise_iff_getElem.mp h j i hj' hi hj hz)

theorem ZeroTail.append_zeros {blank : List Bytes} (h : ZeroTail ss)
    (hb : ∀ s ∈ blank, byteAt s 0 = 0x00) : ZeroTail (ss ++ blank) := by
  refine List.pairwise_append.mpr ⟨h, ?_, fun _ _ b hb' _ => hb b hb'⟩
  exact List.pairwise_of_forall_mem_list fun _ _ b hb' _ => hb b hb'

theorem byteAt_deleted (s : Bytes) : byteAt (deleted s) 0 = 0xE5 := by
  simp [deleted, patch, byteAt]

@[simp] theorem decodeSlot_deleted (s : Bytes) : decodeSlot (deleted s) = none := by
  rw [decodeSlot, if_pos]
  exact Or.inr (Or.inl (by simp [skipped, byteAt_deleted]))

theorem decodeSlot_vacant (h : vacant s) : decodeSlot s = none := by
  rw [decodeSlot, if_pos]
  simp only [vacant, Bool.or_eq_true, beq_iff_eq] at h
  rcases h with h | h
  · exact Or.inl h
  · exact Or.inr (Or.inl (by simp [skipped, h]))

theorem used_of_decodeSlot {e : DirEntry} (h : decodeSlot s = some e) : byteAt s 0 ≠ 0x00 := by
  intro hz
  simp [decodeSlot, hz] at h

end Slots

/-! An entry dropped: its chain freed, its slot marked. -/

structure Dropped (v : FatFs) (w w' : View) (dir i : Nat) (e : DirEntry) : Prop where
  reach : Reach (graph v w) dir
  was : entryAt v w dir i = some e
  empty : e.isDir = true → ∀ j, entryAt v w e.cluster j = none
  sectors : w'.sectors = w.sectors
  freed : ∀ c, c ∈ chainOf v w e.cluster → w'.fat c = 0
  fat : ∀ c, c ∉ chainOf v w e.cluster → w'.fat c = w.fat c
  data : ∀ c, c ∉ chainOf v w dir → w'.data c = w.data c
  marked : ∀ s, (dirSlots v w dir)[i]? = some s →
    slots w' (chainOf v w dir) = (dirSlots v w dir).set i (deleted s)

structure Cut (v : FatFs) (w w' : View) (dir i : Nat) (e : DirEntry) : Prop where
  reach : Reach (graph v w) dir
  was : entryAt v w dir i = some e
  sectors : w'.sectors = w.sectors
  fat : ∀ c, c ∉ chainOf v w e.cluster → w'.fat c = w.fat c
  data : ∀ c, c ∉ chainOf v w dir → w'.data c = w.data c
  marked : ∀ s, (dirSlots v w dir)[i]? = some s →
    slots w' (chainOf v w dir) = (dirSlots v w dir).set i (deleted s)

section Cutting

variable {v : FatFs} {w w' : View} {dir i : Nat} {e : DirEntry}

theorem Cut.not_self (S : Sturdy v w) (T : Cut v w w' dir i e) : e.child ≠ some dir :=
  S.forest.child_ne_self T.reach T.was

theorem Cut.slot (T : Cut v w w' dir i e) : ∃ s, (dirSlots v w dir)[i]? = some s ∧
    decodeSlot s = some e ∧ slots w' (chainOf v w dir) = (dirSlots v w dir).set i (deleted s) := by
  obtain ⟨s, hs, he⟩ := Option.bind_eq_some_iff.mp T.was
  exact ⟨s, hs, he, T.marked s hs⟩

theorem Cut.chainOf_dir (S : Sturdy v w) (T : Cut v w w' dir i e) {n : Nat}
    (hn : Reach (graph v w) n) (hne : e.child ≠ some n) : chainOf v w' n = chainOf v w n := by
  refine chainOf_congr S.geometry T.sectors (Or.inr (S.proper hn)) fun x hx => T.fat x fun hxe => ?_
  exact hne (S.child_of_shared T.reach hn T.was hxe hx)

theorem Cut.chainOf_entry (S : Sturdy v w) (T : Cut v w w' dir i e) {n j : Nat}
    {f : DirEntry} (hn : Reach (graph v w) n) (hf : entryAt v w n j = some f)
    (hne : n ≠ dir ∨ j ≠ i) : ∀ x ∈ chainOf v w f.cluster, w'.fat x = w.fat x := by
  intro x hx
  refine T.fat x fun hxe => ?_
  obtain ⟨rfl, rfl⟩ :=
    Owner.slot.inj (S.forest.separated (.slot hn hf hx) (.slot T.reach T.was hxe))
  simp at hne

theorem Cut.dirSlots_other (S : Sturdy v w) (T : Cut v w w' dir i e) {n : Nat}
    (hn : Reach (graph v w) n) (hne : e.child ≠ some n) (hdir : n ≠ dir) :
    dirSlots v w' n = dirSlots v w n :=
  dirSlots_congr (T.chainOf_dir S hn hne) fun x hx => T.data x fun hxd =>
    hdir (S.dir_unique hn T.reach hx hxd)

theorem Cut.dirSlots_self (S : Sturdy v w) (T : Cut v w w' dir i e) {s : Bytes}
    (hs : (dirSlots v w dir)[i]? = some s) :
    dirSlots v w' dir = (dirSlots v w dir).set i (deleted s) := by
  rw [dirSlots, T.chainOf_dir S T.reach (T.not_self S), T.marked s hs]

theorem Cut.severed (S : Sturdy v w) (T : Cut v w w' dir i e) :
    Severed (graph v w) (graph v w') dir i e where
  root := rfl
  child := rfl
  base r := by
    have hroot : chainOf v w' v.rootCluster = chainOf v w v.rootCluster :=
      T.chainOf_dir S .root (S.forest.child_ne_root T.reach T.was)
    change r ∈ chainOf v w' _ ↔ r ∈ chainOf v w _
    rw [hroot]
  reach := T.reach
  was := T.was
  gone := by
    obtain ⟨s, hs, -, -⟩ := T.slot
    have hi := (List.getElem?_eq_some_iff.mp hs).1
    change entryAt v w' dir i = none
    rw [entryAt, T.dirSlots_self S hs, List.getElem?_set_self hi, Option.bind_some,
      decodeSlot_deleted]
  entry n hn hne j hj := by
    change entryAt v w' n j = entryAt v w n j
    by_cases hdir : n = dir
    · subst hdir
      obtain ⟨s, hs, -, -⟩ := T.slot
      rw [entryAt, T.dirSlots_self S hs, List.getElem?_set_ne (by tauto), entryAt]
    · rw [entryAt, T.dirSlots_other S hn hne hdir, entryAt]
  part n j f hn hf hne r := by
    change r ∈ chainOf v w' _ ↔ r ∈ chainOf v w _
    rw [chainOf_congr S.geometry T.sectors (S.start hn hf) (T.chainOf_entry S hn hf hne)]

theorem Cut.sturdy (S : Sturdy v w) (T : Cut v w w' dir i e) (hw : Shown v w') : Sturdy v w' where
  geometry := by rw [T.sectors]; exact S.geometry
  shown := hw
  root := by
    refine (S.root.congr S.geometry T.sectors fun x hx => T.fat x fun hxe => ?_).1
    cases S.forest.separated (.root hx) (.slot T.reach T.was hxe)
  entries {n j f} hn hf hcase := by
    obtain ⟨hn, hne⟩ := (T.severed S).reach_before S.forest hn
    obtain ⟨hf, hplace⟩ := (T.severed S).entry_some hn hne hf
    exact ((S.entries hn hf hcase).congr S.geometry T.sectors (T.chainOf_entry S hn hf hplace)).1
  forest := (T.severed S).forest S.forest
  fits {c} hc := by
    obtain ⟨o, ho⟩ := hc
    have hf := S.fits ⟨o, ((T.severed S).holds_before S.forest ho).1⟩
    unfold Fits at hf ⊢
    rwa [T.sectors]

end Cutting

section Dropping

variable {v : FatFs} {w w' : View} {dir i : Nat} {e : DirEntry}

theorem Dropped.cut (T : Dropped v w w' dir i e) : Cut v w w' dir i e :=
  ⟨T.reach, T.was, T.sectors, T.fat, T.data, T.marked⟩

theorem Dropped.not_self (T : Dropped v w w' dir i e) : e.child ≠ some dir := by
  intro h
  obtain ⟨hd, hcluster⟩ := DirEntry.child_eq_some.mp h
  have he := T.was
  rw [← hcluster, T.empty hd] at he
  cases he

theorem Dropped.lists_nothing (T : Dropped v w w' dir i e) (hd : e.isDir = true) :
    entriesIn v w e.cluster = [] := by
  refine List.eq_nil_iff_forall_not_mem.mpr fun f hf => ?_
  obtain ⟨j, hj⟩ := entryAt_of_mem hf
  rw [T.empty hd j] at hj
  cases hj

theorem Dropped.slot (T : Dropped v w w' dir i e) : ∃ s, (dirSlots v w dir)[i]? = some s ∧
    decodeSlot s = some e ∧ slots w' (chainOf v w dir) = (dirSlots v w dir).set i (deleted s) :=
  T.cut.slot

theorem Dropped.chainOf_entry (S : Sturdy v w) (T : Dropped v w w' dir i e) {n j : Nat}
    {f : DirEntry} (hn : Reach (graph v w) n) (hf : entryAt v w n j = some f)
    (hne : n ≠ dir ∨ j ≠ i) : ∀ x ∈ chainOf v w f.cluster, w'.fat x = w.fat x :=
  T.cut.chainOf_entry S hn hf hne

theorem Dropped.dirSlots_other (S : Sturdy v w) (T : Dropped v w w' dir i e) {n : Nat}
    (hn : Reach (graph v w) n) (hne : e.child ≠ some n) (hdir : n ≠ dir) :
    dirSlots v w' n = dirSlots v w n :=
  T.cut.dirSlots_other S hn hne hdir

theorem Dropped.dirSlots_self (S : Sturdy v w) (T : Dropped v w w' dir i e) {s : Bytes}
    (hs : (dirSlots v w dir)[i]? = some s) :
    dirSlots v w' dir = (dirSlots v w dir).set i (deleted s) :=
  T.cut.dirSlots_self S hs

theorem Dropped.detached (S : Sturdy v w) (T : Dropped v w w' dir i e) :
    Detached (graph v w) (graph v w') dir i e where
  __ := T.cut.severed S
  empty m hm j := by
    obtain ⟨hd, rfl⟩ := DirEntry.child_eq_some.mp hm
    exact T.empty hd j

theorem Dropped.sturdy (S : Sturdy v w) (T : Dropped v w w' dir i e) (hw : Shown v w') :
    Sturdy v w' := T.cut.sturdy S hw

theorem Dropped.sound (S : Sound v w) (T : Dropped v w w' dir i e) (hw : Shown v w') :
    Sound v w' where
  toSturdy := T.sturdy S.toSturdy hw
  tails {n} hn := by
    obtain ⟨hn, hne⟩ := ((T.detached S.toSturdy).reach_iff S.forest n).mp hn
    by_cases hdir : n = dir
    · subst hdir
      obtain ⟨s, hs, he, -⟩ := T.slot
      rw [T.dirSlots_self S.toSturdy hs]
      refine (S.tails hn).set (by rw [byteAt_deleted]; decide) ?_
      exact (S.tails hn).before hs (used_of_decodeSlot he)
    · rw [T.dirSlots_other S.toSturdy hn hne hdir]
      exact S.tails hn

end Dropping

/-! An entry added: a fresh chain hooked into a vacant slot. -/

structure Hooked (v : FatFs) (w w₁ w' : View) (dir i : Nat) (entry : Bytes) (cs cs' : List Nat)
    (blank : List Bytes) : Prop where
  reach : Reach (graph v w) dir
  fresh : Fresh v w w₁ cs
  added : Added v w₁ w' dir (chainOf v w dir) entry cs' blank i
  cluster : ∀ e, decodeSlot entry = some e → e.cluster = cs.headD 0
  newDir : ∀ e, decodeSlot entry = some e → e.isDir = true →
    cs ≠ [] ∧ ∀ s ∈ slots w₁ cs, decodeSlot s = none

section Hooking

variable {v : FatFs} {w w₁ w' : View} {dir i : Nat} {entry : Bytes} {cs cs' : List Nat}
  {blank : List Bytes}

def gain (v : FatFs) (w : View) (dir : Nat) (cs' : List Nat) (c : Nat) : Prop :=
  c ∈ cs' ∧ c ∉ chainOf v w dir

theorem Hooked.sectors (T : Hooked v w w₁ w' dir i entry cs cs' blank) :
    w'.sectors = w.sectors := by
  rw [T.added.sectors, T.fresh.sectors]

theorem Hooked.mem_chain (T : Hooked v w w₁ w' dir i entry cs cs' blank) {c : Nat} (hc : c ∈ cs') :
    c ∈ chainOf v w dir ∨ c ∉ chainOf v w dir ∧ InFat v c ∧ w₁.fat c = 0 ∧ Fits v w₁ c := by
  by_cases h : c ∈ chainOf v w dir
  · exact Or.inl h
  · refine Or.inr ⟨h, ?_⟩
    rcases T.added.grown with ⟨rfl, -⟩ | ⟨n, rfl, hin, hfree, hfit, -⟩
    · exact absurd hc h
    · rcases List.mem_append.mp hc with hc | hc
      · exact absurd hc h
      · rw [List.mem_singleton.mp hc]
        exact ⟨hin, hfree, hfit⟩

theorem Hooked.subset (T : Hooked v w w₁ w' dir i entry cs cs' blank) :
    ∀ c ∈ chainOf v w dir, c ∈ cs' := by
  intro c hc
  rcases T.added.grown with ⟨rfl, -⟩ | ⟨n, rfl, -⟩
  · exact hc
  · simp [hc]

theorem Hooked.kept (T : Hooked v w w₁ w' dir i entry cs cs' blank) {c : Nat} (hu : w.fat c ≠ 0)
    (hd : c ∉ chainOf v w dir) : w'.fat c = w.fat c ∧ w'.data c = w.data c := by
  have hspare := T.fresh.spares
  have hnot : c ∉ cs' := by
    intro hc
    rcases T.mem_chain hc with h | ⟨-, -, hz, -⟩
    · exact hd h
    · rw [hspare.fat c hu] at hz
      exact hu hz
  exact ⟨by rw [T.added.fat c hnot, hspare.fat c hu], by rw [T.added.data c hnot, hspare.data c hu]⟩

theorem Hooked.fresh_notMem (S : Sturdy v w) (T : Hooked v w w₁ w' dir i entry cs cs' blank)
    {c : Nat} (hc : c ∈ cs) : c ∉ cs' := by
  intro hc'
  rcases T.mem_chain hc' with h | ⟨-, -, hz, -⟩
  · exact (S.proper T.reach).fat_ne_zero h (T.fresh.wasFree hc).2
  · exact T.fresh.chain.fat_ne_zero c hc hz

theorem Hooked.chainOf_self (S : Sturdy v w) (T : Hooked v w w₁ w' dir i entry cs cs' blank) :
    chainOf v w' dir = cs' :=
  chainOf_eq (by rw [T.sectors]; exact S.geometry) T.added.chain

theorem Hooked.chainOf_fresh (S : Sturdy v w) (T : Hooked v w w₁ w' dir i entry cs cs' blank) :
    chainOf v w' (cs.headD 0) = cs := by
  cases cs with
  | nil => exact chainOf_small (by simp)
  | cons c cs =>
    refine chainOf_eq (by rw [T.sectors]; exact S.geometry) ?_
    exact T.fresh.chain.congr fun x hx => T.added.fat x (T.fresh_notMem S hx)

theorem Hooked.chainOf_other (S : Sturdy v w) (T : Hooked v w w₁ w' dir i entry cs cs' blank)
    {c : Nat} (hc : c < 2 ∨ Proper v w c) (hd : ∀ x ∈ chainOf v w c, x ∉ chainOf v w dir) :
    chainOf v w' c = chainOf v w c := by
  rcases hc with hc | hc
  · rw [chainOf_small hc, chainOf_small hc]
  · exact (hc.congr S.geometry T.sectors fun x hx => (T.kept (hc.fat_ne_zero hx) (hd x hx)).1).2

theorem Hooked.dirSlots_other (S : Sturdy v w) (T : Hooked v w w₁ w' dir i entry cs cs' blank)
    {n : Nat} (hn : Reach (graph v w) n) (hne : n ≠ dir) : dirSlots v w' n = dirSlots v w n := by
  have hp := S.proper hn
  have hd : ∀ x ∈ chainOf v w n, x ∉ chainOf v w dir := fun x hx hxd =>
    hne (S.dir_unique hn T.reach hx hxd)
  exact dirSlots_congr (T.chainOf_other S (Or.inr hp) hd) fun x hx =>
    (T.kept (hp.fat_ne_zero hx) (hd x hx)).2

theorem Hooked.dirSlots_self (S : Sturdy v w) (T : Hooked v w w₁ w' dir i entry cs cs' blank) :
    dirSlots v w' dir = (dirSlots v w dir ++ blank).set i entry := by
  have hslots : slots w₁ (chainOf v w dir) = dirSlots v w dir :=
    slots_congr fun x hx => T.fresh.spares.data x ((S.proper T.reach).fat_ne_zero hx)
  rw [dirSlots, T.chainOf_self S, T.added.written, hslots]

theorem Hooked.place (S : Sturdy v w) (T : Hooked v w w₁ w' dir i entry cs cs' blank) :
    ∃ hi : i < (dirSlots v w dir ++ blank).length, vacant (dirSlots v w dir ++ blank)[i] ∧
      ∀ j (hj : j < i), ¬ vacant ((dirSlots v w dir ++ blank).get ⟨j, Nat.lt_trans hj hi⟩) := by
  have hslots : slots w₁ (chainOf v w dir) = dirSlots v w dir :=
    slots_congr fun x hx => T.fresh.spares.data x ((S.proper T.reach).fat_ne_zero hx)
  have hplace := T.added.place
  rw [hslots] at hplace
  exact List.findIdx?_eq_some_iff_getElem.mp hplace

theorem bind_append_blank {ss : List Bytes} (hb : ∀ s ∈ blank, byteAt s 0 = 0x00) (j : Nat) :
    (ss ++ blank)[j]?.bind decodeSlot = ss[j]?.bind decodeSlot := by
  rcases Nat.lt_or_ge j ss.length with hj | hj
  · rw [List.getElem?_append_left hj]
  · rw [List.getElem?_append_right hj, List.getElem?_eq_none hj, Option.bind_none,
      Option.bind_eq_none_iff]
    intro s hs
    exact decodeSlot_vacant (by simp [vacant, hb s (List.mem_of_getElem? hs)])

theorem Hooked.attached (S : Sturdy v w) (T : Hooked v w w₁ w' dir i entry cs cs' blank) :
    Attached (graph v w) (graph v w') dir i (decodeSlot entry) (gain v w dir cs') where
  root := rfl
  child := rfl
  reach := T.reach
  was := by
    obtain ⟨hi, hv, -⟩ := T.place S
    change entryAt v w dir i = none
    rw [entryAt, ← bind_append_blank T.added.unused, List.getElem?_eq_getElem hi, Option.bind_some,
      decodeSlot_vacant hv]
  now := by
    obtain ⟨hi, -, -⟩ := T.place S
    change entryAt v w' dir i = _
    rw [entryAt, T.dirSlots_self S, List.getElem?_set_self hi, Option.bind_some]
  empty e m he hm j := by
    obtain ⟨hd, rfl⟩ := DirEntry.child_eq_some.mp hm
    change entryAt v w' e.cluster j = none
    rw [entryAt, dirSlots, T.cluster e he, T.chainOf_fresh S, Option.bind_eq_none_iff]
    intro s hs
    refine (T.newDir e he hd).2 s ?_
    rw [← slots_congr fun x hx => T.added.data x (T.fresh_notMem S hx)]
    exact List.mem_of_getElem? hs
  entry n hn j hj := by
    change entryAt v w' n j = entryAt v w n j
    by_cases hdir : n = dir
    · subst hdir
      rw [entryAt, T.dirSlots_self S, List.getElem?_set_ne (by tauto),
        bind_append_blank T.added.unused, entryAt]
    · rw [entryAt, T.dirSlots_other S hn hdir, entryAt]
  base r := by
    change r ∈ chainOf v w' v.rootCluster ↔ r ∈ chainOf v w v.rootCluster ∨ v.rootCluster = dir ∧ _
    by_cases hroot : v.rootCluster = dir
    · rw [hroot, T.chainOf_self S, gain]
      have := T.subset r
      tauto
    · rw [T.chainOf_other S (Or.inr S.root) fun x hx hxd =>
        hroot (S.dir_unique .root T.reach hx hxd)]
      tauto
  part n j e hn he r := by
    change r ∈ chainOf v w' e.cluster ↔ r ∈ chainOf v w e.cluster ∨ e.child = some dir ∧ _
    by_cases hchild : e.child = some dir
    · rw [(DirEntry.child_eq_some.mp hchild).2, T.chainOf_self S, gain]
      have := T.subset r
      tauto
    · rw [T.chainOf_other S (S.start hn he) fun x hx hxd =>
        hchild (S.child_of_shared hn T.reach he hx hxd)]
      tauto
  anchors e m he hm := by
    obtain ⟨hd, rfl⟩ := DirEntry.child_eq_some.mp hm
    obtain ⟨hne, -⟩ := T.newDir e he hd
    change e.cluster ∈ chainOf v w' e.cluster
    rw [T.cluster e he, T.chainOf_fresh S]
    cases cs with
    | nil => exact absurd rfl hne
    | cons c cs => simp
  fresh e r he hr := by
    change r ∈ chainOf v w' e.cluster at hr
    rw [T.cluster e he, T.chainOf_fresh S] at hr
    exact fun hheld => S.held_used hheld (T.fresh.wasFree hr).2
  freshExtra r hr hheld := by
    rcases T.mem_chain hr.1 with h | ⟨-, -, hz, -⟩
    · exact hr.2 h
    · have hused := S.held_used hheld
      rw [T.fresh.spares.fat r hused] at hz
      exact hused hz
  apart e r he hr hx := by
    change r ∈ chainOf v w' e.cluster at hr
    rw [T.cluster e he, T.chainOf_fresh S] at hr
    exact T.fresh_notMem S hr hx.1

theorem Hooked.proper_self (S : Sturdy v w) (T : Hooked v w w₁ w' dir i entry cs cs' blank) :
    Proper v w' dir :=
  .of_chain (by rw [T.sectors]; exact S.geometry) (S.proper T.reach).1 T.added.chain

theorem Hooked.proper_other (S : Sturdy v w) (T : Hooked v w w₁ w' dir i entry cs cs' blank)
    {c : Nat} (hc : Proper v w c) (hd : ∀ x ∈ chainOf v w c, x ∉ chainOf v w dir) : Proper v w' c :=
  (hc.congr S.geometry T.sectors fun x hx => (T.kept (hc.fat_ne_zero hx) (hd x hx)).1).1

theorem Hooked.proper_fresh (S : Sturdy v w) (T : Hooked v w w₁ w' dir i entry cs cs' blank)
    (hne : cs ≠ []) : Proper v w' (cs.headD 0) := by
  have hchain := T.chainOf_fresh S
  cases cs with
  | nil => exact absurd rfl hne
  | cons c cs =>
    refine ⟨(T.fresh.wasFree (by simp)).1, ?_⟩
    rw [hchain]
    exact T.fresh.chain.congr fun x hx => T.added.fat x (T.fresh_notMem S hx)

theorem Hooked.sturdy (S : Sturdy v w) (T : Hooked v w w₁ w' dir i entry cs cs' blank)
    (hw : Shown v w') : Sturdy v w' where
  geometry := by rw [T.sectors]; exact S.geometry
  shown := hw
  root := by
    by_cases hroot : v.rootCluster = dir
    · rw [hroot]
      exact T.proper_self S
    · exact T.proper_other S S.root fun x hx hxd => hroot (S.dir_unique .root T.reach hx hxd)
  entries {n j f} hn hf hcase := by
    rcases ((T.attached S).reach_iff n).mp hn with hn | ⟨e, he, hm⟩
    · rcases (T.attached S).entry_some hn hf with hf | ⟨-, -, he⟩
      · by_cases hchild : f.child = some dir
        · rw [(DirEntry.child_eq_some.mp hchild).2]
          exact T.proper_self S
        · exact T.proper_other S (S.entries hn hf hcase) fun x hx hxd =>
            hchild (S.child_of_shared hn T.reach hf hx hxd)
      · rw [T.cluster f he] at hcase ⊢
        refine T.proper_fresh S ?_
        rintro rfl
        rcases hcase with hd | hge
        · exact (T.newDir f he hd).1 rfl
        · simp at hge
    · have hnone : entryAt v w' n j = none := (T.attached S).empty e n he hm j
      rw [hnone] at hf
      cases hf
  forest := (T.attached S).forest S.forest
  fits {c} hc := by
    obtain ⟨o, ho⟩ := hc
    have hfit : Fits v w c := by
      rcases (T.attached S).holds_cases ho with ho | ⟨e, -, he, hp⟩ | ⟨hx, -⟩
      · exact S.fits ⟨o, ho⟩
      · change c ∈ chainOf v w' e.cluster at hp
        rw [T.cluster e he, T.chainOf_fresh S] at hp
        exact T.fresh.fits c hp
      · rcases T.mem_chain hx.1 with h | ⟨-, -, -, hfit⟩
        · exact absurd h hx.2
        · unfold Fits at hfit ⊢
          rwa [T.fresh.sectors] at hfit
    unfold Fits at hfit ⊢
    rwa [T.sectors]

theorem Hooked.tail_self (S : Sturdy v w) (T : Hooked v w w₁ w' dir i entry cs cs' blank)
    (hz : ZeroTail (dirSlots v w dir)) (hentry : byteAt entry 0 ≠ 0x00) :
    ZeroTail (dirSlots v w' dir) := by
  rw [T.dirSlots_self S]
  refine (hz.append_zeros T.added.unused).set hentry fun j hj s hs hzero => ?_
  obtain ⟨hi, -, hbefore⟩ := T.place S
  obtain ⟨hj', rfl⟩ := List.getElem?_eq_some_iff.mp hs
  exact hbefore j hj (by simp [vacant, hzero])

theorem Hooked.sound (S : Sound v w) (T : Hooked v w w₁ w' dir i entry cs cs' blank)
    (hw : Shown v w') (hentry : byteAt entry 0 ≠ 0x00)
    (hnew : ∀ e, decodeSlot entry = some e → e.isDir = true → ZeroTail (slots w₁ cs)) :
    Sound v w' where
  toSturdy := T.sturdy S.toSturdy hw
  tails {n} hn := by
    rcases ((T.attached S.toSturdy).reach_iff n).mp hn with hn | ⟨e, he, hm⟩
    · by_cases hdir : n = dir
      · subst hdir
        exact T.tail_self S.toSturdy (S.tails hn) hentry
      · rw [T.dirSlots_other S.toSturdy hn hdir]
        exact S.tails hn
    · obtain ⟨hd, rfl⟩ := DirEntry.child_eq_some.mp hm
      rw [dirSlots, T.cluster e he, T.chainOf_fresh S.toSturdy,
        slots_congr fun x hx => T.added.data x (T.fresh_notMem S.toSturdy hx)]
      exact hnew e he hd

end Hooking

end Willo.Fat
