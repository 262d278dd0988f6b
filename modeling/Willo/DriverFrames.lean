import Willo.PathLookups

/-! Each way a call ends, seen from the paths: where it changes nothing, and what is
found at the path itself afterwards. -/

namespace Willo.Fat
open Text Paths ByteCodec BlockDevice FaultState LinkedChain RootedGraph TreeStore

theorem content_eq {v : FatFs} {w w' : View} {e : DirEntry}
    (hchain : chainOf v w' e.cluster = chainOf v w e.cluster)
    (hdata : ∀ c ∈ chainOf v w e.cluster, w'.data c = w.data c) :
    content v w' e = content v w e := by
  rw [content, hchain, List.flatMap_congr hdata, content]

theorem DirEntry.child_of_file {e : DirEntry} (h : e.isDir = false) : e.child = none := by
  simp [DirEntry.child, h]

section Sparing

variable {v : FatFs} {w w' : View}

theorem Sturdy.entriesIn_spares (S : Sturdy v w) (h : Spares w w') {n : Nat}
    (hn : Reach (graph v w) n) :
    entriesIn v w' n = entriesIn v w n := by
  rw [entriesIn, S.dirSlots_spares h hn, entriesIn]

theorem Sturdy.content_spares (S : Sturdy v w) (h : Spares w w') {n i : Nat} {e : DirEntry}
    (hn : Reach (graph v w) n) (he : entryAt v w n i = some e) :
    content v w' e = content v w e := by
  have hstart := S.start hn he
  refine content_eq (S.chainOf_spares h hstart) fun c hc => h.data c ?_
  exact S.held_used ⟨_, .slot hn he hc⟩

theorem Spares.confined (S : Sturdy v w) (h : Spares w w') {dir : Nat} (hr : Reach (graph v w) dir)
    (name : Str) : Confined v w w' dir name where
  listing hn _ _ := S.entriesIn_spares h hn
  content hn hs _ _ := by
    obtain ⟨i, hi, -⟩ := entryAt_of_findIn hs
    exact S.content_spares h hn hi
  others _ := by rw [findIn, S.entriesIn_spares h hr, findIn]

end Sparing

section Dropping

variable {v : FatFs} {w w₁ : View} {dir i : Nat} {e : DirEntry} {name : Str}

theorem Dropped.framed (S : Sturdy v w) (T : Dropped v w w₁ dir i e)
    (hf : findIn v w dir name = some e) : Framed v w w₁ dir name where
  listing hn hne hchild := by
    rw [entriesIn, T.dirSlots_other S hn (hchild e hf) hne, entriesIn]
  content := by
    intro n s f hn hs hfile hother
    obtain ⟨j, hj, hname⟩ := entryAt_of_findIn hs
    obtain ⟨-, -, hname'⟩ := entryAt_of_findIn hf
    have hplace : n ≠ dir ∨ j ≠ i := by
      by_contra hsame
      push Not at hsame
      obtain ⟨rfl, rfl⟩ := hsame
      rw [T.was] at hj
      rw [← Option.some.inj hj, hname'] at hname
      tauto
    refine content_eq (chainOf_congr S.geometry T.sectors (S.start hn hj)
      (T.chainOf_entry S hn hj hplace))
      fun c hc => T.data c fun hcd => ?_
    have := S.child_of_shared hn T.reach hj hc hcd
    rw [DirEntry.child_of_file hfile] at this
    cases this

theorem Dropped.confined (S : Sound v w) (U : UniqueNames v w) (T : Dropped v w w₁ dir i e)
    (hw : Shown v w₁) (hf : findIn v w dir name = some e) : Confined v w w₁ dir name where
  toFramed := T.framed S.toSturdy hf
  others := by
    intro s hs
    obtain ⟨-, -, hname⟩ := entryAt_of_findIn hf
    have D := T.detached S.toSturdy
    have hr₁ := (D.reach_iff S.forest dir).mpr ⟨T.reach, T.not_self⟩
    refine Option.ext fun f => ?_
    rw [findIn_eq_some (T.sound S hw) (T.uniqueNames U S.toSturdy) hr₁, findIn_eq_some S U T.reach]
    constructor
    · rintro ⟨j, hj, hsame⟩
      exact ⟨j, (D.entry_some T.reach T.not_self hj).1, hsame⟩
    · rintro ⟨j, hj, hsame⟩
      have hplace : j ≠ i := by
        rintro rfl
        rw [T.was] at hj
        rw [← Option.some.inj hj, hname] at hsame
        exact hs hsame.symm
      exact ⟨j, (D.entry dir T.reach T.not_self j (Or.inr hplace)).trans hj, hsame⟩

theorem Dropped.findIn_self (S : Sturdy v w) (U : UniqueNames v w) (T : Dropped v w w₁ dir i e)
    (hf : findIn v w dir name = some e) : findIn v w₁ dir name = none := by
  obtain ⟨-, -, hname⟩ := entryAt_of_findIn hf
  by_contra hne
  obtain ⟨f, hf'⟩ := Option.ne_none_iff_exists'.mp hne
  obtain ⟨j, hj, hsame⟩ := entryAt_of_findIn hf'
  exact T.absent_name U S hname j f hj hsame

end Dropping

section Clearing

variable {v : FatFs} {w w₁ w' : View} {dir : Nat} {name : Str}

theorem Cleared.file (C : Cleared v w dir (findIn v w dir name) w₁) :
    ∀ e, findIn v w dir name = some e → e.child = none := by
  intro e he
  rw [he] at C
  cases C with
  | dropped hd _ _ _ => exact DirEntry.child_of_file hd

theorem Cleared.reach_all (S : Sturdy v w) (C : Cleared v w dir (findIn v w dir name) w₁) {n : Nat}
    (hn : Reach (graph v w) n) : Reach (graph v w₁) n := by
  cases hf : findIn v w dir name with
  | none =>
    rw [hf] at C
    cases C
    exact hn
  | some e =>
    have hchild := C.file e hf
    rw [hf] at C
    cases C with
    | dropped _ T _ _ =>
      refine ((T.detached S).reach_iff S.forest n).mpr ⟨hn, ?_⟩
      change e.child ≠ some n
      rw [hchild]
      simp

theorem Cleared.confined (S : Sound v w) (U : UniqueNames v w) (hr : Reach (graph v w) dir)
    (C : Cleared v w dir (findIn v w dir name) w₁) : Confined v w w₁ dir name := by
  cases hf : findIn v w dir name with
  | none =>
    rw [hf] at C
    cases C
    exact (Spares.refl w).confined S.toSturdy hr name
  | some e =>
    rw [hf] at C
    cases C with
    | dropped _ T _ hw => exact T.confined S U hw hf

theorem Cleared.findIn_self (S : Sturdy v w) (U : UniqueNames v w)
    (C : Cleared v w dir (findIn v w dir name) w₁) : findIn v w₁ dir name = none := by
  cases hf : findIn v w dir name with
  | none =>
    rw [hf] at C
    cases C
    exact hf
  | some e =>
    rw [hf] at C
    cases C with
    | dropped _ T _ _ => exact T.findIn_self S U hf

theorem Cleared.framed_trans (S : Sound v w) (U : UniqueNames v w) (hr : Reach (graph v w) dir)
    (C : Cleared v w dir (findIn v w dir name) w₁) (F : Framed v w₁ w' dir name) :
    Framed v w w' dir name := by
  have F₁ := C.confined S U hr
  have hnone := C.findIn_self S.toSturdy U
  have hside (n : Nat) : ∀ e, findIn v w dir name = some e → e.child ≠ some n := by
    intro e he
    rw [C.file e he]
    simp
  refine ⟨fun {n} hn hne _ => ?_, fun {n s e} hn hs hfile hother => ?_⟩
  · rw [F.listing (C.reach_all S.toSturdy hn) hne (by simp [hnone]), F₁.listing hn hne (hside n)]
  · have hs₁ : findIn v w₁ n s = some e := by
      by_cases hne : n = dir
      · subst hne
        rw [F₁.others (by tauto), hs]
      · rw [findIn, F₁.listing hn hne (hside n)]
        exact hs
    rw [F.content (C.reach_all S.toSturdy hn) hs₁ hfile hother, F₁.content hn hs hfile hother]

theorem Cleared.confined_trans (S : Sound v w) (U : UniqueNames v w) (hr : Reach (graph v w) dir)
    (C : Cleared v w dir (findIn v w dir name) w₁) (F : Confined v w₁ w' dir name) :
    Confined v w w' dir name where
  toFramed := C.framed_trans S U hr F.toFramed
  others hs := by rw [F.others hs, (C.confined S U hr).others hs]

end Clearing

section Hooking

variable {v : FatFs} {w w₁ w' : View} {dir i : Nat} {entry : Bytes} {cs cs' : List Nat}
  {blank : List Bytes} {name : Str}

theorem Hooked.framed (S : Sturdy v w) (T : Hooked v w w₁ w' dir i entry cs cs' blank)
    (name : Str) :
    Framed v w w' dir name where
  listing hn hne _ := by rw [entriesIn, T.dirSlots_other S hn hne, entriesIn]
  content := by
    intro n s f hn hs hfile _
    obtain ⟨j, hj, -⟩ := entryAt_of_findIn hs
    have hapart : ∀ x ∈ chainOf v w f.cluster, x ∉ chainOf v w dir := by
      intro x hx hxd
      have := S.child_of_shared hn T.reach hj hx hxd
      rw [DirEntry.child_of_file hfile] at this
      cases this
    exact content_eq (T.chainOf_other S (S.start hn hj) hapart) fun c hc =>
      (T.kept (S.held_used ⟨_, .slot hn hj hc⟩) (hapart c hc)).2

theorem Hooked.reach_self (S : Sturdy v w) (T : Hooked v w w₁ w' dir i entry cs cs' blank) :
    Reach (graph v w') dir := ((T.attached S).reach_iff dir).mpr (Or.inl T.reach)

theorem Hooked.confined (S : Sound v w) (U : UniqueNames v w) (S' : Sound v w')
    (U' : UniqueNames v w') (T : Hooked v w w₁ w' dir i entry cs cs' blank)
    (hentry : ∀ e, decodeSlot entry = some e → lower e.name = lower name) :
    Confined v w w' dir name where
  toFramed := T.framed S.toSturdy name
  others := by
    intro s hs
    refine Option.ext fun f => ?_
    rw [findIn_eq_some S' U' (T.reach_self S.toSturdy), findIn_eq_some S U T.reach]
    constructor
    · rintro ⟨j, hj, hsame⟩
      rcases (T.attached S.toSturdy).entry_some T.reach hj with hj | ⟨-, -, he⟩
      · exact ⟨j, hj, hsame⟩
      · exact absurd (hsame.symm.trans (hentry f he)) hs
    · rintro ⟨j, hj, hsame⟩
      exact ⟨j, (T.attached S.toSturdy).entry_of_some T.reach hj, hsame⟩

end Hooking

/-! The path itself after a store. -/

/-- The name comes back from its slot, up to case. -/
def Kept (name : Str) : Prop := Visible name ∧ lower (storedName name) = lower name

instance (name : Str) : Decidable (Kept name) := inferInstanceAs (Decidable (_ ∧ _))

theorem ShortName.kept_iff {name : Str} (h : ShortName name) :
    Kept name ↔ name.head? ≠ some 0x00 := by
  rw [Kept, h.visible_iff, h.storedName, lower_idem]
  tauto

theorem Kept.first {name : Str} (h : Kept name) : byteAt (nameField name) 0 ≠ 0x00 := h.1.1

section Storing

variable {v : FatFs} {w w₁ w₂ w' : View} {ps : List Str} {name : Str} {dir i size : Nat}
  {op : Mutation UInt8} {attrs : UInt8} {cs cs' : List Nat} {blank : List Bytes}

def newEntry (name : Str) (attrs : UInt8) (cs : List Nat) (size : Nat) : DirEntry :=
  ⟨storedName name, attrs == 0x10, cs.headD 0, size⟩

theorem Payload.isDir_iff (P : Payload v w dir (findIn v w dir name) op attrs size cs w₂) :
    (newEntry name attrs cs size).isDir = true ↔ op = .createDir := by
  cases P with
  | file hdata ha _ _ =>
    have hop : op ≠ .createDir := by
      rintro rfl
      cases hdata
    rcases ha with rfl | rfl <;> simpa [newEntry] using hop
  | dir hop _ => simp [newEntry, hop, attrDirectory]

theorem Payload.content_new (g : Geometry v w.sectors) {old : Option DirEntry}
    (P : Payload v w dir old op attrs size cs w₂) {data : Bytes}
    (hdata : newData v w old op = some data)
    (hchain : chainOf v w' (cs.headD 0) = cs) (hsame : ∀ c ∈ cs, w'.data c = w₂.data c) :
    content v w' (newEntry name attrs cs size) = data ↔ data.length < 2 ^ 32 := by
  cases P with
  | dir hop _ =>
    rw [hop] at hdata
    cases hdata
  | @file data' _ _ _ hdata' _ hlen hstored =>
    rw [hdata] at hdata'
    obtain rfl := Option.some.inj hdata'
    have hcontent : content v w' (newEntry name attrs cs (data.length % 2 ^ 32)) =
        (cs.flatMap w₂.data).take (data.length % 2 ^ 32) := by
      rw [content, newEntry, hchain, List.flatMap_congr hsame]
    rw [hcontent]
    constructor
    · intro h
      have hlen' := congrArg List.length h
      rw [List.length_take] at hlen'
      have := Nat.mod_lt data.length (show 0 < 2 ^ 32 by decide)
      omega
    · intro h
      rw [Nat.mod_eq_of_lt h]
      refine hstored ?_
      rw [hlen]
      exact clustersFor_enough g h

theorem Hooked.findIn_self (S : Sound v w) (U : UniqueNames v w) (hn : Component name)
    (hr : Reach (graph v w) dir) (C : Cleared v w dir (findIn v w dir name) w₁)
    (T : Hooked v w₁ w₂ w' dir i (writeShortEntry name attrs (cs.headD 0) size) cs cs' blank)
    (P : Payload v w dir (findIn v w dir name) op attrs size cs w₂) (hw : Shown v w') :
    findIn v w' dir name = if Kept name then some (newEntry name attrs cs size) else none := by
  have S₁ := C.sound S
  have hentry := P.decodeSlot_entry S₁.geometry T.fresh name
  have habsent := C.absent_name U S hn hr
  split_ifs with hkept
  · have S' := T.sound_stored S₁ P hw hkept.first
    have U' := T.uniqueNames_stored (C.uniqueNames U S.toSturdy) S₁.toSturdy P hkept.2 habsent
    rw [if_pos hkept.1] at hentry
    exact (findIn_eq_some S' U' (T.reach_self S₁.toSturdy)).mpr
      ⟨i, (T.attached S₁.toSturdy).now.trans hentry, hkept.2⟩
  · by_contra hne
    obtain ⟨f, hf⟩ := Option.ne_none_iff_exists'.mp hne
    obtain ⟨j, hj, hname⟩ := entryAt_of_findIn hf
    rcases (T.attached S₁.toSturdy).entry_some T.reach hj with hj | ⟨-, -, he⟩
    · exact habsent j f hj hname
    · rw [hentry] at he
      split_ifs at he with hvisible
      rw [← Option.some.inj he] at hname
      exact hkept ⟨hvisible, hname⟩

end Storing

/-! Whole calls. -/

section Calls

variable {v : FatFs} {w w' : View} {ps : List Str} {name : Str} {dir : Nat} {op : Mutation UInt8}
  {r : Except Fault Unit}

/-- A call under a name that comes back touches no other path. -/
theorem Effect.confined (S : Sound v w) (U : UniqueNames v w) (hn : Component name)
    (E : Effect v w ps name op r w') (hdir : parentDir v w ps = some dir)
    (hkept : op ≠ .remove → Kept name) : Confined v w w' dir name := by
  have hr := parentDir_reach hdir
  cases E with
  | refused _ => exact (Spares.refl w).confined S.toSturdy hr name
  | starved hdir' _ _ _ C hspare _ _ =>
    obtain rfl := Option.some.inj (hdir.symm.trans hdir')
    have S₁ := (C.sound S).toSturdy
    exact C.confined_trans S U hr (hspare.confined S₁ (C.reach_all S.toSturdy hr) name)
  | removed _ hdir' hf T hw =>
    obtain rfl := Option.some.inj (hdir.symm.trans hdir')
    exact T.confined S U hw hf
  | stored hdir' _ hop _ C T P hw =>
    obtain rfl := Option.some.inj (hdir.symm.trans hdir')
    have S₁ := C.sound S
    have U₁ := C.uniqueNames U S.toSturdy
    have hk := hkept hop
    have S' := T.sound_stored S₁ P hw hk.first
    have U' := T.uniqueNames_stored U₁ S₁.toSturdy P hk.2 (C.absent_name U S hn hr)
    refine C.confined_trans S U hr (T.confined S₁ U₁ S' U' fun e he => ?_)
    rw [P.decodeSlot_entry S₁.geometry T.fresh name] at he
    split_ifs at he
    rw [← Option.some.inj he]
    exact hk.2

/-- What a store leaves at its path, if its name comes back; otherwise nothing is found there. -/
theorem Effect.found (S : Sound v w) (U : UniqueNames v w) (hn : Component name)
    (E : Effect v w ps name op (.ok ()) w') (hop : op ≠ .remove) :
    ∃ dir e, parentDir v w ps = some dir ∧ parentDir v w' ps = some dir ∧
      Permitted v w (findIn v w dir name) op ∧
      findIn v w' dir name = (if Kept name then some e else none) ∧
      (e.isDir = true ↔ op = .createDir) ∧
      (∀ data, newData v w (findIn v w dir name) op = some data →
        (content v w' e = data ↔ data.length < 2 ^ 32)) ∧
      (Kept name → e.isDir = true → ∀ i, entryAt v w' e.cluster i = none) := by
  cases E with
  | removed h => exact absurd h hop
  | @stored dir i size attrs cs cs' blank w₁ w₂ _ hdir hperm _ _ C T P hw =>
    have hr := parentDir_reach hdir
    have S₁ := (C.sound S).toSturdy
    have F := C.framed_trans S U hr (T.framed S₁ name)
    refine ⟨dir, newEntry name attrs cs size, hdir, F.parentDir_eq S.toSturdy hdir, hperm,
      T.findIn_self S U hn hr C P hw, P.isDir_iff, fun data hdata => ?_, fun hkept hd => ?_⟩
    · exact P.content_new S.geometry hdata (T.chainOf_fresh S₁) fun c hc =>
        T.added.data c (T.fresh_notMem S₁ hc)
    · have hentry := P.decodeSlot_entry S₁.geometry T.fresh name
      rw [if_pos hkept.1] at hentry
      exact (T.attached S₁).empty _ _ hentry (DirEntry.child_eq_some.mpr ⟨hd, rfl⟩)

theorem lower_decodeShortName (s : Bytes) : lower (decodeShortName s) = decodeShortName s := by
  rw [decodeShortName, lower_idem]

theorem lower_name_of_decodeSlot {s : Bytes} {e : DirEntry} (h : decodeSlot s = some e) :
    lower e.name = e.name := by
  unfold decodeSlot at h
  split_ifs at h
  rw [← Option.some.inj h]
  exact lower_decodeShortName s

theorem mem_names {s : Str} : s ∈ (entriesIn v w dir).map DirEntry.name ↔
    lower s = s ∧ (findIn v w dir s).isSome := by
  constructor
  · intro h
    obtain ⟨e, he, rfl⟩ := List.mem_map.mp h
    obtain ⟨t, -, ht⟩ := scanDir_subset he
    refine ⟨lower_name_of_decodeSlot ht, ?_⟩
    rw [findIn, List.find?_isSome]
    exact ⟨e, he, by simp⟩
  · rintro ⟨hlower, hsome⟩
    obtain ⟨e, he⟩ := Option.isSome_iff_exists.mp hsome
    obtain ⟨i, hi, hname⟩ := entryAt_of_findIn he
    obtain ⟨t, -, ht⟩ := Option.bind_eq_some_iff.mp hi
    rw [lower_name_of_decodeSlot ht, hlower] at hname
    exact List.mem_map.mpr ⟨e, List.mem_of_find?_eq_some he, hname⟩

theorem nodup_names (S : Sound v w) (U : UniqueNames v w) (hr : Reach (graph v w) dir) :
    ((entriesIn v w dir).map fun e => lower e.name).Nodup := by
  have hslots : (dirSlots v w dir).Pairwise fun s t => ∀ e, decodeSlot s = some e →
      ∀ f, decodeSlot t = some f → lower e.name ≠ lower f.name := by
    rw [List.pairwise_iff_getElem]
    intro i j hi hj hij e he f hf hname
    have hei : entryAt v w dir i = some e := by
      rw [entryAt, List.getElem?_eq_getElem hi, Option.bind_some, he]
    have hfj : entryAt v w dir j = some f := by
      rw [entryAt, List.getElem?_eq_getElem hj, Option.bind_some, hf]
    have := U dir hr i j e f hei hfj hname
    omega
  rw [entriesIn, scanDir_eq (S.tails hr), List.Nodup, List.pairwise_map, List.pairwise_filterMap]
  exact hslots

end Calls

end Willo.Fat
