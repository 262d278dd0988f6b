import Willo.VolumeRuns

/-! Long names. The driver passes over the slots that carry a long name and never
writes one, so its calls can leave such slots without the short entry they
belong to. Whether a call does depends on three things only: which slot it
marks, what stands before that slot, and which slot the next entry takes. -/

namespace Willo.Fat
open Text Paths ByteCodec BlockDevice FaultState LinkedChain RootedGraph TreeStore

/-! The slots of one directory. -/

/-- The checksum of an 8.3 name field: each byte is added to the sum rotated right by a bit. -/
def nameChecksum (field : Bytes) : UInt8 :=
  field.foldl (fun sum b => ((sum <<< 7) ||| (sum >>> 1)) + b) 0

def slotChecksum (s : Bytes) : UInt8 := nameChecksum (slice s 0 11)

def longSlot (s : Bytes) : Bool := !vacant s && byteAt s 11 == attrLongName

def shortSlot (s : Bytes) : Bool := !vacant s && !skipped s

/-- Every long-name slot belongs to a run of slots with its checksum, and right behind the run is
the live short entry of that checksum. -/
def NamedRuns (ss : List Bytes) : Prop :=
  ∀ i s, ss[i]? = some s → longSlot s = true → ∃ n t, ss[i + 1 + n]? = some t ∧ shortSlot t = true ∧
    slotChecksum t = byteAt s 13 ∧
    ∀ k < n, ∃ u, ss[i + 1 + k]? = some u ∧ longSlot u = true ∧ byteAt u 13 = byteAt s 13

def Follows (s t : Bytes) : Prop :=
  longSlot t = true ∧ byteAt t 13 = byteAt s 13 ∨ shortSlot t = true ∧ slotChecksum t = byteAt s 13

/-- What stands before slot `i` is no long-name slot, or goes with `t`. -/
def Precedes (ss : List Bytes) (i : Nat) (t : Bytes) : Prop :=
  ∀ p s, p + 1 = i → ss[p]? = some s → longSlot s = true → Follows s t

def HasRun (ss : List Bytes) (i : Nat) : Prop :=
  ∃ p s, p + 1 = i ∧ ss[p]? = some s ∧ longSlot s = true

section Slots

variable {ss blank : List Bytes} {i p : Nat} {s t : Bytes}

/-- Whether the long-name slots are in order shows between neighbours. -/
theorem named_iff : NamedRuns ss ↔
    ∀ i s, ss[i]? = some s → longSlot s = true → ∃ t, ss[i + 1]? = some t ∧ Follows s t := by
  constructor
  · intro h i s hs hlong
    obtain ⟨n, t, ht, hshort, hsum, hrun⟩ := h i s hs hlong
    cases n with
    | zero => exact ⟨t, ht, Or.inr ⟨hshort, hsum⟩⟩
    | succ n =>
      obtain ⟨u, hu, hlong', hsame⟩ := hrun 0 (Nat.succ_pos n)
      exact ⟨u, hu, Or.inl ⟨hlong', hsame⟩⟩
  · intro h i
    -- the run is followed to its end, which the list has
    induction hleft : ss.length - i using Nat.strong_induction_on generalizing i with
    | _ left ih =>
      intro s hs hlong
      obtain ⟨t, ht, ⟨hlong', hsame⟩ | ⟨hshort, hsum⟩⟩ := h i s hs hlong
      · have hi : i + 1 < ss.length := (List.getElem?_eq_some_iff.mp ht).1
        obtain ⟨n, u, hu, hshort, hsum, hrun⟩ := ih _ (by omega) (i + 1) rfl t ht hlong'
        refine ⟨n + 1, u, ?_, hshort, hsum.trans hsame, fun k hk => ?_⟩
        · rw [← hu]
          congr 1
          omega
        · cases k with
          | zero => exact ⟨t, ht, hlong', hsame⟩
          | succ k =>
            obtain ⟨x, hx, hxlong, hxsame⟩ := hrun k (by omega)
            refine ⟨x, ?_, hxlong, hxsame.trans hsame⟩
            rw [← hx]
            congr 1
            omega
      · exact ⟨0, t, ht, hshort, hsum, fun k hk => absurd hk (Nat.not_lt_zero k)⟩

theorem longSlot_vacant (h : vacant s = true) : longSlot s = false := by simp [longSlot, h]

theorem not_follows_vacant (h : vacant t = true) : ¬Follows s t := by
  simp [Follows, longSlot, shortSlot, h]

theorem vacant_deleted (s : Bytes) : vacant (deleted s) = true := by simp [vacant, byteAt_deleted]

theorem longSlot_of_short (h : shortSlot s = true) : longSlot s = false := by
  simp only [shortSlot, Bool.and_eq_true, Bool.not_eq_true'] at h
  by_contra hlong
  simp only [longSlot, Bool.not_eq_false, Bool.and_eq_true, Bool.not_eq_true', beq_iff_eq] at hlong
  have hskip := h.2
  rw [skipped, hlong.2] at hskip
  simp [attrLongName, attrReadOnly, attrHidden, attrSystem, attrVolumeId] at hskip

theorem NamedRuns.append_blank (h : NamedRuns ss) (hb : ∀ s ∈ blank, byteAt s 0 = 0x00) :
    NamedRuns (ss ++ blank) := by
  rw [named_iff] at h ⊢
  intro i s hs hlong
  rcases Nat.lt_or_ge i ss.length with hi | hi
  · rw [List.getElem?_append_left hi] at hs
    obtain ⟨t, ht, hfollows⟩ := h i s hs hlong
    have hnext : i + 1 < ss.length := (List.getElem?_eq_some_iff.mp ht).1
    exact ⟨t, by rw [List.getElem?_append_left hnext, ht], hfollows⟩
  · rw [List.getElem?_append_right hi] at hs
    have hzero := hb s (List.mem_of_getElem? hs)
    rw [longSlot_vacant (by simp [vacant, hzero])] at hlong
    cases hlong

theorem NamedRuns.set_iff (h : NamedRuns ss) (hi : i < ss.length) (ht : longSlot t = false) :
    NamedRuns (ss.set i t) ↔ Precedes ss i t := by
  rw [named_iff] at h ⊢
  constructor
  · intro hset p s hp hs hlong
    have hne : i ≠ p := by omega
    obtain ⟨u, hu, hfollows⟩ := hset p s (by rw [List.getElem?_set_ne hne, hs]) hlong
    rw [hp, List.getElem?_set_self hi] at hu
    rwa [Option.some.inj hu]
  · intro hbefore j s hs hlong
    have hne : i ≠ j := by
      rintro rfl
      rw [List.getElem?_set_self hi] at hs
      rw [← Option.some.inj hs, ht] at hlong
      cases hlong
    rw [List.getElem?_set_ne hne] at hs
    obtain ⟨u, hu, hfollows⟩ := h j s hs hlong
    by_cases hnext : j + 1 = i
    · refine ⟨t, ?_, hbefore j s hnext hs hlong⟩
      rw [hnext, List.getElem?_set_self hi]
    · exact ⟨u, by rw [List.getElem?_set_ne (Ne.symm hnext), hu], hfollows⟩

theorem NamedRuns.not_hasRun (h : NamedRuns ss) (hs : ss[i]? = some s) (hv : vacant s = true) :
    ¬HasRun ss i := by
  rintro ⟨p, q, hp, hq, hlong⟩
  obtain ⟨t, ht, hfollows⟩ := named_iff.mp h p q hq hlong
  rw [hp, hs] at ht
  cases ht
  exact not_follows_vacant hv hfollows

theorem precedes_of_not_hasRun (h : ¬HasRun ss i) (t : Bytes) : Precedes ss i t :=
  fun p s hp hs hlong => absurd ⟨p, s, hp, hs, hlong⟩ h

theorem precedes_vacant_iff (ht : vacant t = true) : Precedes ss i t ↔ ¬HasRun ss i := by
  refine ⟨?_, fun h => precedes_of_not_hasRun h t⟩
  rintro hbefore ⟨p, s, hp, hs, hlong⟩
  exact not_follows_vacant ht (hbefore p s hp hs hlong)

theorem NamedRuns.delete_iff (h : NamedRuns ss) (hi : i < ss.length) (s : Bytes) :
    NamedRuns (ss.set i (deleted s)) ↔ ¬HasRun ss i :=
  (h.set_iff hi (longSlot_vacant (vacant_deleted s))).trans (precedes_vacant_iff (vacant_deleted s))

theorem NamedRuns.place (h : NamedRuns ss) (hs : ss[i]? = some s) (hv : vacant s = true)
    (ht : longSlot t = false) :
    NamedRuns (ss.set i t) :=
  (h.set_iff (List.getElem?_eq_some_iff.mp hs).1 ht).mpr
    (precedes_of_not_hasRun (h.not_hasRun hs hv) t)

theorem hasRun_set (hs : ss[p]? = some s) (hv : vacant s = true) (ht : longSlot t = false) :
    HasRun (ss.set p t) i ↔ HasRun ss i := by
  have hp : p < ss.length := (List.getElem?_eq_some_iff.mp hs).1
  have hslot : ∀ (j : Nat) (u : Bytes), longSlot u = true →
    ((ss.set p t)[j]? = some u ↔ ss[j]? = some u) := by
    intro j u hlong
    by_cases hj : p = j
    · subst hj
      rw [List.getElem?_set_self hp, hs]
      refine iff_of_false ?_ ?_
      · rintro ⟨rfl⟩
        rw [ht] at hlong
        cases hlong
      · rintro ⟨rfl⟩
        rw [longSlot_vacant hv] at hlong
        cases hlong
    · rw [List.getElem?_set_ne hj]
  constructor
  · rintro ⟨j, u, hj, hu, hlong⟩
    exact ⟨j, u, hj, (hslot j u hlong).mp hu, hlong⟩
  · rintro ⟨j, u, hj, hu, hlong⟩
    exact ⟨j, u, hj, (hslot j u hlong).mpr hu, hlong⟩

theorem hasRun_append (hi : i ≤ ss.length) : HasRun (ss ++ blank) i ↔ HasRun ss i := by
  have hslot : ∀ j, j + 1 = i → (ss ++ blank)[j]? = ss[j]? := fun j hj =>
    List.getElem?_append_left (by omega)
  constructor
  · rintro ⟨j, u, hj, hu, hlong⟩
    exact ⟨j, u, hj, hslot j hj ▸ hu, hlong⟩
  · rintro ⟨j, u, hj, hu, hlong⟩
    exact ⟨j, u, hj, (hslot j hj).symm ▸ hu, hlong⟩

theorem NamedRuns.precedes_short_iff (h : NamedRuns ss) (hs : ss[i]? = some s)
    (hshort : shortSlot s = true) (ht : shortSlot t = true) :
    Precedes ss i t ↔ ¬(HasRun ss i ∧ slotChecksum t ≠ slotChecksum s) := by
  have hrun : ∀ p q, p + 1 = i → ss[p]? = some q → longSlot q = true →
    slotChecksum s = byteAt q 13 := by
    intro p q hp hq hlong
    obtain ⟨u, hu, hfollows⟩ := named_iff.mp h p q hq hlong
    rw [hp, hs] at hu
    cases hu
    rcases hfollows with ⟨hlong', -⟩ | ⟨-, hsum⟩
    · rw [longSlot_of_short hshort] at hlong'
      cases hlong'
    · exact hsum
  constructor
  · rintro hbefore ⟨⟨p, q, hp, hq, hlong⟩, hne⟩
    rcases hbefore p q hp hq hlong with ⟨hlong', -⟩ | ⟨-, hsum⟩
    · rw [longSlot_of_short ht] at hlong'
      cases hlong'
    · exact hne (hsum.trans (hrun p q hp hq hlong).symm)
  · intro hno p q hp hq hlong
    have hsum : slotChecksum t = slotChecksum s := by
      by_contra hne
      exact hno ⟨⟨p, q, hp, hq, hlong⟩, hne⟩
    exact Or.inr ⟨ht, hsum.trans (hrun p q hp hq hlong)⟩

theorem place_eq_iff (hi : i < ss.length) (s : Bytes)
    (hplace : (ss.set i (deleted s)).findIdx? vacant = some p) :
    p = i ↔ ∀ j < i, ∀ t, ss[j]? = some t → vacant t = false := by
  obtain ⟨hp, hv, hbefore⟩ := List.findIdx?_eq_some_iff_getElem.mp hplace
  have hi' : i < (ss.set i (deleted s)).length := by rwa [List.length_set]
  constructor
  · rintro rfl j hj t ht
    have hfirst := hbefore j hj
    obtain ⟨hjlt, rfl⟩ := List.getElem?_eq_some_iff.mp ht
    rw [List.getElem_set_ne (by omega)] at hfirst
    simpa using hfirst
  · intro hnone
    rcases Nat.lt_trichotomy p i with hlt | heq | hgt
    · rw [List.getElem_set_ne (by omega)] at hv
      rw [List.length_set] at hp
      have hfree := hnone p hlt _ (List.getElem?_eq_getElem hp)
      rw [hfree] at hv
      cases hv
    · exact heq
    · have hself := hbefore i hgt
      rw [List.getElem_set_self] at hself
      exact absurd (vacant_deleted s) hself

theorem NamedRuns.replace_iff (h : NamedRuns ss) (hs : ss[i]? = some s)
    (hshort : shortSlot s = true)
    (ht : longSlot t = false) (hlisted : HasRun ss i → shortSlot t = true)
    (hplace : (ss.set i (deleted s)).findIdx? vacant = some p) :
    NamedRuns ((ss.set i (deleted s)).set p t) ↔ ¬(HasRun ss i ∧
      ¬((∀ j < i, ∀ u, ss[j]? = some u → vacant u = false) ∧ slotChecksum t = slotChecksum s)) := by
  have hi : i < ss.length := (List.getElem?_eq_some_iff.mp hs).1
  rw [← place_eq_iff hi s hplace]
  obtain ⟨hp, hv, -⟩ := List.findIdx?_eq_some_iff_getElem.mp hplace
  rw [List.length_set] at hp
  by_cases hpi : p = i
  · rw [hpi, List.set_set, h.set_iff hi ht]
    by_cases hrun : HasRun ss i
    · rw [h.precedes_short_iff hs hshort (hlisted hrun)]
      tauto
    · exact iff_of_true (precedes_of_not_hasRun hrun t) (by tauto)
  · rw [List.getElem_set_ne (Ne.symm hpi)] at hv
    have hslot : ss[p]? = some ss[p] := List.getElem?_eq_getElem hp
    have hi' : i < (ss.set p t).length := by rwa [List.length_set]
    rw [List.set_comm _ _ (Ne.symm hpi), (h.place hslot hv ht).delete_iff hi',
      hasRun_set hslot hv ht]
    tauto

end Slots

/-! The directories of a volume. -/

def LongNames (v : FatFs) (w : View) : Prop :=
  ∀ dir, Reach (graph v w) dir → NamedRuns (dirSlots v w dir)

section Views

variable {v : FatFs} {w w₁ w₂ w' : View} {dir i p size : Nat} {e : DirEntry}
    {old : Option DirEntry} {name : Str}
  {attrs : UInt8} {cs cs' : List Nat} {blank : List Bytes} {op : Mutation UInt8} {entry s : Bytes}

theorem LongNames.spares (L : LongNames v w) (S : Sturdy v w) (h : Spares w w') :
    LongNames v w' := by
  intro n hn
  have hr := ((S.agrees h).reach n).mp hn
  rw [S.dirSlots_spares h hr]
  exact L n hr

theorem LongNames.of_spares (L : LongNames v w') (S : Sturdy v w) (h : Spares w w') :
    LongNames v w := by
  intro n hn
  rw [← S.dirSlots_spares h hn]
  exact L n (((S.agrees h).reach n).mpr hn)

theorem Dropped.longNames_iff (S : Sturdy v w) (L : LongNames v w) (T : Dropped v w w' dir i e) :
    LongNames v w' ↔ ¬HasRun (dirSlots v w dir) i := by
  obtain ⟨s, hs, -, -⟩ := T.slot
  have hi : i < (dirSlots v w dir).length := (List.getElem?_eq_some_iff.mp hs).1
  have hself := T.dirSlots_self S hs
  have hnamed := (L dir T.reach).delete_iff hi s
  constructor
  · intro L'
    have hr : Reach (graph v w') dir :=
      ((T.detached S).reach_iff S.forest dir).mpr ⟨T.reach, T.not_self⟩
    rw [← hnamed, ← hself]
    exact L' dir hr
  · intro hno n hn
    obtain ⟨hr, hchild⟩ := ((T.detached S).reach_iff S.forest n).mp hn
    by_cases hdir : n = dir
    · rw [hdir, hself, hnamed]
      exact hno
    · rw [T.dirSlots_other S hr hchild hdir]
      exact L n hr

/-! The stored entry. -/

theorem longSlot_writeShortEntry (ha : attrs = 0 ∨ attrs = 0x20 ∨ attrs = 0x10) (name : Str)
    (cluster size : Nat) :
    longSlot (writeShortEntry name attrs cluster size) = false := by
  have hattrs : (attrs == attrLongName) = false := by
    rcases ha with rfl | rfl | rfl <;> decide
  rw [longSlot, byteAt_attrs, hattrs, Bool.and_false]

theorem slotChecksum_writeShortEntry (name : Str) (attrs : UInt8) (cluster size : Nat) :
    slotChecksum (writeShortEntry name attrs cluster size) = nameChecksum (nameField name) := by
  rw [slotChecksum, slice_name]

theorem shortSlot_writeShortEntry (ha : attrs = 0 ∨ attrs = 0x20 ∨ attrs = 0x10)
    (hvis : Visible name)
    (cluster size : Nat) : shortSlot (writeShortEntry name attrs cluster size) = true := by
  have hattrs : ((attrs &&& attrLongName) == attrLongName) = false ∧
    ((attrs &&& attrVolumeId) != 0) = false := by
    rcases ha with rfl | rfl | rfl <;> decide
  simp [shortSlot, vacant, skipped, byteAt_first, byteAt_attrs, hattrs, hvis.1, hvis.2.1]

theorem Payload.named_newDir (P : Payload v w dir old op attrs size cs w₂)
    (hattrs : attrs = attrDirectory) :
    NamedRuns (slots w₂ cs) := by
  cases P with
  | file _ ha _ _ =>
    rcases ha with rfl | rfl <;> cases hattrs
  | @dir c _ _ hdata =>
    obtain ⟨rest, hslots, hrest⟩ :=
      slots_newDir (length_writeShortEntry ..) (length_writeShortEntry ..) hdata
    intro j s hs hlong
    have hmem := List.mem_of_getElem? hs
    rw [hslots] at hmem
    have hnone : longSlot s = false := by
      rcases List.mem_cons.mp hmem with rfl | hmem
      · exact longSlot_writeShortEntry (by decide) _ _ _
      · rcases List.mem_cons.mp hmem with rfl | hmem
        · exact longSlot_writeShortEntry (by decide) _ _ _
        · exact longSlot_vacant (by simp [vacant, hrest s hmem])
    rw [hnone] at hlong
    cases hlong

theorem Hooked.longNames_iff (S : Sturdy v w₁)
    (T : Hooked v w₁ w₂ w' dir i (writeShortEntry name attrs (cs.headD 0) size) cs cs' blank)
    (P : Payload v w dir old op attrs size cs w₂)
    (hothers : ∀ n, Reach (graph v w₁) n → n ≠ dir → NamedRuns (dirSlots v w₁ n)) :
    LongNames v w' ↔
      NamedRuns ((dirSlots v w₁ dir ++ blank).set i
      (writeShortEntry name attrs (cs.headD 0) size)) := by
  constructor
  · intro L'
    rw [← T.dirSlots_self S]
    exact L' dir (((T.attached S).reach_iff dir).mpr (Or.inl T.reach))
  · intro hself n hn
    rcases ((T.attached S).reach_iff n).mp hn with hn | ⟨e, he, hm⟩
    · by_cases hdir : n = dir
      · rw [hdir, T.dirSlots_self S]
        exact hself
      · rw [T.dirSlots_other S hn hdir]
        exact hothers n hn hdir
    · obtain ⟨hd, rfl⟩ := DirEntry.child_eq_some.mp hm
      have hentry := P.decodeSlot_entry S.geometry T.fresh name
      rw [he] at hentry
      split_ifs at hentry
      have hattrs : attrs = attrDirectory := by
        rw [Option.some.inj hentry] at hd
        exact eq_of_beq hd
      rw [dirSlots, T.cluster e he, T.chainOf_fresh S, slots_congr fun x hx =>
        T.added.data x (T.fresh_notMem S hx)]
      exact P.named_newDir hattrs

end Views

/-! What a call does to the long names. -/

/-- The call puts a new entry into the slot of the old one, and the entry has the checksum of the
one it replaces. -/
structure Replaces (v : FatFs) (w : View) (name : Str) (op : Mutation UInt8) (dir : Nat)
    (e : DirEntry) (i : Nat) (s : Bytes) : Prop where
  rewrites : op ≠ .remove
  enough : demand v w dir (some e) op ≤ usable v (released v w (some e))
  nothingBefore : ∀ j < i, ∀ t, (dirSlots v w dir)[j]? = some t → vacant t = false
  checksum : nameChecksum (nameField name) = slotChecksum s

/-- The call is let through, and it marks a slot behind a long name without replacing it. -/
def Orphans (v : FatFs) (w : View) (ps : List Str) (name : Str) (op : Mutation UInt8) : Prop :=
  ∃ dir e i s, parentDir v w ps = some dir ∧ findIn v w dir name = some e ∧
    Permitted v w (some e) op ∧
    (dirSlots v w dir)[i]? = some s ∧ decodeSlot s = some e ∧ HasRun (dirSlots v w dir) i ∧
    ¬Replaces v w name op dir e i s

section Effects

variable {v : FatFs} {w w₁ w₂ w' : View} {ps : List Str} {name : Str} {op : Mutation UInt8}
    {dir i p size : Nat}
  {e : DirEntry} {s : Bytes} {r : Except Fault Unit} {attrs : UInt8} {cs cs' :
    List Nat} {blank : List Bytes}

theorem orphans_iff (U : UniqueNames v w) (hdir : parentDir v w ps = some dir)
    (hf : findIn v w dir name = some e) (hperm : Permitted v w (some e) op)
    (hs : (dirSlots v w dir)[i]? = some s) (he : decodeSlot s = some e) :
    Orphans v w ps name op ↔ HasRun (dirSlots v w dir) i ∧ ¬Replaces v w name op dir e i s := by
  refine ⟨?_, fun h => ⟨dir, e, i, s, hdir, hf, hperm, hs, he, h⟩⟩
  rintro ⟨dir', e', i', s', hdir', hf', -, hs', he', hrun⟩
  rw [hdir] at hdir'
  cases hdir'
  rw [hf] at hf'
  cases hf'
  have hentry : entryAt v w dir i = some e := by rw [entryAt, hs, Option.bind_some, he]
  have hentry' : entryAt v w dir i' = some e := by rw [entryAt, hs', Option.bind_some, he']
  have hi := U dir (parentDir_reach hdir) i i' e e hentry hentry' rfl
  subst hi
  rw [hs] at hs'
  cases hs'
  exact hrun

theorem not_orphans_absent (hdir : parentDir v w ps = some dir) (hf : findIn v w dir name = none) :
    ¬Orphans v w ps name op := by
  rintro ⟨dir', e', i', s', hdir', hf', -⟩
  rw [hdir] at hdir'
  cases hdir'
  rw [hf] at hf'
  cases hf'

theorem not_replaces_lacking (h : ¬demand v w dir (some e) op ≤ usable v (released v w (some e))) :
    ¬Replaces v w name op dir e i s := fun hrep => h hrep.enough

theorem replaces_iff (hop : op ≠ .remove)
    (h : demand v w dir (some e) op ≤ usable v (released v w (some e))) :
    Replaces v w name op dir e i s ↔
      (∀ j < i, ∀ t, (dirSlots v w dir)[j]? = some t → vacant t = false) ∧
      nameChecksum (nameField name) = slotChecksum s :=
  ⟨fun hrep => ⟨hrep.nothingBefore, hrep.checksum⟩, fun hrest => ⟨hop, h, hrest.1, hrest.2⟩⟩

theorem Orphans.ready (h : Orphans v w ps name op) : Ready v w ps name op := by
  obtain ⟨dir, e, i, s, hdir, hf, hperm, -⟩ := h
  exact ⟨dir, hdir, hf ▸ hperm⟩

theorem shortSlot_of_decode (h : decodeSlot s = some e) : shortSlot s = true := by
  have hused := used_of_decodeSlot h
  unfold decodeSlot at h
  split_ifs at h with hnone
  simp only [not_or] at hnone
  have hskip : skipped s = false := by simpa using hnone.2.1
  have hmark : byteAt s 0 ≠ 0xE5 := by
    intro hdel
    simp [skipped, hdel] at hskip
  simp [shortSlot, vacant, hskip, hused, hmark]

theorem visible_of_found (hname : ShortName name) (hf : findIn v w dir name = some e) :
    Visible name := by
  obtain ⟨i, s, -, -, -, hhit, -⟩ := find_entry hname.component hf
  simp only [hit, Bool.and_eq_true, bne_iff_ne, ne_eq, eqIgnoreAsciiCase_iff] at hhit
  refine hname.visible_iff.mpr fun hzero => decodeShortName_head hhit.1.1 ?_
  have hlow : (lower (decodeShortName s)).head? = some 0x00 := by
    rw [hhit.2, lower, List.head?_map, hzero]
    rfl
  rw [decodeShortName, lower_idem] at hlow
  exact hlow

theorem replaced_iff (S : Sturdy v w) (L : LongNames v w) (hname : ShortName name)
    (hf : findIn v w dir name = some e) (T : Dropped v w w₁ dir i e)
    (hs : (dirSlots v w dir)[i]? = some s) (he : decodeSlot s = some e) (hw₁ : Shown v w₁)
    (H : Hooked v w₁ w₂ w' dir p (writeShortEntry name attrs (cs.headD 0) size) cs cs' blank)
    (P : Payload v w dir (some e) op attrs size cs w₂) :
    LongNames v w' ↔ ¬(HasRun (dirSlots v w dir) i ∧
      ¬((∀ j < i, ∀ t, (dirSlots v w dir)[j]? = some t → vacant t = false) ∧
        nameChecksum (nameField name) = slotChecksum s)) := by
  have S₁ := T.sturdy S hw₁
  have hi : i < (dirSlots v w dir).length := (List.getElem?_eq_some_iff.mp hs).1
  have hself := T.dirSlots_self S hs
  have hothers : ∀ n, Reach (graph v w₁) n → n ≠ dir → NamedRuns (dirSlots v w₁ n) := by
    intro n hn hne
    obtain ⟨hr, hchild⟩ := ((T.detached S).reach_iff S.forest n).mp hn
    rw [T.dirSlots_other S hr hchild hne]
    exact L n hr
  have hall := H.longNames_iff S₁ P hothers
  have hmarked : dirSlots v w₁ dir ++ blank = (dirSlots v w dir ++ blank).set i (deleted s) := by
    rw [hself, List.set_append_left _ _ hi]
  have hplace : ((dirSlots v w dir ++ blank).set i (deleted s)).findIdx? vacant = some p := by
    rw [← hmarked]
    exact List.findIdx?_eq_some_iff_getElem.mpr (H.place S₁)
  have hs' : (dirSlots v w dir ++ blank)[i]? = some s := by rw [List.getElem?_append_left hi, hs]
  have hattrs := P.attrs_cases
  have hnamed := ((L dir T.reach).append_blank H.added.unused).replace_iff hs'
    (shortSlot_of_decode he)
    (longSlot_writeShortEntry hattrs name (cs.headD 0) size)
    (fun _ => shortSlot_writeShortEntry hattrs (visible_of_found hname hf) (cs.headD 0) size) hplace
  rw [hall, hmarked, hnamed, hasRun_append (Nat.le_of_lt hi), slotChecksum_writeShortEntry]
  have hbefore : (∀ j < i, ∀ u, (dirSlots v w dir ++ blank)[j]? = some u → vacant u = false) ↔
      ∀ j < i, ∀ t, (dirSlots v w dir)[j]? = some t → vacant t = false := by
    refine forall_congr' fun j => forall_congr' fun hj => forall_congr' fun u => ?_
    rw [List.getElem?_append_left (by omega)]
  rw [hbefore]

/-- A call keeps the long names in order unless it orphans one. -/
theorem Effect.longNames_iff (U : UniqueNames v w) (S : Sound v w) (L : LongNames v w)
    (hname : ShortName name)
    (E : Effect v w ps name op r w') : LongNames v w' ↔ ¬Orphans v w ps name op := by
  have S' := S.toSturdy
  cases E with
  | refused hno => exact iff_of_true L fun h => hno h.ready
  | @starved dir w₁ w' hdir hperm hop hlack C hspare _ _ =>
    have S₁ := C.sturdy S'
    have hsame : LongNames v w' ↔ LongNames v w₁ :=
      ⟨fun h => h.of_spares S₁ hspare, fun h => h.spares S₁ hspare⟩
    rw [hsame]
    cases hf : findIn v w dir name with
    | none =>
      rw [hf] at C
      cases C with
      | absent => exact iff_of_true L (not_orphans_absent hdir hf)
    | some e =>
      rw [hf] at C hperm hlack
      cases C with
      | dropped _ T _ _ =>
        obtain ⟨s, hs, he, -⟩ := T.slot
        rw [T.longNames_iff S' L, orphans_iff U hdir hf hperm hs he]
        rw [not_iff_not]
        exact (and_iff_left (not_replaces_lacking hlack)).symm
  | @removed dir i e w' hop hdir hf T _ =>
    obtain ⟨s, hs, he, -⟩ := T.slot
    have hperm : Permitted v w (some e) op := by
      rw [hop]
      exact ⟨e, rfl, T.lists_nothing⟩
    rw [T.longNames_iff S' L, orphans_iff U hdir hf hperm hs he, not_iff_not]
    exact (and_iff_left fun hrep => hrep.rewrites hop).symm
  | @stored dir p size attrs cs cs' blank w₁ w₂ w' hdir hperm hop henough C H P _ =>
    cases hf : findIn v w dir name with
    | none =>
      rw [hf] at C P
      cases C with
      | absent =>
        refine iff_of_true ?_ (not_orphans_absent hdir hf)
        obtain ⟨hp, hv, -⟩ := H.place S'
        have hdirNamed := (L dir H.reach).append_blank H.added.unused
        exact (H.longNames_iff S' P fun n hn _ => L n hn).mpr
          (hdirNamed.place (List.getElem?_eq_getElem hp) hv
            (longSlot_writeShortEntry P.attrs_cases _ _ _))
    | some e =>
      rw [hf] at C P hperm henough
      cases C with
      | dropped _ T _ hw₁ =>
        obtain ⟨s, hs, he, -⟩ := T.slot
        rw [replaced_iff S' L hname hf T hs he hw₁ H P, orphans_iff U hdir hf hperm hs he]
        rw [replaces_iff hop henough]

end Effects

def CallOrphans (v : FatFs) (w : View) (c : Call) : Prop :=
  ∃ ps name, c.path = ps ++ [name] ∧ Orphans v w ps name c.op

/-- On a well-formed volume whose long names are in order, they are in order after a call exactly if
the call does not mark the entry of a long name without putting one of its checksum in its place. -/
theorem perform_longNames_iff {v : FatFs} {d : Disk} (W : WellFormed v d)
    (L : LongNames v (view v d)) {c : Call} (hshort : ∀ s ∈ c.path, ShortName s) :
    LongNames v (view v (perform v c d).2) ↔ ¬CallOrphans v (view v d) c := by
  rcases perform_effect W.sound (ShortName.components hshort) with ⟨hroot, -, hsame⟩ | ⟨ps,
    name, hpath, -, E⟩
  · rw [hsame]
    refine iff_of_true L ?_
    rintro ⟨ps, name, hpath, -⟩
    simp [hroot] at hpath
  · have hname : ShortName name := hshort name (by simp [hpath])
    rw [E.longNames_iff W.names W.sound L hname, not_iff_not]
    refine ⟨fun h => ⟨ps, name, hpath, h⟩, ?_⟩
    rintro ⟨ps', name', hpath', h⟩
    obtain ⟨rfl, hlast⟩ := List.append_inj' (hpath.symm.trans hpath') rfl
    cases hlast
    exact h

/-! A volume with one long name. -/

theorem named_iff_all {ss : List Bytes} : NamedRuns ss ↔
    ∀ i < ss.length, ∀ s ∈ ss[i]?, longSlot s = true → ∃ t ∈ ss[i + 1]?, Follows s t := by
  rw [named_iff]
  constructor
  · intro h i _ s hs hlong
    exact h i s hs hlong
  · intro h i s hs hlong
    exact h i (List.getElem?_eq_some_iff.mp hs).1 s hs hlong

instance (s t : Bytes) : Decidable (Follows s t) := inferInstanceAs (Decidable (_ ∨ _))

instance (ss : List Bytes) : Decidable (NamedRuns ss) := decidable_of_iff _ named_iff_all.symm

/-- The slot of a long name of at most thirteen characters. -/
def longNameSlot (sum : UInt8) : Bytes :=
  0x41 :: List.replicate 10 0xFF ++ [attrLongName, 0, sum] ++ List.replicate 12 0xFF ++ [0, 0] ++
    List.replicate 4 0xFF

def longNameDisk : Disk :=
  smallDisk 20 [longNameSlot (nameChecksum (nameField [97])), writeShortEntry [97] 0x20 0 0]

theorem longNameDisk_emptyFiles :
    EmptyFiles [longNameSlot (nameChecksum (nameField [97])), writeShortEntry [97] 0x20 0 0] :=
  ⟨by decide, by decide, by decide, by
    unfold ZeroTail
    decide⟩

theorem longNameDisk_wellFormed : WellFormed smallVolume longNameDisk :=
  smallDisk_wellFormed (by decide) longNameDisk_emptyFiles (by decide)

theorem longNameDisk_longNames : LongNames smallVolume (view smallVolume longNameDisk) := by
  intro n hn
  rw [(smallDisk_flat (by decide) longNameDisk_emptyFiles).reach hn]
  decide +kernel

/-- Truncating the file puts its new entry where the old one was. -/
theorem perform_longNames_truncated :
    LongNames smallVolume
      (view smallVolume (perform smallVolume ⟨[[97]], .createFile⟩ longNameDisk).2) := by
  have hshort : ∀ s ∈ [[97]], ShortName s := List.forall_mem_singleton.mpr (.singleton (by decide))
  refine (perform_longNames_iff longNameDisk_wellFormed longNameDisk_longNames
    (c := ⟨[[97]], .createFile⟩) hshort).mpr ?_
  rintro ⟨ps, name, hpath, h⟩
  obtain ⟨rfl, hlast⟩ := List.append_inj' (show [] ++ [[97]] = ps ++ [name] from hpath) rfl
  cases hlast
  have hdir : parentDir smallVolume (view smallVolume longNameDisk) [] = some 2 := by decide +kernel
  have hf : findIn smallVolume (view smallVolume longNameDisk) 2 [97] =
    some ⟨[97], false, 0, 0⟩ := by decide +kernel
  have hlong : (dirSlots smallVolume (view smallVolume longNameDisk) 2)[0]? =
      some (longNameSlot (nameChecksum (nameField [97]))) := by decide +kernel
  have hs : (dirSlots smallVolume (view smallVolume longNameDisk) 2)[1]? =
    some (writeShortEntry [97] 0x20 0 0) := by
    decide +kernel
  have hdemand : demand smallVolume (view smallVolume longNameDisk) 2
    (some ⟨[97], false, 0, 0⟩) .createFile = 0 := by
    decide +kernel
  have hperm : Permitted smallVolume (view smallVolume longNameDisk)
    (some ⟨[97], false, 0, 0⟩) .createFile := by
    rintro e ⟨rfl⟩
    rfl
  refine ((orphans_iff longNameDisk_wellFormed.names hdir hf hperm hs (by decide +kernel)).mp h).2
    ⟨by simp, by rw [hdemand]; exact Nat.zero_le _, fun j hj t ht => ?_, by decide +kernel⟩
  obtain rfl : j = 0 := Nat.lt_one_iff.mp hj
  rw [hlong] at ht
  cases ht
  decide +kernel

/-- Removing the file leaves its long name behind. -/
theorem perform_longNames_removed : WellFormed smallVolume longNameDisk ∧
    LongNames smallVolume (view smallVolume longNameDisk) ∧
    ¬LongNames smallVolume
      (view smallVolume (perform smallVolume ⟨[[97]], .remove⟩ longNameDisk).2) := by
  refine ⟨longNameDisk_wellFormed, longNameDisk_longNames, fun h => ?_⟩
  have hroot := h smallVolume.rootCluster .root
  revert hroot
  decide +kernel

end Willo.Fat
