import Willo.TreeChanges

/-! Further invariants of the directory tree and how the changes keep them: the
dot entries at the start of every directory below the root, names that differ
within a directory, and no cluster in use outside the tree. -/

namespace Willo.Fat
open Text Paths ByteCodec BlockDevice FaultState LinkedChain RootedGraph

def DotSlot (s : Bytes) (name : Str) (c : Nat) : Prop :=
  slice s 0 11 = nameField name ∧ (decodeEntry s).cluster = c

/-- What `..` points at: the parent's first cluster, zero for the root. -/
def dotdotCluster (v : FatFs) (parent : Nat) : Nat := if parent = v.rootCluster then 0 else parent

structure DotsAt (v : FatFs) (w : View) (dir parent : Nat) : Prop where
  itself : ∃ s, (dirSlots v w dir)[0]? = some s ∧ DotSlot s [dot] dir
  above : ∃ s, (dirSlots v w dir)[1]? = some s ∧ DotSlot s [dot, dot] (dotdotCluster v parent)

def Dotted (v : FatFs) (w : View) : Prop :=
  ∀ dir i e, Reach (graph v w) dir → entryAt v w dir i = some e → e.isDir = true →
    DotsAt v w e.cluster dir

/-- Names in one directory differ, ignoring ASCII case. -/
def UniqueNames (v : FatFs) (w : View) : Prop :=
  ∀ dir, Reach (graph v w) dir → ∀ i j e f, entryAt v w dir i = some e →
    entryAt v w dir j = some f →
    lower e.name = lower f.name → i = j

/-- FAT values that stand for no link: reserved, or a bad cluster. -/
def reservedMark (x : Nat) : Prop := x = 1 ∨ 0x0FFFFFF0 ≤ x ∧ x ≤ 0x0FFFFFF7

instance (x : Nat) : Decidable (reservedMark x) := inferInstanceAs (Decidable (_ ∨ _))

def NoLost (v : FatFs) (w : View) : Prop :=
  ∀ c, InFat v c → w.fat c ≠ 0 → ¬ reservedMark (w.fat c) → Held (graph v w) c

section Dots

variable {v : FatFs} {w w' : View} {s : Bytes} {dir parent i : Nat}

theorem byteAt_eq_of_slice {a b : Bytes} {n x : Nat} (h : slice a 0 n = b) (hx : x < n) :
    byteAt a x = byteAt b x := by
  rw [← h, byteAt_slice hx, Nat.zero_add]

theorem slice_of_slice {a b : Bytes} {n off len : Nat} (h : slice a 0 n = b) (hle : off + len ≤ n) :
    slice a off len = slice b off len := by
  subst h
  simp only [slice, List.drop_zero, List.drop_take, List.take_take]
  rw [Nat.min_eq_left (by omega)]

theorem decodeShortName_congr {a b : Bytes} (h : slice a 0 11 = b) :
    decodeShortName a = decodeShortName b := by
  simp only [decodeShortName, slice_of_slice h (show 0 + 8 ≤ 11 by omega),
    slice_of_slice h (show 8 + 3 ≤ 11 by omega)]

theorem DotSlot.dotName {name : Str} {c : Nat} (h : DotSlot s name c)
    (hn : name = [dot] ∨ name = [dot, dot]) :
    byteAt s 0 = dot ∧ isDotName (decodeShortName s) = true := by
  rw [byteAt_eq_of_slice h.1 (by omega), decodeShortName_congr h.1]
  rcases hn with rfl | rfl
  · decide
  · decide

theorem DotSlot.not_entry {name : Str} {c : Nat} (h : DotSlot s name c)
    (hn : name = [dot] ∨ name = [dot, dot]) : decodeSlot s = none := by
  rw [decodeSlot, if_pos (Or.inr (Or.inr (h.dotName hn).2))]

theorem DotSlot.not_vacant {name : Str} {c : Nat} (h : DotSlot s name c)
    (hn : name = [dot] ∨ name = [dot, dot]) : ¬ vacant s := by
  simp [vacant, (h.dotName hn).1, Text.dot]

theorem DotsAt.congr (h : DotsAt v w dir parent)
    (heq : ∀ k < 2, (dirSlots v w' dir)[k]? = (dirSlots v w dir)[k]?) : DotsAt v w' dir parent := by
  refine ⟨?_, ?_⟩
  · rw [heq 0 (by omega)]
    exact h.itself
  · rw [heq 1 (by omega)]
    exact h.above

theorem DotsAt.slot (h : DotsAt v w dir parent) {k : Nat} (hk : k < 2) :
    ∃ s, (dirSlots v w dir)[k]? = some s ∧ decodeSlot s = none ∧ ¬ vacant s := by
  obtain rfl | rfl : k = 0 ∨ k = 1 := by omega
  · obtain ⟨s, hs, hdot⟩ := h.itself
    exact ⟨s, hs, hdot.not_entry (Or.inl rfl), hdot.not_vacant (Or.inl rfl)⟩
  · obtain ⟨s, hs, hdot⟩ := h.above
    exact ⟨s, hs, hdot.not_entry (Or.inr rfl), hdot.not_vacant (Or.inr rfl)⟩

end Dots

section Sparing

variable {v : FatFs} {w w' : View}

theorem Dotted.spares (D : Dotted v w) (S : Sturdy v w) (h : Spares w w') : Dotted v w' := by
  intro dir i e hr he hd
  have A := S.agrees h
  have hr := (A.reach dir).mp hr
  have he : entryAt v w dir i = some e := (A.entry dir hr i).symm.trans he
  refine (D dir i e hr he hd).congr fun k _ => ?_
  rw [S.dirSlots_spares h (.step hr he (DirEntry.child_eq_some.mpr ⟨hd, rfl⟩))]

theorem UniqueNames.spares (U : UniqueNames v w) (S : Sturdy v w) (h : Spares w w') :
    UniqueNames v w' := by
  intro dir hr i j e f he hf
  have A := S.agrees h
  have hr := (A.reach dir).mp hr
  have he : entryAt v w dir i = some e := (A.entry dir hr i).symm.trans he
  have hf : entryAt v w dir j = some f := (A.entry dir hr j).symm.trans hf
  exact U dir hr i j e f he hf

end Sparing

section Dropping

variable {v : FatFs} {w w' : View} {dir i : Nat} {e : DirEntry}

theorem Dropped.dotted (D : Dotted v w) (S : Sturdy v w) (T : Dropped v w w' dir i e) :
    Dotted v w' := by
  intro n j f hn hf hd
  obtain ⟨hn, hne⟩ := ((T.detached S).reach_iff S.forest n).mp hn
  obtain ⟨hf, hplace⟩ := (T.detached S).entry_some hn hne hf
  have hdots := D n j f hn hf hd
  have hr : Reach (graph v w) f.cluster := .step hn hf (DirEntry.child_eq_some.mpr ⟨hd, rfl⟩)
  have hother : e.child ≠ some f.cluster := by
    intro hm
    obtain ⟨rfl, rfl⟩ := S.forest.parent_unique hn hf (DirEntry.child_eq_some.mpr ⟨hd, rfl⟩)
      T.reach T.was hm
    simp at hplace
  refine hdots.congr fun k hk => ?_
  by_cases hdir : f.cluster = dir
  · -- the dropped slot is a live one, so not one of the first two
    obtain ⟨s, hs, hlive, -⟩ := T.slot
    obtain ⟨t, ht, hnone, -⟩ := hdots.slot hk
    rw [hdir] at ht ⊢
    rw [T.dirSlots_self S hs, List.getElem?_set_ne]
    rintro rfl
    rw [hs] at ht
    rw [← Option.some.inj ht, hlive] at hnone
    cases hnone
  · rw [T.dirSlots_other S hr hother hdir]

theorem Dropped.uniqueNames (U : UniqueNames v w) (S : Sturdy v w) (T : Dropped v w w' dir i e) :
    UniqueNames v w' := by
  intro n hn j k f g hf hg
  obtain ⟨hn, hne⟩ := ((T.detached S).reach_iff S.forest n).mp hn
  exact U n hn j k f g ((T.detached S).entry_some hn hne hf).1
    ((T.detached S).entry_some hn hne hg).1

theorem Dropped.noLost (L : NoLost v w) (S : Sturdy v w) (T : Dropped v w w' dir i e) :
    NoLost v w' := by
  intro c hc hused hmark
  have hnot : c ∉ chainOf v w e.cluster := fun h => hused (T.freed c h)
  rw [T.fat c hnot] at hused hmark
  obtain ⟨o, ho⟩ := L c hc hused hmark
  refine ⟨o, ((T.detached S).holds_iff S.forest o c).mpr ⟨ho, ?_⟩⟩
  rintro rfl
  cases ho with
  | slot hn he hp =>
    rw [Option.some.inj (T.was.symm.trans he)] at hnot
    exact hnot hp

end Dropping

section Hooking

variable {v : FatFs} {w w₁ w' : View} {dir i : Nat} {entry : Bytes} {cs cs' : List Nat}
  {blank : List Bytes}

theorem Hooked.dotted (D : Dotted v w) (S : Sturdy v w)
    (T : Hooked v w w₁ w' dir i entry cs cs' blank)
    (hnew : ∀ e, decodeSlot entry = some e → e.isDir = true → DotsAt v w' e.cluster dir) :
    Dotted v w' := by
  intro n j f hn hf hd
  rcases ((T.attached S).reach_iff n).mp hn with hn | ⟨e, he, hm⟩
  · rcases (T.attached S).entry_some hn hf with hf | ⟨rfl, -, he⟩
    · have hdots := D n j f hn hf hd
      have hr : Reach (graph v w) f.cluster := .step hn hf (DirEntry.child_eq_some.mpr ⟨hd, rfl⟩)
      refine hdots.congr fun k hk => ?_
      by_cases hdir : f.cluster = dir
      · -- the entry went to a vacant slot, so not to one of the first two
        obtain ⟨t, ht, -, hused⟩ := hdots.slot hk
        obtain ⟨hi, hv, -⟩ := T.place S
        rw [hdir] at ht ⊢
        have hlt := (List.getElem?_eq_some_iff.mp ht).1
        rw [T.dirSlots_self S, List.getElem?_set_ne, List.getElem?_append_left hlt]
        rintro rfl
        rw [List.getElem_append_left hlt] at hv
        rw [List.getElem?_eq_getElem hlt] at ht
        exact hused (Option.some.inj ht ▸ hv)
      · rw [T.dirSlots_other S hr hdir]
    · exact hnew f he hd
  · have hnone : entryAt v w' n j = none := (T.attached S).empty e n he hm j
    rw [hnone] at hf
    cases hf

theorem Hooked.uniqueNames (U : UniqueNames v w) (S : Sturdy v w)
    (T : Hooked v w w₁ w' dir i entry cs cs' blank)
    (hnew : ∀ e, decodeSlot entry = some e → ∀ j f, entryAt v w dir j = some f →
      lower f.name ≠ lower e.name) : UniqueNames v w' := by
  intro n hn j k f g hf hg hname
  rcases ((T.attached S).reach_iff n).mp hn with hn | ⟨e, he, hm⟩
  · rcases (T.attached S).entry_some hn hf with hf | ⟨rfl, rfl, hef⟩
    · rcases (T.attached S).entry_some hn hg with hg | ⟨rfl, rfl, heg⟩
      · exact U n hn j k f g hf hg hname
      · exact absurd hname (hnew g heg j f hf)
    · rcases (T.attached S).entry_some hn hg with hg | ⟨-, rfl, -⟩
      · exact absurd hname.symm (hnew f hef k g hg)
      · rfl
  · have hnone : entryAt v w' n j = none := (T.attached S).empty e n he hm j
    rw [hnone] at hf
    cases hf

theorem Hooked.noLost (L : NoLost v w) (S : Sturdy v w)
    (T : Hooked v w w₁ w' dir i entry cs cs' blank) {e : DirEntry}
    (he : decodeSlot entry = some e) :
    NoLost v w' := by
  intro c hc hused hmark
  by_cases hdir : c ∈ cs'
  · by_cases hold : c ∈ chainOf v w dir
    · obtain ⟨o, ho⟩ := held_dir T.reach hold
      exact ⟨o, (T.attached S).holds ho⟩
    · exact (T.attached S).held_extra ⟨hdir, hold⟩
  · by_cases hfresh : c ∈ cs
    · refine (T.attached S).held_part he ?_
      change c ∈ chainOf v w' e.cluster
      rwa [T.cluster e he, T.chainOf_fresh S]
    · rw [T.added.fat c hdir, T.fresh.fat c hfresh] at hused hmark
      obtain ⟨o, ho⟩ := L c hc hused hmark
      exact ⟨o, (T.attached S).holds ho⟩

end Hooking

end Willo.Fat
