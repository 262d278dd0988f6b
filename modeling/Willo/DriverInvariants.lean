import Willo.DriverCalls

/-! What every call keeps. Each invariant of the directory tree is carried through
the four ways a call can end; the two that the driver can break say under which
condition on the call and the view it keeps them. -/

namespace Willo.Fat
open Text Paths ByteCodec BlockDevice FaultState LinkedChain RootedGraph TreeStore

section Clearing

variable {v : FatFs} {w w₁ : View} {dir : Nat} {old : Option DirEntry} {name : Str}

theorem Cleared.dotted (D : Dotted v w) (S : Sturdy v w) (h : Cleared v w dir old w₁) :
    Dotted v w₁ := by
  cases h with
  | absent => exact D
  | dropped _ T _ _ => exact T.dotted D S

theorem Cleared.uniqueNames (U : UniqueNames v w) (S : Sturdy v w) (h : Cleared v w dir old w₁) :
    UniqueNames v w₁ := by
  cases h with
  | absent => exact U
  | dropped _ T _ _ => exact T.uniqueNames U S

theorem Cleared.noLost (L : NoLost v w) (S : Sturdy v w) (h : Cleared v w dir old w₁) :
    NoLost v w₁ := by
  cases h with
  | absent => exact L
  | dropped _ T _ _ => exact T.noLost L S

theorem Dropped.absent_name (U : UniqueNames v w) (S : Sturdy v w) {i : Nat} {e : DirEntry}
    (T : Dropped v w w₁ dir i e) (he : lower e.name = lower name) :
    ∀ j f, entryAt v w₁ dir j = some f → lower f.name ≠ lower name := by
  intro j f hf hname
  obtain ⟨hf, hplace⟩ := (T.detached S).entry_some T.reach T.not_self hf
  have := U dir T.reach j i f e hf T.was (hname.trans he.symm)
  tauto

theorem Cleared.absent_name (U : UniqueNames v w) (S : Sound v w) (hn : Component name)
    (hr : Reach (graph v w) dir) (h : Cleared v w dir (findIn v w dir name) w₁) :
    ∀ j f, entryAt v w₁ dir j = some f → lower f.name ≠ lower name := by
  cases hf : findIn v w dir name with
  | none =>
    rw [hf] at h
    cases h
    exact (findIn_eq_none S hr).mp hf
  | some e =>
    rw [hf] at h
    obtain ⟨-, -, -, -, -, -, hname⟩ := find_entry hn hf
    cases h with
    | dropped _ T _ _ => exact T.absent_name U S.toSturdy hname

end Clearing

/-! The stored entry. -/

section Stored

variable {v : FatFs} {w w₁ w₂ w' : View} {dir size i : Nat} {old : Option DirEntry} {name : Str}
  {op : Mutation UInt8} {attrs : UInt8} {cs cs' : List Nat} {blank : List Bytes} {e : DirEntry}

theorem Payload.attrs_cases (P : Payload v w dir old op attrs size cs w₂) :
    attrs = 0 ∨ attrs = 0x20 ∨ attrs = 0x10 := by
  cases P with
  | file _ ha _ _ => tauto
  | dir _ _ => exact Or.inr (Or.inr rfl)

theorem Payload.size_lt (P : Payload v w dir old op attrs size cs w₂) : size < 2 ^ 32 := by
  cases P with
  | file _ _ _ _ => exact Nat.mod_lt _ (by decide)
  | dir _ _ => decide

theorem Payload.decodeSlot_entry (P : Payload v w dir old op attrs size cs w₂)
    (g : Geometry v w₁.sectors) (F : Fresh v w₁ w₂ cs) (name : Str) :
    decodeSlot (writeShortEntry name attrs (cs.headD 0) size) =
      if Visible name then some ⟨storedName name, attrs == 0x10, cs.headD 0, size⟩ else none :=
  decodeSlot_writeShortEntry name _ _ P.attrs_cases (F.head_lt g) P.size_lt

theorem Payload.newDir (P : Payload v w dir old op attrs size cs w₂) (S : Sturdy v w₁)
    (hr : Reach (graph v w₁) dir) (F : Fresh v w₁ w₂ cs)
    (he : decodeSlot (writeShortEntry name attrs (cs.headD 0) size) = some e)
    (hd : e.isDir = true) :
    cs = [e.cluster] ∧ NewDir v w₂ e.cluster dir := by
  have hentry := P.decodeSlot_entry S.geometry F name
  rw [he] at hentry
  split_ifs at hentry
  have he := Option.some.inj hentry
  cases P with
  | file _ ha _ _ =>
    rw [he] at hd
    rcases ha with rfl | rfl <;> cases hd
  | @dir c _ _ hdata =>
    have hc : e.cluster = c := by
      rw [he]
      rfl
    rw [hc]
    exact ⟨rfl, .of_data (F.head_lt S.geometry) (dotdotCluster_lt S hr) hdata⟩

theorem Hooked.dotsAt (S : Sturdy v w)
    (T : Hooked v w w₁ w' dir i (writeShortEntry name attrs (cs.headD 0) size)
    cs cs' blank) {c : Nat} (hcs : cs = [c]) (N : NewDir v w₁ c dir) : DotsAt v w' c dir := by
  obtain ⟨a, b, rest, hslots, ha, hb, -⟩ := N.start
  have hchain := T.chainOf_fresh S
  have hdata : slots w' cs = slots w₁ cs :=
    slots_congr fun x hx => T.added.data x (T.fresh_notMem S hx)
  subst hcs
  have hdir : dirSlots v w' c = a :: b :: rest := by
    rw [dirSlots, show chainOf v w' c = [c] from hchain, hdata, hslots]
  exact ⟨⟨a, by rw [hdir]; rfl, ha⟩, ⟨b, by rw [hdir]; rfl, hb⟩⟩

theorem Hooked.sound_stored (S : Sound v w₁)
    (T : Hooked v w₁ w₂ w' dir i (writeShortEntry name attrs (cs.headD 0) size) cs cs' blank)
    (P : Payload v w dir old op attrs size cs w₂) (hw : Shown v w')
    (hfirst : byteAt (nameField name) 0 ≠ 0x00) : Sound v w' := by
  refine T.sound S hw (by rwa [byteAt_first]) fun e he hd => ?_
  obtain ⟨hcs, N⟩ := P.newDir S.toSturdy T.reach T.fresh he hd
  rw [hcs]
  exact N.zeroTail

theorem Hooked.uniqueNames_stored (U : UniqueNames v w₁) (S : Sturdy v w₁)
    (T : Hooked v w₁ w₂ w' dir i (writeShortEntry name attrs (cs.headD 0) size) cs cs' blank)
    (P : Payload v w dir old op attrs size cs w₂) (hname : lower (storedName name) = lower name)
    (habsent : ∀ j f, entryAt v w₁ dir j = some f → lower f.name ≠ lower name) :
    UniqueNames v w' := by
  refine T.uniqueNames U S fun e he j f hf => ?_
  rw [P.decodeSlot_entry S.geometry T.fresh name] at he
  split_ifs at he
  rw [← Option.some.inj he, hname]
  exact habsent j f hf

end Stored

/-! The invariants through a call. -/

section Effects

variable {v : FatFs} {w w' : View} {ps : List Str} {name : Str} {op : Mutation UInt8}
  {r : Except Fault Unit}

/-- The chains stay in order whatever the name. -/
theorem Effect.sturdy (S : Sturdy v w) (E : Effect v w ps name op r w') : Sturdy v w' := by
  cases E with
  | refused _ => exact S
  | starved _ _ _ _ C hspare _ hw => exact (C.sturdy S).spares hspare hw
  | removed _ _ _ T hw => exact T.sturdy S hw
  | stored _ _ _ _ C T _ hw => exact T.sturdy (C.sturdy S) hw

/-- The view stays sound when no slot is written that begins with the end marker. -/
theorem Effect.sound (S : Sound v w) (E : Effect v w ps name op r w')
    (hfirst : op ≠ .remove → byteAt (nameField name) 0 ≠ 0x00) : Sound v w' := by
  cases E with
  | refused _ => exact S
  | starved _ _ _ _ C hspare _ hw => exact (C.sound S).spares hspare hw
  | removed _ _ _ T hw => exact T.sound S hw
  | stored _ _ hop _ C T P hw => exact T.sound_stored (C.sound S) P hw (hfirst hop)

theorem Effect.dotted (D : Dotted v w) (S : Sound v w) (E : Effect v w ps name op r w') :
    Dotted v w' := by
  cases E with
  | refused _ => exact D
  | starved _ _ _ _ C hspare _ _ => exact (C.dotted D S.toSturdy).spares (C.sound S).toSturdy hspare
  | removed _ _ _ T _ => exact T.dotted D S.toSturdy
  | stored hdir _ hop _ C T P hw =>
    have S₁ := (C.sound S).toSturdy
    refine T.dotted (C.dotted D S.toSturdy) S₁ fun e he hd => ?_
    obtain ⟨hcs, N⟩ := P.newDir S₁ T.reach T.fresh he hd
    exact T.dotsAt S₁ hcs N

theorem Effect.uniqueNames (U : UniqueNames v w) (S : Sound v w) (hn : Component name)
    (E : Effect v w ps name op r w') (hname : op ≠ .remove → lower (storedName name) = lower name) :
    UniqueNames v w' := by
  cases E with
  | refused _ => exact U
  | starved _ _ _ _ C hspare _ _ =>
    exact (C.uniqueNames U S.toSturdy).spares (C.sound S).toSturdy hspare
  | removed _ _ _ T _ => exact T.uniqueNames U S.toSturdy
  | stored hdir _ hop _ C T P hw =>
    have S₁ := (C.sound S).toSturdy
    exact T.uniqueNames_stored (C.uniqueNames U S.toSturdy) S₁ P (hname hop)
      (C.absent_name U S hn (parentDir_reach hdir))

theorem Effect.refused_of (E : Effect v w ps name op r w') (hno : ¬ Ready v w ps name op) :
    (∃ err, r = .error (.err err)) ∧ w' = w := by
  cases E with
  | refused _ => exact ⟨⟨_, rfl⟩, rfl⟩
  | starved hdir hperm _ _ _ _ _ _ => exact absurd ⟨_, hdir, hperm⟩ hno
  | removed hop hdir hf T _ =>
    subst hop
    exact absurd ⟨_, hdir, _, hf, T.lists_nothing⟩ hno
  | stored hdir hperm _ _ _ _ _ _ => exact absurd ⟨_, hdir, hperm⟩ hno

/-- A call that fails for lack of clusters finds none at all. -/
def Exhausted (v : FatFs) (w : View) (ps : List Str) (name : Str) (op : Mutation UInt8) : Prop :=
  ∀ dir, parentDir v w ps = some dir → op ≠ .remove → Permitted v w (findIn v w dir name) op →
    freeClusters v (released v w (findIn v w dir name)) = []

theorem Effect.noLost (L : NoLost v w) (S : Sound v w) (E : Effect v w ps name op r w')
    (hvisible : op ≠ .remove → Visible name)
    (henough : Enough v w ps name op ∨ Exhausted v w ps name op) : NoLost v w' := by
  cases E with
  | refused _ => exact L
  | starved hdir hperm hop hlack C _ hsame _ =>
    rcases henough with h | h
    · exact absurd (h _ hdir hop hperm) hlack
    · have hnone := h _ hdir hop hperm
      rw [hsame (C.usable_eq.2.trans hnone)]
      exact C.noLost L S.toSturdy
  | removed _ _ _ T _ => exact T.noLost L S.toSturdy
  | stored hdir _ hop _ C T P hw =>
    have S₁ := (C.sound S).toSturdy
    have hentry := P.decodeSlot_entry S₁.geometry T.fresh name
    rw [if_pos (hvisible hop)] at hentry
    exact T.noLost (C.noLost L S.toSturdy) S₁ hentry

end Effects

end Willo.Fat
