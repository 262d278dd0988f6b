import Willo.VolumeUpkeep
import Willo.FatStore

/-! Boots: a volume is mounted from its disk, calls run on it, and the disk is all that
stays. A call on names that come back, with contents of less than 4 GiB, leaves a
well-formed volume well formed whether it succeeds or not, its boot sector included; so
boot after boot finds the volume of the first one. -/

namespace Willo.Fat
open Text Paths ByteCodec BlockDevice FaultState LinkedChain RootedGraph TreeStore

def Sized (v : FatFs) (w : View) : Prop :=
  ∀ dir i e, Reach (graph v w) dir → entryAt v w dir i = some e → e.isDir = false →
    (chainOf v w e.cluster).length = (e.size + clusterBytes v - 1) / clusterBytes v

section Sizes

variable {v : FatFs} {w w₁ w₂ w' : View} {dir i size : Nat} {e : DirEntry} {old : Option DirEntry}
  {name : Str} {op : Mutation UInt8} {attrs : UInt8} {cs cs' : List Nat} {blank : List Bytes}

theorem Sized.spares (Z : Sized v w) (S : Sturdy v w) (h : Spares w w') : Sized v w' := by
  intro dir i e hr he hd
  have A := S.agrees h
  have hr := (A.reach dir).mp hr
  have he : entryAt v w dir i = some e := (A.entry dir hr i).symm.trans he
  rw [S.chainOf_spares h (S.start hr he)]
  exact Z dir i e hr he hd

theorem Dropped.sized (Z : Sized v w) (S : Sturdy v w) (T : Dropped v w w' dir i e) :
    Sized v w' := by
  intro n j f hn hf hd
  obtain ⟨hn, hne⟩ := ((T.detached S).reach_iff S.forest n).mp hn
  obtain ⟨hf, hplace⟩ := (T.detached S).entry_some hn hne hf
  rw [chainOf_congr S.geometry T.sectors (S.start hn hf) (T.chainOf_entry S hn hf hplace)]
  exact Z n j f hn hf hd

theorem Cleared.sized (Z : Sized v w) (S : Sturdy v w) (h : Cleared v w dir old w₁) :
    Sized v w₁ := by
  cases h with
  | absent => exact Z
  | dropped _ T _ _ => exact T.sized Z S

theorem Hooked.sized (Z : Sized v w) (S : Sturdy v w) {entry : Bytes}
    (T : Hooked v w w₁ w' dir i entry cs cs' blank)
    (hnew : ∀ e, decodeSlot entry = some e → e.isDir = false →
      cs.length = (e.size + clusterBytes v - 1) / clusterBytes v) : Sized v w' := by
  intro n j f hn hf hd
  rcases ((T.attached S).reach_iff n).mp hn with hn | ⟨e, he, hm⟩
  · rcases (T.attached S).entry_some hn hf with hf | ⟨-, -, he⟩
    · have hfile : ∀ x ∈ chainOf v w f.cluster, x ∉ chainOf v w dir := by
        intro x hx hxd
        have hchild := S.child_of_shared hn T.reach hf hx hxd
        rw [(DirEntry.child_eq_some.mp hchild).1] at hd
        cases hd
      rw [T.chainOf_other S (S.start hn hf) hfile]
      exact Z n j f hn hf hd
    · rw [T.cluster f he, T.chainOf_fresh S]
      exact hnew f he hd
  · have hnone : entryAt v w' n j = none := (T.attached S).empty e n he hm j
    rw [hnone] at hf
    cases hf

theorem clustersFor_short (g : Geometry v w.sectors) {len : Nat} (h : len < 2 ^ 32) :
    clustersFor v len = (len + clusterBytes v - 1) / clusterBytes v := by
  have hpos := clusterBytes_pos g
  refine Nat.mod_eq_of_lt ((Nat.div_lt_iff_lt_mul hpos).mpr ?_)
  have hle : 2 ^ 32 + (clusterBytes v - 1) ≤ 2 ^ 32 * clusterBytes v := by
    have hmul : 1 * (clusterBytes v - 1) ≤ 2 ^ 32 * (clusterBytes v - 1) :=
      Nat.mul_le_mul_right _ (by decide)
    rw [Nat.mul_sub] at hmul
    omega
  omega

theorem Payload.sized (P : Payload v w dir old op attrs size cs w₂) (g : Geometry v w₁.sectors)
    (F : Fresh v w₁ w₂ cs) (hdata : ∀ data, newData v w old op = some data → data.length < 2 ^ 32) :
    ∀ e, decodeSlot (writeShortEntry name attrs (cs.headD 0) size) = some e → e.isDir = false →
      cs.length = (e.size + clusterBytes v - 1) / clusterBytes v := by
  intro e he hd
  rw [P.decodeSlot_entry g F name] at he
  split_ifs at he
  have he := Option.some.inj he
  cases P with
  | dir _ _ =>
    rw [← he] at hd
    cases hd
  | file hnew _ hlen _ =>
    have hshort := hdata _ hnew
    rw [← he, hlen, clustersFor_short g hshort, Nat.mod_eq_of_lt hshort]

end Sizes

section Calls

variable {v : FatFs} {w w' : View} {ps : List Str} {name : Str} {op : Mutation UInt8}
    {r : Except Fault Unit}

/-- What a call would leave as the file's content can be counted in its size field. -/
def Countable (v : FatFs) (w : View) (path : List Str) (op : Mutation UInt8) : Prop :=
  ∀ data, target op (store v w path) = some (.file data) → data.length < 2 ^ 32

theorem Effect.sized (Z : Sized v w) (S : Sound v w) (E : Effect v w ps name op r w')
    (hlen : Countable v w (ps ++ [name]) op) : Sized v w' := by
  cases E with
  | refused _ => exact Z
  | starved _ _ _ _ C hspare _ _ => exact (C.sized Z S.toSturdy).spares (C.sturdy S.toSturdy) hspare
  | removed _ _ _ T _ => exact T.sized Z S.toSturdy
  | stored hdir hperm _ _ C T P _ =>
    have S₁ := C.sturdy S.toSturdy
    refine T.sized (C.sized Z S.toSturdy) S₁ (P.sized S₁.geometry T.fresh fun data hdata => ?_)
    refine hlen data ?_
    rw [store_snoc hdir]
    exact target_newData hperm hdata

/-- A call on path names, which creates no name that would not come back and no content
too long for the size field. -/
structure Regular (v : FatFs) (d : Disk) (c : Call) : Prop where
  names : ∀ s ∈ c.path, Component s
  kept : c.op ≠ .remove → ∀ name, c.path.getLast? = some name → Kept name
  countable : Countable v (view v d) c.path c.op

variable {d : Disk} {c : Call}

theorem Regular.kept_last (R : Regular v d c) (hpath : c.path = ps ++ [name]) :
    c.op ≠ .remove → Kept name :=
  fun hop => R.kept hop name (by rw [hpath, List.getLast?_concat])

theorem WellFormed.sized (W : WellFormed v d) : Sized v (view v d) :=
  fun _ _ _ hr he hd => W.sizes hr he hd

theorem perform_view (S : Sound v (view v d)) (U : UniqueNames v (view v d))
    (Z : Sized v (view v d)) (R : Regular v d c) :
    Sound v (view v (perform v c d).2) ∧ UniqueNames v (view v (perform v c d).2) ∧
      Sized v (view v (perform v c d).2) := by
  rcases perform_effect S R.names with ⟨-, -, hsame⟩ | ⟨ps, name, hpath, hn, E⟩
  · rw [hsame]
    exact ⟨S, U, Z⟩
  · have hkept := R.kept_last hpath
    have hlen := R.countable
    rw [hpath] at hlen
    exact ⟨E.sound S fun hop => (hkept hop).first, E.uniqueNames U S hn fun hop => (hkept hop).2,
      E.sized Z S hlen⟩

end Calls

/-! Mounting again. -/

/-- A computation on numbers alone: the disk plays no part. -/
def Constant {α : Type} (x : FatM α) : Prop := ∃ r, ∀ d, exec x d = (r, d)

section Constants

variable {α β : Type}

theorem Constant.pure (a : α) : Constant (pure a) := ⟨.ok a, fun _ => rfl⟩

theorem Constant.throw (f : Fault) : Constant (throw f : FatM α) := ⟨.error f, fun _ => rfl⟩

theorem Constant.ite {p : Prop} [Decidable p] {x y : FatM α} (hx : Constant x) (hy : Constant y) :
    Constant (if p then x else y) := by
  split_ifs
  · exact hx
  · exact hy

theorem Constant.bind {x : FatM α} {f : α → FatM β} (hx : Constant x) (hf : ∀ a, Constant (f a)) :
    Constant (x >>= f) := by
  obtain ⟨r, hr⟩ := hx
  cases r with
  | error e => exact ⟨.error e, fun d => exec_bind_error (hr d)⟩
  | ok a =>
    obtain ⟨r, hf⟩ := hf a
    exact ⟨r, fun d => by rw [exec_bind_ok (hr d), hf]⟩

theorem Constant.fst_eq {x : FatM α} (hx : Constant x) (d d' : Disk) :
    (exec x d).1 = (exec x d').1 := by
  obtain ⟨r, hr⟩ := hx
  rw [hr, hr]

theorem mulU32_constant (a b : Nat) : Constant (mulU32 a b) := .ite (.pure _) (.throw _)

theorem addU32_constant (a b : Nat) : Constant (addU32 a b) := .ite (.pure _) (.throw _)

end Constants

section Boots

variable {v : FatFs} {d d' : Disk} {c : Call}

theorem mount_congr (hs : 0 < d.sectors) (hs' : 0 < d'.sectors) (h : d'.block 0 = d.block 0) :
    (exec mount d').1 = (exec mount d).1 := by
  unfold mount
  rw [exec_bind_ok (exec_readBlock hs), exec_bind_ok (exec_readBlock hs'), h]
  exact (Constant.ite (.throw _) ((mulU32_constant _ _).bind fun _ =>
    (addU32_constant _ _).bind fun _ =>
    .pure _)).fst_eq _ _

theorem Wrote.mounted {us : List (Int × Nat)} (h : Wrote v us d d') (g : Geometry v d.sectors)
    (hm : (exec mount d).1 = .ok v) : (exec mount d').1 = .ok v := by
  have hdata := g.onDevice
  have hreserved := g.reserved
  rw [g.dataStart] at hdata
  have hsectors : 0 < d.sectors := by omega
  have hblock : d'.block 0 = d.block 0 := h.reserved 0 (by rw [g.fatStart]; omega) (by decide)
  rw [mount_congr hsectors (by rwa [h.sectors]) hblock]
  exact hm

theorem WellFormed.of_wrote {us : List (Int × Nat)} (W : WellFormed v d) (h : Wrote v us d d')
    (S : Sound v (view v d')) (U : UniqueNames v (view v d')) (Z : Sized v (view v d')) :
    WellFormed v d' where
  mounted := h.mounted W.geometry W.mounted
  rootCluster := W.rootCluster
  reserved := W.reserved
  clusters := W.clusters
  lbas := W.lbas
  fats := by
    rw [h.sectors]
    exact W.fats
  root := S.root
  entries hr he hge := S.entries hr he (Or.inr hge)
  apart := S.forest.separated
  onDevice := S.fits
  copies := h.mirrored W.copies
  dirs hr he hd := (S.entries hr he (Or.inl hd)).1.1
  sizes hr he hd := Z _ _ _ hr he hd
  names := U
  tails := S.tails

theorem perform_wellFormed (W : WellFormed v d) (R : Regular v d c) :
    WellFormed v (perform v c d).2 := by
  obtain ⟨S, U, Z⟩ := perform_view W.sound W.names W.sized R
  obtain ⟨-, us, hwrote⟩ := perform_upkeep W.sound.toSturdy R.names
  exact W.of_wrote hwrote S U Z

theorem runCalls_wellFormed (W : WellFormed v d) {calls : List Call}
    (h : Along v (Regular v) calls d) :
    WellFormed v (runCalls v calls d) :=
  runCalls_invariant (fun _ _ W R => perform_wellFormed W R) h W

def boot (d : Disk) (calls : List Call) : Except Fault Disk :=
  match (exec mount d).1 with
  | .ok v => .ok (runCalls v calls d)
  | .error f => .error f

def boots (runs : List (List Call)) (d : Disk) : Except Fault Disk := runs.foldlM boot d

theorem boot_ok (hm : (exec mount d).1 = .ok v) (calls : List Call) :
    boot d calls = .ok (runCalls v calls d) := by
  rw [boot, hm]

theorem runCalls_append (calls calls' : List Call) :
    runCalls v (calls ++ calls') d = runCalls v calls' (runCalls v calls d) := List.foldl_append

theorem Along.append {P : Disk → Call → Prop} {calls calls' : List Call} :
    Along v P (calls ++ calls') d ↔ Along v P calls d ∧ Along v P calls' (runCalls v calls d) := by
  induction calls generalizing d with
  | nil => exact (and_iff_right trivial).symm
  | cons c calls ih =>
    rw [List.cons_append, Along, Along, ih, and_assoc]
    rfl

/-- However the calls are spread over boots, every boot finds the volume, and the disk is
the one that a single boot would leave: a well-formed one. -/
theorem boots_eq_runCalls (W : WellFormed v d) {runs : List (List Call)}
    (h : Along v (Regular v) runs.flatten d) :
    boots runs d = .ok (runCalls v runs.flatten d) ∧ WellFormed v (runCalls v runs.flatten d) := by
  refine ⟨?_, runCalls_wellFormed W h⟩
  induction runs generalizing d with
  | nil => rfl
  | cons calls runs ih =>
    rw [List.flatten_cons, Along.append] at h
    have hnext := ih (runCalls_wellFormed W h.1) h.2
    rw [boots, List.foldlM_cons, boot_ok W.mounted]
    rw [List.flatten_cons, runCalls_append]
    exact hnext

end Boots

end Willo.Fat
