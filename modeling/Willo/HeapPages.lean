import Willo.FrameAllocator

/-! Setting up the kernel heap (`allocator.rs`). Each of its pages gets a frame of the
frame allocator and is mapped to it; the mapper takes the frames for its tables from the
same allocator, in between. The paging crate's mapper is a parameter. -/

namespace Willo.Memory
open FaultState

def heapStart : Nat := 0x444444440000

def heapSize : Nat := 256 * 1024

def present : UInt64 := 1

def writable : UInt64 := 2

inductive MapToError (F : Type) where
  | frameAllocationFailed
  | parentEntryHugePage
  | pageAlreadyMapped (frame : F)

inductive Stop (F : Type) where
  | error (e : MapToError F)
  | panic (p : AllocPanic)

/-- The crate's `Mapper`: its tables, what they map a page to, the frames that they are kept
in, and the pages that can still be mapped. -/
structure Mapper (P : Paging) where
  Tables : Type
  mapTo : Nat → P.PhysFrame → UInt64 → Tables → BootInfoFrameAllocator →
    Except (Stop P.PhysFrame) Unit × Tables × BootInfoFrameAllocator
  translate : Tables → Nat → Option (P.PhysFrame × UInt64)
  holds : Tables → P.PhysFrame → Prop
  free : Tables → Nat → Prop

inductive Takes (P : Paging) : BootInfoFrameAllocator → List P.PhysFrame →
  BootInfoFrameAllocator → Prop where
  | nil (a : BootInfoFrameAllocator) : Takes P a [] a
  | cons {a a₁ a' : BootInfoFrameAllocator} {f : P.PhysFrame} {fs : List P.PhysFrame}
      (h : exec (allocateFrame P) a = (.ok (some f), a₁)) (rest : Takes P a₁ fs a') :
        Takes P a (f :: fs) a'

/-- What the crate documents of `map_to`: the page is mapped to the frame, and no other page
is touched; at most three frames are taken, all for tables; and with three to be had a page
that can be mapped is. -/
structure Mapper.Documented {P : Paging} (M : Mapper P) : Prop where
  maps : ∀ {page f flags t a t' a'}, M.mapTo page f flags t a = (.ok (), t', a') →
    M.translate t' page = some (f, flags)
  keeps : ∀ {page f flags t a r t' a' q}, M.mapTo page f flags t a = (r, t', a') → q ≠ page →
    M.translate t' q = M.translate t q ∧ (M.free t q → M.free t' q)
  takes : ∀ {page f flags t a t' a'}, M.mapTo page f flags t a = (.ok (), t', a') →
    ∃ taken, taken.length ≤ 3 ∧ Takes P a taken a' ∧ ∀ g, M.holds t' g → M.holds t g ∨ g ∈ taken
  succeeds : ∀ {page f flags t a taken a₁}, M.free t page → Takes P a taken a₁ → taken.length = 3 →
    ∃ t' a', M.mapTo page f flags t a = (.ok (), t', a')

structure Boot (T : Type) where
  frames : BootInfoFrameAllocator
  tables : T
  heap : Option (Nat × Nat)

section Setup

variable {P : Paging} (M : Mapper P)

abbrev BootM (α : Type) := ExceptT (Stop P.PhysFrame) (StateM (Boot M.Tables)) α

def takeFrame : BootM M (Option P.PhysFrame) :=
  ExceptT.mk fun b =>
    let r := exec (allocateFrame P) b.frames
    (r.1.mapError Stop.panic, { b with frames := r.2 })

def mapPage (page : Nat) (frame : P.PhysFrame) (flags : UInt64) : BootM M Unit :=
  ExceptT.mk fun b =>
    let r := M.mapTo page frame flags b.tables b.frames
    (r.1, { b with tables := r.2.1, frames := r.2.2 })

/-- `Page::range_inclusive` from the page of the first byte of the heap to that of its last. -/
def heapPages : List Nat :=
  List.range' (heapStart / frameSize)
    ((heapStart + (heapSize - 1)) / frameSize - heapStart / frameSize + 1)

def mapPages : List Nat → BootM M Unit
  | [] => pure ()
  | page :: pages => do
    let frame ← takeFrame M
    match frame with
    | none => throw (.error .frameAllocationFailed)
    | some frame => do
      mapPage M page frame (present ||| writable)
      mapPages pages

def initHeap : BootM M Unit := do
  mapPages M heapPages
  modify fun b => { b with heap := some (heapStart, heapSize) }

end Setup

/-! Frames in the order they are taken. -/

section Taking

variable {P : Paging} {a a' a'' : BootInfoFrameAllocator} {fs gs : List P.PhysFrame}

theorem Takes.append (h : Takes P a fs a') (h' : Takes P a' gs a'') : Takes P a (fs ++ gs) a'' := by
  induction h with
  | nil a => exact h'
  | cons hrun _ ih => exact .cons hrun (ih h')

theorem Takes.allocator (D : Documented P) (h : Takes P a fs a') :
    a' = { a with next := a.next + fs.length } := by
  induction h with
  | nil a => rfl
  | cons hrun _ ih =>
    obtain ⟨rfl, -⟩ := allocateFrame_ok D hrun
    rw [ih, List.length_cons, Nat.add_assoc, Nat.add_comm 1]

theorem Takes.starts (D : Documented P) (G : GoodMap a.memoryRegions) (h : Takes P a fs a') :
    fs.map P.startAddress = ((usableAddresses a.memoryRegions).drop a.next).take fs.length := by
  induction h with
  | nil a => rw [List.length_nil, List.take_zero, List.map_nil]
  | @cons a a₁ a' f fs hrun _ ih =>
    obtain ⟨rfl, hstart⟩ := allocateFrame_ok D hrun
    obtain ⟨addr, haddr, hround⟩ := Option.map_eq_some_iff.mp hstart.symm
    obtain ⟨r, -, -, haligned, -⟩ := (mem_usableAddresses G).mp (List.mem_of_getElem? haddr)
    rw [Nat.div_mul_cancel (Nat.dvd_of_mod_eq_zero haligned)] at hround
    obtain ⟨hlt, hget⟩ := List.getElem?_eq_some_iff.mp haddr
    rw [List.map_cons, ih G, List.length_cons, List.drop_eq_getElem_cons hlt, List.take_succ_cons,
      hget, hround]

theorem Takes.nodup (D : Documented P) (G : GoodMap a.memoryRegions) (h : Takes P a fs a') :
    (fs.map P.startAddress).Nodup := by
  rw [h.starts D G]
  exact (nodup_usableAddresses G).sublist ((List.take_sublist _ _).trans (List.drop_sublist _ _))

theorem Takes.usable (D : Documented P) (G : GoodMap a.memoryRegions) (h : Takes P a fs a')
    {f : P.PhysFrame} (hf : f ∈ fs) :
    P.startAddress f ∈ usableAddresses a.memoryRegions := by
  have hmem := List.mem_map_of_mem (f := P.startAddress) hf
  rw [h.starts D G] at hmem
  exact List.mem_of_mem_drop (List.mem_of_mem_take hmem)

theorem takes_one (D : Documented P)
    (hlow : ∀ addr ∈ usableAddresses a.memoryRegions, addr < 2 ^ 52)
    (hnext : a.next + 1 < 2 ^ 64) (hroom : a.next < (usableAddresses a.memoryRegions).length) :
    ∃ f, exec (allocateFrame P) a = (.ok (some f), { a with next := a.next + 1 }) := by
  obtain ⟨frame, hrun⟩ := allocateFrame_returns D hlow hnext
  obtain ⟨-, hstart⟩ := allocateFrame_ok D hrun
  rw [List.getElem?_eq_getElem hroom, Option.map_some] at hstart
  obtain ⟨f, rfl, -⟩ := Option.map_eq_some_iff.mp hstart
  exact ⟨f, hrun⟩

theorem takes_many (D : Documented P)
    (hlow : ∀ addr ∈ usableAddresses a.memoryRegions, addr < 2 ^ 52) (n : Nat)
    (hnext : a.next + n < 2 ^ 64) (hroom : a.next + n ≤ (usableAddresses a.memoryRegions).length) :
    ∃ fs a', fs.length = n ∧ Takes P a fs a' := by
  induction n generalizing a with
  | zero => exact ⟨[], a, rfl, .nil a⟩
  | succ n ih =>
    obtain ⟨f, hrun⟩ := takes_one D hlow (by omega) (by omega)
    obtain ⟨fs, a', hlen, hrest⟩ :=
      ih (a := { a with next := a.next + 1 }) hlow (by dsimp only; omega) (by dsimp only; omega)
    exact ⟨f :: fs, a', by rw [List.length_cons, hlen], .cons hrun hrest⟩

end Taking

/-! The run over the pages. -/

section Mapping

variable {P : Paging} {M : Mapper P} {b b' : Boot M.Tables} {pages : List Nat}

/-- The pages are mapped, each to its frame; nothing else is; and the frames taken are theirs
and those of new tables. -/
structure Mapped (M : Mapper P) (b b' : Boot M.Tables) (pages : List Nat)
    (frames tables : List P.PhysFrame) : Prop where
  mapped : List.Forall₂ (fun page f =>
    M.translate b'.tables page = some (f, present ||| writable)) pages frames
  others : ∀ q ∉ pages, M.translate b'.tables q = M.translate b.tables q
  taken : ∃ all, Takes P b.frames all b'.frames ∧ all.Perm (frames ++ tables)
  holds : ∀ g, M.holds b'.tables g → M.holds b.tables g ∨ g ∈ tables
  heap : b'.heap = b.heap

theorem exec_takeFrame {r : Option P.PhysFrame} {a : BootInfoFrameAllocator}
    (h : exec (allocateFrame P) b.frames = (.ok r, a)) :
    exec (takeFrame M) b = (.ok r, { b with frames := a }) := by
  change ((exec (allocateFrame P) b.frames).1.mapError _,
    { b with frames := (exec (allocateFrame P) b.frames).2 }) = _
  rw [h]
  rfl

theorem takeFrame_ok {r : Option P.PhysFrame} (h : exec (takeFrame M) b = (.ok r, b')) :
    ∃ a, exec (allocateFrame P) b.frames = (.ok r, a) ∧ b' = { b with frames := a } := by
  change ((exec (allocateFrame P) b.frames).1.mapError _,
    { b with frames := (exec (allocateFrame P) b.frames).2 }) = _ at h
  rcases hrun : exec (allocateFrame P) b.frames with ⟨e | x, a⟩ <;> rw [hrun] at h <;> cases h
  exact ⟨a, rfl, rfl⟩

theorem exec_mapPage (page : Nat) (f : P.PhysFrame) (flags : UInt64) (b : Boot M.Tables) :
    exec (mapPage M page f flags) b = ((M.mapTo page f flags b.tables b.frames).1,
      { b with
        tables := (M.mapTo page f flags b.tables b.frames).2.1
        frames := (M.mapTo page f flags b.tables b.frames).2.2 }) := rfl

theorem mapPages_mapped (DM : M.Documented) (hnodup : pages.Nodup)
    (h : exec (mapPages M pages) b = (.ok (), b')) :
    ∃ frames tables, Mapped M b b' pages frames tables := by
  induction pages generalizing b with
  | nil =>
    cases h
    exact ⟨[], [], .nil, fun _ _ => rfl, ⟨[], .nil _, .refl _⟩, fun _ hg => Or.inl hg, rfl⟩
  | cons page pages ih =>
    obtain ⟨hpage, hnodup⟩ := List.nodup_cons.mp hnodup
    rw [mapPages] at h
    rcases htake : exec (takeFrame M) b with ⟨e | _ | f, b₁⟩
    · rw [exec_bind_error htake] at h
      cases h
    · rw [exec_bind_ok htake] at h
      cases h
    rw [exec_bind_ok htake] at h
    dsimp only at h
    obtain ⟨a, hframe, rfl⟩ := takeFrame_ok htake
    rcases hmap : M.mapTo page f (present ||| writable) b.tables a with ⟨e | u, t₂, a₂⟩
    · have hrun := exec_mapPage (M := M) page f (present ||| writable) { b with frames := a }
      rw [hmap] at hrun
      rw [exec_bind_error hrun] at h
      cases h
    have hrun := exec_mapPage (M := M) page f (present ||| writable) { b with frames := a }
    rw [hmap] at hrun
    rw [exec_bind_ok hrun] at h
    obtain ⟨fs, ts, R⟩ := ih hnodup h
    obtain ⟨taken, -, htaken, hholds⟩ := DM.takes hmap
    obtain ⟨all, hall, hperm⟩ := R.taken
    refine ⟨f :: fs, taken ++ ts, ?_, fun q hq => ?_,
      ⟨f :: (taken ++ all), .cons hframe (htaken.append hall), ?_⟩,
      fun g hg => ?_, R.heap⟩
    · exact .cons ((R.others page hpage).trans (DM.maps hmap)) R.mapped
    · rw [List.mem_cons, not_or] at hq
      exact (R.others q hq.2).trans (DM.keeps hmap hq.1).1
    · exact ((hperm.append_left taken).trans (List.perm_append_comm_assoc taken fs ts)).cons f
    · rw [List.mem_append]
      rcases R.holds g hg with hg | hg
      · exact (hholds g hg).imp_right Or.inl
      · exact Or.inr (Or.inr hg)

theorem mapPages_returns (D : Documented P) (DM : M.Documented) (hnodup : pages.Nodup)
    (hfree : ∀ page ∈ pages, M.free b.tables page)
    (hlow : ∀ addr ∈ usableAddresses b.frames.memoryRegions, addr < 2 ^ 52)
    (hnext : b.frames.next + 4 * pages.length < 2 ^ 64)
    (hroom : b.frames.next + 4 * pages.length ≤ (usableAddresses b.frames.memoryRegions).length) :
    ∃ b', exec (mapPages M pages) b = (.ok (), b') := by
  induction pages generalizing b with
  | nil => exact ⟨b, rfl⟩
  | cons page pages ih =>
    obtain ⟨hpage, hnodup⟩ := List.nodup_cons.mp hnodup
    obtain ⟨hhead, hfree⟩ := List.forall_mem_cons.mp hfree
    rw [List.length_cons] at hnext hroom
    obtain ⟨f, hframe⟩ := takes_one D hlow (by omega) (by omega)
    obtain ⟨three, a₁, hthree, htakes⟩ :=
      takes_many (a := { b.frames with next := b.frames.next + 1 }) D hlow 3
      (by dsimp only; omega) (by dsimp only; omega)
    obtain ⟨t₂, a₂, hmap⟩ : ∃ t₂ a₂, M.mapTo page f (present ||| writable) b.tables
        { b.frames with next := b.frames.next + 1 } = (.ok (), t₂, a₂) :=
          DM.succeeds hhead htakes hthree
    have hrun := exec_mapPage (M := M) page f (present ||| writable)
      { b with frames := { b.frames with next := b.frames.next + 1 } }
    rw [hmap] at hrun
    obtain ⟨taken, hlen, htaken, -⟩ := DM.takes hmap
    have ha₂ := htaken.allocator D
    rw [mapPages, exec_bind_ok (exec_takeFrame hframe)]
    dsimp only
    rw [exec_bind_ok hrun]
    refine ih hnodup (fun q hq => (DM.keeps hmap ?_).2 (hfree q hq)) ?_ ?_ ?_
    · rintro rfl
      exact hpage hq
    · rw [ha₂]
      exact hlow
    · rw [ha₂]
      dsimp only
      omega
    · rw [ha₂]
      dsimp only
      omega

theorem nodup_heapPages : heapPages.Nodup := List.nodup_range' 1

theorem length_heapPages : heapPages.length = 64 := by decide

end Mapping

/-- On a machine with 1 MiB of usable memory and nothing in the way, the setup succeeds: every
page of the heap is mapped, present and writable, to a usable frame of its own, in which no
page table is kept, neither an old one nor a new one; and no other page changes. -/
theorem initHeap_maps {P : Paging} (D : Documented P) {M : Mapper P} (DM : M.Documented)
    {regions : List MemoryRegion}
    (G : GoodMap regions) (hlow : ∀ r ∈ regions, r.kind = .usable → r.stop ≤ 2 ^ 52)
    (hroom : 256 ≤ (usableAddresses regions).length) {t : M.Tables}
    (hfree : ∀ page ∈ heapPages, M.free t page)
    (hunused : ∀ g, M.holds t g → P.startAddress g ∉ usableAddresses regions) :
    ∃ b' frames, exec (initHeap M) ⟨new regions, t, none⟩ = (.ok (), b') ∧
      b'.heap = some (heapStart, heapSize) ∧
      List.Forall₂ (fun page f =>
      M.translate b'.tables page = some (f, present ||| writable)) heapPages frames ∧
      (frames.map P.startAddress).Nodup ∧
      (∀ f ∈ frames, ∃ r ∈ regions, r.kind = .usable ∧ r.HasFrame (P.startAddress f)) ∧
      (∀ f ∈ frames, ∀ g, M.holds b'.tables g → P.startAddress g ≠ P.startAddress f) ∧
      ∀ q ∉ heapPages, M.translate b'.tables q = M.translate t q := by
  have hlow' : ∀ addr ∈ usableAddresses regions, addr < 2 ^ 52 := by
    intro addr haddr
    obtain ⟨r, hr, hu, -, -, hstop⟩ := (mem_usableAddresses G).mp haddr
    have := hlow r hr hu
    unfold frameSize at hstop
    omega
  obtain ⟨b₁, hrun⟩ :=
    mapPages_returns (M := M) (b := ⟨new regions, t, none⟩) D DM nodup_heapPages hfree hlow'
    (by rw [length_heapPages]; change 0 + 4 * 64 < 2 ^ 64; decide)
      (by rw [length_heapPages]; exact hroom)
  obtain ⟨frames, tables, R⟩ := mapPages_mapped DM nodup_heapPages hrun
  obtain ⟨all, hall, hperm⟩ := R.taken
  have hnodup := (hperm.map P.startAddress).nodup_iff.mp (hall.nodup D G)
  rw [List.map_append, List.nodup_append] at hnodup
  have husable : ∀ f ∈ frames, P.startAddress f ∈ usableAddresses regions := fun f hf =>
    hall.usable D G (hperm.mem_iff.mpr (List.mem_append_left _ hf))
  refine ⟨{ b₁ with heap := some (heapStart, heapSize) }, frames, ?_, rfl, R.mapped, hnodup.1,
    fun f hf => (mem_usableAddresses G).mp (husable f hf), fun f hf g hg => ?_, R.others⟩
  · rw [initHeap, exec_bind_ok hrun]
    rfl
  · rcases R.holds g hg with hg | hg
    · intro heq
      exact hunused g hg (heq ▸ husable f hf)
    · exact (hnodup.2.2 _ (List.mem_map_of_mem hf) _ (List.mem_map_of_mem hg)).symm

/-! A mapper for pages under one page table: the first of them brings in the three tables
on the way to it. -/

structure OneTable where
  entries : List (Nat × addressPaging.PhysFrame × UInt64)
  tables : List addressPaging.PhysFrame

def takeTables : Nat → BootInfoFrameAllocator →
  Option (List addressPaging.PhysFrame × BootInfoFrameAllocator)
  | 0, a => some ([], a)
  | n + 1, a =>
    match exec (allocateFrame addressPaging) a with
    | (.ok (some f), a₁) => (takeTables n a₁).map fun r => (f :: r.1, r.2)
    | _ => none

def OneTable.mapTo (page : Nat) (f : addressPaging.PhysFrame) (flags : UInt64) (t : OneTable)
    (a : BootInfoFrameAllocator) :
    Except (Stop addressPaging.PhysFrame) Unit × OneTable × BootInfoFrameAllocator :=
  match t.entries.lookup page with
  | some e => (.error (.error (.pageAlreadyMapped e.1)), t, a)
  | none =>
    if t.tables = [] then
      match takeTables 3 a with
      | some (fs, a') => (.ok (), ⟨(page, f, flags) :: t.entries, fs⟩, a')
      | none => (.error (.error .frameAllocationFailed), t, a)
    else (.ok (), ⟨(page, f, flags) :: t.entries, t.tables⟩, a)

def oneTable : Mapper addressPaging where
  Tables := OneTable
  mapTo := OneTable.mapTo
  translate t page := t.entries.lookup page
  holds t f := f ∈ t.tables
  free t page := t.entries.lookup page = none

section OneTables

variable {a a' : BootInfoFrameAllocator} {fs : List addressPaging.PhysFrame} {n page : Nat}
  {f : addressPaging.PhysFrame} {flags : UInt64} {t t' : OneTable} {r :
    Except (Stop addressPaging.PhysFrame) Unit}

theorem takes_of_takeTables (h : takeTables n a = some (fs, a')) :
    fs.length = n ∧ Takes addressPaging a fs a' := by
  induction n generalizing a fs with
  | zero =>
    cases h
    exact ⟨rfl, .nil _⟩
  | succ n ih =>
    rw [takeTables] at h
    rcases hrun : exec (allocateFrame addressPaging) a with ⟨e | _ | g, a₁⟩ <;> rw [hrun] at h
    · cases h
    · cases h
    · obtain ⟨⟨gs, a₂⟩, hrest, heq⟩ := Option.map_eq_some_iff.mp h
      cases heq
      obtain ⟨hlen, htakes⟩ := ih hrest
      exact ⟨by rw [List.length_cons, hlen], .cons hrun htakes⟩

theorem takeTables_of_takes (h : Takes addressPaging a fs a') :
    takeTables fs.length a = some (fs, a') := by
  induction h with
  | nil a => rfl
  | cons hrun _ ih =>
    rw [List.length_cons, takeTables, hrun]
    dsimp only
    rw [ih]
    rfl

/-- A mapping adds one entry, and the tables if there are none; or nothing changes. -/
theorem mapTo_cases (h : OneTable.mapTo page f flags t a = (r, t', a')) :
    (r = .ok () ∧ t'.entries = (page, f, flags) :: t.entries ∧
      ((t'.tables = t.tables ∧ a' = a) ∨ takeTables 3 a = some (t'.tables, a'))) ∨
    (r ≠ .ok () ∧ t' = t) := by
  unfold OneTable.mapTo at h
  split at h
  · cases h
    exact Or.inr ⟨nofun, rfl⟩
  · split_ifs at h with hnone
    · split at h
      · rename_i htables
        cases h
        exact Or.inl ⟨rfl, rfl, Or.inr htables⟩
      · cases h
        exact Or.inr ⟨nofun, rfl⟩
    · cases h
      exact Or.inl ⟨rfl, rfl, Or.inl ⟨rfl, rfl⟩⟩

theorem lookup_cons_of_ne {α : Type} {q : Nat} {e : α} {es : List (Nat × α)} (h : q ≠ page) :
    ((page, e) :: es).lookup q = es.lookup q := by
  rw [List.lookup_cons, beq_eq_false_iff_ne.mpr h]

theorem oneTable_documented : oneTable.Documented where
  maps h := by
    rcases mapTo_cases h with ⟨-, hentries, -⟩ | ⟨hr, -⟩
    · change List.lookup _ _ = _
      rw [hentries, List.lookup_cons_self]
    · exact absurd rfl hr
  keeps {page f flags t a r t' a' q} h hq := by
    rcases mapTo_cases h with ⟨-, hentries, -⟩ | ⟨-, rfl⟩
    · have hsame : t'.entries.lookup q = t.entries.lookup q := by
        rw [hentries]
        exact lookup_cons_of_ne hq
      exact ⟨hsame, hsame.trans⟩
    · exact ⟨rfl, id⟩
  takes h := by
    rcases mapTo_cases h with ⟨-, -, ⟨htables, rfl⟩ | htables⟩ | ⟨hr, -⟩
    · exact ⟨[], Nat.zero_le _, .nil _, fun g hg => Or.inl (by
        change g ∈ _ at hg
        rwa [htables] at hg)⟩
    · obtain ⟨hlen, htakes⟩ := takes_of_takeTables htables
      exact ⟨_, Nat.le_of_eq hlen, htakes, fun g hg => Or.inr hg⟩
    · exact absurd rfl hr
  succeeds {page f flags t a taken a₁} hfree htakes hlen := by
    have htables := hlen ▸ takeTables_of_takes htakes
    change List.lookup _ _ = _ at hfree
    change ∃ t' a', OneTable.mapTo page f flags t a = _
    unfold OneTable.mapTo
    rw [hfree]
    dsimp only
    split_ifs
    · rw [htables]
      exact ⟨_, _, rfl⟩
    · exact ⟨_, _, rfl⟩

end OneTables

def wideMap : List MemoryRegion := [⟨0, 0x100000, .bootloader⟩, ⟨0x100000, 0x300000, .usable⟩]

theorem initHeap_maps_wideMap :
    ∃ (b' : Boot oneTable.Tables) (frames : List addressPaging.PhysFrame),
      exec (initHeap oneTable) ⟨new wideMap, ⟨[], []⟩, none⟩ = (.ok (), b') ∧
      b'.heap = some (heapStart, heapSize) ∧ frames.length = 64 ∧
      (frames.map addressPaging.startAddress).Nodup := by
  have hgood : GoodMap wideMap := ⟨by decide, by decide⟩
  obtain ⟨b', frames, hrun, hheap, hmaps, hnodup, -⟩ :=
    initHeap_maps addressPaging_documented oneTable_documented
    hgood (by decide) (by decide +kernel) (t := ⟨[], []⟩) (fun _ _ => rfl) (fun _ h =>
      absurd h List.not_mem_nil)
  exact ⟨b', frames, hrun, hheap, hmaps.length_eq.symm.trans length_heapPages, hnodup⟩

end Willo.Memory
