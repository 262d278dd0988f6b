import Mathlib.Algebra.Ring.Nat
import Willo.Enumeration
import Willo.FaultState

/-! The physical frame allocator (`memory.rs`). It hands out the 4 KiB frames of the
usable regions of the bootloader's memory map, in the order of the map, and keeps
only how many it has handed out: every call walks the map again. -/

namespace Willo.Memory
open FaultState Enumeration

def frameSize : Nat := 4096

/-- The paging crate, as far as the allocator uses it: frames, their first address, and the
frame that contains an address. `PhysAddr::new` accepts an address or panics. -/
structure Paging where
  PhysFrame : Type
  startAddress : PhysFrame → Nat
  containingAddress : Nat → Option PhysFrame

/-- What the crate documents: addresses of 52 bits are accepted, and a frame is found by
rounding down to its size. -/
structure Documented (P : Paging) : Prop where
  accepted : ∀ addr < 2 ^ 52, (P.containingAddress addr).isSome
  aligned : ∀ addr f, P.containingAddress addr = some f →
    P.startAddress f = addr / frameSize * frameSize

inductive MemoryRegionKind where
  | usable
  | bootloader
  | unknownUefi (tag : Nat)
  | unknownBios (tag : Nat)
  deriving DecidableEq

/-- The addresses from `start` up to `stop`, which is not part of the region. -/
structure MemoryRegion where
  start : Nat
  stop : Nat
  kind : MemoryRegionKind
  deriving DecidableEq

structure BootInfoFrameAllocator where
  memoryRegions : List MemoryRegion
  next : Nat

inductive AllocPanic where
  | badAddress
  | overflow
  deriving DecidableEq

abbrev AllocM (α : Type) := ExceptT AllocPanic (StateM BootInfoFrameAllocator) α

def stepBy (start stop step : Nat) : List Nat :=
  List.range' start ((stop - start + (step - 1)) / step) step

/-- The addresses that `usable_frames` turns into frames. -/
def usableAddresses (regions : List MemoryRegion) : List Nat :=
  (regions.filter fun r => r.kind = .usable).flatMap fun r => stepBy r.start r.stop frameSize

section Calls

variable (P : Paging)

/-- `PhysFrame::containing_address(PhysAddr::new(addr))`. -/
def frameAt (addr : Nat) : AllocM P.PhysFrame :=
  match P.containingAddress addr with
  | some frame => pure frame
  | none => throw .badAddress

/-- `Iterator::nth` over the addresses, each turned into its frame on the way. -/
def nthFrame : List Nat → Nat → AllocM (Option P.PhysFrame)
  | [], _ => pure none
  | addr :: _, 0 => do
    let frame ← frameAt P addr
    pure (some frame)
  | addr :: addrs, n + 1 => do
    let _ ← frameAt P addr
    nthFrame addrs n

def allocateFrame : AllocM (Option P.PhysFrame) := do
  let a ← get
  let frame ← nthFrame P (usableAddresses a.memoryRegions) a.next
  if a.next + 1 < 2 ^ 64 then do
    set { a with next := a.next + 1 }
    pure frame
  else throw .overflow

def allocateFrames : Nat → BootInfoFrameAllocator → List (Option P.PhysFrame)
  | 0, _ => []
  | n + 1, a =>
    match exec (allocateFrame P) a with
    | (.ok frame, a') => frame :: allocateFrames n a'
    | (.error _, _) => []

end Calls

def new (regions : List MemoryRegion) : BootInfoFrameAllocator := ⟨regions, 0⟩

/-- What is asked of the bootloader. -/
structure GoodMap (regions : List MemoryRegion) : Prop where
  aligned : ∀ r ∈ regions, r.kind = .usable → r.start % frameSize = 0 ∧ r.stop % frameSize = 0
  disjoint : (regions.filter fun r => r.kind = .usable).Pairwise fun r s =>
    ∀ addr, r.start ≤ addr → addr < r.stop → ¬ (s.start ≤ addr ∧ addr < s.stop)

def MemoryRegion.HasFrame (r : MemoryRegion) (addr : Nat) : Prop :=
  addr % frameSize = 0 ∧ r.start ≤ addr ∧ addr + frameSize ≤ r.stop

/-- What calls made in order should have returned: frames that begin at different addresses, each
inside a usable region; and where one returned nothing, every frame before it and none after. -/
structure HandsOut (P : Paging) (regions : List MemoryRegion)
    (results : List (Option P.PhysFrame)) : Prop where
  distinct : ((results.filterMap id).map P.startAddress).Nodup
  inside : ∀ frame, some frame ∈ results →
    ∃ r ∈ regions, r.kind = .usable ∧ r.HasFrame (P.startAddress frame)
  complete : ∀ before after, results = before ++ none :: after → ∀ r ∈ regions, r.kind = .usable →
    ∀ addr, r.HasFrame addr → ∃ frame, some frame ∈ before ∧ P.startAddress frame = addr
  ended : ∀ before after, results = before ++ none :: after → ∀ x ∈ after, x = none

section Addresses

variable {regions : List MemoryRegion} {r : MemoryRegion} {addr : Nat}

theorem mem_stepBy {start stop : Nat} : addr ∈ stepBy start stop frameSize ↔
    ∃ i, addr = start + frameSize * i ∧ addr < stop := by
  rw [stepBy, List.mem_range']
  refine exists_congr fun i => ?_
  unfold frameSize
  omega

theorem nodup_stepBy (start stop : Nat) : (stepBy start stop frameSize).Nodup :=
  List.nodup_range' frameSize (by decide)

theorem mem_stepBy_aligned (hstart : r.start % frameSize = 0) (hstop : r.stop % frameSize = 0) :
    addr ∈ stepBy r.start r.stop frameSize ↔ r.HasFrame addr := by
  rw [mem_stepBy, MemoryRegion.HasFrame]
  unfold frameSize at *
  constructor
  · rintro ⟨i, rfl, hlt⟩
    omega
  · intro h
    exact ⟨(addr - r.start) / 4096, by omega⟩

theorem mem_usableAddresses (G : GoodMap regions) :
    addr ∈ usableAddresses regions ↔ ∃ r ∈ regions, r.kind = .usable ∧ r.HasFrame addr := by
  simp only [usableAddresses, List.mem_flatMap, List.mem_filter, decide_eq_true_eq, and_assoc]
  refine exists_congr fun r => and_congr_right fun hr => and_congr_right fun hu => ?_
  exact mem_stepBy_aligned (G.aligned r hr hu).1 (G.aligned r hr hu).2

theorem nodup_usableAddresses (G : GoodMap regions) : (usableAddresses regions).Nodup := by
  refine List.nodup_flatMap.mpr ⟨fun r _ => nodup_stepBy r.start r.stop,
    G.disjoint.imp fun {r s} hrs => ?_⟩
  intro addr hr hs
  obtain ⟨i, hi, hlt⟩ := mem_stepBy.mp hr
  obtain ⟨j, hj, hlt'⟩ := mem_stepBy.mp hs
  exact hrs addr (hi ▸ Nat.le_add_right _ _) hlt ⟨hj ▸ Nat.le_add_right _ _, hlt'⟩

end Addresses

/-! One call, and calls in sequence. -/

section Runs

variable {P : Paging} {a a' : BootInfoFrameAllocator} {frame : Option P.PhysFrame}
    {addrs : List Nat} {n : Nat}

theorem frameAt_reads (P : Paging) (addr : Nat) : Reads (frameAt P addr) := by
  unfold frameAt
  split
  · exact .pure _
  · exact .throw _

theorem nthFrame_reads (P : Paging) (addrs : List Nat) (n : Nat) : Reads (nthFrame P addrs n) := by
  induction addrs generalizing n with
  | nil => exact .pure _
  | cons addr addrs ih =>
    cases n with
    | zero => exact (frameAt_reads P addr).bind fun _ => .pure _
    | succ n => exact (frameAt_reads P addr).bind fun _ => ih n

theorem exec_frameAt {f : P.PhysFrame} {addr : Nat} (h : P.containingAddress addr = some f) :
    exec (frameAt P addr) a = (.ok f, a) := by
  rw [frameAt, h, exec_pure]

theorem exec_frameAt_panic {addr : Nat} (h : P.containingAddress addr = none) :
    exec (frameAt P addr) a = (.error .badAddress, a) := by
  rw [frameAt, h, exec_throw]

theorem nthFrame_ok (D : Documented P) (h : (exec (nthFrame P addrs n) a).1 = .ok frame) :
    frame.map P.startAddress = addrs[n]?.map fun addr => addr / frameSize * frameSize := by
  induction addrs generalizing n with
  | nil =>
    cases h
    rfl
  | cons addr addrs ih =>
    rcases hframe : P.containingAddress addr with _ | f
    · cases n <;> rw [nthFrame, exec_bind_error (exec_frameAt_panic hframe)] at h <;> cases h
    · cases n with
      | zero =>
        rw [nthFrame, exec_bind_ok (exec_frameAt hframe)] at h
        cases h
        exact congrArg some (D.aligned addr f hframe)
      | succ n =>
        rw [nthFrame, exec_bind_ok (exec_frameAt hframe)] at h
        exact ih h

theorem nthFrame_returns (D : Documented P) (h : ∀ addr ∈ addrs, addr < 2 ^ 52) :
    ∃ frame, exec (nthFrame P addrs n) a = (.ok frame, a) := by
  induction addrs generalizing n with
  | nil => exact ⟨none, rfl⟩
  | cons addr addrs ih =>
    obtain ⟨f, hframe⟩ := Option.isSome_iff_exists.mp (D.accepted addr (h addr (by simp)))
    cases n with
    | zero => exact ⟨some f, by rw [nthFrame, exec_bind_ok (exec_frameAt hframe), exec_pure]⟩
    | succ n =>
      rw [nthFrame, exec_bind_ok (exec_frameAt hframe)]
      exact ih fun x hx => h x (by simp [hx])

theorem allocateFrame_ok (D : Documented P) (h : exec (allocateFrame P) a = (.ok frame, a')) :
    a' = { a with next := a.next + 1 } ∧
      frame.map P.startAddress =
        (usableAddresses a.memoryRegions)[a.next]?.map fun addr =>
          addr / frameSize * frameSize := by
  rw [allocateFrame, exec_get_bind] at h
  rcases hnth : exec (nthFrame P (usableAddresses a.memoryRegions) a.next) a with ⟨e | f, a₁⟩
  · rw [exec_bind_error hnth] at h
    cases h
  · obtain rfl := (nthFrame_reads P _ _).of_exec hnth
    rw [exec_bind_ok hnth] at h
    split_ifs at h with hlt
    · cases h
      exact ⟨rfl, nthFrame_ok D (congrArg Prod.fst hnth)⟩
    · cases h

theorem allocateFrame_returns (D : Documented P)
    (h : ∀ addr ∈ usableAddresses a.memoryRegions, addr < 2 ^ 52) (hnext : a.next + 1 < 2 ^ 64) :
    ∃ frame, exec (allocateFrame P) a = (.ok frame, { a with next := a.next + 1 }) := by
  obtain ⟨frame, hnth⟩ := nthFrame_returns (n := a.next) (a := a) D h
  refine ⟨frame, ?_⟩
  rw [allocateFrame, exec_get_bind, exec_bind_ok hnth, if_pos hnext]
  rfl

theorem allocateFrames_ok (h : exec (allocateFrame P) a = (.ok frame, a')) :
    allocateFrames P (n + 1) a = frame :: allocateFrames P n a' := by
  rw [allocateFrames, h]

theorem allocateFrames_error {e : AllocPanic} (h : exec (allocateFrame P) a = (.error e, a')) :
    allocateFrames P (n + 1) a = [] := by
  rw [allocateFrames, h]

/-- The frames handed out by a run begin where the usable memory says, in order. -/
theorem starts_allocateFrames (D : Documented P) (G : GoodMap a.memoryRegions) (n : Nat) :
    (allocateFrames P n a).map (Option.map P.startAddress) =
      issued (usableAddresses a.memoryRegions) a.next (allocateFrames P n a).length := by
  induction n generalizing a with
  | zero => rfl
  | succ n ih =>
    rcases hrun : exec (allocateFrame P) a with ⟨e | frame, a'⟩
    · rw [allocateFrames_error hrun]
      rfl
    · obtain ⟨rfl, hstart⟩ := allocateFrame_ok D hrun
      have hround : (usableAddresses a.memoryRegions)[a.next]?.map (fun addr =>
        addr / frameSize * frameSize) =
          (usableAddresses a.memoryRegions)[a.next]? := by
        refine (Option.map_congr fun addr haddr => ?_).trans Option.map_id'
        obtain ⟨r, -, -, haligned, -⟩ := (mem_usableAddresses G).mp (List.mem_of_getElem? haddr)
        exact Nat.div_mul_cancel (Nat.dvd_of_mod_eq_zero haligned)
      rw [allocateFrames_ok hrun, List.length_cons, issued_succ, List.map_cons, hstart, hround]
      exact congrArg _ (ih (a := { a with next := a.next + 1 }) G)

theorem length_allocateFrames (D : Documented P)
    (h : ∀ addr ∈ usableAddresses a.memoryRegions, addr < 2 ^ 52)
    (hn : a.next + n < 2 ^ 64) : (allocateFrames P n a).length = n := by
  induction n generalizing a with
  | zero => rfl
  | succ n ih =>
    obtain ⟨frame, hrun⟩ := allocateFrame_returns D h (show a.next + 1 < 2 ^ 64 by omega)
    have hrest := ih (a := { a with next := a.next + 1 }) h (by dsimp only; omega)
    rw [allocateFrames_ok hrun, List.length_cons, hrest]

end Runs

/-- Over a map with disjoint and aligned usable regions, the calls hand out each usable frame
once, whatever their number; each call returns as long as the memory ends at 2^52 and the calls
can be counted. -/
theorem allocateFrames_handsOut {P : Paging} (D : Documented P) {regions : List MemoryRegion}
    (G : GoodMap regions) (n : Nat) :
    HandsOut P regions (allocateFrames P n (new regions)) ∧
      ((∀ r ∈ regions, r.kind = .usable → r.stop ≤ 2 ^ 52) → n < 2 ^ 64 →
        (allocateFrames P n (new regions)).length = n) := by
  have hstarts : (allocateFrames P n (new regions)).map (Option.map P.startAddress) =
      issued (usableAddresses regions) 0 (allocateFrames P n (new regions)).length :=
    starts_allocateFrames (a := new regions) D G n
  have hmem : ∀ {addr}, addr ∈ usableAddresses regions ↔ ∃ r ∈ regions, r.kind = .usable ∧
    r.HasFrame addr :=
    mem_usableAddresses G
  refine ⟨⟨?_, fun frame hframe => ?_, fun before after hsplit r hr hu addr haddr => ?_,
    fun before after hsplit x hx => ?_⟩, fun hlow hn => ?_⟩
  · have hnodup := nodup_issued (nodup_usableAddresses G) (allocateFrames P n (new regions)).length
    rw [← hstarts, List.filterMap_map] at hnodup
    rwa [List.map_filterMap]
  · have hstart := List.mem_map_of_mem (f := Option.map P.startAddress) hframe
    rw [hstarts] at hstart
    exact hmem.mp (mem_of_issued hstart)
  · rw [hsplit, List.map_append, List.map_cons, Option.map_none] at hstarts
    have hgiven := mem_of_issued_none hstarts.symm (hmem.mpr ⟨r, hr, hu, haddr⟩)
    obtain ⟨x, hx, hxaddr⟩ := List.mem_map.mp hgiven
    obtain ⟨frame, rfl, hstart⟩ := Option.map_eq_some_iff.mp hxaddr
    exact ⟨frame, hx, hstart⟩
  · rw [hsplit, List.map_append, List.map_cons, Option.map_none] at hstarts
    exact Option.map_eq_none_iff.mp (none_of_issued_none hstarts.symm (List.mem_map_of_mem hx))
  · refine length_allocateFrames D (fun addr haddr => ?_) (by dsimp only [new]; omega)
    obtain ⟨r, hr, hu, -, -, hstop⟩ := hmem.mp haddr
    have := hlow r hr hu
    unfold frameSize at hstop
    omega

/-- The frames of the crate, named by their first address. -/
def containingFrame (addr : Nat) : Option Nat :=
  if addr < 2 ^ 52 then some (addr / frameSize * frameSize) else none

def addressPaging : Paging := ⟨Nat, id, containingFrame⟩

theorem addressPaging_documented : Documented addressPaging where
  accepted addr h := by
    change (containingFrame addr).isSome
    rw [containingFrame, if_pos h]
    rfl
  aligned addr f h := by
    change containingFrame addr = some f at h
    unfold containingFrame at h
    split_ifs at h
    exact (Option.some.inj h).symm

def smallMap : List MemoryRegion :=
  [⟨0x4000, 0x6000, .usable⟩, ⟨0x2000, 0x4000, .bootloader⟩, ⟨0x1000, 0x2000, .usable⟩]

theorem smallMap_good : GoodMap smallMap where
  aligned := by decide
  disjoint := by
    refine List.pairwise_pair.mpr fun addr h _ hs => ?_
    dsimp only at h hs
    omega

theorem allocateFrames_handsOut_smallMap :
    HandsOut addressPaging smallMap (allocateFrames addressPaging 5 (new smallMap)) ∧
      (allocateFrames addressPaging 5 (new smallMap)).length = 5 := by
  have hrun := allocateFrames_handsOut addressPaging_documented smallMap_good 5
  exact ⟨hrun.1, hrun.2 (by decide) (by decide)⟩

end Willo.Memory
