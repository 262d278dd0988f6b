import Mathlib.Data.List.Perm.Subperm
import Willo.LinkedChain
import Willo.VolumeView

/-! Cluster chains on a view: what reading, freeing, allocating and filling a
chain do. A chain runs through clusters of the FAT and ends at a value from the
end-of-chain threshold on. Calls that only take free clusters leave all the
clusters in use as they were, also when they fail half way; `Spares` says so. -/

namespace Willo.Fat
open ByteCodec BlockDevice FaultState LinkedChain

abbrev Chain (v : FatFs) (w : View) : Nat → List Nat → Prop :=
  Linked w.fat (InFat v) (eocThreshold ≤ ·)

section Reading

variable {v : FatFs} {w : View} {c : Nat} {cs : List Nat}

theorem inFat_not_eoc (g : Geometry v w.sectors) (c : Nat) (hc : InFat v c) :
    ¬ eocThreshold ≤ c := by
  have := hc.lt_eoc g
  omega

theorem Chain.nodup (g : Geometry v w.sectors) (h : Chain v w c cs) : cs.Nodup :=
  Linked.nodup (inFat_not_eoc g) h

theorem Chain.length_le (g : Geometry v w.sectors) (h : Chain v w c cs) :
    cs.length ≤ clusterCount v := by
  have hsub : cs ⊆ List.range (clusterCount v) := fun x hx =>
    List.mem_range.mpr (h.mem_inside x hx).2
  have hle := ((Chain.nodup g h).subperm hsub).length_le
  rwa [List.length_range] at hle

theorem Chain.length_lt (g : Geometry v w.sectors) (h : Chain v w c cs) :
    cs.length < chainFuel := by
  have hle := h.length_le g
  have := g.countLe
  unfold chainFuel eocThreshold
  omega

theorem Chain.fat_ne_zero (h : Chain v w c cs) : ∀ x ∈ cs, w.fat x ≠ 0 := by
  intro x hx
  rcases h.next_inside_or_stop x hx with hin | hstop
  · have := hin.1
    omega
  · unfold eocThreshold at hstop
    omega

theorem readChainLoop_runs (g : Geometry v w.sectors) (h : Chain v w c cs)
    (hf : ∀ x ∈ cs, Fits v w x) (maxBytes : Nat) {fuel : Nat} (hfuel : cs.length < fuel)
    (out : Bytes) :
    ∃ r, Runs v (readChainLoop v maxBytes fuel c out) w (.ok r) w ∧
      r.take maxBytes = (out ++ cs.flatMap w.data).take maxBytes ∧
      ((out ++ cs.flatMap w.data).length < maxBytes → r = out ++ cs.flatMap w.data) := by
  induction h generalizing fuel out with
  | stop hs =>
    obtain ⟨n, rfl⟩ : ∃ n, fuel = n + 1 := ⟨fuel - 1, by omega⟩
    refine ⟨out, ?_, by simp, by simp⟩
    rw [readChainLoop, if_neg (by omega)]
    exact .pure out
  | @link a cs hin htail ih =>
    obtain ⟨n, rfl⟩ : ∃ n, fuel = n + 1 := ⟨fuel - 1, by omega⟩
    rw [List.length_cons] at hfuel
    rw [readChainLoop, if_pos ⟨hin.1, hin.lt_eoc g⟩, clusterToLba_eq g hin, pure_bind,
      List.flatMap_cons, ← List.append_assoc]
    have hread := readSectors_runs hin (hf a (by simp))
    by_cases hmax : maxBytes ≤ (out ++ w.data a).length
    · refine ⟨out ++ w.data a, hread.bind ?_, ?_, fun hlt => ?_⟩
      · rw [if_pos hmax]
        exact .pure _
      · rw [List.take_append_of_le_length hmax]
      · rw [List.length_append] at hlt
        omega
    · have hlt : cs.length < n := by omega
      obtain ⟨r, hrun, htake, hall⟩ := ih (fun x hx => hf x (by simp [hx])) hlt (out ++ w.data a)
      refine ⟨r, hread.bind ?_, htake, hall⟩
      rw [if_neg hmax]
      exact (nextCluster_runs g hin.2).bind hrun

theorem readChain_runs (g : Geometry v w.sectors) (h : Chain v w c cs)
    (hf : ∀ x ∈ cs, Fits v w x) (maxBytes : Nat) :
    ∃ r, Runs v (readChain v c maxBytes) w (.ok r) w ∧
      r.take maxBytes = (cs.flatMap w.data).take maxBytes ∧
      ((cs.flatMap w.data).length < maxBytes → r = cs.flatMap w.data) := by
  obtain ⟨r, hrun, htake, hall⟩ := readChainLoop_runs g h hf maxBytes (h.length_lt g) []
  rw [List.nil_append] at htake hall
  exact ⟨r, hrun, htake, hall⟩

end Reading

/-! Freeing. -/

def View.clear (w : View) (cs : List Nat) : View :=
  { w with fat := fun c => if c ∈ cs then 0 else w.fat c }

@[simp] theorem View.clear_sectors (w : View) (cs : List Nat) :
    (w.clear cs).sectors = w.sectors := rfl

@[simp] theorem View.clear_data (w : View) (cs : List Nat) : (w.clear cs).data = w.data := rfl

theorem View.clear_fat_of_notMem (w : View) {cs : List Nat} {c : Nat} (h : c ∉ cs) :
    (w.clear cs).fat c = w.fat c := if_neg h

theorem View.clear_fat_of_mem (w : View) {cs : List Nat} {c : Nat} (h : c ∈ cs) :
    (w.clear cs).fat c = 0 := if_pos h

theorem View.setFat_clear (w : View) (a : Nat) (cs : List Nat) :
    (w.setFat a 0).clear cs = w.clear (a :: cs) := by
  have hfat : ((w.setFat a 0).clear cs).fat = (w.clear (a :: cs)).fat := by
    funext x
    by_cases hx : x ∈ cs
    · simp [View.clear, hx]
    · by_cases hxa : x = a <;> simp [View.clear, View.setFat, hx, hxa]
  exact View.mk.injEq .. |>.mpr ⟨rfl, hfat, rfl⟩

section Freeing

variable {v : FatFs} {w : View} {c : Nat} {cs : List Nat}

theorem freeLoop_runs (g : Geometry v w.sectors) (h : Chain v w c cs) {fuel : Nat}
    (hfuel : cs.length < fuel) (freed : Nat) :
    Runs v (freeLoop v fuel c freed) w (.ok (freed + cs.length)) (w.clear cs) := by
  induction cs generalizing w c fuel freed with
  | nil =>
    obtain ⟨n, rfl⟩ : ∃ n, fuel = n + 1 := ⟨fuel - 1, by omega⟩
    cases h with
    | stop hs =>
      rw [freeLoop, if_neg (by omega)]
      simpa [View.clear] using Runs.pure (v := v) (w := w) freed
  | cons a cs ih =>
    obtain ⟨n, rfl⟩ : ∃ n, fuel = n + 1 := ⟨fuel - 1, by omega⟩
    have hnodup := List.nodup_cons.mp (h.nodup g)
    cases h with
    | link hin htail =>
      rw [List.length_cons] at hfuel
      rw [freeLoop, if_pos ⟨hin.1, hin.lt_eoc g⟩, ← View.setFat_clear, List.length_cons,
        show freed + (cs.length + 1) = freed + 1 + cs.length by omega]
      refine (nextCluster_runs g hin.2).bind ((writeFatEntry_runs g hin.2 (by decide)).bind ?_)
      refine ih (w := w.setFat a 0) g (htail.congr fun b hb => ?_) (by omega) (freed + 1)
      exact View.setFat_fat_of_ne _ _ _ _ fun hba => hnodup.1 (hba ▸ hb)

theorem freeChain_runs (g : Geometry v w.sectors) (h : Chain v w c cs) :
    Runs v (freeChain v c) w (.ok ()) (w.clear cs) := by
  have hinfo := (updateFsinfo_runs (w := w.clear cs) g ((0 + cs.length : Nat) : Int) 0).attempt_ok
  refine (freeLoop_runs g h (h.length_lt g) 0).bind ?_
  split_ifs
  · exact hinfo.bind (.pure ())
  · exact .pure ()

end Freeing

/-! Allocating. -/

/-- Every cluster in use in `w` is as it was in `w'`. -/
structure Spares (w w' : View) : Prop where
  sectors : w'.sectors = w.sectors
  fat : ∀ c, w.fat c ≠ 0 → w'.fat c = w.fat c
  data : ∀ c, w.fat c ≠ 0 → w'.data c = w.data c

theorem Spares.refl (w : View) : Spares w w := ⟨rfl, fun _ _ => rfl, fun _ _ => rfl⟩

theorem Spares.trans {w₁ w₂ w₃ : View} (h : Spares w₁ w₂) (h' : Spares w₂ w₃) : Spares w₁ w₃ := by
  refine ⟨by rw [h'.sectors, h.sectors], fun c hc => ?_, fun c hc => ?_⟩
  · rw [h'.fat c (by rwa [h.fat c hc]), h.fat c hc]
  · rw [h'.data c (by rwa [h.fat c hc]), h.data c hc]

theorem Spares.chain {v : FatFs} {w w' : View} (h : Spares w w') {c : Nat} {cs : List Nat}
    (hc : Chain v w c cs) : Chain v w' c cs :=
  hc.congr fun x hx => h.fat x (hc.fat_ne_zero x hx)

section Allocating

variable {v : FatFs} {w w' : View} {c n : Nat} {cs : List Nat}

theorem freeClusters_pairwise (v : FatFs) (w : View) : (freeClusters v w).Pairwise (· < ·) :=
  List.Pairwise.filter _ (List.pairwise_lt_range')

theorem freeClusters_nodup (v : FatFs) (w : View) : (freeClusters v w).Nodup :=
  (freeClusters_pairwise v w).imp Nat.ne_of_lt

theorem freeClusters_filter (cs : List Nat)
    (h : ∀ x, InFat v x → (w'.fat x = 0 ↔ w.fat x = 0 ∧ x ∉ cs)) :
    freeClusters v w' = (freeClusters v w).filter (· ∉ cs) := by
  simp only [freeClusters, List.filter_filter]
  refine List.filter_congr fun x hx => ?_
  have hin : InFat v x := by
    have := List.mem_range'_1.mp hx
    exact ⟨by omega, by omega⟩
  simp only [h x hin, Bool.decide_and, Bool.and_comm]

theorem filter_notMem_take {l : List Nat} (hl : l.Nodup) (n : Nat) :
    l.filter (· ∉ l.take n) = l.drop n := by
  have hsplit := List.take_append_drop n l
  have hdis := List.nodup_append.mp (hsplit ▸ hl)
  calc l.filter (· ∉ l.take n)
      = (l.take n ++ l.drop n).filter (· ∉ l.take n) := by rw [hsplit]
    _ = (l.take n).filter (· ∉ l.take n) ++ (l.drop n).filter (· ∉ l.take n) :=
      List.filter_append ..
    _ = [] ++ l.drop n := by
        congr 1
        · exact List.filter_eq_nil_iff.mpr fun x hx => by simpa using hx
        · refine List.filter_eq_self.mpr fun x hx => ?_
          simpa using fun hmem => hdis.2.2 x hmem x hx rfl
    _ = l.drop n := List.nil_append _

def zeros (v : FatFs) : Bytes := List.replicate (clusterBytes v) 0

def View.grow (v : FatFs) (w : View) (prev c : Nat) : View :=
  let fresh := (w.setFat c endOfChain).setData c (zeros v)
  if prev = 0 then fresh else fresh.setFat prev c

@[simp] theorem View.grow_sectors (prev : Nat) : (w.grow v prev c).sectors = w.sectors := by
  unfold View.grow
  split <;> rfl

theorem View.grow_data (prev x : Nat) :
    (w.grow v prev c).data x = if x = c then zeros v else w.data x := by
  unfold View.grow
  split <;> simp [View.setData, Function.update_apply]

theorem View.grow_fat {prev : Nat} (hne : prev ≠ c) (x : Nat) :
    (w.grow v prev c).fat x =
      if x = c then endOfChain else if x = prev ∧ prev ≠ 0 then c else w.fat x := by
  unfold View.grow
  by_cases hp : prev = 0
  · simp [hp, View.setFat_fat]
  · by_cases hx : x = prev
    · simp [hp, hx, hne]
    · simp [hp, hx, View.setFat_fat]

theorem freeClusters_head {rest : List Nat} (hfree : freeClusters v w = c :: rest) :
    InFat v c ∧ w.fat c = 0 :=
  mem_freeClusters.mp (hfree ▸ List.mem_cons_self)

theorem ne_freeClusters_head {prev : Nat} {rest : List Nat} (hfree : freeClusters v w = c :: rest)
    (hprev : prev ≠ 0 → w.fat prev ≠ 0) : prev ≠ c := by
  have hc := freeClusters_head hfree
  rintro rfl
  exact hprev (by have := hc.1.1; omega) hc.2

theorem endOfChain_lt : endOfChain < 2 ^ 28 := by decide

theorem eoc_le_endOfChain : eocThreshold ≤ endOfChain := by decide

theorem allocateLoop_step (g : Geometry v w.sectors) {head prev last : Nat} {rest : List Nat}
    (hfree : freeClusters v w = c :: rest) (hf : Fits v w c) (hprev : prev ≠ 0 → InFat v prev)
    {r : Except Fault (Nat × Nat)}
    (hrest : Runs v (allocateLoop v n (if prev = 0 then c else head) c c) (w.grow v prev c) r w') :
    Runs v (allocateLoop v (n + 1) head prev last) w r w' := by
  have hin := (freeClusters_head hfree).1
  have hlt := hin.lt_eoc g
  refine (findFreeCluster_some g hfree).bind ((writeFatEntry_runs g hin.2 endOfChain_lt).bind
    ((zeroCluster_runs (w := w.setFat c endOfChain) g hin hf).bind ?_))
  by_cases hp : prev = 0
  · simpa [hp, View.grow, zeros] using hrest
  · rw [if_neg hp]
    simp only [hp, if_false, View.grow] at hrest
    refine (writeFatEntry_runs (w := (w.setFat c endOfChain).setData c (zeros v)) g
      (hprev hp).2 ?_).bind hrest
    unfold eocThreshold at hlt
    omega

theorem freeClusters_grow {prev : Nat} {rest : List Nat} (hfree : freeClusters v w = c :: rest)
    (hprev : prev ≠ 0 → w.fat prev ≠ 0) : freeClusters v (w.grow v prev c) = rest := by
  have hc := freeClusters_head hfree
  have hne := ne_freeClusters_head hfree hprev
  rw [freeClusters_filter [c], hfree]
  · have hnodup := hfree ▸ freeClusters_nodup v w
    simpa using filter_notMem_take hnodup 1
  · intro x hx
    rw [View.grow_fat hne]
    have hpos := hc.1.1
    split_ifs with h1 h2
    · simp [h1, endOfChain]
    · have := hprev h2.2
      simp only [h2.1, this, false_and, iff_false]
      omega
    · simp [h1]

theorem allocateLoop_ok (g : Geometry v w.sectors) (head prev last : Nat)
    (hcs : (freeClusters v w).take n = cs) (hlen : cs.length = n) (hf : ∀ c ∈ cs, Fits v w c)
    (hprev : prev ≠ 0 → InFat v prev ∧ w.fat prev ≠ 0) :
    ∃ w', Runs v (allocateLoop v n head prev last) w
        (.ok (if prev = 0 then cs.headD head else head, cs.getLastD last)) w' ∧
      w'.sectors = w.sectors ∧ Chain v w' (cs.headD endOfChain) cs ∧
      (prev ≠ 0 → w'.fat prev = cs.headD (w.fat prev)) ∧
      (∀ x, x ∉ cs → (x ≠ prev ∨ prev = 0) → w'.fat x = w.fat x) ∧
      ∀ x, w'.data x = if x ∈ cs then zeros v else w.data x := by
  induction n generalizing w head prev last cs with
  | zero =>
    rw [List.take_zero] at hcs
    subst hcs
    refine ⟨w, ?_, rfl, .stop eoc_le_endOfChain, fun _ => rfl, fun _ _ _ => rfl, fun x => by simp⟩
    simpa [allocateLoop] using Runs.pure (v := v) (w := w) (head, last)
  | succ n ih =>
    cases hfree : freeClusters v w with
    | nil =>
      rw [hfree, List.take_nil] at hcs
      rw [← hcs] at hlen
      simp at hlen
    | cons c rest =>
      rw [hfree, List.take_succ_cons] at hcs
      subst hcs
      have hc := freeClusters_head hfree
      have hne := ne_freeClusters_head hfree fun h => (hprev h).2
      have hpos : c ≠ 0 := by have := hc.1.1; omega
      have hrest := freeClusters_grow hfree fun h => (hprev h).2
      have hmem : ∀ x ∈ rest.take n, x ≠ c ∧ w.fat x = 0 := by
        intro x hx
        have hnodup := List.nodup_cons.mp (hfree ▸ freeClusters_nodup v w)
        have hxf : x ∈ freeClusters v w := by
          rw [hfree]
          exact List.mem_cons_of_mem _ (List.mem_of_mem_take hx)
        exact ⟨fun h => hnodup.1 (h ▸ List.mem_of_mem_take hx), (mem_freeClusters.mp hxf).2⟩
      have htake : (freeClusters v (w.grow v prev c)).take n = rest.take n := by rw [hrest]
      obtain ⟨w', hrun, hsec, hchain, hlink, hfat, hdata⟩ := ih
        (by rw [View.grow_sectors]; exact g) (if prev = 0 then c else head) c c htake
        (by simpa using hlen)
        (fun x hx => by unfold Fits; rw [View.grow_sectors]; exact hf x (by simp [hx]))
        (fun _ => ⟨hc.1, by rw [View.grow_fat hne]; simp [endOfChain]⟩)
      refine ⟨w', ?_, by rw [hsec, View.grow_sectors], ?_, fun hp => ?_, fun x hx hxp => ?_,
        fun x => ?_⟩
      · refine allocateLoop_step g hfree (hf c (by simp)) (fun h => (hprev h).1) ?_
        rw [List.getLastD_cons]
        simpa [hpos] using hrun
      · have hnext := hlink hpos
        rw [View.grow_fat hne, if_pos rfl] at hnext
        refine .link hc.1 ?_
        rw [List.headD_cons, hnext]
        exact hchain
      · have hnot : prev ∉ rest.take n := fun h => (hprev hp).2 (hmem prev h).2
        rw [hfat prev hnot (Or.inl hne), View.grow_fat hne, if_neg hne, if_pos ⟨rfl, hp⟩]
        rfl
      · simp only [List.mem_cons, not_or] at hx
        rw [hfat x hx.2 (Or.inl hx.1), View.grow_fat hne, if_neg hx.1, if_neg (by tauto)]
      · rw [hdata x, View.grow_data]
        by_cases hxc : x = c
        · simp [hxc]
        · simp [hxc]

theorem allocateLoop_error (g : Geometry v w.sectors) (head prev last : Nat)
    (hn : ¬ (n ≤ (freeClusters v w).length ∧ ∀ c ∈ (freeClusters v w).take n, Fits v w c))
    (hprev : prev ≠ 0 → InFat v prev ∧ w.fat prev ≠ 0) :
    ∃ w', Runs v (allocateLoop v n head prev last) w (.error (.err .io)) w' ∧
      w'.sectors = w.sectors ∧
      (∀ x, w.fat x ≠ 0 → (x ≠ prev ∨ prev = 0) → w'.fat x = w.fat x) ∧
      (∀ x, w.fat x ≠ 0 → w'.data x = w.data x) ∧ (freeClusters v w = [] → w' = w) := by
  induction n generalizing w head prev last with
  | zero => exact absurd ⟨Nat.zero_le _, by simp⟩ hn
  | succ n ih =>
    cases hfree : freeClusters v w with
    | nil =>
      exact ⟨w, (findFreeCluster_none g hfree).bind_error, rfl, fun _ _ _ => rfl, fun _ _ => rfl,
        fun _ => rfl⟩
    | cons c rest =>
      have hc := freeClusters_head hfree
      have hne := ne_freeClusters_head hfree fun h => (hprev h).2
      by_cases hf : Fits v w c
      · have hrest := freeClusters_grow hfree fun h => (hprev h).2
        have hn' : ¬ (n ≤ (freeClusters v (w.grow v prev c)).length ∧
            ∀ x ∈ (freeClusters v (w.grow v prev c)).take n, Fits v (w.grow v prev c) x) := by
          intro hall
          refine hn ⟨by rw [hfree, List.length_cons]; rw [hrest] at hall; omega, ?_⟩
          rw [hfree, List.take_succ_cons]
          intro x hx
          rcases List.mem_cons.mp hx with rfl | hx
          · exact hf
          · have hfx := hall.2 x (by rwa [hrest])
            unfold Fits at hfx ⊢
            rwa [View.grow_sectors] at hfx
        obtain ⟨w', hrun, hsec, hfat, hdata, -⟩ := ih (by rw [View.grow_sectors]; exact g)
          (if prev = 0 then c else head) c c hn'
          (fun _ => ⟨hc.1, by rw [View.grow_fat hne]; simp [endOfChain]⟩)
        refine ⟨w', allocateLoop_step g hfree hf (fun h => (hprev h).1) hrun,
          by rw [hsec, View.grow_sectors], fun x hx hxp => ?_, fun x hx => ?_, by simp⟩
        · have hxc : x ≠ c := fun h => hx (h ▸ hc.2)
          have heq : (w.grow v prev c).fat x = w.fat x := by
            rw [View.grow_fat hne, if_neg hxc, if_neg (by tauto)]
          rw [hfat x (by rwa [heq]) (Or.inl hxc), heq]
        · have hxc : x ≠ c := fun h => hx (h ▸ hc.2)
          have hne0 : (w.grow v prev c).fat x ≠ 0 := by
            have := hc.1.1
            rw [View.grow_fat hne, if_neg hxc]
            split_ifs
            · omega
            · exact hx
          rw [hdata x hne0, View.grow_data, if_neg hxc]
      · refine ⟨_, (findFreeCluster_some g hfree).bind
          ((writeFatEntry_runs g hc.1.2 endOfChain_lt).bind
          (zeroCluster_past (w := w.setFat c endOfChain) g hc.1 hf).bind_error), rfl,
          fun x hx _ => ?_, fun x hx => ?_, by simp⟩
        · exact View.setFat_fat_of_ne _ _ _ _ fun h => hx (h ▸ hc.2)
        · exact View.setData_data_of_ne _ _ _ _ fun h => hx (h ▸ hc.2)

/-- How many clusters a call can take: the free ones that lie on the device. -/
def usable (v : FatFs) (w : View) : Nat := ((freeClusters v w).filter (Fits v w ·)).length

theorem length_filter_sorted {p : Nat → Prop} [DecidablePred p] {l : List Nat}
    (hl : l.Pairwise (· < ·)) (hp : ∀ a b, a < b → p b → p a) (n : Nat) :
    n ≤ (l.filter (p ·)).length ↔ n ≤ l.length ∧ ∀ x ∈ l.take n, p x := by
  induction l generalizing n with
  | nil => simp
  | cons a l ih =>
    rw [List.pairwise_cons] at hl
    cases n with
    | zero => simp
    | succ n =>
      by_cases ha : p a
      · simp [ha, ih hl.2]
      · have hnone : l.filter (p ·) = [] :=
          List.filter_eq_nil_iff.mpr fun b hb => by
            simpa using fun hpb => ha (hp a b (hl.1 b hb) hpb)
        simp [ha, hnone]

theorem Fits.mono {a b : Nat} (h : a < b) (hb : Fits v w b) : Fits v w a := by
  unfold Fits clusterLba at *
  have : (a - 2) * v.sectorsPerCluster ≤ (b - 2) * v.sectorsPerCluster :=
    Nat.mul_le_mul_right _ (by omega)
  omega

theorem le_usable_iff : n ≤ usable v w ↔
    n ≤ (freeClusters v w).length ∧ ∀ c ∈ (freeClusters v w).take n, Fits v w c :=
  length_filter_sorted (freeClusters_pairwise v w) (fun _ _ => Fits.mono) n

/-- `w'` differs from `w` in `cs` alone: the lowest free clusters, now one chain. -/
structure Fresh (v : FatFs) (w w' : View) (cs : List Nat) : Prop where
  sectors : w'.sectors = w.sectors
  lowest : cs = (freeClusters v w).take cs.length
  fits : ∀ c ∈ cs, Fits v w c
  chain : Chain v w' (cs.headD endOfChain) cs
  fat : ∀ c, c ∉ cs → w'.fat c = w.fat c
  data : ∀ c, c ∉ cs → w'.data c = w.data c

theorem Fresh.wasFree (h : Fresh v w w' cs) (hc : c ∈ cs) : InFat v c ∧ w.fat c = 0 := by
  rw [h.lowest] at hc
  exact mem_freeClusters.mp (List.mem_of_mem_take hc)

theorem Fresh.spares (h : Fresh v w w' cs) : Spares w w' :=
  ⟨h.sectors, fun c hc => h.fat c fun hm => hc (h.wasFree hm).2,
    fun c hc => h.data c fun hm => hc (h.wasFree hm).2⟩

theorem Fresh.freeClusters (h : Fresh v w w' cs) :
    freeClusters v w' = (freeClusters v w).drop cs.length := by
  rw [freeClusters_filter cs]
  · conv_lhs => rw [h.lowest]
    exact filter_notMem_take (freeClusters_nodup v w) _
  · intro x _
    by_cases hx : x ∈ cs
    · simp [hx, h.chain.fat_ne_zero x hx]
    · simp [hx, h.fat x hx]

theorem Fresh.usable (h : Fresh v w w' cs) : usable v w' + cs.length = usable v w := by
  have hsplit := List.take_append_drop cs.length (Fat.freeClusters v w)
  have hfits : ∀ x, Fits v w' x ↔ Fits v w x := fun x => by unfold Fits; rw [h.sectors]
  have htake : ((Fat.freeClusters v w).take cs.length).filter (Fits v w ·) = cs := by
    rw [← h.lowest]
    exact List.filter_eq_self.mpr fun x hx => by simpa using h.fits x hx
  unfold Fat.usable
  rw [h.freeClusters]
  simp only [hfits]
  conv_rhs => rw [← hsplit, List.filter_append, htake, List.length_append]
  omega

theorem Fresh.fill {w'' : View} (h : Fresh v w w' cs) (hs : w''.sectors = w'.sectors)
    (hfat : w''.fat = w'.fat) (hdata : ∀ c, c ∉ cs → w''.data c = w'.data c) : Fresh v w w'' cs :=
  ⟨by rw [hs, h.sectors], h.lowest, h.fits, by unfold Chain; rw [hfat]; exact h.chain,
    fun c hc => by rw [hfat, h.fat c hc], fun c hc => by rw [hdata c hc, h.data c hc]⟩

theorem Fresh.refl (v : FatFs) (w : View) : Fresh v w w [] :=
  ⟨rfl, rfl, by simp, .stop eoc_le_endOfChain, fun _ _ => rfl, fun _ _ => rfl⟩

theorem allocateChain_ok (g : Geometry v w.sectors) (h : n ≤ usable v w) :
    ∃ cs w', cs.length = n ∧ Runs v (allocateChain v n) w (.ok (cs.headD 0)) w' ∧
      Fresh v w w' cs ∧ ∀ x ∈ cs, w'.data x = zeros v := by
  unfold allocateChain
  by_cases hz : n = 0
  · exact ⟨[], w, by rw [hz]; rfl, by rw [if_pos hz]; exact .pure 0, .refl v w, by simp⟩
  · obtain ⟨hle, hf⟩ := le_usable_iff.mp h
    have hlen : ((freeClusters v w).take n).length = n := by
      rw [List.length_take]
      omega
    obtain ⟨w', hrun, hsec, hchain, -, hfat, hdata⟩ :=
      allocateLoop_ok (v := v) g 0 0 0 rfl hlen hf (fun h => absurd rfl h)
    rw [if_pos rfl] at hrun
    have hinfo := (updateFsinfo_runs (w := w') (by rw [hsec]; exact g) (-(n : Int))
      (((freeClusters v w).take n).getLastD 0)).attempt_ok
    refine ⟨(freeClusters v w).take n, w', hlen, ?_, ?_, fun x hx => by rw [hdata x, if_pos hx]⟩
    · rw [if_neg hz]
      exact hrun.bind (hinfo.bind (.pure _))
    · exact ⟨hsec, by rw [hlen], hf, hchain, fun c hc => hfat c hc (Or.inr rfl),
        fun c hc => by rw [hdata c, if_neg hc]⟩

theorem allocateChain_error (g : Geometry v w.sectors) (h : ¬ n ≤ usable v w) :
    ∃ w', Runs v (allocateChain v n) w (.error (.err .io)) w' ∧ Spares w w' ∧
      (freeClusters v w = [] → w' = w) := by
  obtain ⟨w', hrun, hsec, hfat, hdata, hfull⟩ := allocateLoop_error (v := v) g 0 0 0
    (fun hall => h (le_usable_iff.mpr hall)) (fun h => absurd rfl h)
  refine ⟨w', ?_, ⟨hsec, fun c hc => hfat c hc (Or.inr rfl), hdata⟩, hfull⟩
  rw [allocateChain, if_neg (by omega)]
  exact hrun.bind_error

end Allocating

/-! Filling a chain with data. -/

section Filling

variable {v : FatFs} {w : View} {c : Nat} {cs : List Nat}

def padded (v : FatFs) (rest : Bytes) : Bytes :=
  rest.take (clusterBytes v) ++
    List.replicate (clusterBytes v - (rest.take (clusterBytes v)).length) 0

theorem length_padded (v : FatFs) (rest : Bytes) : (padded v rest).length = clusterBytes v := by
  simp only [padded, List.length_append, List.length_take, List.length_replicate]
  omega

theorem clusterBytes_pos (g : Geometry v w.sectors) : 0 < clusterBytes v := by
  have := g.clusterPos
  rw [clusterBytes, g.sectorSize, blockSize]
  omega

theorem take_padded {rest : Bytes} (h : rest.length ≤ clusterBytes v) :
    (padded v rest).take rest.length = rest := by
  rw [padded, List.take_of_length_le h, List.take_append_of_le_length le_rfl, List.take_length]

theorem padded_full {rest : Bytes} (h : clusterBytes v ≤ rest.length) :
    padded v rest = rest.take (clusterBytes v) := by
  rw [padded, List.length_take, Nat.min_eq_left h, Nat.sub_self, List.replicate_zero,
    List.append_nil]

theorem writeChainLoop_stop {fuel : Nat} {rest : Bytes}
    (h : ¬ (rest ≠ [] ∧ 2 ≤ c ∧ c < eocThreshold)) :
    Runs v (writeChainLoop v fuel c rest) w (.ok ()) w := by
  cases fuel with
  | zero => exact .pure ()
  | succ n =>
    rw [writeChainLoop, if_neg h]
    exact .pure ()

theorem writeChainLoop_runs (g : Geometry v w.sectors) (h : Chain v w c cs)
    (hf : ∀ x ∈ cs, Fits v w x) {fuel : Nat} {rest : Bytes} (hfuel : rest.length ≤ fuel) :
    ∃ w', Runs v (writeChainLoop v fuel c rest) w (.ok ()) w' ∧ w'.sectors = w.sectors ∧
      w'.fat = w.fat ∧ (∀ x, x ∉ cs → w'.data x = w.data x) ∧
      (rest.length ≤ cs.length * clusterBytes v →
      (cs.flatMap w'.data).take rest.length = rest) := by
  have hpos := clusterBytes_pos g
  induction cs generalizing w c fuel rest with
  | nil =>
    refine ⟨w, ?_, rfl, rfl, fun _ _ => rfl, fun hle => ?_⟩
    · cases h with
      | stop hs => exact writeChainLoop_stop (by omega)
    · rw [List.length_nil, Nat.zero_mul, Nat.le_zero, List.length_eq_zero_iff] at hle
      simp [hle]
  | cons a cs ih =>
    have hnodup := List.nodup_cons.mp (h.nodup g)
    by_cases hrest : rest = []
    · exact ⟨w, writeChainLoop_stop (by simp [hrest]), rfl, rfl, fun _ _ => rfl,
        fun _ => by simp [hrest]⟩
    · have hlen : 0 < rest.length := List.length_pos_iff.mpr hrest
      obtain ⟨n, rfl⟩ : ∃ n, fuel = n + 1 := ⟨fuel - 1, by omega⟩
      cases h with
      | link hin htail =>
        rw [writeChainLoop, if_pos ⟨hrest, hin.1, hin.lt_eoc g⟩]
        have hwrite := writeCluster_runs g hin (hf a (by simp)) (length_padded v rest)
        by_cases hdone : rest.drop (clusterBytes v) = []
        · have hshort : rest.length ≤ clusterBytes v := List.drop_eq_nil_iff.mp hdone
          refine ⟨w.setData a (padded v rest), hwrite.bind ?_, rfl, rfl, fun x hx =>
            ?_, fun _ => ?_⟩
          · rw [if_pos hdone]
            exact .pure ()
          · exact View.setData_data_of_ne _ _ _ _ fun hxa => hx (by simp [hxa])
          · rw [List.flatMap_cons, View.setData_data_self,
              List.take_append_of_le_length (by rw [length_padded]; exact hshort),
              take_padded hshort]
        · have hlong : clusterBytes v < rest.length := by
            by_contra hle
            exact hdone (List.drop_eq_nil_iff.mpr (by omega))
          have hle : (rest.drop (clusterBytes v)).length ≤ n := by
            rw [List.length_drop]
            omega
          obtain ⟨w', hrun, hsec, hfat, hdata, hcontent⟩ :=
            ih (w := w.setData a (padded v rest)) g htail (fun x hx => hf x (by simp [hx])) hle
          refine ⟨w', hwrite.bind ?_, hsec, hfat, fun x hx => ?_, fun hroom => ?_⟩
          · rw [if_neg hdone]
            exact (nextCluster_runs (w := w.setData a (padded v rest)) g hin.2).bind hrun
          · simp only [List.mem_cons, not_or] at hx
            rw [hdata x hx.2, View.setData_data_of_ne _ _ _ _ hx.1]
          · have htl := hcontent (by
              rw [List.length_drop]
              rw [List.length_cons, Nat.add_mul] at hroom
              omega)
            have hself : w'.data a = rest.take (clusterBytes v) := by
              rw [hdata a hnodup.1, View.setData_data_self, padded_full hlong.le]
            rw [List.flatMap_cons, hself, List.take_append, List.take_take,
              Nat.min_eq_right (by omega), List.length_take, Nat.min_eq_left (by omega),
              ← List.length_drop, htl, List.take_append_drop]

theorem writeChain_runs (g : Geometry v w.sectors) (h : Chain v w c cs)
    (hf : ∀ x ∈ cs, Fits v w x) (data : Bytes) :
    ∃ w', Runs v (writeChain v c data) w (.ok ()) w' ∧ w'.sectors = w.sectors ∧
      w'.fat = w.fat ∧ (∀ x, x ∉ cs → w'.data x = w.data x) ∧
      (data.length ≤ cs.length * clusterBytes v → (cs.flatMap w'.data).take data.length = data) :=
  writeChainLoop_runs g h hf le_rfl

theorem clustersFor_nil (g : Geometry v w.sectors) : clustersFor v 0 = 0 := by
  have := clusterBytes_pos g
  rw [clustersFor, Nat.div_eq_of_lt (by omega), Nat.zero_mod]

theorem clustersFor_enough (g : Geometry v w.sectors) {len : Nat} (h : len < 2 ^ 32) :
    len ≤ clustersFor v len * clusterBytes v := by
  have hpos := clusterBytes_pos g
  have hle : (len + clusterBytes v - 1) / clusterBytes v ≤ len := by
    obtain ⟨b, hb⟩ : ∃ b, clusterBytes v = b + 1 := ⟨clusterBytes v - 1, by omega⟩
    cases len with
    | zero => rw [Nat.div_eq_of_lt (by omega)]
    | succ k =>
      apply Nat.div_le_of_le_mul
      rw [hb, Nat.add_mul, Nat.mul_add]
      have := Nat.zero_le (b * k)
      omega
  rw [clustersFor, Nat.mod_eq_of_lt (by omega)]
  have := Nat.lt_div_mul_add hpos (a := len + clusterBytes v - 1)
  omega

/-- Storing data with room for it: the lowest free clusters become a chain that holds it. -/
theorem storeData_ok (g : Geometry v w.sectors) {data : Bytes}
    (h : clustersFor v data.length ≤ usable v w) :
    ∃ cs w', cs.length = clustersFor v data.length ∧
      Runs v (storeData v data) w (.ok (cs.headD 0)) w' ∧ Fresh v w w' cs ∧
      (data.length ≤ cs.length * clusterBytes v →
      (cs.flatMap w'.data).take data.length = data) := by
  unfold storeData
  by_cases hd : data = []
  · subst hd
    refine ⟨[], w, (clustersFor_nil g).symm, ?_, .refl v w, fun _ => rfl⟩
    rw [if_pos rfl]
    exact .pure 0
  obtain ⟨cs, w₁, hlen, hrun, hfresh, -⟩ := allocateChain_ok g h
  rw [if_neg hd]
  cases cs with
  | nil =>
    -- the number of clusters wrapped round to none, and nothing is written
    refine ⟨[], w₁, hlen, hrun.bind (Runs.bind (a := ()) ?_ (.pure _)), hfresh, fun hle => ?_⟩
    · unfold writeChain
      cases data.length with
      | zero => exact .pure ()
      | succ n =>
        rw [writeChainLoop, if_neg (by simp)]
        exact .pure ()
    · rw [List.length_nil, Nat.zero_mul, Nat.le_zero, List.length_eq_zero_iff] at hle
      exact absurd hle hd
  | cons c cs =>
    have hg : Geometry v w₁.sectors := by rw [hfresh.sectors]; exact g
    obtain ⟨w', hwrite, hsec, hfat, hdata, hcontent⟩ := writeChain_runs hg hfresh.chain
      (fun x hx => by unfold Fits; rw [hfresh.sectors]; exact hfresh.fits x hx) data
    exact ⟨c :: cs, w', hlen, hrun.bind (hwrite.bind (.pure _)),
      hfresh.fill hsec hfat hdata, hcontent⟩

theorem storeData_error (g : Geometry v w.sectors) {data : Bytes}
    (h : ¬ clustersFor v data.length ≤ usable v w) :
    ∃ w', Runs v (storeData v data) w (.error (.err .io)) w' ∧ Spares w w' ∧
      (freeClusters v w = [] → w' = w) := by
  have hd : data ≠ [] := by
    rintro rfl
    exact h (by rw [List.length_nil, clustersFor_nil g]; exact Nat.zero_le _)
  obtain ⟨w', hrun, hspare, hfull⟩ := allocateChain_error g h
  rw [storeData, if_neg hd]
  exact ⟨w', hrun.bind_error, hspare, hfull⟩

end Filling

end Willo.Fat
