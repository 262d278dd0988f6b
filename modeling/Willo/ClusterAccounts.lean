import Willo.DriverInvariants
import Willo.FatCopies

/-! The updates of the FSInfo sector against the clusters freed and taken. Freeing a
chain reports its length; allocating reports the clusters taken, lowest first, and
the last of them; a directory that grows reports its one cluster itself. -/

namespace Willo.Fat
open Text Paths ByteCodec BlockDevice FaultState LinkedChain RootedGraph TreeStore

def lastHint (us : List (Int × Nat)) : Option Nat := ((us.map Prod.snd).filter (· ≠ 0)).getLast?

def netChange (us : List (Int × Nat)) : Int := (us.map Prod.fst).sum

/-- From `w` to `w'` the `n` lowest free clusters were taken, and the updates `us` say so. -/
structure Taken (v : FatFs) (w w' : View) (us : List (Int × Nat)) (n : Nat) : Prop where
  room : n ≤ (freeClusters v w).length
  rest : freeClusters v w' = (freeClusters v w).drop n
  total : netChange us = -(n : Int)
  falling : ∀ u ∈ us, u.1 ≤ 0
  hints : ∀ u ∈ us, u.2 < 2 ^ 32
  hint : lastHint us = ((freeClusters v w).take n).getLast?

section Accounts

variable {v : FatFs} {w w₁ w' : View} {us us' : List (Int × Nat)} {n m c : Nat} {cs : List Nat}

theorem netChange_append (us us' : List (Int × Nat)) :
    netChange (us ++ us') = netChange us + netChange us' := by
  simp only [netChange, List.map_append, List.sum_append]

theorem lastHint_append (us us' : List (Int × Nat)) :
    lastHint (us ++ us') = (lastHint us').or (lastHint us) := by
  simp only [lastHint, List.map_append, List.filter_append, List.getLast?_append]

theorem Taken.of_free (h : freeClusters v w' = freeClusters v w) : Taken v w w' [] 0 :=
  ⟨Nat.zero_le _, h, rfl, by simp, by simp, rfl⟩

theorem Taken.trans (h : Taken v w w₁ us n) (h' : Taken v w₁ w' us' m) :
    Taken v w w' (us ++ us') (n + m) where
  room := by
    have hroom := h'.room
    rw [h.rest, List.length_drop] at hroom
    have := h.room
    omega
  rest := by rw [h'.rest, h.rest, List.drop_drop]
  total := by
    rw [netChange_append, h.total, h'.total]
    push_cast
    omega
  falling u hu := (List.mem_append.mp hu).elim (h.falling u) (h'.falling u)
  hints u hu := (List.mem_append.mp hu).elim (h.hints u) (h'.hints u)
  hint := by rw [lastHint_append, h'.hint, h.hint, h.rest, List.take_add, List.getLast?_append]

theorem Fresh.taken (g : Geometry v w.sectors) (F : Fresh v w w' cs) (hne : cs ≠ []) :
    Taken v w w' [(-(cs.length : Int), cs.getLastD 0)] cs.length := by
  have hlow := F.lowest
  have hroom : cs.length ≤ (Fat.freeClusters v w).length := by
    have hlen := congrArg List.length hlow
    rw [List.length_take] at hlen
    omega
  have hlast : cs.getLastD 0 ∈ cs := by
    rw [List.getLastD_eq_getLast?, List.getLast?_eq_some_getLast hne]
    exact List.getLast_mem hne
  have hin := (F.wasFree hlast).1
  have hpos : cs.getLastD 0 ≠ 0 := by
    have := hin.1
    omega
  have hsmall : cs.getLastD 0 < 2 ^ 32 := by
    have := hin.2
    have := g.countLe
    omega
  refine ⟨hroom, F.freeClusters, by simp [netChange], by simp, by simpa using hsmall, ?_⟩
  rw [← hlow, List.getLast?_eq_some_getLast hne, lastHint, List.getLastD_eq_getLast?,
    List.getLast?_eq_some_getLast hne]
  rw [List.getLastD_eq_getLast?, List.getLast?_eq_some_getLast hne] at hpos
  simpa using hpos

theorem length_freeClusters_clear (g : Geometry v w.sectors) (h : Chain v w c cs) :
    (freeClusters v (w.clear cs)).length = (freeClusters v w).length + cs.length := by
  have hapart : (cs ++ freeClusters v w).Nodup := by
    refine List.nodup_append.mpr ⟨h.nodup g, freeClusters_nodup v w, fun a ha b hb hab => ?_⟩
    exact h.fat_ne_zero a ha (hab ▸ (mem_freeClusters.mp hb).2)
  have hperm : (freeClusters v (w.clear cs)).Perm (cs ++ freeClusters v w) := by
    refine (List.perm_ext_iff_of_nodup (freeClusters_nodup v _) hapart).mpr fun x => ?_
    rw [mem_freeClusters, List.mem_append, mem_freeClusters]
    by_cases hx : x ∈ cs
    · rw [View.clear_fat_of_mem _ hx]
      exact ⟨fun _ => Or.inl hx, fun _ => ⟨h.mem_inside x hx, rfl⟩⟩
    · rw [View.clear_fat_of_notMem _ hx]
      tauto
  rw [hperm.length_eq, List.length_append, Nat.add_comm]

end Accounts

/-! The chain operations and their updates. -/

section Chains

variable {v : FatFs} {d : Disk} {c : Nat} {cs : List Nat}

theorem Runs.exec_view {α : Type} {x : FatM α} {r : Except Fault α} {w' : View}
    (h : Runs v x (view v d) r w') :
    ∃ d', exec x d = (r, d') ∧ view v d' = w' := h d rfl

theorem freeLoop_wrote (g : Geometry v d.sectors) (h : Chain v (view v d) c cs) (fuel freed : Nat) :
    Wrote v [] d (exec (freeLoop v fuel c freed) d).2 := by
  induction fuel generalizing d c cs freed with
  | zero => exact .refl v d
  | succ fuel ih =>
    rw [freeLoop]
    split_ifs with hc
    · cases h with
      | stop heoc => omega
      | @link c cs hin htail =>
        have hnodup := (List.nodup_cons.mp (Chain.nodup (w := view v d) g (.link hin htail))).1
        obtain ⟨d₁, hnext, -⟩ := (nextCluster_runs (w := view v d) g hin.2).exec_view
        obtain rfl : d₁ = d := (nextCluster_reads v c).of_exec hnext
        obtain ⟨d₂, hwrite, hview⟩ := (writeFatEntry_runs (w := view v d₁) g hin.2
          (show 0 < 2 ^ 28 by decide)).exec_view
        have hwrote := writeFatEntry_wrote g hin.2 0
        rw [hwrite] at hwrote
        have g₂ : Geometry v d₂.sectors := by rwa [hwrote.sectors]
        have hrest : Chain v (view v d₂) ((view v d₁).fat c) cs := by
          rw [hview]
          exact htail.congr fun x hx => View.setFat_fat_of_ne _ _ _ _ fun hxc => hnodup (hxc ▸ hx)
        rw [exec_bind_ok hnext, exec_bind_ok hwrite]
        exact hwrote.trans (ih g₂ hrest (freed + 1))
    · exact .refl v d

theorem freeChain_wrote (g : Geometry v d.sectors) (h : Chain v (view v d) c cs) :
    Wrote v (if cs = [] then [] else [((cs.length : Int), 0)]) d (exec (freeChain v c) d).2 := by
  obtain ⟨d₁, hloop, -⟩ := (freeLoop_runs (w := view v d) g h (h.length_lt g) 0).exec_view
  have hwrote := freeLoop_wrote g h chainFuel 0
  rw [hloop] at hwrote
  have g₁ : Geometry v d₁.sectors := by rwa [hwrote.sectors]
  rw [freeChain, exec_bind_ok hloop, Nat.zero_add]
  cases cs with
  | nil => exact hwrote
  | cons a cs =>
    rw [if_neg (List.cons_ne_nil a cs), if_pos (show 0 < (a :: cs).length by simp)]
    have hnote := updateFsinfo_wrote g₁ ((a :: cs).length : Int) 0
    obtain ⟨d₂, hupdate, -⟩ :=
      (updateFsinfo_runs (w := view v d₁) g₁ ((a :: cs).length : Int) 0).attempt_ok.exec_view
    rw [hupdate] at hnote
    rw [exec_bind_ok hupdate]
    exact hwrote.trans hnote

theorem allocateChain_leaves (g : Geometry v d.sectors) (n : Nat) :
    Leaves (fun _ d' => Wrote v [] d d') (allocateChain v n) d
      fun _ d' => ∃ us, Wrote v us d d' ∧ Taken v (view v d) (view v d') us n := by
  have htame := allocateLoop_tame (v := v) n 0 0 (fun h => absurd rfl h) d g
  unfold allocateChain
  split_ifs with hz
  · exact .pure ⟨[], .refl v d, hz ▸ .of_free rfl⟩
  · by_cases hroom : n ≤ usable v (view v d)
    · obtain ⟨hle, hf⟩ := le_usable_iff.mp hroom
      have hlen : ((freeClusters v (view v d)).take n).length = n := by
        rw [List.length_take]
        omega
      have hne : (freeClusters v (view v d)).take n ≠ [] := by
        intro hnil
        rw [hnil] at hlen
        exact hz hlen.symm
      obtain ⟨w', hrun, hsec, hchain, -, hfat, hdata⟩ :=
        allocateLoop_ok (v := v) (w := view v d) g 0 0 0 rfl hlen hf (fun h => absurd rfl h)
      have F : Fresh v (view v d) w' ((freeClusters v (view v d)).take n) :=
        ⟨hsec, by rw [hlen], hf, hchain, fun c hc => hfat c hc (Or.inr
          rfl), fun c hc => by rw [hdata c, if_neg hc]⟩
      obtain ⟨d₁, hloop, rfl⟩ := hrun.exec_view
      rw [hloop] at htame
      have g₁ : Geometry v d₁.sectors := by rwa [htame.sectors]
      have hnote := updateFsinfo_wrote g₁ (-(n : Int))
        (((freeClusters v (view v d)).take n).getLastD 0)
      obtain ⟨d₂, hupdate, hview⟩ := (updateFsinfo_runs (w := view v d₁) g₁ (-(n : Int))
        (((freeClusters v (view v d)).take n).getLastD 0)).attempt_ok.exec_view
      rw [hupdate] at hnote
      have htaken := F.taken g hne
      rw [hlen, ← hview] at htaken
      unfold Leaves
      rw [exec_bind_ok hloop, exec_bind_ok hupdate]
      exact ⟨_, htame.trans hnote, htaken⟩
    · obtain ⟨w', hrun, -⟩ := allocateLoop_error (v := v) (w := view v d) g 0 0 0
        (fun hall => hroom (le_usable_iff.mpr hall)) (fun h => absurd rfl h)
      obtain ⟨d₁, hloop, -⟩ := hrun.exec_view
      rw [hloop] at htame
      unfold Leaves
      rw [exec_bind_error hloop]
      exact htame

/-- From `d` on, whatever was written was written as `Wrote` allows. -/
def Logged (v : FatFs) (d d' : Disk) : Prop := ∃ us, Wrote v us d d'

def Accounted (v : FatFs) (d d' : Disk) : Prop :=
  ∃ us n, Wrote v us d d' ∧ Taken v (view v d) (view v d') us n

theorem Wrote.logged {us : List (Int × Nat)} {d' : Disk} (h : Wrote v us d d') :
    Logged v d d' := ⟨us, h⟩

theorem Logged.after {us : List (Int × Nat)} {d₁ d' : Disk} (h : Wrote v us d d₁)
    (h' : Logged v d₁ d') :
    Logged v d d' := by
  obtain ⟨us', h'⟩ := h'
  exact (h.trans h').logged

theorem Accounted.trans {d₁ d' : Disk} (h : Accounted v d d₁) (h' : Accounted v d₁ d') :
    Accounted v d d' := by
  obtain ⟨us, n, hw, ht⟩ := h
  obtain ⟨us', m, hw', ht'⟩ := h'
  exact ⟨_, _, hw.trans hw', ht.trans ht'⟩

theorem freeClusters_congr {w w' : View} (h : w'.fat = w.fat) :
    freeClusters v w' = freeClusters v w := by
  unfold freeClusters
  rw [h]

theorem Behind.leaves {α : Type} {x : FatM α} (hx : Behind v x) (g : Geometry v d.sectors) :
    Leaves (fun _ d' => Wrote v [] d d') x d
      fun _ d' => Wrote v [] d d' ∧ (view v d').fat = (view v d).fat := by
  refine .of_exec (fun a d' hrun => ?_) fun e d' hrun => ?_
  · have hwrote := hx.wrote g
    have hfat := hx.fat g
    rw [hrun] at hwrote hfat
    exact ⟨hwrote, hfat⟩
  · have hwrote := hx.wrote g
    rwa [hrun] at hwrote

theorem growDir_taken {w w' : View} {n : Nat} {rest : List Nat} (g : Geometry v w.sectors)
    (hfree : freeClusters v w = n :: rest)
    (hused : w.fat c ≠ 0) (hfat : w'.fat = (w.grow v c n).fat) :
    Taken v w w' [(-1, n)] 1 ∧ Chain v w' n [n] := by
  have hn := freeClusters_head hfree
  have hpos : n ≠ 0 := by have := hn.1.1; omega
  have hne : c ≠ n := ne_freeClusters_head hfree fun _ => hused
  have hrest : freeClusters v w' = rest :=
    (freeClusters_congr hfat).trans (freeClusters_grow hfree fun _ => hused)
  have hsmall : n < 2 ^ 32 := by
    have := hn.1.2
    have := g.countLe
    omega
  refine ⟨⟨?_, ?_, rfl, by simp, by simpa using hsmall, ?_⟩, .link hn.1 (.stop ?_)⟩
  · rw [hfree, List.length_cons]
    omega
  · rw [hrest, hfree, List.drop_succ_cons, List.drop_zero]
  · simp [lastHint, hfree, hpos]
  · rw [hfat, View.grow_fat hne, if_pos rfl]
    exact eoc_le_endOfChain

theorem growDir_leaves (g : Geometry v d.sectors) (hc : InFat v c) (hused : (view v d).fat c ≠ 0)
    (entry : Bytes) (fuel : Nat)
    (hnew : ∀ {d' n}, Geometry v d'.sectors → InFat v n → Chain v (view v d') n [n] →
      Leaves (fun _ => Logged v d') (addDirEntryLoop v entry fuel n) d' fun _ => Accounted v d') :
    Leaves (fun _ => Logged v d) (growDir v entry fuel c) d fun _ => Accounted v d := by
  have hfind := (findFreeCluster_runs (w := view v d) g).exec_view
  cases hfree : freeClusters v (view v d) with
  | nil =>
    rw [hfree] at hfind
    obtain ⟨d', hfind, -⟩ := hfind
    refine .reads_bind (findFreeCluster_reads v) (fun _ _ => (Wrote.refl v d).logged) fun n hn => ?_
    rw [hfind] at hn
    cases hn
  | cons n rest =>
    rw [hfree] at hfind
    obtain ⟨d', hfind, -⟩ := hfind
    obtain rfl : d' = d := (findFreeCluster_reads v).of_exec hfind
    have hn := (freeClusters_head hfree).1
    have hlt := hn.lt_eoc (w := view v d') g
    have hvalue : n < 2 ^ 28 := by
      unfold eocThreshold at hlt
      omega
    have hpos : c ≠ 0 := by have := hc.1; omega
    obtain ⟨d₁, hmark, hview₁⟩ :=
      (writeFatEntry_runs (w := view v d') g hn.2 endOfChain_lt).exec_view
    have hwrote₁ := writeFatEntry_wrote g hn.2 endOfChain
    rw [hmark] at hwrote₁
    have g₁ : Geometry v d₁.sectors := by rwa [hwrote₁.sectors]
    refine .ok_bind hfind (.ok_bind hmark ?_)
    refine (((writeCluster_behind n _).leaves g₁).weaken (fun _ _ h => (hwrote₁.trans h).logged)
      fun _ _ h => h).bind fun _ d₂ hd₂ => ?_
    obtain ⟨hwrote₂, hfat₂⟩ := hd₂
    have g₂ : Geometry v d₂.sectors := by rwa [hwrote₂.sectors]
    obtain ⟨d₃, hlink, hview₃⟩ := (writeFatEntry_runs (w := view v d₂) g₂ hc.2 hvalue).exec_view
    have hwrote₃ := writeFatEntry_wrote g₂ hc.2 n
    rw [hlink] at hwrote₃
    have g₃ : Geometry v d₃.sectors := by rwa [hwrote₃.sectors]
    obtain ⟨d₄, hupdate, hview₄⟩ :=
      (updateFsinfo_runs (w := view v d₃) g₃ (-1) n).attempt_ok.exec_view
    have hwrote₄ := updateFsinfo_wrote g₃ (-1) n
    rw [hupdate] at hwrote₄
    have g₄ : Geometry v d₄.sectors := by rwa [hwrote₄.sectors]
    have hfat : (view v d₄).fat = ((view v d').grow v c n).fat := by
      rw [hview₄, hview₃, View.grow, if_neg hpos]
      simp only [View.setFat, View.setData, hfat₂, hview₁]
    obtain ⟨htaken, hchain⟩ := growDir_taken (w := view v d') g hfree hused hfat
    have hsofar := ((hwrote₁.trans hwrote₂).trans hwrote₃).trans hwrote₄
    refine .ok_bind hlink (.ok_bind hupdate ?_)
    exact (hnew g₄ hn hchain).weaken (fun _ _ => Logged.after hsofar) fun _ _ =>
      Accounted.trans ⟨_, _, hsofar, htaken⟩

theorem addDirEntryLoop_leaves (g : Geometry v d.sectors) (hc : InFat v c)
    (h : Chain v (view v d) c cs) (entry : Bytes) (fuel : Nat) :
    Leaves (fun _ => Logged v d) (addDirEntryLoop v entry fuel c) d fun _ => Accounted v d := by
  induction fuel generalizing d c cs with
  | zero => exact .throw (Wrote.refl v d).logged
  | succ fuel ih =>
    rw [addDirEntryLoop, clusterToLba_eq (w := view v d) g hc, pure_bind]
    have hsearch := (addInSectors_behind (v := v) (dataStart_le_clusterLba c) entry
      (List.range v.sectorsPerCluster)).leaves g
    refine (hsearch.weaken (fun _ _ he => he.logged) fun _ _ h => h).bind fun found d₁ hd₁ => ?_
    obtain ⟨hwrote₁, hfat₁⟩ := hd₁
    have g₁ : Geometry v d₁.sectors := by rwa [hwrote₁.sectors]
    have h₁ : Chain v (view v d₁) c cs := h.congr fun x _ => by rw [hfat₁]
    have hsofar : Accounted v d d₁ := ⟨[], 0, hwrote₁, .of_free (freeClusters_congr hfat₁)⟩
    refine .ite (fun _ => .pure hsofar) fun _ => ?_
    obtain ⟨_, hnext, -⟩ := (nextCluster_runs (w := view v d₁) g₁ hc.2).exec_view
    refine .reads_bind (nextCluster_reads v c) (fun e he => ⟨_, hwrote₁⟩) fun next hrun => ?_
    obtain rfl : (view v d₁).fat c = next := by
      rw [hnext] at hrun
      exact Except.ok.inj (Prod.mk.inj hrun).1
    -- from here on relative to the disk behind the search
    refine Leaves.weaken (E := fun _ => Logged v d₁) (Q := fun _ => Accounted v d₁) ?_
      (fun _ _ => Logged.after hwrote₁) fun _ _ => hsofar.trans
    cases h₁ with
    | stop heoc =>
      have := hc.lt_eoc (w := view v d₁) g₁
      omega
    | @link c tail hin htail =>
      have hused : (view v d₁).fat c ≠ 0 := Chain.fat_ne_zero (.link hin htail) c (by simp)
      cases htail with
      | @link next tail hnextIn htail =>
        have hlt := hnextIn.lt_eoc (w := view v d₁) g₁
        have hge := hnextIn.1
        rw [if_neg (by omega)]
        exact ih g₁ hnextIn (.link hnextIn htail)
      | stop heoc =>
        rw [if_pos (Or.inr heoc)]
        exact growDir_leaves g₁ hc hused entry fuel ih

end Chains

end Willo.Fat
