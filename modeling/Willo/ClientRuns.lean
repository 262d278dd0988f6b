import Mathlib.Data.List.Basic

/-! Several clients on one system. Requests arrive in any order, each tagged with its
client. Where requests of different clients swap, every client gets the replies it
would get alone, and the order of arrival leaves no trace in the state. -/

namespace Willo.ClientRuns

variable {σ γ ρ ι : Type} [DecidableEq ι]

def run (step : γ → σ → ρ × σ) (cs : List γ) (x : σ) : σ := cs.foldl (fun x c => (step c x).2) x

def replies (step : γ → σ → ρ × σ) : List γ → σ → List ρ
  | [], _ => []
  | c :: cs, x => (step c x).1 :: replies step cs (step c x).2

/-- The second request gets the same reply without the first, and either order leaves the
same state. -/
structure Swaps (step : γ → σ → ρ × σ) (I : σ → Prop) (c c' : γ) : Prop where
  state : ∀ x, I x → (step c' (step c x).2).2 = (step c (step c' x).2).2
  reply : ∀ x, I x → (step c' (step c x).2).1 = (step c' x).1

def mine {α : Type} (i : ι) (cs : List (ι × α)) : List α :=
  (cs.filter fun c => c.1 = i).map Prod.snd

def served (step : γ → σ → ρ × σ) : List (ι × γ) → σ → List (ι × ρ)
  | [], _ => []
  | c :: cs, x => (c.1, (step c.2 x).1) :: served step cs (step c.2 x).2

section Lists

variable {α : Type} {i j : ι} {a : α} {c : ι × α} {cs : List (ι × α)}

theorem mine_cons_self : mine i ((i, a) :: cs) = a :: mine i cs := by
  rw [mine, List.filter_cons_of_pos (by simp), List.map_cons, mine]

theorem mine_cons_of_ne (h : j ≠ i) : mine i ((j, a) :: cs) = mine i cs := by
  rw [mine, List.filter_cons_of_neg (by simpa using h), mine]

theorem mem_mine : a ∈ mine i cs ↔ (i, a) ∈ cs := by
  rw [mine, List.mem_map]
  constructor
  · rintro ⟨c, hc, rfl⟩
    obtain ⟨hmem, htag⟩ := List.mem_filter.mp hc
    obtain rfl : c.1 = i := by simpa using htag
    exact hmem
  · intro h
    exact ⟨(i, a), List.mem_filter.mpr ⟨h, by simp⟩, rfl⟩

theorem mem_mine_cons (h : a ∈ mine i cs) : a ∈ mine i (c :: cs) :=
  mem_mine.mpr (List.mem_cons_of_mem _ (mem_mine.mp h))

theorem mine_append (cs cs' : List (ι × α)) : mine i (cs ++ cs') = mine i cs ++ mine i cs' := by
  rw [mine, List.filter_append, List.map_append, mine, mine]

theorem exists_first {rest : List α} (h : mine i cs = a :: rest) :
    ∃ pre post, cs = pre ++ (i, a) :: post ∧ (∀ c ∈ pre, c.1 ≠ i) ∧ mine i post = rest := by
  induction cs with
  | nil => cases h
  | cons c cs ih =>
    obtain ⟨j, b⟩ := c
    by_cases hc : j = i
    · subst hc
      rw [mine_cons_self] at h
      obtain ⟨rfl, hrest⟩ := List.cons.inj h
      exact ⟨[], cs, rfl, by simp, hrest⟩
    · rw [mine_cons_of_ne hc] at h
      obtain ⟨pre, post, rfl, hpre, hpost⟩ := ih h
      exact ⟨(j, b) :: pre, post, rfl, List.forall_mem_cons.mpr ⟨hc, hpre⟩, hpost⟩

end Lists

section Runs

variable {step : γ → σ → ρ × σ} {I : σ → Prop} {c : γ} {cs : List γ} {x : σ}

theorem run_append (cs cs' : List γ) (x : σ) :
    run step (cs ++ cs') x = run step cs' (run step cs x) :=
  List.foldl_append

theorem Swaps.past (hI : ∀ c x, I x → I (step c x).2)
    (h : ∀ c' ∈ cs, Swaps step I c c') (hx : I x) :
    run step cs (step c x).2 = (step c (run step cs x)).2 ∧
    replies step cs (step c x).2 = replies step cs x := by
  induction cs generalizing x with
  | nil => exact ⟨rfl, rfl⟩
  | cons c' cs ih =>
    have hc := h c' List.mem_cons_self
    have hcs := fun d hd => h d (List.mem_cons_of_mem _ hd)
    obtain ⟨hrun, hreplies⟩ := ih hcs (hI c' x hx)
    have hstate := hc.state x hx
    constructor
    · change run step cs (step c' (step c x).2).2 = _
      rw [hstate]
      exact hrun
    · rw [replies, replies, hc.reply x hx, hstate, hreplies]

end Runs

section Clients

variable {step : γ → σ → ρ × σ} {I : σ → Prop} {cs cs' : List (ι × γ)} {x : σ}

/-- Each client gets the replies it would get alone, whatever the others do in between. -/
theorem mine_served (hI : ∀ c x, I x → I (step c x).2) (hx : I x) (i : ι)
    (h : ∀ c ∈ cs, c.1 ≠ i → ∀ c' ∈ mine i cs, Swaps step I c.2 c') :
    mine i (served step cs x) = replies step (mine i cs) x := by
  induction cs generalizing x with
  | nil => rfl
  | cons c cs ih =>
    have hrest := ih (hI c.2 x hx) fun d hd hne d' hd' =>
      h d (List.mem_cons_of_mem _ hd) hne d' (mem_mine_cons hd')
    obtain ⟨j, c⟩ := c
    rw [served]
    by_cases hc : j = i
    · subst hc
      rw [mine_cons_self, mine_cons_self, hrest, replies]
    · have hswap := h (j, c) List.mem_cons_self hc
      rw [mine_cons_of_ne hc] at hswap
      rw [mine_cons_of_ne hc, mine_cons_of_ne hc, hrest]
      exact (Swaps.past hI hswap hx).2

/-- Two orders of arrival that agree for each client lead to the same state. -/
theorem run_eq_of_mine (hI : ∀ c x, I x → I (step c x).2) (hx : I x)
    (h : ∀ c ∈ cs', ∀ d ∈ cs', c.1 ≠ d.1 → Swaps step I c.2 d.2)
    (hmine : ∀ i, mine i cs = mine i cs') :
    run step (cs.map Prod.snd) x = run step (cs'.map Prod.snd) x := by
  induction cs generalizing cs' x with
  | nil =>
    cases cs' with
    | nil => rfl
    | cons c cs' =>
      obtain ⟨j, c⟩ := c
      have hc := hmine j
      rw [mine_cons_self] at hc
      cases hc
  | cons c cs ih =>
    obtain ⟨i, c⟩ := c
    have hi := hmine i
    rw [mine_cons_self] at hi
    obtain ⟨pre, post, rfl, hpre, hpost⟩ := exists_first hi.symm
    -- the request overtakes those before it, and the rest is a shorter pair of lists
    have hrest : ∀ j, mine j cs = mine j (pre ++ post) := by
      intro j
      have hj := hmine j
      rw [mine_append] at hj ⊢
      by_cases hji : i = j
      · subst hji
        rw [mine_cons_self, mine_cons_self] at hj
        have hnone : mine i pre = [] := by
          rw [mine, List.map_eq_nil_iff, List.filter_eq_nil_iff]
          simpa using hpre
        rw [hnone, List.nil_append] at hj ⊢
        exact (List.cons.inj hj).2
      · rwa [mine_cons_of_ne hji, mine_cons_of_ne hji] at hj
    have hswap : ∀ d ∈ pre.map Prod.snd, Swaps step I c d := by
      intro d hd
      obtain ⟨d, hmem, rfl⟩ := List.mem_map.mp hd
      exact h (i, c) (by simp) d (by simp [hmem]) (hpre d hmem).symm
    have hfewer := ih (hI c x hx) (fun a ha b hb => h a (by grind) b (by grind)) hrest
    rw [List.map_append, run_append] at hfewer
    rw [List.map_append, run_append]
    change run step (cs.map Prod.snd) (step c x).2 =
      run step (post.map Prod.snd) (step c (run step (pre.map Prod.snd) x)).2
    rw [hfewer, (Swaps.past hI hswap hx).1]

end Clients

/-! A client that chooses each request by the replies before it, and two systems between
which it cannot tell. -/

def talk (step : γ → σ → ρ × σ) (client : List ρ → γ) : Nat → List ρ → σ → List ρ × σ
  | 0, got, x => (got, x)
  | n + 1, got, x => talk step client n (got ++ [(step (client got) x).1]) (step (client got) x).2

section Talks

variable {τ : Type} {step : γ → σ → ρ × σ} {step' : γ → τ → ρ × τ} {R : σ → τ → Prop}

def Simulates (R : σ → τ → Prop) (step : γ → σ → ρ × σ) (step' : γ → τ → ρ × τ) : Prop :=
  ∀ c x y, R x y → (step c x).1 = (step' c y).1 ∧ R (step c x).2 (step' c y).2

theorem Simulates.talk (h : Simulates R step step') (client : List ρ → γ) (n : Nat) (got : List ρ)
    {x : σ} {y : τ} (hxy : R x y) : (talk step client n got x).1 = (talk step' client n got y).1 ∧
      R (talk step client n got x).2 (talk step' client n got y).2 := by
  induction n generalizing got x y with
  | zero => exact ⟨rfl, hxy⟩
  | succ n ih =>
    obtain ⟨hreply, hnext⟩ := h (client got) x y hxy
    rw [ClientRuns.talk, ClientRuns.talk, hreply]
    exact ih _ hnext

end Talks

end Willo.ClientRuns
