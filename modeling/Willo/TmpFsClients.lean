import Willo.ClientRuns
import Willo.TmpFsStore

/-! Clients of one in-memory tree. A request works at its path and shows nowhere else;
so requests on paths of which neither lies inside the other swap, whatever they are,
with all their error codes. Clients that keep to such paths do not notice each other. -/

namespace Willo.TmpFs
open Text Paths TreeStore ClientRuns

/-- A mutation at a path, as one recursion from the root down. -/
def editAt (op : Mutation UInt8) : List Str → Node → Except FsError Unit × Node
  | [], node => (.error .io, node)
  | _ :: _, .file b => (.error .notADir, .file b)
  | [name], .dir d => let r := body op name d; (r.1, .dir r.2)
  | s :: t :: segs, .dir d =>
    match OrderedMap.lookup s d with
    | some child => let r := editAt op (t :: segs) child; (r.1, .dir (OrderedMap.put s r.2 d))
    | none => (.error .notFound, .dir d)

@[simp] theorem editAt_cons_cons (op : Mutation UInt8) (s t : Str) (segs : List Str) (d : Entries) :
    editAt op (s :: t :: segs) (.dir d) =
      match OrderedMap.lookup s d with
      | some child => ((editAt op (t :: segs) child).1,
          .dir (OrderedMap.put s (editAt op (t :: segs) child).2 d))
      | none => (.error .notFound, .dir d) :=
  rfl

section Edits

variable {op op' : Mutation UInt8} {s s' name : Str} {segs segs' p q : List Str}
    {d d' : Entries} {node : Node}

theorem inParent_eq_editAt (op : Mutation UInt8) (ps : List Str) (name : Str) (node : Node) :
    walkMut node (fun node =>
      match node with
      | .dir d =>
        let r := body op name d
        (r.1, .dir r.2)
      | .file _ => (.error .notADir, node)) ps = editAt op (ps ++ [name]) node := by
  induction ps generalizing node with
  | nil => cases node <;> rfl
  | cons s ps ih =>
    cases node with
    | file b => rfl
    | dir d =>
      obtain ⟨t, rest, hrest⟩ := List.exists_cons_of_ne_nil (List.concat_ne_nil name ps)
      rw [List.cons_append, hrest, editAt_cons_cons, walkMut]
      cases OrderedMap.lookup s d with
      | none => rfl
      | some child => simp only [← hrest, ih]

theorem apply_eq_editAt (root : Node) (rel : Str) (op : Mutation UInt8) :
    apply root rel op = editAt op (segments rel) root := by
  rw [apply_eq_inParent, inParent, splitParent]
  rcases List.eq_nil_or_concat (segments rel) with hnil | ⟨ps, name, hsegs⟩
  · rw [hnil]
    rfl
  · rw [hsegs, List.concat_eq_append, List.getLast?_concat, List.dropLast_concat]
    exact inParent_eq_editAt op ps name root

def kids : Node → Entries
  | .dir d => d
  | .file _ => []

theorem editAt_dir (op : Mutation UInt8) (p : List Str) (d : Entries) :
    (editAt op p (.dir d)).2 = .dir (kids (editAt op p (.dir d)).2) := by
  match p with
  | [] => rfl
  | [name] => rfl
  | s :: t :: segs =>
    rw [editAt_cons_cons]
    cases OrderedMap.lookup s d <;> rfl

theorem body_other {n : Str} (h : n ≠ name) (op : Mutation UInt8) (d : Entries) :
    OrderedMap.lookup n (body op name d).2 = OrderedMap.lookup n d := by
  rcases hb : body op name d with ⟨_ | u, d'⟩
  · rw [body_error hb]
  · rw [body_ok hb, if_neg h]

theorem body_congr (h : OrderedMap.lookup name d = OrderedMap.lookup name d')
    (op : Mutation UInt8) :
    (body op name d).1 = (body op name d').1 ∧
      OrderedMap.lookup name (body op name d).2 = OrderedMap.lookup name (body op name d').2 := by
  have hres : (body op name d).1 = (body op name d').1 := by
    cases op <;> simp only [body, placeFile, extendFile, placeDir, removeEntry, h] <;>
      rcases OrderedMap.lookup name d' with _ | ⟨b⟩ | ⟨_ | _⟩ <;> rfl
  refine ⟨hres, ?_⟩
  rcases hb : body op name d with ⟨r, d₁⟩
  rcases hb' : body op name d' with ⟨r', d₂⟩
  rw [hb, hb'] at hres
  obtain rfl : r = r' := hres
  cases r with
  | error e => simp only [body_error hb, body_error hb', h]
  | ok u => simp only [body_ok hb, body_ok hb', if_true, h]

theorem editAt_other {n : Str} (h : n ≠ s) (op : Mutation UInt8) (segs : List Str) (d : Entries) :
    OrderedMap.lookup n (kids (editAt op (s :: segs) (.dir d)).2) = OrderedMap.lookup n d := by
  cases segs with
  | nil => exact body_other h op d
  | cons t segs =>
    rw [editAt_cons_cons]
    cases OrderedMap.lookup s d with
    | none => rfl
    | some child =>
      change OrderedMap.lookup n (OrderedMap.put s _ d) = _
      rw [OrderedMap.lookup_put, if_neg h]

theorem editAt_congr (h : OrderedMap.lookup s d = OrderedMap.lookup s d') (op : Mutation UInt8)
    (segs : List Str) :
    (editAt op (s :: segs) (.dir d)).1 = (editAt op (s :: segs) (.dir d')).1 ∧
      OrderedMap.lookup s (kids (editAt op (s :: segs) (.dir d)).2) =
        OrderedMap.lookup s (kids (editAt op (s :: segs) (.dir d')).2) := by
  cases segs with
  | nil => exact body_congr h op
  | cons t segs =>
    rw [editAt_cons_cons, editAt_cons_cons, h]
    cases hl : OrderedMap.lookup s d' with
    | none => exact ⟨rfl, by rw [kids, h, kids]⟩
    | some child =>
      refine ⟨rfl, ?_⟩
      change OrderedMap.lookup s (OrderedMap.put s _ d) =
        OrderedMap.lookup s (OrderedMap.put s _ d')
      rw [OrderedMap.lookup_put, OrderedMap.lookup_put, h]

theorem editAt_ordered (h : Ordered node) (op : Mutation UInt8) (p : List Str) :
    Ordered (editAt op p node).2 := by
  induction p generalizing node with
  | nil => exact h
  | cons s segs ih =>
    cases node with
    | file b => cases segs <;> exact h
    | dir d =>
      cases segs with
      | nil => exact body_ordered op s h
      | cons t segs =>
        rw [editAt_cons_cons]
        cases hl : OrderedMap.lookup s d with
        | none => exact h
        | some child => exact h.put s (ih (h.lookup hl))

theorem editAt_swap_names (hd : Ordered (.dir d)) (hs : s ≠ s') :
    (editAt op' (s' :: segs') (editAt op (s :: segs) (.dir d)).2).2 =
        (editAt op (s :: segs) (editAt op' (s' :: segs') (.dir d)).2).2 ∧
      (editAt op' (s' :: segs') (editAt op (s :: segs) (.dir d)).2).1 =
        (editAt op' (s' :: segs') (.dir d)).1 := by
  have h₁ := editAt_dir op (s :: segs) d
  have h₂ := editAt_dir op' (s' :: segs') d
  have hrest₁ : ∀ n, n ≠ s → OrderedMap.lookup n (kids (editAt op (s :: segs) (.dir d)).2) =
    OrderedMap.lookup n d :=
    fun n hn => editAt_other hn op segs d
  have hrest₂ : ∀ n, n ≠ s' → OrderedMap.lookup n (kids (editAt op' (s' :: segs') (.dir d)).2) =
    OrderedMap.lookup n d :=
    fun n hn => editAt_other hn op' segs' d
  have ho₁ := editAt_ordered hd op (s :: segs)
  have ho₂ := editAt_ordered hd op' (s' :: segs')
  generalize kids (editAt op (s :: segs) (.dir d)).2 = d₁ at h₁ hrest₁
  generalize kids (editAt op' (s' :: segs') (.dir d)).2 = d₂ at h₂ hrest₂
  obtain ⟨-, hown₁⟩ := editAt_congr (hrest₂ s hs) op segs
  obtain ⟨hreply, hown₂⟩ := editAt_congr (hrest₁ s' hs.symm) op' segs'
  rw [h₁] at ho₁ hown₁ ⊢
  rw [h₂] at ho₂ hown₂ ⊢
  refine ⟨?_, hreply⟩
  have hs₁ := editAt_ordered ho₁ op' (s' :: segs')
  have hs₂ := editAt_ordered ho₂ op (s :: segs)
  rw [editAt_dir] at hs₁ hs₂
  rw [editAt_dir, editAt_dir op]
  refine congrArg Node.dir (hs₁.sorted.ext hs₂.sorted fun n => ?_)
  by_cases hn : n = s
  · subst hn
    rw [editAt_other hs, hown₁, kids]
  · rw [editAt_other hn]
    by_cases hn' : n = s'
    · subst hn'
      rw [hown₂, kids]
    · rw [editAt_other hn', hrest₁ n hn, hrest₂ n hn']

def Unrelated (p q : List Str) : Prop := ¬ p <+: q ∧ ¬ q <+: p

instance (p q : List Str) : Decidable (Unrelated p q) := inferInstanceAs (Decidable (_ ∧ _))

theorem Unrelated.symm (h : Unrelated p q) : Unrelated q p := ⟨h.2, h.1⟩

theorem Unrelated.tail (h : Unrelated (s :: segs) (s :: segs')) : Unrelated segs segs' := by
  rw [Unrelated, List.cons_prefix_cons, List.cons_prefix_cons] at h
  exact ⟨fun hp => h.1 ⟨rfl, hp⟩, fun hp => h.2 ⟨rfl, hp⟩⟩

theorem Unrelated.ne_nil (h : Unrelated p q) : p ≠ [] := by
  rintro rfl
  exact h.1 List.nil_prefix

theorem editAt_swap (hn : Ordered node) (h : Unrelated p q) (op op' : Mutation UInt8) :
    (editAt op' q (editAt op p node).2).2 = (editAt op p (editAt op' q node).2).2 ∧
      (editAt op' q (editAt op p node).2).1 = (editAt op' q node).1 := by
  induction p generalizing q node with
  | nil => exact absurd rfl h.ne_nil
  | cons s segs ih =>
    obtain ⟨s', segs', rfl⟩ := List.exists_cons_of_ne_nil h.symm.ne_nil
    cases node with
    | file b => cases segs <;> cases segs' <;> exact ⟨rfl, rfl⟩
    | dir d =>
      by_cases hs : s = s'
      · subst hs
        have hrest := h.tail
        obtain ⟨t, segs, rfl⟩ := List.exists_cons_of_ne_nil hrest.ne_nil
        obtain ⟨t', segs', rfl⟩ := List.exists_cons_of_ne_nil hrest.symm.ne_nil
        cases hl : OrderedMap.lookup s d with
        | none => simp only [editAt_cons_cons, hl, and_self]
        | some child =>
          obtain ⟨hstate, hreply⟩ := ih (hn.lookup hl) hrest
          have hput (x : Node) : OrderedMap.lookup s (OrderedMap.put s x d) = some x := by
            rw [OrderedMap.lookup_put, if_pos rfl, hl, Option.map_some]
          simp only [editAt_cons_cons, hl, hput, hstate, hreply, and_true]
          refine congrArg Node.dir ?_
          have hsort (x : Node) : OrderedMap.Sorted (OrderedMap.put s x d) :=
            OrderedMap.put_sorted s x hn.sorted
          refine (OrderedMap.put_sorted s _ (hsort _)).ext (OrderedMap.put_sorted s _ (hsort _))
            fun k => ?_
          simp only [OrderedMap.lookup_put, hput]
          split_ifs <;> rfl
      · exact editAt_swap_names hn hs

theorem walk_editAt (h : Unrelated p q) (op : Mutation UInt8) (node : Node) :
    walk (editAt op p node).2 q = walk node q := by
  induction p generalizing q node with
  | nil => exact absurd rfl h.ne_nil
  | cons s segs ih =>
    obtain ⟨s', segs', rfl⟩ := List.exists_cons_of_ne_nil h.symm.ne_nil
    cases node with
    | file b => cases segs <;> rfl
    | dir d =>
      rw [editAt_dir, walk, walk]
      by_cases hs : s = s'
      · subst hs
        have hrest := h.tail
        obtain ⟨t, segs, rfl⟩ := List.exists_cons_of_ne_nil hrest.ne_nil
        rw [editAt_cons_cons]
        cases hl : OrderedMap.lookup s d with
        | none => simp only [kids, hl]
        | some child =>
          simp only [kids, OrderedMap.lookup_put, if_true, hl, Option.map_some]
          exact ih hrest child
      · rw [editAt_other (Ne.symm hs)]

end Edits

/-! Requests. -/

inductive Request where
  | mutate (rel : Str) (op : Mutation UInt8)
  | readFile (rel : Str)
  | listDir (rel : Str)
  | isDir (rel : Str)

inductive Reply where
  | done (r : Except FsError Unit)
  | bytes (r : Except FsError (List UInt8))
  | names (r : Except FsError (List Str))
  | flag (b : Bool)

def serve : Request → Node → Reply × Node
  | .mutate rel op, root => let r := apply root rel op; (.done r.1, r.2)
  | .readFile rel, root => (.bytes (readFile root rel), root)
  | .listDir rel, root => (.names (listDir root rel), root)
  | .isDir rel, root => (.flag (isDir root rel), root)

def Request.path : Request → List Str
  | .mutate rel _ | .readFile rel | .listDir rel | .isDir rel => segments rel

section Requests

variable {c c' : Request} {root : Node}

theorem serve_ordered (c : Request) (root : Node) (h : Ordered root) :
    Ordered (serve c root).2 := by
  cases c with
  | mutate rel op => exact apply_ordered h rel op
  | _ => exact h

theorem serve_reader {rel : Str} {op : Mutation UInt8} (h : Unrelated (segments rel) c.path)
    (hc : ∀ rel' op', c ≠ .mutate rel' op') :
    (serve c (apply root rel op).2).1 = (serve c root).1 := by
  rw [apply_eq_editAt]
  have hwalk := walk_editAt h op root
  cases c with
  | mutate rel' op' => exact absurd rfl (hc rel' op')
  | readFile rel' =>
    simp only [Request.path] at hwalk
    simp only [serve, readFile, hwalk]
  | listDir rel' =>
    simp only [Request.path] at hwalk
    simp only [serve, listDir, hwalk]
  | isDir rel' =>
    simp only [Request.path] at hwalk
    simp only [serve, isDir, hwalk]

theorem serve_swaps (h : Unrelated c.path c'.path) : Swaps serve Ordered c c' := by
  cases c with
  | mutate rel op =>
    cases c' with
    | mutate rel' op' =>
      have hswap (x : Node) (hx : Ordered x) := editAt_swap hx h op op'
      constructor
      · intro x hx
        simp only [serve, apply_eq_editAt]
        exact (hswap x hx).1
      · intro x hx
        simp only [serve, apply_eq_editAt]
        exact congrArg Reply.done (hswap x hx).2
    | _ => exact ⟨fun _ _ => rfl, fun x _ => serve_reader h (by simp)⟩
  | _ => cases c' <;> exact ⟨fun _ _ => rfl, fun _ _ => rfl⟩

/-- Clients that keep to unrelated paths do not notice each other: each gets the replies
it would get alone, and every order of arrival leaves the same tree. -/
theorem clients_isolated {ι : Type} [DecidableEq ι] (hroot : Reachable root)
    {calls calls' : List (ι × Request)}
    (h : ∀ a ∈ calls, ∀ b ∈ calls, a.1 ≠ b.1 → Unrelated a.2.path b.2.path)
    (hmine : ∀ i, mine i calls' = mine i calls) :
    (∀ i, mine i (served serve calls root) = replies serve (mine i calls) root) ∧
      run serve (calls'.map Prod.snd) root = run serve (calls.map Prod.snd) root := by
  have ho := reachable_ordered hroot
  constructor
  · intro i
    refine mine_served serve_ordered ho i fun a ha hne c' hc' => ?_
    exact serve_swaps (h a ha (i, c') (mem_mine.mp hc') hne)
  · exact run_eq_of_mine serve_ordered ho (fun a ha b hb hne => serve_swaps (h a ha b hb hne)) hmine

/-- One client writes a file and reads it, the other makes a directory and lists it. -/
def twoClients : List (Bool × Request) :=
  [(true, .mutate (text "/a") (.writeFile [1])), (false, .mutate (text "/b") .createDir),
    (true, .readFile (text "/a")), (false, .listDir (text "/b"))]

theorem clients_isolated_twoClients :
    (∀ i, mine i (served serve twoClients new) = replies serve (mine i twoClients) new) ∧
      run serve ([(false, .mutate (text "/b") .createDir), (false, .listDir (text "/b")),
        (true, .mutate (text "/a") (.writeFile [1])),
        (true, .readFile (text "/a"))].map Prod.snd) new =
        run serve (twoClients.map Prod.snd) new := by
  have hpaths : Unrelated (segments (text "/a")) (segments (text "/b")) := by decide +kernel
  refine clients_isolated .new (fun a ha b hb hne => ?_) fun i => by cases i <;> rfl
  simp only [twoClients, List.mem_cons, List.not_mem_nil, or_false] at ha hb
  rcases ha with rfl | rfl | rfl | rfl <;> rcases hb with rfl | rfl | rfl | rfl <;>
    first | exact absurd rfl hne | exact hpaths | exact hpaths.symm

end Requests

end Willo.TmpFs
