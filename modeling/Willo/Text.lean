import Mathlib.Data.List.DropRight
import Mathlib.Data.List.Induction
import Mathlib.Data.List.Basic

/-! Strings as their UTF-8 bytes, with the few operations a path handler needs:
cutting at a separator, dropping empty pieces, trimming a trailing separator,
and ASCII case folding. The separator is one ASCII byte, so cutting bytes and
cutting characters give the same pieces. Nothing here depends on validity of
the encoding; results hold for every byte sequence. -/

namespace Willo.Text

abbrev Str := List UInt8

-- the one instance by which every search for a name compares
instance : LawfulBEq Str := inferInstance

def text (s : String) : Str := s.toUTF8.toList

def slash : UInt8 := 47
def dot : UInt8 := 46
def space : UInt8 := 32

/-- The non-empty pieces between separators, in order. -/
def segments (s : Str) : List Str := (s.splitOn slash).filter (· ≠ [])

/-- Each piece preceded by one separator. -/
def join (segs : List Str) : Str := segs.flatMap (slash :: ·)

def trimEnd (s : Str) : Str := s.rdropWhile (· == slash)

def rfind (b : UInt8) (s : Str) : Option Nat :=
  (s.reverse.findIdx? (· == b)).map fun i => s.length - 1 - i

@[simp] theorem join_nil : join [] = [] := rfl

@[simp] theorem join_cons (s : Str) (segs : List Str) :
    join (s :: segs) = slash :: (s ++ join segs) := rfl

theorem join_append (as bs : List Str) : join (as ++ bs) = join as ++ join bs := by
  simp [join]

@[simp] theorem segments_nil : segments [] = [] := rfl

def Plain (s : Str) : Prop := s ≠ [] ∧ slash ∉ s

instance (s : Str) : Decidable (Plain s) := inferInstanceAs (Decidable (_ ∧ _))

theorem segments_slash_cons (s : Str) : segments (slash :: s) = segments s := by
  have h := List.splitOn_append_cons_self ([] : Str) s (a := slash)
  rw [List.nil_append, List.splitOn_nil] at h
  simp [segments, h]

theorem segments_append_slash (s t : Str) :
    segments (s ++ slash :: t) = segments s ++ segments t := by
  rw [segments, List.splitOn_append_cons_self, List.filter_append]
  rfl

theorem segments_plain {s : Str} (h : Plain s) : segments s = [s] := by
  rw [segments, List.splitOn_eq_singleton h.2]
  simp [h.1]

theorem segments_join {segs : List Str} (h : ∀ s ∈ segs, Plain s) :
    segments (join segs) = segs := by
  induction segs with
  | nil => rfl
  | cons s segs ih =>
    have hs := segments_plain (h s (by simp))
    have ht := ih (fun t ht => h t (by simp [ht]))
    rw [join_cons, segments_slash_cons]
    cases segs with
    | nil => simpa using hs
    | cons t segs =>
      rw [join_cons, segments_append_slash, hs]
      rw [join_cons, segments_slash_cons] at ht
      rw [ht]
      rfl

theorem plain_of_mem_segments {s t : Str} (h : t ∈ segments s) : Plain t := by
  have key : ∀ s : Str, ∀ t ∈ s.splitOn slash, slash ∉ t := by
    intro s
    induction s with
    | nil => simp
    | cons b s ih =>
      intro t ht
      rw [List.splitOn_cons_eq_if_modifyHead] at ht
      obtain ⟨p, ps, hp⟩ := List.exists_cons_of_ne_nil (List.splitOn_ne_nil slash s)
      rw [hp] at ht ih
      by_cases hb : b = slash
      · simp only [hb, BEq.rfl, if_true, List.mem_cons] at ht
        rcases ht with rfl | rfl | ht
        · simp
        · exact ih _ (by simp)
        · exact ih t (by simp [ht])
      · simp only [beq_iff_eq, hb, if_false, List.modifyHead_cons, List.mem_cons] at ht
        rcases ht with rfl | ht
        · have := ih p (by simp)
          simp [this, Ne.symm hb]
        · exact ih t (by simp [ht])
  simp only [segments, List.mem_filter, decide_eq_true_eq] at h
  exact ⟨h.2, key s t h.1⟩

theorem trimEnd_initial (s : Str) : trimEnd s <+: s := List.rdropWhile_prefix _ _

theorem trimEnd_getLast (s : Str) : (trimEnd s).getLast? ≠ some slash := by
  intro h
  have hne : trimEnd s ≠ [] := by rintro e; simp [e] at h
  have hl := List.rdropWhile_last_not (· == slash) s hne
  rw [List.getLast?_eq_some_getLast hne, Option.some.injEq] at h
  exact hl (beq_iff_eq.mpr h)

theorem trimEnd_eq_self {s : Str} (h : s.getLast? ≠ some slash) : trimEnd s = s := by
  rw [trimEnd, List.rdropWhile_eq_self_iff]
  intro hne hs
  exact h (by rw [List.getLast?_eq_some_getLast hne, beq_iff_eq.mp hs])

theorem trimEnd_head {s : Str} (h : s.head? = some slash) :
    trimEnd s = [] ∨ (trimEnd s).head? = some slash := by
  obtain ⟨t, ht⟩ := trimEnd_initial s
  cases hs : trimEnd s with
  | nil => exact Or.inl rfl
  | cons b r =>
    rw [hs] at ht
    rw [← ht] at h
    exact Or.inr h

theorem segments_trimEnd (s : Str) : segments (trimEnd s) = segments s := by
  induction s using List.reverseRecOn with
  | nil => rfl
  | append_singleton s b ih =>
    by_cases hb : b = slash
    · have hsegs := segments_append_slash s []
      rw [segments_nil, List.append_nil] at hsegs
      rw [hb, hsegs, ← ih, trimEnd, List.rdropWhile_concat_pos _ _ _ (by simp), trimEnd]
    · rw [trimEnd, List.rdropWhile_concat_neg _ _ _ (by simpa using hb)]

theorem rfind_append_cons {b : UInt8} {s t : Str} (h : b ∉ t) :
    rfind b (s ++ b :: t) = some s.length := by
  have hnone : t.reverse.findIdx? (· == b) = none := by
    rw [List.findIdx?_eq_none_iff]
    intro x hx
    rw [beq_eq_false_iff_ne]
    rintro rfl
    exact h (List.mem_reverse.mp hx)
  simp only [rfind, List.reverse_append, List.reverse_cons, List.append_assoc, List.findIdx?_append,
    hnone]
  simp

theorem rfind_eq_none {b : UInt8} {s : Str} (h : b ∉ s) : rfind b s = none := by
  rw [rfind, Option.map_eq_none_iff, List.findIdx?_eq_none_iff]
  intro x hx
  rw [beq_eq_false_iff_ne]
  rintro rfl
  exact h (List.mem_reverse.mp hx)

/-! ASCII case. Only the letters move; every other byte is fixed. -/

def toAsciiLower (b : UInt8) : UInt8 := if 65 ≤ b ∧ b ≤ 90 then b + 32 else b

def toAsciiUpper (b : UInt8) : UInt8 := if 97 ≤ b ∧ b ≤ 122 then b - 32 else b

def lower (s : Str) : Str := s.map toAsciiLower

/-- Equality ignoring ASCII case, as the byte-wise comparison of the folds. -/
def eqIgnoreAsciiCase (a b : Str) : Bool := lower a == lower b

@[simp] theorem eqIgnoreAsciiCase_iff (a b : Str) :
    eqIgnoreAsciiCase a b = true ↔ lower a = lower b := by
  simp [eqIgnoreAsciiCase]

/-- A decidable fact about bytes is checked on the 256 values. -/
theorem forall_byte {p : UInt8 → Prop} (h : ∀ n < 256, p (UInt8.ofNat n)) (b : UInt8) : p b := by
  simpa using h b.toNat b.toNat_lt

theorem toAsciiLower_upper (b : UInt8) : toAsciiLower (toAsciiUpper b) = toAsciiLower b :=
  forall_byte (p := fun b => toAsciiLower (toAsciiUpper b) = toAsciiLower b) (by decide +kernel) b

@[simp] theorem toAsciiLower_idem (b : UInt8) :
    toAsciiLower (toAsciiLower b) = toAsciiLower b :=
  forall_byte (p := fun b => toAsciiLower (toAsciiLower b) = toAsciiLower b) (by decide +kernel) b

theorem toAsciiLower_eq_dot (b : UInt8) : toAsciiLower b = dot ↔ b = dot :=
  forall_byte (p := fun b => toAsciiLower b = dot ↔ b = dot) (by decide +kernel) b

@[simp] theorem lower_idem (s : Str) : lower (lower s) = lower s := by
  simp [lower]

end Willo.Text
