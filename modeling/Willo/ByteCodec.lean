import Mathlib.Algebra.Ring.Int.Defs
import Mathlib.Algebra.Ring.Nat
import Mathlib.Data.List.Basic
import Mathlib.Data.List.TakeDrop

/-! Little-endian fields in byte sequences: reading and writing 16- and 32-bit
numbers at an offset, patching a run of bytes, and cutting into fixed-size
chunks. Out-of-range reads give zero; every use stays in range. -/

namespace Willo.ByteCodec

abbrev Bytes := List UInt8

def byteAt (b : Bytes) (i : Nat) : UInt8 := b.getD i 0

def le16 (b : Bytes) (i : Nat) : Nat := (byteAt b i).toNat + 256 * (byteAt b (i + 1)).toNat

def le32 (b : Bytes) (i : Nat) : Nat := le16 b i + 65536 * le16 b (i + 2)

def toLe16 (n : Nat) : Bytes := [UInt8.ofNat n, UInt8.ofNat (n / 256)]

def toLe32 (n : Nat) : Bytes := toLe16 n ++ toLe16 (n / 65536)

def patch (b : Bytes) (off : Nat) (bs : Bytes) : Bytes :=
  b.take off ++ bs ++ b.drop (off + bs.length)

def slice (b : Bytes) (off len : Nat) : Bytes := (b.drop off).take len

/-- The consecutive chunks of `n` bytes; a shorter rest is left out. -/
def chunksExact (n : Nat) (b : Bytes) : List Bytes :=
  (List.range (b.length / n)).map fun i => slice b (n * i) n

theorem le16_lt (b : Bytes) (i : Nat) : le16 b i < 65536 := by
  have h1 := (byteAt b i).toNat_lt
  have h2 := (byteAt b (i + 1)).toNat_lt
  unfold le16
  omega

theorem le32_lt (b : Bytes) (i : Nat) : le32 b i < 2 ^ 32 := by
  have h1 := le16_lt b i
  have h2 := le16_lt b (i + 2)
  unfold le32
  omega

@[simp] theorem length_toLe16 (n : Nat) : (toLe16 n).length = 2 := rfl

@[simp] theorem length_toLe32 (n : Nat) : (toLe32 n).length = 4 := rfl

theorem le32_toLe32 (n : Nat) (rest : Bytes) : le32 (toLe32 n ++ rest) 0 = n % 2 ^ 32 := by
  simp [le32, le16, toLe32, toLe16, byteAt]
  omega

theorem byteAt_append_left {a b : Bytes} {i : Nat} (h : i < a.length) :
    byteAt (a ++ b) i = byteAt a i := by
  simp [byteAt, List.getElem?_append_left h]

theorem byteAt_append_right {a b : Bytes} {i : Nat} (h : a.length ≤ i) :
    byteAt (a ++ b) i = byteAt b (i - a.length) := by
  simp [byteAt, List.getElem?_append_right h]

theorem byteAt_append_add (a b : Bytes) (i : Nat) :
    byteAt (a ++ b) (a.length + i) = byteAt b i := by
  rw [byteAt_append_right (by omega), Nat.add_sub_cancel_left]

theorem byteAt_drop (b : Bytes) (off i : Nat) : byteAt (b.drop off) i = byteAt b (off + i) := by
  simp [byteAt]

theorem byteAt_slice {b : Bytes} {off len i : Nat} (h : i < len) :
    byteAt (slice b off len) i = byteAt b (off + i) := by
  simp [byteAt, slice, h]

theorem length_patch {b bs : Bytes} {off : Nat} (h : off + bs.length ≤ b.length) :
    (patch b off bs).length = b.length := by
  simp only [patch, List.length_append, List.length_take, List.length_drop]
  omega

theorem byteAt_patch {b bs : Bytes} {off : Nat} (h : off + bs.length ≤ b.length) (i : Nat) :
    byteAt (patch b off bs) i =
      if off ≤ i ∧ i < off + bs.length then byteAt bs (i - off) else byteAt b i := by
  have hlen : (b.take off).length = off := by
    rw [List.length_take]
    omega
  unfold patch
  rw [List.append_assoc]
  by_cases h1 : off ≤ i
  · rw [byteAt_append_right (by omega), hlen]
    by_cases h2 : i < off + bs.length
    · rw [if_pos ⟨h1, h2⟩, byteAt_append_left (by omega)]
    · rw [if_neg (fun hc => h2 hc.2), byteAt_append_right (by omega), byteAt_drop]
      congr 1
      omega
  · rw [if_neg (fun hc => h1 hc.1), byteAt_append_left (by omega)]
    simp [byteAt, Nat.lt_of_not_le h1]

theorem drop_patch {b bs : Bytes} {off : Nat} (h : off ≤ b.length) :
    (patch b off bs).drop off = bs ++ b.drop (off + bs.length) := by
  have hlen : (b.take off).length = off := by
    rw [List.length_take]
    omega
  rw [patch, List.append_assoc, List.drop_append_of_le_length (by omega),
    List.drop_eq_nil_of_le (by omega), List.nil_append]

theorem le32_drop (b : Bytes) (off i : Nat) : le32 (b.drop off) i = le32 b (off + i) := by
  simp only [le32, le16, byteAt_drop, Nat.add_assoc]

theorem le32_patch_self {b : Bytes} {off : Nat} (h : off ≤ b.length) (n : Nat) :
    le32 (patch b off (toLe32 n)) off = n % 2 ^ 32 := by
  rw [← Nat.add_zero off, ← le32_drop, Nat.add_zero, drop_patch h, le32_toLe32]

theorem le32_patch_other {b bs : Bytes} {off i : Nat} (h : off + bs.length ≤ b.length)
    (hi : i + 4 ≤ off ∨ off + bs.length ≤ i) : le32 (patch b off bs) i = le32 b i := by
  unfold le32 le16
  rw [byteAt_patch h, byteAt_patch h, byteAt_patch h, byteAt_patch h]
  rw [if_neg (by omega), if_neg (by omega), if_neg (by omega), if_neg (by omega)]

theorem bytes_ext {a b : Bytes} (hlen : a.length = b.length)
    (h : ∀ i < a.length, byteAt a i = byteAt b i) : a = b := by
  apply List.ext_getElem hlen
  intro i h1 h2
  have hi := h i h1
  simpa [byteAt, h1, h2] using hi

theorem length_flatMap_of_length {α β : Type} {f : α → List β} {n : Nat} {l : List α}
    (hf : ∀ x ∈ l, (f x).length = n) : (l.flatMap f).length = l.length * n := by
  induction l with
  | nil => simp
  | cons x l ih =>
    rw [List.flatMap_cons, List.length_append, hf x (by simp), ih fun y hy => hf y (by simp [hy]),
      List.length_cons, Nat.add_mul, Nat.one_mul, Nat.add_comm]

section Blocks

variable {β : Type} {f : Nat → List β} {n : Nat}

theorem length_flatMap_range (hf : ∀ k, (f k).length = n) (m : Nat) :
    ((List.range m).flatMap f).length = m * n := by
  rw [length_flatMap_of_length fun k _ => hf k, List.length_range]

theorem getElem?_flatMap_range (hf : ∀ k, (f k).length = n) {m i : Nat} (hi : i < m * n) :
    ((List.range m).flatMap f)[i]? = (f (i / n))[i % n]? := by
  induction m with
  | zero => simp at hi
  | succ m ih =>
    have hlen := length_flatMap_range hf m
    rw [List.range_succ, List.flatMap_append, List.flatMap_singleton]
    rcases Nat.lt_or_ge i (m * n) with h | h
    · rw [List.getElem?_append_left (by omega), ih h]
    · rw [Nat.add_mul, Nat.one_mul] at hi
      have hdiv : i / n = m := Nat.div_eq_of_lt_le h (by rw [Nat.add_mul, Nat.one_mul]; exact hi)
      have hmod : i % n = i - m * n := by
        rw [Nat.mod_eq_sub, hdiv, Nat.mul_comm]
      rw [List.getElem?_append_right (by omega), hlen, hdiv, hmod]

theorem byteAt_flatMap_range {f : Nat → Bytes} (hf : ∀ k, (f k).length = n) {m i : Nat}
    (hi : i < m * n) :
    byteAt ((List.range m).flatMap f) i = byteAt (f (i / n)) (i % n) := by
  simp only [byteAt, List.getD_eq_getElem?_getD, getElem?_flatMap_range hf hi]

end Blocks

section Chunks

variable {n : Nat} {b : Bytes}

@[simp] theorem length_chunksExact (n : Nat) (b : Bytes) :
    (chunksExact n b).length = b.length / n := by
  simp [chunksExact]

theorem getElem_chunksExact {i : Nat} (h : i < (chunksExact n b).length) :
    (chunksExact n b)[i] = slice b (n * i) n := by
  simp [chunksExact]

theorem length_slice {off len : Nat} (h : off + len ≤ b.length) :
    (slice b off len).length = len := by
  simp only [slice, List.length_take, List.length_drop]
  omega

theorem chunk_le {i : Nat} (h : i < b.length / n) : n * i + n ≤ b.length := by
  have h1 : n * (i + 1) ≤ n * (b.length / n) := Nat.mul_le_mul_left n h
  have h2 := Nat.mul_div_le b.length n
  rw [Nat.mul_add, Nat.mul_one] at h1
  omega

theorem slice_patch_self {bs : Bytes} {off : Nat} (h : off ≤ b.length) :
    slice (patch b off bs) off bs.length = bs := by
  rw [slice, drop_patch h, List.take_left']
  rfl

theorem slice_patch_other {bs : Bytes} {off i len : Nat} (h : off + bs.length ≤ b.length)
    (hi : i + len ≤ off ∨ off + bs.length ≤ i) : slice (patch b off bs) i len = slice b i len := by
  have hlen : (slice (patch b off bs) i len).length = (slice b i len).length := by
    simp only [slice, List.length_take, List.length_drop, length_patch h]
  apply bytes_ext hlen
  intro k hk
  have hlt : k < len := by
    rw [hlen, slice, List.length_take] at hk
    omega
  rw [byteAt_slice hlt, byteAt_slice hlt, byteAt_patch h, if_neg (by omega)]

theorem slice_append_left {a : Bytes} {off len : Nat} (h : off + len ≤ a.length) :
    slice (a ++ b) off len = slice a off len := by
  rw [slice, slice, List.drop_append_of_le_length (by omega),
    List.take_append_of_le_length (by rw [List.length_drop]; omega)]

theorem slice_append_right {a : Bytes} (off len : Nat) :
    slice (a ++ b) (a.length + off) len = slice b off len := by
  rw [slice, slice, List.drop_append, List.drop_eq_nil_of_le (by omega), List.nil_append,
    Nat.add_sub_cancel_left]

theorem chunksExact_append {a : Bytes} {k : Nat} (hn : 0 < n) (ha : a.length = n * k) :
    chunksExact n (a ++ b) = chunksExact n a ++ chunksExact n b := by
  have hdiv : (a.length + b.length) / n = k + b.length / n := by
    rw [ha, Nat.mul_add_div hn]
  have hka : a.length / n = k := by rw [ha, Nat.mul_div_cancel_left k hn]
  simp only [chunksExact, List.length_append, hdiv, hka, List.range_add, List.map_append,
    List.map_map]
  congr 1
  · refine List.map_congr_left fun i hi => slice_append_left ?_
    have hik : n * (i + 1) ≤ n * k := Nat.mul_le_mul_left n (List.mem_range.mp hi)
    rw [Nat.mul_add, Nat.mul_one] at hik
    omega
  · refine List.map_congr_left fun i _ => ?_
    change slice (a ++ b) (n * (k + i)) n = _
    rw [Nat.mul_add, ← ha, slice_append_right]

theorem chunksExact_flatMap {α : Type} {f : α → Bytes} {k : Nat} (hn : 0 < n) {l : List α}
    (hf : ∀ x ∈ l, (f x).length = n * k) :
    chunksExact n (l.flatMap f) = l.flatMap fun x => chunksExact n (f x) := by
  induction l with
  | nil => simp [chunksExact]
  | cons x l ih =>
    rw [List.flatMap_cons, List.flatMap_cons, chunksExact_append hn (hf x (by simp)),
      ih fun y hy => hf y (by simp [hy])]

theorem chunksExact_patch {bs : Bytes} {i o : Nat} (hi : i < b.length / n)
    (ho : o + bs.length ≤ n) :
    chunksExact n (patch b (n * i + o) bs) =
      (chunksExact n b).set i (patch (slice b (n * i) n) o bs) := by
  have hle := chunk_le hi
  have hlen : (patch b (n * i + o) bs).length = b.length := length_patch (by omega)
  apply List.ext_getElem
  · simp [hlen]
  intro j h1 h2
  rw [getElem_chunksExact, List.getElem_set]
  have hj : j < b.length / n := by rwa [length_chunksExact, hlen] at h1
  have hjle := chunk_le hj
  have hslice : (slice b (n * i) n).length = n := length_slice hle
  by_cases hij : i = j
  · subst hij
    rw [if_pos rfl]
    apply bytes_ext
    · rw [length_slice (by rw [hlen]; exact hle), length_patch (by omega), hslice]
    · intro x hx
      rw [length_slice (by rw [hlen]; exact hle)] at hx
      rw [byteAt_slice hx, byteAt_patch (by omega), byteAt_patch (by omega), byteAt_slice hx]
      refine if_congr (by omega) ?_ rfl
      congr 1
      omega
  · rw [if_neg hij, getElem_chunksExact]
    apply bytes_ext
    · rw [length_slice (by rw [hlen]; exact hjle), length_slice hjle]
    · intro x hx
      rw [length_slice (by rw [hlen]; exact hjle)] at hx
      have hoff : n * j + n ≤ n * i ∨ n * i + n ≤ n * j := by
        rcases Nat.lt_or_gt_of_ne hij with h | h
        · have := Nat.mul_le_mul_left n h
          rw [Nat.mul_succ] at this
          omega
        · have := Nat.mul_le_mul_left n h
          rw [Nat.mul_succ] at this
          omega
      rw [byteAt_slice hx, byteAt_slice hx, byteAt_patch (by omega), if_neg (by omega)]

theorem patch_self {bs : Bytes} (h : bs.length = b.length) : patch b 0 bs = bs := by
  rw [patch, List.take_zero, List.nil_append, Nat.zero_add, List.drop_eq_nil_of_le (by omega),
    List.append_nil]

end Chunks

end Willo.ByteCodec
