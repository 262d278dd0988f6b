import Mathlib.Data.List.TakeWhile
import Willo.ShortNames

/-! The exact domain of the slot codec. The encoder cuts a name at its last dot and
each part at its width; the decoder stops each part at the first blank and joins
them when the second is not empty. Which names come back is decided by counting:
nothing the decoder returns is longer than what the encoder kept. -/

namespace Willo.Fat
open Text Paths ByteCodec BlockDevice

/-- The part of a field that comes back: cut at the width, stopped at a blank. -/
def survivor (n : Nat) (field : Str) : Str := (field.take n).takeWhile (· != space)

/-- No dot, and a field of eight; or, around the last dot, fields of eight and of one to
three; no blanks. -/
def SurvivesCodec (name : Str) : Prop :=
  (dot ∉ name ∧ name.length ≤ 8 ∧ space ∉ name) ∨
    ∃ base ext, name = base ++ dot :: ext ∧ dot ∉ ext ∧ base.length ≤ 8 ∧ 1 ≤ ext.length ∧
      ext.length ≤ 3 ∧ space ∉ base ∧ space ∉ ext

section Fields

variable {name base ext field : Str} {n : Nat}

theorem length_survivor_le (n : Nat) (field : Str) : (survivor n field).length ≤ field.length := by
  calc (survivor n field).length
      ≤ (field.take n).length := (List.takeWhile_prefix _).length_le
    _ ≤ field.length := by
      rw [List.length_take]
      omega

theorem survivor_initial : survivor n field <+: field :=
  (List.takeWhile_prefix _).trans (List.take_prefix n field)

theorem survivor_eq_self_iff : survivor n field = field ↔ field.length ≤ n ∧ space ∉ field := by
  constructor
  · intro h
    have hlen : field.length ≤ n := by
      have hle : (survivor n field).length ≤ (field.take n).length :=
        (List.takeWhile_prefix _).length_le
      rw [h, List.length_take] at hle
      omega
    rw [survivor, List.take_of_length_le hlen, List.takeWhile_eq_self_iff] at h
    exact ⟨hlen, fun hmem => by simpa using h space hmem⟩
  · intro ⟨hlen, hmem⟩
    rw [survivor, List.take_of_length_le hlen, List.takeWhile_eq_self_iff]
    intro b hb
    simpa using fun hspace : b = space => hmem (hspace ▸ hb)

theorem survivor_eq_of_length (h : (survivor n field).length = field.length) :
    survivor n field = field :=
  survivor_initial.eq_of_length h

theorem upper_eq_space (b : UInt8) : toAsciiUpper b = space ↔ b = space :=
  forall_byte (p := fun b => toAsciiUpper b = space ↔ b = space) (by decide +kernel) b

theorem upper_ascii (b : UInt8) (h : b < 0x80) : toAsciiUpper b < 0x80 :=
  forall_byte (p := fun b => b < 0x80 → toAsciiUpper b < 0x80) (by decide +kernel) b h

theorem padField_eq (hn : n ≤ 11) : padField n (heaplessUpper field) =
    (field.take n).map toAsciiUpper ++ List.replicate (n - (heaplessUpper field).length) space := by
  rw [padField, heaplessUpper, ← List.map_take, List.take_take, Nat.min_eq_left hn]

theorem takeWhile_pad (s : Str) (k : Nat) :
    (s ++ List.replicate k space).takeWhile (· != space) = s.takeWhile (· != space) := by
  rw [List.takeWhile_append]
  split_ifs with h
  · have hall : s.takeWhile (· != space) = s := (List.takeWhile_prefix _).eq_of_length h
    have hpad : (List.replicate k space).takeWhile (· != space) = [] := by
      cases k <;> rfl
    rw [hpad, List.append_nil, hall]
  · rfl

theorem decodeField_encoded (hn : n ≤ 11) (hascii : ∀ b ∈ field, b < 0x80) :
    decodeField (padField n (heaplessUpper field)) = (survivor n field).map toAsciiUpper := by
  have hstop : ((· != space) ∘ toAsciiUpper) = (· != space) := by
    funext b
    rw [Bool.eq_iff_iff]
    simp [upper_eq_space]
  have hmem : ∀ b ∈ survivor n field, b < 0x80 := fun b hb => hascii b (survivor_initial.subset hb)
  rw [decodeField, padField_eq hn, takeWhile_pad, List.takeWhile_map, hstop]
  change ((survivor n field).map toAsciiUpper).flatMap pushByte = _
  calc ((survivor n field).map toAsciiUpper).flatMap pushByte
      = ((survivor n field).map toAsciiUpper).flatMap fun b => [b] := by
        refine List.flatMap_congr fun b hb => ?_
        obtain ⟨a, ha, rfl⟩ := List.mem_map.mp hb
        rw [pushByte, if_pos (upper_ascii a (hmem a ha))]
    _ = (survivor n field).map toAsciiUpper := by simp

theorem lower_append (a b : Str) : lower (a ++ b) = lower a ++ lower b := List.map_append

theorem storedName_plain (hc : Component name) (hdot : dot ∉ name) (hascii : ∀ b ∈ name, b < 0x80) :
    storedName name = lower (survivor 8 name) := by
  have hext : decodeField (padField 3 (heaplessUpper [])) = [] := by decide
  rw [storedName, nameField, if_neg hc.2.1, if_neg hc.2.2, splitName_plain hdot,
    decodeShortName_fields, hext, if_pos rfl, decodeField_encoded (by decide) hascii,
    lower_map_upper]

theorem storedName_cut (hc : Component (base ++ dot :: ext)) (hdot : dot ∉ ext)
    (hbase : ∀ b ∈ base, b < 0x80) (hext : ∀ b ∈ ext, b < 0x80) :
    storedName (base ++ dot :: ext) =
      lower (if survivor 3 ext = [] then survivor 8 base
      else survivor 8 base ++ dot :: survivor 3 ext) := by
  rw [storedName, nameField, if_neg hc.2.1, if_neg hc.2.2, splitName_dotted hdot hc,
    decodeShortName_fields, decodeField_encoded (by decide) hbase,
    decodeField_encoded (by decide) hext]
  simp only [List.map_eq_nil_iff]
  split_ifs
  · exact lower_map_upper _
  · rw [lower_append, lower_map_upper, lower_append]
    congr 1
    exact congrArg (toAsciiLower dot :: ·) (lower_map_upper (survivor 3 ext))

theorem lower_length (s : Str) : (lower s).length = s.length := List.length_map _

theorem exists_last_dot (h : dot ∈ name) : ∃ base ext, name = base ++ dot :: ext ∧ dot ∉ ext := by
  obtain ⟨ext, base, hsplit, hext⟩ := List.eq_append_cons_of_mem (List.mem_reverse.mpr h)
  refine ⟨base.reverse, ext.reverse, ?_, by simpa using hext⟩
  rw [← List.reverse_reverse name, hsplit]
  simp

theorem last_dot_unique {base' ext' : Str} (hdot : dot ∉ ext) (hdot' : dot ∉ ext')
    (h : base ++ dot :: ext = base' ++ dot :: ext') : base = base' ∧ ext = ext' := by
  have hfind := rfind_append_cons (s := base) hdot
  rw [h, rfind_append_cons hdot'] at hfind
  have hlen : base'.length = base.length := Option.some.inj hfind
  obtain ⟨hbase, hrest⟩ := List.append_inj h hlen.symm
  exact ⟨hbase, (List.cons.inj hrest).2⟩

theorem storedName_eq_iff (hc : Component name) (hascii : ∀ b ∈ name, b < 0x80) :
    lower (storedName name) = lower name ↔ SurvivesCodec name := by
  by_cases hmem : dot ∈ name
  · obtain ⟨base, ext, rfl, hdot⟩ := exists_last_dot hmem
    have hbase : ∀ b ∈ base, b < 0x80 := fun b hb => hascii b (by simp [hb])
    have hext : ∀ b ∈ ext, b < 0x80 := fun b hb => hascii b (by simp [hb])
    have hle := length_survivor_le 8 base
    have hle' := length_survivor_le 3 ext
    rw [storedName_cut hc hdot hbase hext, lower_idem]
    constructor
    · intro h
      have hlen := congrArg List.length h
      rw [lower_length, lower_length] at hlen
      split_ifs at hlen with hnil
      · -- without an extension the result is shorter than the name
        simp only [List.length_append, List.length_cons] at hlen
        omega
      · simp only [List.length_append, List.length_cons] at hlen
        have hb : survivor 8 base = base := survivor_eq_of_length (by omega)
        have he : survivor 3 ext = ext := survivor_eq_of_length (by omega)
        have hpos : ext ≠ [] := by rwa [he] at hnil
        obtain ⟨hb8, hbs⟩ := survivor_eq_self_iff.mp hb
        obtain ⟨he3, hes⟩ := survivor_eq_self_iff.mp he
        exact Or.inr ⟨base, ext, rfl, hdot, hb8, List.length_pos_of_ne_nil hpos, he3, hbs, hes⟩
    · intro h
      obtain ⟨hno, -⟩ | ⟨base', ext', heq, hdot', hb8, hpos, he3, hbs, hes⟩ := h
      · exact absurd hmem hno
      · obtain ⟨rfl, rfl⟩ := last_dot_unique hdot hdot' heq
        rw [survivor_eq_self_iff.mpr ⟨hb8, hbs⟩, survivor_eq_self_iff.mpr ⟨he3, hes⟩,
          if_neg (List.ne_nil_of_length_pos hpos)]
  · rw [storedName_plain hc hmem hascii, lower_idem]
    constructor
    · intro h
      have hlen := congrArg List.length h
      rw [lower_length, lower_length] at hlen
      exact Or.inl ⟨hmem, survivor_eq_self_iff.mp (survivor_eq_of_length hlen)⟩
    · intro h
      obtain ⟨-, hwhole⟩ | ⟨base, ext, rfl, -⟩ := h
      · rw [survivor_eq_self_iff.mpr hwhole]
      · exact absurd (by simp) hmem

theorem byteAt_nameField (hc : Component name) (hascii : ∀ b ∈ name, b < 0x80)
    (hmark : name.head? ≠ some 0x00) :
    byteAt (nameField name) 0 ≠ 0x00 ∧ byteAt (nameField name) 0 ≠ 0xE5 := by
  have hupper : ∀ b : UInt8, b < 0x80 → b ≠ 0x00 → toAsciiUpper b ≠ 0x00 ∧
    toAsciiUpper b ≠ 0xE5 := fun b =>
    forall_byte (p := fun b => b < 0x80 → b ≠ 0x00 → toAsciiUpper b ≠ 0x00 ∧ toAsciiUpper b ≠ 0xE5)
      (by decide +kernel) b
  have hfield : ∀ base rest : Str, (∀ b ∈ base, b < 0x80) → base.head? ≠ some 0x00 →
      byteAt (padField 8 (heaplessUpper base) ++ rest) 0 ≠ 0x00 ∧
        byteAt (padField 8 (heaplessUpper base) ++ rest) 0 ≠ 0xE5 := by
    intro base rest hb hhead
    cases base with
    | nil =>
      have hfirst : byteAt (padField 8 (heaplessUpper []) ++ rest) 0 = space := rfl
      rw [hfirst]
      decide
    | cons b base =>
      have hfirst : byteAt (padField 8 (heaplessUpper (b :: base)) ++ rest) 0 = toAsciiUpper b :=
        rfl
      rw [hfirst]
      exact hupper b (hb b (by simp)) (by simpa using hhead)
  rw [nameField, if_neg hc.2.1, if_neg hc.2.2]
  by_cases hmem : dot ∈ name
  · obtain ⟨base, ext, rfl, hdot⟩ := exists_last_dot hmem
    rw [splitName_dotted hdot hc]
    refine hfield base _ (fun b hb => hascii b (by simp [hb])) fun hhead => hmark ?_
    cases base with
    | nil => cases hhead
    | cons b base => exact hhead
  · rw [splitName_plain hmem]
    exact hfield name _ hascii hmark

end Fields

/-- What comes back from a slot: the number, the size and the kind of the entry always, the
name exactly when it survives; and the slot is a live one. -/
theorem slot_roundtrip (name : Str) (attrs : UInt8) (cluster size : Nat) (hc : Component name)
    (hascii : ∀ b ∈ name, b < 0x80) (hmark : name.head? ≠ some 0x00)
    (ha : attrs &&& attrVolumeId = 0) (hcluster : cluster < 2 ^ 32) (hsize : size < 2 ^ 32) :
    let s := writeShortEntry name attrs cluster size
    (eqIgnoreAsciiCase (decodeEntry s).name name = true ↔ SurvivesCodec name) ∧
      (decodeEntry s).cluster = cluster ∧ (decodeEntry s).size = size ∧
      (decodeEntry s).isDir = ((attrs &&& attrDirectory) != 0) ∧
      byteAt s 0 ≠ 0x00 ∧ byteAt s 0 ≠ 0xE5 ∧ byteAt s 11 &&& attrVolumeId = 0 ∧
      byteAt s 11 &&& attrLongName ≠ attrLongName := by
  intro s
  have hattrs : byteAt s 11 = attrs := byteAt_attrs name attrs cluster size
  have hfirst := byteAt_nameField hc hascii hmark
  rw [← byteAt_first name attrs cluster size] at hfirst
  refine ⟨?_, ?_, ?_, ?_, hfirst.1, hfirst.2, ?_, ?_⟩
  · rw [eqIgnoreAsciiCase_iff, decodeEntry_name, storedName_eq_iff hc hascii]
  · rw [decodeEntry_cluster, Nat.mod_eq_of_lt hcluster]
  · rw [decodeEntry_size, Nat.mod_eq_of_lt hsize]
  · change ((byteAt s 11 &&& attrDirectory) != 0) = _
    rw [hattrs]
  · rw [hattrs, ha]
  · rw [hattrs]
    exact not_longName attrs ha

/-- An inner dot survives, a trailing one does not. -/
theorem slot_roundtrip_dots :
    eqIgnoreAsciiCase (decodeEntry (writeShortEntry (text "a.b.c") 0x20 70000 5)).name
      (text "a.b.c") = true ∧
      eqIgnoreAsciiCase (decodeEntry (writeShortEntry (text "a.") 0x20 70000 5)).name (text "a.") =
      false := by
  have hinner := slot_roundtrip (text "a.b.c") 0x20 70000 5 (by decide +kernel) (by decide +kernel)
    (by decide +kernel) (by decide) (by decide) (by decide)
  have htrailing := slot_roundtrip (text "a.") 0x20 70000 5 (by decide +kernel) (by decide +kernel)
    (by decide +kernel) (by decide) (by decide) (by decide)
  refine ⟨hinner.1.mpr (Or.inr ⟨text "a.b", text "c", by decide +kernel⟩), ?_⟩
  rw [Bool.eq_false_iff]
  intro h
  obtain ⟨hno, -⟩ | ⟨base, ext, heq, hdot, -, hpos, -⟩ := htrailing.1.mp h
  · exact hno (by decide +kernel)
  · have hcut : text "a" ++ dot :: [] = base ++ dot :: ext := by
      rw [← heq]
      decide +kernel
    obtain ⟨-, rfl⟩ := last_dot_unique (by simp) hdot hcut
    cases hpos

end Willo.Fat
