import Willo.DriverSteps

/-! The codec of directory slots: what `decode_short_name` and the slot fields read
back from what `write_short_entry` wrote. Names of the 8.3 form come back in
lower case; a name whose first byte is the end marker or the deletion mark comes
back not at all. -/

namespace Willo.Fat
open Text Paths ByteCodec BlockDevice

/-- The name a slot written for `name` is listed under. -/
def storedName (name : Str) : Str := decodeShortName (nameField name)

/-- A slot written for `name` is listed: its first byte is neither mark, and it is no dot entry. -/
def Visible (name : Str) : Prop :=
  byteAt (nameField name) 0 ≠ 0x00 ∧ byteAt (nameField name) 0 ≠ 0xE5 ∧
    isDotName (storedName name) = false

instance (name : Str) : Decidable (Visible name) := inferInstanceAs (Decidable (_ ∧ _))

section Fields

variable (name : Str) (attrs : UInt8) (cluster size : Nat)

def slotRest : Bytes :=
  [attrs] ++ List.replicate 8 0 ++ toLe16 (cluster / 65536) ++ List.replicate 4 0 ++
    toLe16 cluster ++ toLe32 size

theorem writeShortEntry_eq :
    writeShortEntry name attrs cluster size = nameField name ++ slotRest attrs cluster size := by
  simp [writeShortEntry, slotRest, List.append_assoc]

theorem byteAt_rest (i : Nat) :
    byteAt (writeShortEntry name attrs cluster size) (11 + i) =
      byteAt (slotRest attrs cluster size) i := by
  rw [writeShortEntry_eq, ← length_nameField name, byteAt_append_add]

theorem slice_name : slice (writeShortEntry name attrs cluster size) 0 11 = nameField name := by
  rw [writeShortEntry_eq, slice, List.drop_zero, ← length_nameField name, List.take_left]

theorem byteAt_first :
    byteAt (writeShortEntry name attrs cluster size) 0 = byteAt (nameField name) 0 :=
  byteAt_eq_of_slice (slice_name name attrs cluster size) (by decide)

theorem byteAt_attrs : byteAt (writeShortEntry name attrs cluster size) 11 = attrs :=
  byteAt_rest name attrs cluster size 0

theorem decodeEntry_cluster :
    (decodeEntry (writeShortEntry name attrs cluster size)).cluster = cluster % 2 ^ 32 := by
  simp only [decodeEntry, le16, show 20 = 11 + 9 from rfl, show 26 = 11 + 15 from rfl,
    Nat.add_assoc, byteAt_rest]
  simp [slotRest, byteAt, toLe16, toLe32]
  omega

theorem decodeEntry_size :
    (decodeEntry (writeShortEntry name attrs cluster size)).size = size % 2 ^ 32 := by
  simp only [decodeEntry, le32, le16, show 28 = 11 + 17 from rfl, Nat.add_assoc, byteAt_rest]
  simp [slotRest, byteAt, toLe16, toLe32]
  omega

theorem decodeEntry_name :
    (decodeEntry (writeShortEntry name attrs cluster size)).name = storedName name :=
  decodeShortName_congr (slice_name name attrs cluster size)

theorem not_longName (attrs : UInt8) (h : attrs &&& attrVolumeId = 0) :
    attrs &&& attrLongName ≠ attrLongName :=
  forall_byte (p := fun a => a &&& attrVolumeId = 0 → a &&& attrLongName ≠ attrLongName)
    (by decide +kernel) attrs h

theorem decodeSlot_unlabelled {attrs : UInt8} (ha : attrs &&& attrVolumeId = 0)
    (hc : cluster < 2 ^ 32) (hs : size < 2 ^ 32) :
    decodeSlot (writeShortEntry name attrs cluster size) =
      if Visible name then some ⟨storedName name, (attrs &&& attrDirectory) != 0, cluster, size⟩
      else none := by
  have hskip : skipped (writeShortEntry name attrs cluster size) =
      (byteAt (nameField name) 0 == 0xE5) := by
    rw [skipped, byteAt_first, byteAt_attrs, ha, beq_false_of_ne (not_longName attrs ha),
      Bool.or_false]
    exact Bool.or_false _
  have hdir : (decodeEntry (writeShortEntry name attrs cluster size)).isDir =
    ((attrs &&& attrDirectory) != 0) := by
    change ((byteAt _ 11 &&& attrDirectory) != 0) = _
    rw [byteAt_attrs]
  have hentry : decodeEntry (writeShortEntry name attrs cluster size) =
      ⟨storedName name, (attrs &&& attrDirectory) != 0, cluster, size⟩ := by
    have hname := decodeEntry_name name attrs cluster size
    have hcluster := decodeEntry_cluster name attrs cluster size
    have hsize := decodeEntry_size name attrs cluster size
    rw [Nat.mod_eq_of_lt hc] at hcluster
    rw [Nat.mod_eq_of_lt hs] at hsize
    generalize decodeEntry (writeShortEntry name attrs cluster size) = e at *
    cases e
    simp_all
  have hname := decodeEntry_name name attrs cluster size
  change decodeShortName _ = _ at hname
  rw [decodeSlot, byteAt_first, hskip, hname, hentry]
  unfold Visible
  by_cases h1 : byteAt (nameField name) 0 = 0x00
  · simp [h1]
  · by_cases h2 : byteAt (nameField name) 0 = 0xE5
    · simp [h2]
    · by_cases h3 : isDotName (storedName name) = true
      · simp [h3]
      · simp [h1, h2, h3]

theorem decodeSlot_writeShortEntry {attrs : UInt8} (ha : attrs = 0 ∨ attrs = 0x20 ∨ attrs = 0x10)
    (hc : cluster < 2 ^ 32) (hs : size < 2 ^ 32) :
    decodeSlot (writeShortEntry name attrs cluster size) =
      if Visible name then some ⟨storedName name, attrs == 0x10, cluster, size⟩ else none := by
  have hlabel : attrs &&& attrVolumeId = 0 ∧
    ((attrs &&& attrDirectory) != 0) = (attrs == 0x10) := by
    rcases ha with rfl | rfl | rfl <;> decide
  rw [decodeSlot_unlabelled name cluster size hlabel.1 hc hs, hlabel.2]

end Fields

/-! Names of the 8.3 form. -/

def FieldByte (b : UInt8) : Prop := b < 0x80 ∧ b ≠ space ∧ b ≠ dot ∧ b ≠ slash

instance (b : UInt8) : Decidable (FieldByte b) := inferInstanceAs (Decidable (_ ∧ _))

/-- A base of one to eight bytes, and perhaps a dot and one to three more. -/
inductive ShortName : Str → Prop
  | plain {base : Str} : base ≠ [] → base.length ≤ 8 → (∀ b ∈ base, FieldByte b) → ShortName base
  | dotted {base ext : Str} : base ≠ [] → base.length ≤ 8 → (∀ b ∈ base, FieldByte b) →
      ext ≠ [] → ext.length ≤ 3 → (∀ b ∈ ext, FieldByte b) → ShortName (base ++ dot :: ext)

section EightThree

variable {name base ext field : Str} {n : Nat}

theorem FieldByte.dot_notMem (h : ∀ b ∈ field, FieldByte b) : dot ∉ field :=
  fun hm => (h dot hm).2.2.1 rfl

theorem FieldByte.slash_notMem (h : ∀ b ∈ field, FieldByte b) : slash ∉ field :=
  fun hm => (h slash hm).2.2.2 rfl

theorem ShortName.singleton {b : UInt8} (h : FieldByte b) : ShortName [b] :=
  .plain (by simp) (by simp) (by simpa using h)

theorem ShortName.component (h : ShortName name) : Component name := by
  cases h with
  | plain hne _ hb =>
    refine ⟨⟨hne, FieldByte.slash_notMem hb⟩, ?_, ?_⟩
    · rintro rfl
      exact FieldByte.dot_notMem hb (by simp)
    · rintro rfl
      exact FieldByte.dot_notMem hb (by simp)
  | @dotted base ext hne _ hb hne' _ he =>
    have hd := FieldByte.dot_notMem hb
    refine ⟨⟨by simp, ?_⟩, ?_, ?_⟩
    · simp only [List.mem_append, List.mem_cons, not_or]
      exact ⟨FieldByte.slash_notMem hb, by decide, FieldByte.slash_notMem he⟩
    · intro h
      have := congrArg List.length h
      simp only [List.length_append, List.length_cons, List.length_nil] at this
      exact hne (List.length_eq_zero_iff.mp (by omega))
    · intro h
      cases base with
      | nil => exact hne rfl
      | cons b t =>
        rw [List.cons_append] at h
        exact hd (by rw [(List.cons.inj h).1]; simp)

theorem splitName_plain (hd : dot ∉ base) : splitName base = (base, []) := by
  rw [splitName, if_neg, rfind_eq_none hd]
  rintro (rfl | rfl) <;> simp at hd

theorem splitName_dotted (hd : dot ∉ ext) (hc : Component (base ++ dot :: ext)) :
    splitName (base ++ dot :: ext) = (base, ext) := by
  rw [splitName, if_neg (not_or.mpr hc.2), rfind_append_cons hd]
  have hdrop : (base ++ dot :: ext).drop (base.length + 1) = ext := by
    rw [← List.drop_drop, List.drop_left]
    rfl
  simp only [List.take_left, hdrop]

theorem upper_fieldByte (b : UInt8) (h : FieldByte b) :
    toAsciiUpper b ≠ space ∧ toAsciiUpper b < 0x80 :=
  forall_byte (p := fun b => FieldByte b → toAsciiUpper b ≠ space ∧ toAsciiUpper b < 0x80)
    (by decide +kernel) b h

theorem heaplessUpper_eq (h : field.length ≤ 11) :
    heaplessUpper field = field.map toAsciiUpper := by
  rw [heaplessUpper, List.take_of_length_le h]

theorem decodeField_padField (hlen : field.length ≤ n) (hb : ∀ b ∈ field, FieldByte b) :
    decodeField (padField n (field.map toAsciiUpper)) = field.map toAsciiUpper := by
  have htake : (field.map toAsciiUpper ++ List.replicate (n - field.length) space).takeWhile
    (· != space) =
      field.map toAsciiUpper := by
    rw [List.takeWhile_append_of_pos]
    · cases n - field.length with
      | zero => simp
      | succ k => simp [List.replicate_succ]
    · intro b hb'
      obtain ⟨a, ha, rfl⟩ := List.mem_map.mp hb'
      simpa using (upper_fieldByte a (hb a ha)).1
  rw [decodeField, padField, List.length_map, List.take_of_length_le (by simpa using hlen), htake]
  calc (field.map toAsciiUpper).flatMap pushByte
      = (field.map toAsciiUpper).flatMap fun b => [b] := by
        refine List.flatMap_congr fun b hb' => ?_
        obtain ⟨a, ha, rfl⟩ := List.mem_map.mp hb'
        rw [pushByte, if_pos (upper_fieldByte a (hb a ha)).2]
    _ = field.map toAsciiUpper := by simp

theorem lower_map_upper (s : Str) : lower (s.map toAsciiUpper) = lower s := by
  simp only [lower, List.map_map]
  exact List.map_congr_left fun b _ => toAsciiLower_upper b

theorem decodeShortName_fields (a b : Str) :
    decodeShortName (padField 8 a ++ padField 3 b) =
      lower (if decodeField (padField 3 b) = [] then decodeField (padField 8 a)
        else decodeField (padField 8 a) ++ dot :: decodeField (padField 3 b)) := by
  have h1 : slice (padField 8 a ++ padField 3 b) 0 8 = padField 8 a := by
    rw [slice, List.drop_zero, List.take_left' (length_padField 8 a)]
  have h2 : slice (padField 8 a ++ padField 3 b) 8 3 = padField 3 b := by
    rw [slice, List.drop_left' (length_padField 8 a),
      List.take_of_length_le (length_padField 3 b).le]
  simp only [decodeShortName, h1, h2]

theorem ShortName.nameField_eq (h : ShortName name) : nameField name =
    padField 8 (heaplessUpper (splitName name).1) ++
      padField 3 (heaplessUpper (splitName name).2) := by
  have hc := h.component
  rw [nameField, if_neg hc.2.1, if_neg hc.2.2]

theorem ShortName.storedName (h : ShortName name) : storedName name = lower name := by
  have hc := h.component
  rw [Fat.storedName, h.nameField_eq, decodeShortName_fields]
  cases h with
  | plain hne hlen hb =>
    have hext : decodeField (padField 3 (heaplessUpper [])) = [] := by decide
    simp only [splitName_plain (FieldByte.dot_notMem hb), hext, if_true]
    rw [heaplessUpper_eq (by omega), decodeField_padField hlen hb, lower_map_upper]
  | @dotted base ext hne hlen hb hne' hlen' he =>
    have hupper : heaplessUpper base = base.map toAsciiUpper := heaplessUpper_eq (by omega)
    have hupper' : heaplessUpper ext = ext.map toAsciiUpper := heaplessUpper_eq (by omega)
    simp only [splitName_dotted (FieldByte.dot_notMem he) hc, hupper, hupper',
      decodeField_padField hlen hb, decodeField_padField hlen' he]
    rw [if_neg (by simpa using hne')]
    simp only [lower, List.map_append, List.map_cons]
    have h1 := lower_map_upper base
    have h2 := lower_map_upper ext
    unfold lower at h1 h2
    rw [h1, h2]

theorem upper_eq_zero (b : UInt8) : toAsciiUpper b = 0x00 ↔ b = 0x00 :=
  forall_byte (p := fun b => toAsciiUpper b = 0x00 ↔ b = 0x00) (by decide +kernel) b

theorem ShortName.first (h : ShortName name) :
    ∃ b t, name = b :: t ∧ FieldByte b ∧ byteAt (nameField name) 0 = toAsciiUpper b := by
  have hc := h.component
  rw [h.nameField_eq]
  cases h with
  | plain hne hlen hb =>
    cases name with
    | nil => exact absurd rfl hne
    | cons b t =>
      refine ⟨b, t, rfl, hb b (by simp), ?_⟩
      rw [splitName_plain (FieldByte.dot_notMem hb)]
      simp [heaplessUpper, padField, byteAt]
  | @dotted base ext hne hlen hb hne' hlen' he =>
    cases base with
    | nil => exact absurd rfl hne
    | cons b t =>
      refine ⟨b, t ++ dot :: ext, rfl, hb b (by simp), ?_⟩
      rw [splitName_dotted (FieldByte.dot_notMem he) hc]
      simp [heaplessUpper, padField, byteAt]

theorem ShortName.first_eq_zero_iff (h : ShortName name) :
    byteAt (nameField name) 0 = 0x00 ↔ name.head? = some 0x00 := by
  obtain ⟨b, t, rfl, -, hfirst⟩ := h.first
  rw [hfirst, upper_eq_zero]
  simp

theorem ShortName.visible_iff (h : ShortName name) : Visible name ↔ name.head? ≠ some 0x00 := by
  have hc := h.component
  have hdot : isDotName (Fat.storedName name) = false := by
    rw [h.storedName, Bool.eq_false_iff]
    intro hd
    exact dotName_ne (not_dotName hc) hd (lower_idem name)
  obtain ⟨b, t, -, hb, hfirst⟩ := h.first
  have hE5 : byteAt (nameField name) 0 ≠ 0xE5 := by
    intro h5
    have := (upper_fieldByte b hb).2
    rw [← hfirst, h5] at this
    exact absurd this (by decide)
  rw [Visible, hdot, Ne, h.first_eq_zero_iff]
  simp [hE5]

theorem pushByte_head (b : UInt8) (h : b ≠ 0x00) : ∃ a rest, pushByte b = a :: rest ∧ a ≠ 0x00 := by
  unfold pushByte
  split_ifs
  · exact ⟨b, [], rfl, h⟩
  · refine ⟨_, _, rfl, ?_⟩
    exact forall_byte (p := fun b => (0xC0 : UInt8) ||| (b >>> 6) ≠ 0x00) (by decide +kernel) b

theorem decodeField_head {raw : Bytes} (h : byteAt raw 0 ≠ 0x00) :
    (decodeField raw).head? ≠ some 0x00 := by
  cases raw with
  | nil => exact absurd rfl h
  | cons b raw =>
    by_cases hspace : b = space
    · simp [decodeField, hspace]
    · obtain ⟨a, rest, hpush, ha⟩ := pushByte_head b h
      simp [decodeField, hspace, hpush, ha]

theorem decodeShortName_head {s : Bytes} (h : byteAt s 0 ≠ 0x00) :
    (decodeShortName s).head? ≠ some 0x00 := by
  have hfirst : byteAt (slice s 0 8) 0 ≠ 0x00 := by
    rwa [byteAt_slice (by decide)]
  have hname := decodeField_head hfirst
  have hlower : ∀ l : Str, l.head? ≠ some 0x00 → (lower l).head? ≠ some 0x00 := by
    intro l hl hzero
    rw [lower, List.head?_map, Option.map_eq_some_iff] at hzero
    obtain ⟨b, hb, hb'⟩ := hzero
    have hb0 : b = 0x00 :=
      forall_byte (p := fun b => toAsciiLower b = 0x00 → b = 0x00) (by decide +kernel) b hb'
    exact hl (hb0 ▸ hb)
  refine hlower _ ?_
  split_ifs
  · exact hname
  · cases hfield : decodeField (slice s 0 8) with
    | nil => simp [dot]
    | cons a rest =>
      rw [hfield] at hname
      simpa using hname

end EightThree

end Willo.Fat
