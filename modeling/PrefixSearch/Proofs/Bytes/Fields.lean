import Mathlib.Algebra.Group.Nat.Defs
import PrefixSearch.Bytes.Reader

/-!
# Fields and their readers

`Holds` says that a source has some bytes at a position, `Decodes` that a reader takes a field for a
value, wherever it is held, and then stands behind it.  Readers that are put together decode the
fields that are put together, so what a record reader does follows from its fields in their order.
-/

namespace PrefixSearch.Bytes

namespace Source

variable {source : Source} {pos : Nat}

/-- The source has the bytes at the position, and they may be read. -/
def Holds (source : Source) (pos : Nat) (field : List UInt8) : Prop :=
  source.slice? pos field.length = some field

theorem holds_iff {field : List UInt8} :
    source.Holds pos field ↔ pos + field.length ≤ source.size ∧
      (source.bytes.toList.drop pos).take field.length = field := by
  unfold Holds slice?
  split
  · next hinside =>
    rw [Option.some.injEq, Array.toList_extract, List.extract_eq_take_drop,
      Nat.add_sub_cancel_left]
    simp [hinside]
  · next hinside => simp [hinside]

theorem Holds.le_size {field : List UInt8} (hholds : source.Holds pos field) :
    pos + field.length ≤ source.size :=
  (holds_iff.mp hholds).1

/-- Fields that follow one another are held one after the other. -/
theorem holds_append {left right : List UInt8} :
    source.Holds pos (left ++ right) ↔
      source.Holds pos left ∧ source.Holds (pos + left.length) right := by
  have hsize : source.size ≤ source.bytes.toList.length := by
    rw [Array.length_toList]
    exact Nat.min_le_right _ _
  rw [holds_iff, holds_iff, holds_iff, List.length_append, List.take_add, List.drop_drop]
  constructor
  · rintro ⟨hinside, heq⟩
    -- enough bytes are left for the first part, so its length tells the parts apart
    have hlength : ((source.bytes.toList.drop pos).take left.length).length = left.length := by
      rw [List.length_take, List.length_drop]
      omega
    obtain ⟨hleft, hright⟩ := List.append_inj heq hlength
    exact ⟨⟨by omega, hleft⟩, by omega, hright⟩
  · rintro ⟨⟨-, hleft⟩, hinside, hright⟩
    exact ⟨by omega, by rw [hleft, hright]⟩

/-- Bytes that are all of the data are held at its beginning. -/
theorem holds_ofArray (field : List UInt8) : (ofArray field.toArray).Holds 0 field := by
  have hsize : (ofArray field.toArray).size = field.length := by simp
  rw [holds_iff, hsize]
  simp [ofArray]

/-- Each of the fields that follow one another is held behind those before it. -/
theorem Holds.flatMap {α : Type} {field : α → List UInt8} {values : List α} {i : Nat} {a : α}
    (hholds : source.Holds pos (values.flatMap field)) (ha : values[i]? = some a) :
    source.Holds (pos + ((values.take i).flatMap field).length) (field a) := by
  obtain ⟨hi, rfl⟩ := List.getElem?_eq_some_iff.mp ha
  rw [← List.take_append_drop i values, List.drop_eq_getElem_cons hi, List.flatMap_append,
    List.flatMap_cons, holds_append, holds_append] at hholds
  exact hholds.2.1

/-- A field is still held if what is behind it may not be read. -/
theorem Holds.closeOff {field : List UInt8} {stop : Nat} (hholds : source.Holds pos field)
    (hstop : pos + field.length ≤ stop) : { source with stop }.Holds pos field := by
  obtain ⟨hinside, heq⟩ := holds_iff.mp hholds
  have hbytes : pos + field.length ≤ source.bytes.size :=
    Nat.le_trans hinside (Nat.min_le_right _ _)
  exact holds_iff.mpr ⟨Nat.le_min.mpr ⟨hstop, hbytes⟩, heq⟩

end Source

theorem capacity_eq (width : Nat) : capacity width = 2 ^ (8 * width) := by
  induction width with
  | zero => rfl
  | succ width ih =>
      rw [capacity, ih, Nat.mul_succ, Nat.pow_add, Nat.mul_comm]

theorem toNat_uint_of_lt {width value : Nat} (hvalue : value < capacity width) :
    toNat (uint width value) = value := by
  rw [toNat_uint, Nat.mod_eq_of_lt hvalue]

theorem Source.Holds.uint?_eq {source : Source} {pos width value : Nat}
    (hholds : source.Holds pos (uint width value)) (hvalue : value < capacity width) :
    source.uint? pos width = some value := by
  rw [Holds, length_uint] at hholds
  rw [uint?, hholds, Option.map_some, toNat_uint_of_lt hvalue]

namespace Reader

variable {α β : Type} {source : Source}

/-- Where the source holds the field, the reader gives the value and stands behind the field. -/
def Decodes (source : Source) (read : Reader α) (field : List UInt8) (a : α) : Prop :=
  ∀ pos, source.Holds pos field → read source pos = (.ok a, pos + field.length)

theorem bind_of_ok {read : Reader α} {next : α → Reader β} {pos after : Nat} {a : α}
    (hread : read source pos = (.ok a, after)) :
    (read >>= next) source pos = next a source after := by
  simp only [bind, hread]

theorem Decodes.pure (a : α) : Decodes source (Pure.pure a) [] a :=
  fun _ _ => rfl

theorem Decodes.bind {read : Reader α} {next : α → Reader β} {left right : List UInt8} {a : α}
    {b : β} (hread : Decodes source read left a) (hnext : Decodes source (next a) right b) :
    Decodes source (read >>= next) (left ++ right) b := by
  intro pos hholds
  obtain ⟨hleft, hright⟩ := Source.holds_append.mp hholds
  rw [bind_of_ok (hread pos hleft), hnext _ hright, List.length_append, Nat.add_assoc]

theorem Decodes.map {read : Reader α} {field : List UInt8} {a : α} (f : α → β)
    (hread : Decodes source read field a) :
    Decodes source (do let a ← read; return f a) field (f a) := by
  have hboth : Decodes source (do let a ← read; return f a) (field ++ []) (f a) :=
    hread.bind (Decodes.pure (f a))
  rwa [List.append_nil] at hboth

/-- A value that is there takes no bytes. -/
theorem Decodes.of_require {value : Option α} {fault : Corruption} {next : α → Reader β}
    {field : List UInt8} {a : α} {b : β} (hvalue : value = some a)
    (hnext : Decodes source (next a) field b) :
    Decodes source (require value fault >>= next) field b := by
  subst hvalue
  exact hnext

theorem check_of {condition : Prop} [Decidable condition] {fault : Corruption} {pos : Nat}
    (hcondition : condition) : check condition fault source pos = (.ok (), pos) := by
  rw [check, if_pos hcondition]
  rfl

/-- A condition that holds takes no bytes. -/
theorem Decodes.of_check {condition : Prop} [Decidable condition] {fault : Corruption}
    {next : Reader β} {field : List UInt8} {b : β} (hcondition : condition)
    (hnext : Decodes source next field b) :
    Decodes source (check condition fault >>= fun _ => next) field b := by
  intro pos hholds
  rw [bind_of_ok (check_of hcondition)]
  exact hnext pos hholds

theorem decodes_bytes (field : List UInt8) : Decodes source (bytes field.length) field field := by
  intro pos hholds
  have hslice : source.slice? pos field.length = some field := hholds
  rw [bytes, hslice]

theorem decodes_uint {width value : Nat} (hvalue : value < capacity width) :
    Decodes source (uint width) (Bytes.uint width value) value := by
  have hbytes : Decodes source (uint (Bytes.uint width value).length) (Bytes.uint width value)
      (toNat (Bytes.uint width value)) := (decodes_bytes (Bytes.uint width value)).map toNat
  rwa [length_uint, toNat_uint_of_lt hvalue] at hbytes

/-- One byte is a number of its own. -/
theorem decodes_byte (byte : UInt8) : Decodes source (uint 1) [byte] byte.toNat := by
  have hbyte : Bytes.uint 1 byte.toNat = [byte] := by simp [Bytes.uint]
  rw [← hbyte]
  exact decodes_uint byte.toNat_lt

theorem decodes_count {count : Nat} (hcount : count ≤ 255) :
    Decodes source (uint 1) [UInt8.ofNat count] count := by
  have hbyte : Decodes source (uint 1) [UInt8.ofNat count] (UInt8.ofNat count).toNat :=
    decodes_byte (UInt8.ofNat count)
  rwa [UInt8.toNat_ofNat_of_lt' (Nat.lt_succ_of_le hcount)] at hbyte

theorem ofUtf8?_utf8 (s : String) : Text.ofUtf8? (Text.utf8 s) = some s := by
  simp only [Text.ofUtf8?, Text.utf8, String.fromUTF8?, Array.toArray_toList]
  exact dif_pos s.isValidUTF8

theorem decodes_text {width : Nat} (s : String)
    (hlength : (Text.utf8 s).length < capacity width) :
    Decodes source (text width) (Bytes.uint width (Text.utf8 s).length ++ Text.utf8 s) s := by
  refine (decodes_uint hlength).bind ?_
  rw [← List.append_nil (Text.utf8 s)]
  refine Decodes.bind (by simpa using decodes_bytes (Text.utf8 s)) ?_
  rw [ofUtf8?_utf8]
  exact Decodes.pure s

theorem uint_eq (source : Source) (width pos : Nat) :
    uint width source pos = match source.uint? pos width with
      | some value => (.ok value, pos + width)
      | none => (.error (.unexpectedEnd pos), pos) := by
  rw [Source.uint?]
  simp only [uint, bytes, Bind.bind, Pure.pure]
  cases source.slice? pos width <;> rfl

theorem text_eq (source : Source) (width pos : Nat) :
    text width source pos = match source.uint? pos width with
      | none => (.error (.unexpectedEnd pos), pos)
      | some length =>
          match source.slice? (pos + width) length with
          | none => (.error (.unexpectedEnd (pos + width)), pos + width)
          | some found =>
              match Text.ofUtf8? found with
              | some s => (.ok s, pos + width + length)
              | none => (.error (.invalidUtf8 (pos + width)), pos + width + length) := by
  simp only [text, Bind.bind, uint_eq]
  cases source.uint? pos width with
  | none => rfl
  | some length =>
      simp only [bytes]
      cases source.slice? (pos + width) length with
      | none => rfl
      | some found =>
          dsimp only
          cases Text.ofUtf8? found with
          | none =>
              show (Except.error (Corruption.invalidUtf8 (pos + width + length - length)), _) = _
              rw [Nat.add_sub_cancel]
          | some s => rfl

/-- Reading repeatedly decodes the fields of all the values. -/
theorem decodes_replicate {read : Reader α} (field : α → List UInt8) (values : List α)
    (heach : ∀ a ∈ values, Decodes source read (field a) a) :
    Decodes source (replicate read values.length) (values.flatMap field) values := by
  induction values with
  | nil => exact Decodes.pure []
  | cons a values ih =>
      obtain ⟨hfirst, hrest⟩ := List.forall_mem_cons.mp heach
      rw [List.flatMap_cons]
      exact hfirst.bind ((ih hrest).map (a :: ·))

end Reader

end PrefixSearch.Bytes
