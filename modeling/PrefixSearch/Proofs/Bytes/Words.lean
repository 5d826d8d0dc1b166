import Mathlib.Tactic.Ring
import PrefixSearch.Bytes.Cursor
import PrefixSearch.Proofs.Bytes.Fields

/-!
# Machine words do for numbers and positions

As long as at most eight bytes are put into a word, no byte is shifted out of it or onto another one, so
the word is the number that the bytes stand for.  The sum of a position and a length that no word can hold
is beyond the end of all data, so it makes no difference that it is refused before the data is looked at.
-/

namespace PrefixSearch.Bytes

namespace Word

variable {bytes : List UInt8} {word : UInt64} {place width : Nat}

/-! ## Numbers -/

/-- The bit number of a place in a word. -/
theorem toNat_shift (hplace : place < 8) : (UInt64.ofNat (8 * place)).toNat % 64 = 8 * place := by
  rw [UInt64.toNat_ofNat_of_lt' (by unfold UInt64.size; omega)]
  omega

/-- A byte that is put above a number does not touch it, and stays in the word. -/
theorem toNat_put (byte : UInt8) (hplace : place < 8) (hword : word.toNat < 2 ^ (8 * place)) :
    (word ||| byte.toUInt64 <<< UInt64.ofNat (8 * place)).toNat =
      word.toNat + 2 ^ (8 * place) * byte.toNat := by
  have hbyte : 2 ^ (8 * place) * byte.toNat < 2 ^ 64 := by
    calc
      2 ^ (8 * place) * byte.toNat < 2 ^ (8 * place) * 2 ^ 8 :=
        Nat.mul_lt_mul_of_pos_left byte.toNat_lt (Nat.two_pow_pos _)
      _ = 2 ^ (8 * place + 8) := (Nat.pow_add 2 _ 8).symm
      _ ≤ 2 ^ 64 := Nat.pow_le_pow_right (by decide) (by omega)
  rw [UInt64.toNat_or, UInt64.toNat_shiftLeft, toNat_shift hplace, UInt8.toNat_toUInt64,
    Nat.shiftLeft_eq, Nat.mul_comm, Nat.mod_eq_of_lt hbyte, Nat.or_comm,
    ← Nat.two_pow_add_eq_or_of_lt hword, Nat.add_comm]

theorem toNat_fill (hroom : place + bytes.length ≤ 8) (hword : word.toNat < 2 ^ (8 * place)) :
    (fill word place bytes).toNat = word.toNat + 2 ^ (8 * place) * toNat bytes := by
  induction bytes generalizing word place with
  | nil => rw [fill, toNat, Nat.mul_zero, Nat.add_zero]
  | cons byte bytes ih =>
      rw [List.length_cons] at hroom
      have hput := toNat_put byte (show place < 8 by omega) hword
      have hnext : 2 ^ (8 * (place + 1)) = 2 ^ (8 * place) * 256 := Nat.pow_add 2 _ 8
      have hlt : (word ||| byte.toUInt64 <<< UInt64.ofNat (8 * place)).toNat <
          2 ^ (8 * (place + 1)) := by
        rw [hput, hnext]
        calc
          word.toNat + 2 ^ (8 * place) * byte.toNat
              < 2 ^ (8 * place) + 2 ^ (8 * place) * byte.toNat := Nat.add_lt_add_right hword _
          _ = 2 ^ (8 * place) * (byte.toNat + 1) := by ring
          _ ≤ 2 ^ (8 * place) * 256 := Nat.mul_le_mul_left _ byte.toNat_lt
      rw [fill, ih (by omega) hlt, hput, hnext, toNat]
      ring

/-- Up to eight bytes stand for the same number in a word as without one. -/
theorem toNat_ofBytes (hlength : bytes.length ≤ 8) : (ofBytes bytes).toNat = toNat bytes := by
  rw [ofBytes, toNat_fill (by omega) (by decide)]
  simp

theorem uint_eq_map_range (width value : Nat) :
    uint width value = (List.range width).map fun place => UInt8.ofNat (value / 256 ^ place) := by
  induction width generalizing value with
  | zero => rfl
  | succ width ih =>
      rw [uint, ih, List.range_succ_eq_map, List.map_cons, List.map_map]
      simp [Function.comp_def, Nat.div_div_eq_div_mul, Nat.pow_succ']

/-- The bytes of a word are those of its number. -/
theorem bytes_eq (hwidth : width ≤ 8) (word : UInt64) :
    Word.bytes width word = uint width word.toNat := by
  rw [Word.bytes, uint_eq_map_range, ← List.map_take, List.take_range, Nat.min_eq_left hwidth]
  refine List.map_congr_left fun place hplace => ?_
  have hlt : place < 8 := Nat.lt_of_lt_of_le (List.mem_range.mp hplace) hwidth
  rw [← UInt8.toNat_inj, UInt64.toNat_toUInt8, UInt64.toNat_shiftRight, toNat_shift hlt,
    UInt8.toNat_ofNat', Nat.shiftRight_eq_div_pow, Nat.pow_mul]

/-! ## Positions -/

theorem toNat_of_sum? {a b c : UInt64} (hsum : sum? a b = some c) :
    c.toNat = a.toNat + b.toNat := by
  unfold sum? at hsum
  split at hsum
  · cases hsum
  · next hwraps =>
    cases hsum
    rw [UInt64.lt_iff_toNat_lt, UInt64.toNat_add] at hwraps
    rw [UInt64.toNat_add]
    have ha := a.toNat_lt
    have hb := b.toNat_lt
    omega

theorem le_of_sum?_eq_none {a b : UInt64} (hsum : sum? a b = none) :
    2 ^ 64 ≤ a.toNat + b.toNat := by
  unfold sum? at hsum
  split at hsum
  · next hwraps =>
    rw [UInt64.lt_iff_toNat_lt, UInt64.toNat_add] at hwraps
    by_contra hfits
    rw [Nat.mod_eq_of_lt (Nat.lt_of_not_le hfits)] at hwraps
    omega
  · cases hsum

end Word

namespace Cursor

variable {data : Array UInt8} {pos length width stop : UInt64}

/-- An end that no word can hold is beyond the end of the data. -/
theorem part?_eq (hsize : data.size < 2 ^ 64) :
    part? data pos length = (Source.ofArray data).slice? pos.toNat length.toNat := by
  rw [part?, Source.slice?, Source.size_ofArray]
  cases hsum : Word.sum? pos length with
  | none =>
      have hend := Word.le_of_sum?_eq_none hsum
      rw [Option.bind_none, if_neg (by omega)]
  | some stop =>
      have hstop := Word.toNat_of_sum? hsum
      have horder : pos ≤ stop := by
        rw [UInt64.le_iff_toNat_le, hstop]
        exact Nat.le_add_right _ _
      rw [Option.bind_some, slice?, hstop]
      simp [horder, Source.ofArray]

/-- The end of a part of the data is a word. -/
theorem toNat_add_of_part? {found : List UInt8} (hpart : part? data pos length = some found) :
    (pos + length).toNat = pos.toNat + length.toNat := by
  obtain ⟨stop, hsum, -⟩ := Option.bind_eq_some_iff.mp hpart
  have hstop := Word.toNat_of_sum? hsum
  rw [UInt64.toNat_add, Nat.mod_eq_of_lt (hstop ▸ stop.toNat_lt)]

theorem uint?_eq (hsize : data.size < 2 ^ 64) (hwidth : width.toNat ≤ 8) :
    (uint? data pos width).map UInt64.toNat =
      (Source.ofArray data).uint? pos.toNat width.toNat := by
  rw [uint?, part?_eq hsize, Option.map_map, Source.uint?]
  refine Option.map_congr fun found hslice => ?_
  have hlength := (Source.length_of_slice?_eq_some hslice).1
  exact Word.toNat_ofBytes (hlength.trans_le hwidth)

/-- What is given at a word is what is given at its number, and the position after it is the same. -/
def Mirrors {α β : Type} (view : α → β) (atWord : Except Corruption α × UInt64)
    (atNumber : Except Corruption β × Nat) : Prop :=
  atWord.1.map view = atNumber.1 ∧ atWord.2.toNat = atNumber.2

theorem Mirrors.map_eq {α β : Type} {view : α → β} {atWord : Except Corruption α × UInt64}
    {atNumber : Except Corruption β × Nat} (hread : Mirrors view atWord atNumber) (wrap : β → Item) :
    Prod.map id UInt64.toNat (atWord.1.map (wrap ∘ view), atWord.2) =
      (atNumber.1.map wrap, atNumber.2) := by
  obtain ⟨hanswer, hafter⟩ := hread
  rw [Prod.map_apply, id, hafter, ← hanswer]
  cases atWord.1 <;> rfl

theorem uint_mirrors (hsize : data.size < 2 ^ 64) (hwidth : width.toNat ≤ 8) (pos : UInt64) :
    Mirrors UInt64.toNat (uint data width pos)
      (Reader.uint width.toNat (Source.ofArray data) pos.toNat) := by
  rw [Reader.uint_eq, ← uint?_eq hsize hwidth, uint, uint?]
  cases hpart : part? data pos width with
  | none => exact ⟨rfl, rfl⟩
  | some found => exact ⟨rfl, toNat_add_of_part? hpart⟩

theorem bytes_mirrors (hsize : data.size < 2 ^ 64) (length pos : UInt64) :
    Mirrors id (bytes data length pos)
      (Reader.bytes length.toNat (Source.ofArray data) pos.toNat) := by
  rw [Reader.bytes, ← part?_eq hsize, bytes]
  cases hpart : part? data pos length with
  | none => exact ⟨rfl, rfl⟩
  | some found => exact ⟨rfl, toNat_add_of_part? hpart⟩

theorem text_mirrors (hsize : data.size < 2 ^ 64) (hwidth : width.toNat ≤ 8) (pos : UInt64) :
    Mirrors id (text data width pos)
      (Reader.text width.toNat (Source.ofArray data) pos.toNat) := by
  rw [Reader.text_eq, ← uint?_eq hsize hwidth, text, uint, uint?]
  cases hfield : part? data pos width with
  | none => exact ⟨rfl, rfl⟩
  | some field =>
      have hstart := toNat_add_of_part? hfield
      simp only [Option.map_some, ← hstart, ← part?_eq hsize, bytes]
      cases hbody : part? data (pos + width) (Word.ofBytes field) with
      | none => exact ⟨rfl, rfl⟩
      | some found =>
          have hstop := toNat_add_of_part? hbody
          dsimp only
          cases Text.ofUtf8? found with
          | some s => exact ⟨rfl, hstop⟩
          | none => exact ⟨by rw [UInt64.add_sub_cancel]; rfl, hstop⟩

end Cursor

/-! ## Calls -/

section

variable {data : Array UInt8} (hsize : data.size < 2 ^ 64)
include hsize

/-- A call is answered at a word as at its number. -/
theorem Call.readAtWord_eq {call : Call} (hfits : call.FitsWord) (pos : UInt64) :
    (call.readAtWord data pos).map id UInt64.toNat = call.read (Source.ofArray data) pos.toNat := by
  cases call with
  | uint width =>
      have hwidth : (UInt64.ofNat width).toNat = width :=
        UInt64.toNat_ofNat_of_lt' (Nat.lt_of_le_of_lt hfits (by decide))
      have hread := Cursor.uint_mirrors hsize (hwidth.trans_le hfits) pos
      rw [hwidth] at hread
      exact hread.map_eq .number
  | bytes length =>
      have hlength : (UInt64.ofNat length).toNat = length := UInt64.toNat_ofNat_of_lt' hfits
      have hread := Cursor.bytes_mirrors hsize (UInt64.ofNat length) pos
      rw [hlength] at hread
      exact hread.map_eq .bytes
  | text width =>
      have hwidth : (UInt64.ofNat width).toNat = width :=
        UInt64.toNat_ofNat_of_lt' (Nat.lt_of_le_of_lt hfits (by decide))
      have hread := Cursor.text_mirrors hsize (hwidth.trans_le hfits) pos
      rw [hwidth] at hread
      exact hread.map_eq .text

/-- Calls are answered at words as at their numbers, however many there are. -/
theorem answers_readAtWord {calls : List Call} (hfits : ∀ call ∈ calls, call.FitsWord)
    (pos : UInt64) :
    (answers (Call.readAtWord data) pos calls).map (Prod.map id UInt64.toNat) =
      answers (Call.read (Source.ofArray data)) pos.toNat calls := by
  induction calls generalizing pos with
  | nil => rfl
  | cons call calls ih =>
      obtain ⟨hcall, hcalls⟩ := List.forall_mem_cons.mp hfits
      have hanswer := call.readAtWord_eq hsize hcall pos
      have hafter : (call.readAtWord data pos).2.toNat =
          (call.read (Source.ofArray data) pos.toNat).2 := congrArg Prod.snd hanswer
      rw [answers, answers, List.map_cons, hanswer, ih hcalls, hafter]

end

end PrefixSearch.Bytes
