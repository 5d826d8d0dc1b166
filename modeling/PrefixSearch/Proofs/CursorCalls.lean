import PrefixSearch.Proofs.Bytes.Extension
import PrefixSearch.Proofs.Bytes.Words

/-!
# Where calls leave a cursor

Each call has its rules: what it gives when the bytes at the position are right, and which fault it
reports and where it leaves the cursor when they are not.  Exactly one of them applies at each position,
also behind the end of the data, so the positions of any sequence of calls follow from the bytes.

A number or some bytes that are not there leave the cursor where it was.  A text can fail in three ways,
each with a position of its own: at the length field, behind it, and behind the body.
-/

namespace PrefixSearch.Bytes

/-! ## The rules -/

/-- How a call is answered at a position, and where it leaves the cursor. -/
inductive Gives (source : Source) (pos : Nat) : Call → Except Corruption Item → Nat → Prop
  | number {width : Nat} {field : List UInt8} (hlength : field.length = width)
      (hheld : source.Holds pos field) :
      Gives source pos (.uint width) (.ok (.number (toNat field))) (pos + width)
  | noNumber {width : Nat} (hshort : source.size < pos + width) :
      Gives source pos (.uint width) (.error (.unexpectedEnd pos)) pos
  | bytes {found : List UInt8} (hheld : source.Holds pos found) :
      Gives source pos (.bytes found.length) (.ok (.bytes found)) (pos + found.length)
  | noBytes {length : Nat} (hshort : source.size < pos + length) :
      Gives source pos (.bytes length) (.error (.unexpectedEnd pos)) pos
  | text {width : Nat} {field : List UInt8} {s : String} (hlength : field.length = width)
      (hvalue : toNat field = (Text.utf8 s).length)
      (hheld : source.Holds pos (field ++ Text.utf8 s)) :
      Gives source pos (.text width) (.ok (.text s)) (pos + width + (Text.utf8 s).length)
  | noLength {width : Nat} (hshort : source.size < pos + width) :
      Gives source pos (.text width) (.error (.unexpectedEnd pos)) pos
  | noBody {width : Nat} {field : List UInt8} (hlength : field.length = width)
      (hheld : source.Holds pos field) (hshort : source.size < pos + width + toNat field) :
      Gives source pos (.text width) (.error (.unexpectedEnd (pos + width))) (pos + width)
  | noText {width : Nat} {field body : List UInt8} (hlength : field.length = width)
      (hvalue : toNat field = body.length) (hheld : source.Holds pos (field ++ body))
      (hother : ∀ s, Text.utf8 s ≠ body) :
      Gives source pos (.text width) (.error (.invalidUtf8 (pos + width)))
        (pos + width + body.length)

/-- The calls are answered one after the other, each at the position after the one before it. -/
inductive GivesAll (source : Source) :
    Nat → List Call → List (Except Corruption Item × Nat) → Prop
  | nil {pos : Nat} : GivesAll source pos [] []
  | cons {pos after : Nat} {call : Call} {calls : List Call} {answer : Except Corruption Item}
      {more : List (Except Corruption Item × Nat)} (hcall : Gives source pos call answer after)
      (hmore : GivesAll source after calls more) :
      GivesAll source pos (call :: calls) ((answer, after) :: more)

variable {source : Source} {pos : Nat}

section

variable {after length : Nat} {call : Call} {calls : List Call} {answer : Except Corruption Item}
  {given : List (Except Corruption Item × Nat)}

/-! ## One call -/

theorem Source.slice?_eq_none_iff : source.slice? pos length = none ↔ source.size < pos + length := by
  unfold Source.slice?
  split
  · next hinside => exact iff_of_false (Option.some_ne_none _) (Nat.not_lt.mpr hinside)
  · next hinside => exact iff_of_true rfl (Nat.lt_of_not_le hinside)

theorem ofUtf8?_eq_some_iff {bytes : List UInt8} {s : String} :
    Text.ofUtf8? bytes = some s ↔ Text.utf8 s = bytes := by
  constructor
  · intro hsome
    unfold Text.ofUtf8? String.fromUTF8? at hsome
    split at hsome
    · cases hsome
      rfl
    · cases hsome
  · rintro rfl
    exact Reader.ofUtf8?_utf8 s

theorem ofUtf8?_eq_none_iff {bytes : List UInt8} :
    Text.ofUtf8? bytes = none ↔ ∀ s, Text.utf8 s ≠ bytes := by
  rw [Option.eq_none_iff_forall_ne_some]
  exact forall_congr' fun s => not_congr ofUtf8?_eq_some_iff

/-- A call does what its rules say. -/
theorem gives_read (source : Source) (call : Call) (pos : Nat) :
    Gives source pos call (call.read source pos).1 (call.read source pos).2 := by
  cases call with
  | uint width =>
      rw [Call.read, Reader.uint_eq, Source.uint?]
      cases hslice : source.slice? pos width with
      | none => exact .noNumber (Source.slice?_eq_none_iff.mp hslice)
      | some field =>
          obtain ⟨hlength, hheld⟩ := Source.slice?_eq_some_iff.mp hslice
          exact .number hlength hheld
  | bytes length =>
      rw [Call.read, Reader.bytes]
      cases hslice : source.slice? pos length with
      | none => exact .noBytes (Source.slice?_eq_none_iff.mp hslice)
      | some found =>
          obtain ⟨rfl, hheld⟩ := Source.slice?_eq_some_iff.mp hslice
          exact .bytes hheld
  | text width =>
      rw [Call.read, Reader.text_eq, Source.uint?]
      cases hslice : source.slice? pos width with
      | none => exact .noLength (Source.slice?_eq_none_iff.mp hslice)
      | some field =>
          obtain ⟨hlength, hheld⟩ := Source.slice?_eq_some_iff.mp hslice
          simp only [Option.map_some]
          cases hbody : source.slice? (pos + width) (toNat field) with
          | none => exact .noBody hlength hheld (Source.slice?_eq_none_iff.mp hbody)
          | some body =>
              obtain ⟨hvalue, hbody⟩ := Source.slice?_eq_some_iff.mp hbody
              have hboth : source.Holds pos (field ++ body) :=
                Source.holds_append.mpr ⟨hheld, hlength ▸ hbody⟩
              dsimp only
              cases hutf8 : Text.ofUtf8? body with
              | none =>
                  rw [← hvalue]
                  exact .noText hlength hvalue.symm hboth (ofUtf8?_eq_none_iff.mp hutf8)
              | some s =>
                  obtain rfl := ofUtf8?_eq_some_iff.mp hutf8
                  rw [← hvalue]
                  exact .text hlength hvalue.symm hboth

/-- The rules leave no choice. -/
theorem Gives.read_eq (hgives : Gives source pos call answer after) :
    call.read source pos = (answer, after) := by
  have hslice {field : List UInt8} {start count : Nat} (hlength : field.length = count)
      (hheld : source.Holds start field) : source.slice? start count = some field :=
    Source.slice?_eq_some_iff.mpr ⟨hlength, hheld⟩
  cases hgives with
  | number hlength hheld =>
      rw [Call.read, Reader.uint_eq, Source.uint?, hslice hlength hheld]
      rfl
  | noNumber hshort =>
      rw [Call.read, Reader.uint_eq, Source.uint?, Source.slice?_eq_none_iff.mpr hshort]
      rfl
  | bytes hheld =>
      rw [Call.read, Reader.bytes, hslice rfl hheld]
      rfl
  | noBytes hshort =>
      rw [Call.read, Reader.bytes, Source.slice?_eq_none_iff.mpr hshort]
      rfl
  | noLength hshort =>
      rw [Call.read, Reader.text_eq, Source.uint?, Source.slice?_eq_none_iff.mpr hshort]
      rfl
  | noBody hlength hheld hshort =>
      rw [Call.read, Reader.text_eq, Source.uint?, hslice hlength hheld]
      simp only [Option.map_some, Source.slice?_eq_none_iff.mpr hshort]
      rfl
  | text hlength hvalue hheld =>
      obtain ⟨hfield, hbody⟩ := Source.holds_append.mp hheld
      rw [hlength] at hbody
      rw [Call.read, Reader.text_eq, Source.uint?, hslice hlength hfield]
      simp only [Option.map_some, hvalue, hslice rfl hbody, Reader.ofUtf8?_utf8]
      rfl
  | noText hlength hvalue hheld hother =>
      obtain ⟨hfield, hbody⟩ := Source.holds_append.mp hheld
      rw [hlength] at hbody
      rw [Call.read, Reader.text_eq, Source.uint?, hslice hlength hfield]
      simp only [Option.map_some, hvalue, hslice rfl hbody, ofUtf8?_eq_none_iff.mpr hother]
      rfl

/-- A call that begins inside the data moves the cursor forward, and not beyond the end. -/
theorem Gives.bounds (hgives : Gives source pos call answer after) (hpos : pos ≤ source.size) :
    pos ≤ after ∧ after ≤ source.size := by
  cases hgives with
  | number hlength hheld | bytes hheld | noBody hlength hheld hshort =>
      have hinside := hheld.le_size
      omega
  | text hlength hvalue hheld | noText hlength hvalue hheld hother =>
      have hinside := hheld.le_size
      rw [List.length_append] at hinside
      omega
  | noNumber | noBytes | noLength => exact ⟨Nat.le_refl _, hpos⟩

/-! ## All calls -/

/-- Calls are answered as the rules say, and in no other way. -/
theorem answers_eq_iff :
    answers (Call.read source) pos calls = given ↔ GivesAll source pos calls given := by
  induction calls generalizing pos given with
  | nil =>
      constructor
      · rintro rfl
        exact .nil
      · rintro ⟨⟩
        rfl
  | cons call calls ih =>
      rw [answers]
      constructor
      · rintro rfl
        exact .cons (gives_read source call pos) (ih.mp rfl)
      · intro hgives
        cases hgives with
        | cons hcall hmore => rw [hcall.read_eq, ih.mpr hmore]

theorem GivesAll.bounds (hgives : GivesAll source pos calls given) (hpos : pos ≤ source.size) :
    ∀ answer ∈ given, pos ≤ answer.2 ∧ answer.2 ≤ source.size := by
  induction hgives with
  | nil => exact List.forall_mem_nil _
  | cons hcall hmore ih =>
      obtain ⟨hforward, hinside⟩ := hcall.bounds hpos
      refine List.forall_mem_cons.mpr ⟨⟨hforward, hinside⟩, fun answer hanswer => ?_⟩
      obtain ⟨hlater, hend⟩ := ih hinside answer hanswer
      exact ⟨Nat.le_trans hforward hlater, hend⟩

end

/-! ## Numbers -/

/-- A number and how many bytes it is written with, which suffice for it. -/
structure Number where
  width : Nat
  value : Nat
  width_le : width ≤ 8
  value_lt : value < 2 ^ (8 * width)

namespace Number

def bytes (number : Number) : List UInt8 :=
  uint number.width number.value

def call (number : Number) : Call :=
  .uint number.width

theorem length_bytes (number : Number) : number.bytes.length = number.width :=
  length_uint _ _

theorem toNat_bytes (number : Number) : toNat number.bytes = number.value :=
  toNat_uint_of_lt (by rw [capacity_eq]; exact number.value_lt)

/-- A number that was written is read, and the cursor stands behind it. -/
theorem read_eq {number : Number} (hheld : source.Holds pos number.bytes) :
    number.call.read source pos = (.ok (.number number.value), pos + number.bytes.length) := by
  rw [← number.toNat_bytes, number.length_bytes]
  exact (Gives.number number.length_bytes hheld).read_eq

theorem answers_eq {numbers : List Number} (hheld : source.Holds pos (numbers.flatMap bytes)) :
    (answers (Call.read source) pos (numbers.map call)).map Prod.fst =
        numbers.map (fun number => .ok (.number number.value)) ∧
      ∀ i < numbers.length,
        ((answers (Call.read source) pos (numbers.map call)).map Prod.snd)[i]? =
          some (pos + ((numbers.take (i + 1)).flatMap bytes).length) := by
  induction numbers generalizing pos with
  | nil => exact ⟨rfl, fun i hi => absurd hi (Nat.not_lt_zero i)⟩
  | cons number numbers ih =>
      obtain ⟨hfirst, hrest⟩ := Source.holds_append.mp hheld
      obtain ⟨hvalues, hpositions⟩ := ih hrest
      rw [List.map_cons, answers, read_eq hfirst]
      refine ⟨by rw [List.map_cons, List.map_cons, hvalues], fun i hi => ?_⟩
      cases i with
      | zero => simp
      | succ i =>
          have hposition := hpositions i (Nat.lt_of_succ_lt_succ hi)
          rw [List.map_cons, List.getElem?_cons_succ, hposition, List.take_succ_cons,
            List.flatMap_cons, List.length_append, Nat.add_assoc]

end Number

/-! ## The cursor -/

/-- Numbers that are written behind any bytes, with any bytes behind them, are read one after the other,
and the cursor always stands just behind the last one.  Whatever the data, the position and the calls,
the calls are answered as the rules say and in no other way, and from a position inside the data no call
leads beyond its end.  The same is given if numbers and positions are machine words. -/
theorem calls_given :
    (∀ (before behind : List UInt8) (numbers : List Number),
      let source := Source.ofArray (before ++ (numbers.flatMap Number.bytes ++ behind)).toArray
      let given := answers (Call.read source) before.length (numbers.map Number.call)
      given.map Prod.fst = numbers.map (fun number => .ok (.number number.value)) ∧
      ∀ i < numbers.length, (given.map Prod.snd)[i]? =
        some (before.length + ((numbers.take (i + 1)).flatMap Number.bytes).length)) ∧
    (∀ (source : Source) (pos : Nat) (calls : List Call)
        (given : List (Except Corruption Item × Nat)),
      (answers (Call.read source) pos calls = given ↔ GivesAll source pos calls given) ∧
      (GivesAll source pos calls given → pos ≤ source.size →
        ∀ answer ∈ given, pos ≤ answer.2 ∧ answer.2 ≤ source.size)) ∧
    (∀ number : Number, Word.bytes number.width (UInt64.ofNat number.value) = number.bytes) ∧
    ∀ (data : Array UInt8) (pos : UInt64) (calls : List Call), data.size < 2 ^ 64 →
      (∀ call ∈ calls, call.FitsWord) →
        (answers (Call.readAtWord data) pos calls).map (Prod.map id UInt64.toNat) =
          answers (Call.read (Source.ofArray data)) pos.toNat calls := by
  refine ⟨fun before behind numbers => ?_, fun source pos calls given =>
    ⟨answers_eq_iff, GivesAll.bounds⟩, fun number => ?_, fun data pos calls hsize hfits =>
      answers_readAtWord hsize hfits pos⟩
  · have hheld := Source.holds_ofArray (before ++ (numbers.flatMap Number.bytes ++ behind))
    have hnumbers := (Source.holds_append.mp (Source.holds_append.mp hheld).2).1
    rw [Nat.zero_add] at hnumbers
    exact Number.answers_eq hnumbers
  · have hword : (UInt64.ofNat number.value).toNat = number.value := by
      refine UInt64.toNat_ofNat_of_lt' (Nat.lt_of_lt_of_le number.value_lt ?_)
      exact Nat.pow_le_pow_right (by decide) (Nat.mul_le_mul_left 8 number.width_le)
    rw [Word.bytes_eq number.width_le, hword, Number.bytes]

/-- A number of no bytes, the greatest one of eight bytes, and one whose bytes all differ. -/
def edgeNumbers : List Number :=
  [⟨0, 0, by decide, by decide⟩, ⟨8, 2 ^ 64 - 1, by decide, by decide⟩,
    ⟨3, 0x789ABC, by decide, by decide⟩]

/-- Two bytes that are no text, and the length of a text that is not there. -/
def tornText : Array UInt8 :=
  #[2, 0xC3, 0x28, 1]

def tornAnswers : List (Except Corruption Item × Nat) :=
  [(.error (.invalidUtf8 1), 3), (.error (.unexpectedEnd 3), 3), (.error (.unexpectedEnd 4), 4)]

/-- Between other bytes the numbers are read again.  Bytes that are no text are passed over, a number
that the data ends within is not, and the length of a text is passed over if the text is not there.  At
the last position of all, every call fails where it is. -/
theorem calls_given_edgeNumbers :
    (let data := ([7] ++ (edgeNumbers.flatMap Number.bytes ++ [9])).toArray
      let given := answers (Call.read (Source.ofArray data)) 1 (edgeNumbers.map Number.call)
      given.map Prod.fst =
          [.ok (.number 0), .ok (.number 0xFFFFFFFFFFFFFFFF), .ok (.number 0x789ABC)] ∧
        (given.map Prod.snd)[2]? = some 12) ∧
    GivesAll (Source.ofArray tornText) 0 [.text 1, .uint 2, .text 1] tornAnswers ∧
    (∀ answer ∈ tornAnswers, 0 ≤ answer.2 ∧ answer.2 ≤ 4) ∧
    Word.bytes 8 (UInt64.ofNat (2 ^ 64 - 1)) = List.replicate 8 255 ∧
    (answers (Call.readAtWord tornText) 0xFFFFFFFFFFFFFFFF
        [.uint 2, .bytes 0xFFFFFFFFFFFFFFFF]).map (Prod.map id UInt64.toNat) =
      [(.error (.unexpectedEnd 0xFFFFFFFFFFFFFFFF), 0xFFFFFFFFFFFFFFFF),
        (.error (.unexpectedEnd 0xFFFFFFFFFFFFFFFF), 0xFFFFFFFFFFFFFFFF)] := by
  obtain ⟨hnumbers, hcalls, hbytes, hwords⟩ := calls_given
  obtain ⟨hvalues, hpositions⟩ := hnumbers [7] [9] edgeNumbers
  obtain ⟨hiff, hbounds⟩ := hcalls (Source.ofArray tornText) 0 [.text 1, .uint 2, .text 1] tornAnswers
  have hgives := hiff.mp (by decide +kernel)
  refine ⟨⟨hvalues, hpositions 2 (by decide)⟩, hgives, hbounds hgives (by decide),
    (hbytes edgeNumbers[1]).trans (by decide), ?_⟩
  rw [hwords _ _ _ (by decide) (by decide)]
  decide +kernel

end PrefixSearch.Bytes
