import PrefixSearch.Proofs.ScriptData

/-!
# One text for all data

A text is decoded exactly if it is what some whole groups of bytes are encoded to, and then it is the only
text for them.  So there is no second spelling, as there would be if the characters of a group could stand
for a number of more than four bytes or if there were two characters for a digit.

A text is refused for one of three reasons: the number of its bytes is no multiple of five, it has a
character that is no digit, or five digits that belong together stand for too great a number.  Characters
of more than one byte are no digits, so the length may be counted in bytes or in characters.
-/

namespace PrefixSearch

namespace Base85

variable {c : Char} {digit : Nat} {values : List Nat} {chars group : List Char}
  {done data bytes : List UInt8} {text : String}

/-! ## Digits -/

/-- Only characters of ASCII are digits. -/
theorem lt_of_digitValue? (hdigit : digitValue? c = some digit) : c.toNat < 128 := by
  by_contra hbeyond
  simp [digitValue?, digitValues, hbeyond] at hdigit

/-- A digit character stands at its value in the alphabet. -/
theorem alphabet_of_digitValue? (hdigit : digitValue? c = some digit) : alphabet[digit]? = some c := by
  rw [digitValue?_eq (lt_of_digitValue? hdigit),
    ← (Array.toArray_toList : alphabet.toList.toArray = alphabet), List.idxOf?_toArray,
    List.idxOf?_eq_some_iff] at hdigit
  obtain ⟨hlt, heq, -⟩ := hdigit
  rw [← Array.getElem?_toList, List.getElem?_eq_getElem hlt, heq]

theorem size_alphabet : alphabet.size = 85 := by
  decide +kernel

theorem lt_of_mem_alphabet : ∀ c ∈ alphabet, c.toNat < 128 := by
  intro c hc
  obtain ⟨digit, hdigit, rfl⟩ := Array.mem_iff_getElem.mp hc
  have hascii := (alphabet_digits digit (size_alphabet ▸ hdigit)).1
  rwa [Array.getElem?_eq_getElem hdigit, Option.getD_some] at hascii

theorem digitValue?_eq_none_iff : digitValue? c = none ↔ c ∉ alphabet := by
  constructor
  · intro hnone hmem
    rw [digitValue?_eq (lt_of_mem_alphabet c hmem)] at hnone
    exact Array.idxOf?_eq_none_iff.mp hnone hmem
  · intro hmem
    cases hdigit : digitValue? c with
    | none => rfl
    | some digit =>
        exact absurd (Array.mem_of_getElem? (alphabet_of_digitValue? hdigit)) hmem

/-- The characters of a group are those of the digits that they are read as. -/
theorem of_mapM_digitValue? (hvalues : chars.mapM digitValue? = some values) :
    (∀ value ∈ values, value < 85) ∧
      values.map (fun digit => alphabet[digit]?.getD '0') = chars := by
  induction chars generalizing values with
  | nil =>
      cases hvalues
      exact ⟨by simp, rfl⟩
  | cons c chars ih =>
      rw [List.mapM_cons] at hvalues
      obtain ⟨value, hvalue, hvalues⟩ := Option.bind_eq_some_iff.mp hvalues
      obtain ⟨rest, hrest, hvalues⟩ := Option.bind_eq_some_iff.mp hvalues
      cases hvalues
      obtain ⟨hdigits, hchars⟩ := ih hrest
      have hfound := alphabet_of_digitValue? hvalue
      have hlt : value < 85 := by
        rw [← size_alphabet]
        exact (Array.getElem?_eq_some_iff.mp hfound).1
      refine ⟨List.forall_mem_cons.mpr ⟨hlt, hdigits⟩, ?_⟩
      rw [List.map_cons, hfound, hchars, Option.getD_some]

theorem mem_alphabet_of_mapM_digitValue? (hvalues : chars.mapM digitValue? = some values) :
    ∀ c ∈ chars, c ∈ alphabet := by
  obtain ⟨hdigits, rfl⟩ := of_mapM_digitValue? hvalues
  intro c hc
  obtain ⟨digit, hdigit, rfl⟩ := List.mem_map.mp hc
  have hlt : digit < alphabet.size := by
    rw [size_alphabet]
    exact hdigits digit hdigit
  rw [Array.getElem?_eq_getElem hlt, Option.getD_some]
  exact Array.getElem_mem hlt

/-! ## Groups -/

/-- A group is decoded if its characters are digits and they stand for a number of four bytes. -/
theorem decodeGroup?_eq_some_iff :
    decodeGroup? group = some bytes ↔ ∃ values, group.mapM digitValue? = some values ∧
      ofDigits 85 values < 2 ^ 32 ∧ (digits 256 4 (ofDigits 85 values)).map UInt8.ofNat = bytes := by
  rw [decodeGroup?, Option.bind_eq_bind, Option.bind_eq_some_iff]
  refine exists_congr fun values => and_congr_right fun _ => ?_
  show (if ofDigits 85 values < 2 ^ 32 then _ else none) = some bytes ↔ _
  split
  · next hlt => rw [Option.some.injEq, and_iff_right hlt]
  · next hlt => exact iff_of_false (Option.some_ne_none bytes).symm fun hsome => hlt hsome.1

/-- A group of characters that is decoded is what its bytes are encoded to. -/
theorem encodeGroup_of_decodeGroup? (hlength : group.length = 5)
    (hgroup : decodeGroup? group = some bytes) : bytes.length = 4 ∧ encodeGroup bytes = group := by
  obtain ⟨values, hread, hlt, rfl⟩ := decodeGroup?_eq_some_iff.mp hgroup
  obtain ⟨hvalues, hchars⟩ := of_mapM_digitValue? hread
  have hcount : values.length = 5 := by rw [← hlength, ← hchars, List.length_map]
  have hbytes : ((digits 256 4 (ofDigits 85 values)).map UInt8.ofNat).map UInt8.toNat =
      digits 256 4 (ofDigits 85 values) := by
    rw [List.map_map, List.map_congr_left (g := id), List.map_id]
    intro digit hdigit
    exact UInt8.toNat_ofNat_of_lt' (lt_of_mem_digits (by decide) hdigit)
  have hnumber : ofDigits 256 (digits 256 4 (ofDigits 85 values)) = ofDigits 85 values := by
    rw [ofDigits_digits]
    exact Nat.mod_eq_of_lt hlt
  refine ⟨by rw [List.length_map, length_digits], ?_⟩
  rw [encodeGroup, hbytes, hnumber, ← hcount, digits_ofDigits hvalues, hchars]

/-! ## Texts -/

/-- Text that is decoded is what the bytes are encoded to that come from it, and these are whole groups. -/
theorem exists_of_decodeOnto? (hdecode : decodeOnto? done chars = some data) :
    ∃ more, data = done.reverse ++ more ∧ 4 ∣ more.length ∧ encodeOnto [] more = chars := by
  fun_induction decodeOnto? done chars with
  | case1 done a b c d e rest bytes hgroup ih =>
      obtain ⟨hlength, hencode⟩ := encodeGroup_of_decodeGroup? rfl hgroup
      obtain ⟨more, rfl, hdvd, hmore⟩ := ih hdecode
      match bytes, hlength with
      | [w, x, y, z], _ =>
          refine ⟨[w, x, y, z] ++ more, by simp, ?_, ?_⟩
          · rw [List.length_append]
            exact Nat.dvd_add (Nat.dvd_refl 4) hdvd
          · show encodeOnto [] (w :: x :: y :: z :: more) = _
            rw [encodeOnto, encodeOnto_eq, hmore, hencode]
            simp
  | case2 => cases hdecode
  | case3 done =>
      cases hdecode
      exact ⟨[], by simp, by simp, rfl⟩
  | case4 => cases hdecode

theorem fill_eq_zero {length : Nat} (hdvd : 4 ∣ length) : fill length = 0 := by
  unfold fill
  omega

/-- A text stands for data exactly if the data is whole groups that are encoded to it. -/
theorem decode?_eq_some_iff : decode? text = some data ↔ 4 ∣ data.length ∧ encode data = text := by
  constructor
  · intro hdecode
    obtain ⟨more, hmore, hdvd, hencode⟩ := exists_of_decodeOnto? hdecode
    rw [List.reverse_nil, List.nil_append] at hmore
    subst hmore
    exact ⟨hdvd, by rw [encode, hencode, String.ofList_toList]⟩
  · rintro ⟨hdvd, rfl⟩
    rw [decode?_encode, fill_eq_zero hdvd, List.replicate_zero, List.append_nil]

/-! ## Refused texts -/

/-- Why a text stands for no data. -/
inductive Refused (text : String) : Prop
  | length (hlength : ¬ 5 ∣ text.utf8ByteSize)
  | character (c : Char) (hmem : c ∈ text.toList) (hother : c ∉ alphabet)
  | overflow (before group behind : List Char) (values : List Nat)
      (htext : text.toList = before ++ (group ++ behind)) (hplace : 5 ∣ before.length)
      (hlength : group.length = 5) (hread : group.mapM digitValue? = some values)
      (hvalue : 2 ^ 32 ≤ ofDigits 85 values)

/-- Characters of ASCII take one byte each. -/
theorem utf8ByteSize_of_ascii (hascii : ∀ c ∈ chars, c.toNat < 128) :
    (String.ofList chars).utf8ByteSize = chars.length := by
  induction chars with
  | nil => rfl
  | cons c chars ih =>
      obtain ⟨hc, hrest⟩ := List.forall_mem_cons.mp hascii
      have hone : c.utf8Size = 1 :=
        Char.utf8Size_eq_one_iff.mpr (UInt32.le_iff_toNat_le.mpr (Nat.le_of_lt_succ hc))
      rw [← List.singleton_append, String.ofList_append, String.utf8ByteSize_append, ih hrest,
        List.length_append, List.length_singleton, ← String.singleton_eq_ofList,
        String.utf8ByteSize_singleton, hone]

/-- Characters of the alphabet are read as digits. -/
theorem exists_mapM_digitValue? (hdigits : ∀ c ∈ chars, c ∈ alphabet) :
    ∃ values, chars.mapM digitValue? = some values := by
  induction chars with
  | nil => exact ⟨[], rfl⟩
  | cons c chars ih =>
      obtain ⟨hc, hrest⟩ := List.forall_mem_cons.mp hdigits
      obtain ⟨values, hvalues⟩ := ih hrest
      cases hdigit : digitValue? c with
      | none => exact absurd hc (digitValue?_eq_none_iff.mp hdigit)
      | some value =>
          refine ⟨value :: values, ?_⟩
          rw [List.mapM_cons, hdigit, hvalues]
          rfl

/-- If the number and the kind of the characters are right, some group stands for too great a number. -/
theorem exists_overflow (hdecode : decodeOnto? done chars = none) (hlength : 5 ∣ chars.length)
    (hdigits : ∀ c ∈ chars, c ∈ alphabet) :
    ∃ before group behind values, chars = before ++ (group ++ behind) ∧ 5 ∣ before.length ∧
      group.length = 5 ∧ group.mapM digitValue? = some values ∧ 2 ^ 32 ≤ ofDigits 85 values := by
  fun_induction decodeOnto? done chars with
  | case1 done a b c d e rest bytes hgroup ih =>
      have hrest : 5 ∣ rest.length := by
        simp only [List.length_cons] at hlength
        omega
      obtain ⟨before, group, behind, values, rfl, hplace, hgroup⟩ :=
        ih hdecode hrest fun c hc => hdigits c (by simp [hc])
      refine ⟨a :: b :: c :: d :: e :: before, group, behind, values, rfl, ?_, hgroup⟩
      simp only [List.length_cons]
      omega
  | case2 done a b c d e rest hgroup =>
      have hgroupDigits : ∀ letter ∈ [a, b, c, d, e], letter ∈ alphabet :=
        fun letter hmem => hdigits letter (List.mem_append_left rest hmem)
      obtain ⟨values, hvalues⟩ := exists_mapM_digitValue? hgroupDigits
      refine ⟨[], [a, b, c, d, e], rest, values, rfl, by simp, rfl, hvalues, ?_⟩
      by_contra hlt
      have hsome := decodeGroup?_eq_some_iff.mpr ⟨values, hvalues, Nat.lt_of_not_le hlt, rfl⟩
      rw [hgroup] at hsome
      cases hsome
  | case3 => cases hdecode
  | case4 chars done hlong hempty =>
      exfalso
      match chars, hlength with
      | [], _ => exact hempty rfl
      | [_], hlength | [_, _], hlength | [_, _, _], hlength | [_, _, _, _], hlength =>
          simp at hlength
      | a :: b :: c :: d :: e :: rest, _ => exact hlong a b c d e rest rfl

/-- What is behind whole groups of a text that is decoded is decoded as well. -/
theorem decodeOnto?_behind : ∀ {done : List UInt8} {before rest : List Char},
    5 ∣ before.length → decodeOnto? done (before ++ rest) = some data →
      ∃ more, decodeOnto? more rest = some data
  | done, [], _, _, hdecode => ⟨done, hdecode⟩
  | done, a :: b :: c :: d :: e :: before, rest, hplace, hdecode => by
      simp only [List.cons_append] at hdecode
      rw [decodeOnto?] at hdecode
      split at hdecode
      · exact decodeOnto?_behind ((Nat.dvd_add_left (Nat.dvd_refl 5)).mp hplace) hdecode
      · cases hdecode
  | _, [_], _, hplace, _ | _, [_, _], _, hplace, _ | _, [_, _, _], _, hplace, _
  | _, [_, _, _, _], _, hplace, _ => by simp at hplace

/-- The characters of a text that is decoded are digits, and their number is a multiple of five. -/
theorem digits_of_decodeOnto? (hdecode : decodeOnto? done chars = some data) :
    (∀ c ∈ chars, c ∈ alphabet) ∧ 5 ∣ chars.length := by
  fun_induction decodeOnto? done chars with
  | case1 done a b c d e rest bytes hgroup ih =>
      obtain ⟨values, hread, -⟩ := decodeGroup?_eq_some_iff.mp hgroup
      obtain ⟨hdigits, hlength⟩ := ih hdecode
      have hfive := mem_alphabet_of_mapM_digitValue? hread
      refine ⟨fun x hx => ?_, ?_⟩
      · rcases List.mem_append.mp (show x ∈ [a, b, c, d, e] ++ rest from hx) with hx | hx
        · exact hfive x hx
        · exact hdigits x hx
      · simp only [List.length_cons]
        omega
  | case2 => cases hdecode
  | case3 => exact ⟨by simp, by simp⟩
  | case4 => cases hdecode

theorem eq_of_length_eq_five (hlength : group.length = 5) :
    ∃ a b c d e, group = [a, b, c, d, e] := by
  match group, hlength with
  | [a, b, c, d, e], _ => exact ⟨a, b, c, d, e, rfl⟩

/-- A text is refused exactly for one of the three reasons. -/
theorem decode?_eq_none_iff : decode? text = none ↔ Refused text := by
  have hbytes : (∀ c ∈ text.toList, c ∈ alphabet) → text.utf8ByteSize = text.toList.length := by
    intro hdigits
    rw [← utf8ByteSize_of_ascii fun c hc => lt_of_mem_alphabet c (hdigits c hc),
      String.ofList_toList]
  constructor
  · intro hdecode
    by_cases hdigits : ∀ c ∈ text.toList, c ∈ alphabet
    · by_cases hlength : 5 ∣ text.utf8ByteSize
      · rw [hbytes hdigits] at hlength
        obtain ⟨before, group, behind, values, htext, hplace, hcount, hread, hvalue⟩ :=
          exists_overflow hdecode hlength hdigits
        exact .overflow before group behind values htext hplace hcount hread hvalue
      · exact .length hlength
    · push Not at hdigits
      obtain ⟨c, hmem, hother⟩ := hdigits
      exact .character c hmem hother
  · intro hrefused
    by_contra hsome
    obtain ⟨data, hdecode⟩ := Option.ne_none_iff_exists'.mp hsome
    obtain ⟨hdigits, hlength⟩ := digits_of_decodeOnto? hdecode
    cases hrefused with
    | length hbad => exact hbad (hbytes hdigits ▸ hlength)
    | character c hmem hother => exact hother (hdigits c hmem)
    | overflow before group behind values htext hplace hcount hread hvalue =>
        rw [decode?, htext] at hdecode
        obtain ⟨more, hbehind⟩ := decodeOnto?_behind hplace hdecode
        obtain ⟨a, b, c, d, e, rfl⟩ := eq_of_length_eq_five hcount
        simp only [List.cons_append, List.nil_append] at hbehind
        rw [decodeOnto?] at hbehind
        split at hbehind
        · next bytes hgroup =>
          obtain ⟨others, hothers, hlt, -⟩ := decodeGroup?_eq_some_iff.mp hgroup
          rw [hread] at hothers
          cases hothers
          omega
        · cases hbehind

end Base85

/-! ## Both codecs -/

/-- Bytes come back from their text and from their script with fewer than four zero bytes behind them, which
fill up the last group.  A text stands for data exactly if it is the text that whole groups of bytes are
encoded to, and for no other data then.  It is refused if the number of its bytes is no multiple of five,
if a character is no digit or if a group stands for too great a number, and for no other reason. -/
theorem Base85.decode?_inverts_encode :
    (∀ data : List UInt8, ∃ zeros < 4, 4 ∣ data.length + zeros ∧
      Base85.decode? (Base85.encode data) = some (data ++ List.replicate zeros 0) ∧
      Script.decode? (Script.encode data) = some (data ++ List.replicate zeros 0)) ∧
    (∀ (text : String) (data : List UInt8),
      Base85.decode? text = some data ↔ 4 ∣ data.length ∧ Base85.encode data = text) ∧
    (∀ text : String, (Base85.decode? text).isSome = true ↔
      ∃ data : List UInt8, 4 ∣ data.length ∧ text = Base85.encode data) ∧
    ∀ text : String, Base85.decode? text = none ↔ Base85.Refused text := by
  refine ⟨fun data => ⟨Base85.fill data.length, Base85.fill_lt _, ?_, Base85.decode?_encode data,
    Script.decode?_encode data⟩, fun _ _ => Base85.decode?_eq_some_iff, fun text => ?_,
    fun _ => Base85.decode?_eq_none_iff⟩
  · unfold Base85.fill
    omega
  · rw [Option.isSome_iff_exists]
    refine exists_congr fun data => ?_
    rw [Base85.decode?_eq_some_iff, eq_comm (a := text)]

/-- Five digits can stand for more than four bytes hold, from the text after `|NsC0` on. -/
example : Base85.encode [0xFF, 0xFF, 0xFF, 0xFF] = "|NsC0" ∧ Base85.decode? "|NsC1" = none := by
  decide +kernel

end PrefixSearch
