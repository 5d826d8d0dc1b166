import Mathlib.Algebra.Group.Nat.Defs
import Mathlib.Data.List.Induction
import PrefixSearch.Script

/-!
# What a script hands back

Digits of a number in a base give the number back, and the digit characters give their digits back,
so every group of bytes is decoded to itself.  The last group is filled up with zero bytes that
decoding keeps.  A script stands around the encoded text so that its opening occurs nowhere before
it and its quotation mark nowhere inside.
-/

namespace PrefixSearch

namespace Base85

/-! ## Digits -/

theorem ofDigits_concat (base : Nat) (digits : List Nat) (digit : Nat) :
    ofDigits base (digits ++ [digit]) = ofDigits base digits * base + digit := by
  rw [ofDigits, List.foldl_append]
  rfl

theorem length_digits (base count value : Nat) : (digits base count value).length = count := by
  induction count generalizing value with
  | zero => rfl
  | succ count ih => rw [digits, List.length_append, ih, List.length_singleton]

theorem lt_of_mem_digits {base count value digit : Nat} (hbase : 0 < base)
    (hdigit : digit ∈ digits base count value) : digit < base := by
  induction count generalizing value with
  | zero => cases hdigit
  | succ count ih =>
      rw [digits, List.mem_append, List.mem_singleton] at hdigit
      rcases hdigit with hmore | rfl
      · exact ih hmore
      · exact Nat.mod_lt value hbase

/-- The digits of a number stand for what of it fits into them. -/
theorem ofDigits_digits (base count value : Nat) :
    ofDigits base (digits base count value) = value % base ^ count := by
  induction count generalizing value with
  | zero => rw [Nat.pow_zero, Nat.mod_one]; rfl
  | succ count ih =>
      rw [digits, ofDigits_concat, ih, Nat.pow_succ', Nat.mod_mul, Nat.mul_comm, Nat.add_comm]

/-- Digits are the digits of the number that they stand for. -/
theorem digits_ofDigits {base : Nat} {values : List Nat} (hvalues : ∀ value ∈ values, value < base) :
    digits base values.length (ofDigits base values) = values := by
  induction values using List.reverseRecOn with
  | nil => rfl
  | append_singleton values value ih =>
      have hvalue : value < base := hvalues value (by simp)
      have hdiv : (ofDigits base values * base + value) / base = ofDigits base values := by
        rw [Nat.add_comm, Nat.add_mul_div_right _ _ (Nat.zero_lt_of_lt hvalue),
          Nat.div_eq_of_lt hvalue, Nat.zero_add]
      have hmod : (ofDigits base values * base + value) % base = value := by
        rw [Nat.add_comm, Nat.add_mul_mod_self_right, Nat.mod_eq_of_lt hvalue]
      rw [List.length_append, List.length_singleton, digits, ofDigits_concat, hdiv, hmod,
        ih fun other hother => hvalues other (List.mem_append_left _ hother)]

theorem ofDigits_lt {base : Nat} {values : List Nat} (hvalues : ∀ value ∈ values, value < base) :
    ofDigits base values < base ^ values.length := by
  induction values using List.reverseRecOn with
  | nil => exact Nat.one_pos
  | append_singleton values value ih =>
      have hvalue : value < base := hvalues value (by simp)
      have hrest : ofDigits base values + 1 ≤ base ^ values.length :=
        ih fun other hother => hvalues other (List.mem_append_left _ hother)
      rw [ofDigits_concat, List.length_append, List.length_singleton, Nat.pow_succ]
      calc
        ofDigits base values * base + value < ofDigits base values * base + base :=
          Nat.add_lt_add_left hvalue _
        _ = (ofDigits base values + 1) * base := (Nat.succ_mul _ _).symm
        _ ≤ base ^ values.length * base := Nat.mul_le_mul_right base hrest

/-! ## Groups -/

/-- The table of digit values says where a character stands in the alphabet. -/
theorem digitValue?_eq {c : Char} (hascii : c.toNat < 128) : digitValue? c = alphabet.idxOf? c := by
  simp [digitValue?, digitValues, hascii]

theorem alphabet_digits : ∀ digit < 85, (alphabet[digit]?.getD '0').toNat < 128 ∧
    alphabet.idxOf? (alphabet[digit]?.getD '0') = some digit ∧
    alphabet[digit]?.getD '0' ≠ '\x27' := by
  decide +kernel

/-- The character of a digit gives the digit back, and is not the quotation mark of a script. -/
theorem digitValue?_alphabet {digit : Nat} (hdigit : digit < 85) :
    digitValue? (alphabet[digit]?.getD '0') = some digit ∧ alphabet[digit]?.getD '0' ≠ '\x27' := by
  obtain ⟨hascii, hvalue, hquote⟩ := alphabet_digits digit hdigit
  rw [digitValue?_eq hascii]
  exact ⟨hvalue, hquote⟩

theorem mapM_digitValue? {values : List Nat} (hvalues : ∀ value ∈ values, value < 85) :
    (values.map fun digit => alphabet[digit]?.getD '0').mapM digitValue? = some values := by
  induction values with
  | nil => rfl
  | cons value values ih =>
      obtain ⟨hfirst, hrest⟩ := List.forall_mem_cons.mp hvalues
      rw [List.map_cons, List.mapM_cons, (digitValue?_alphabet hfirst).1, ih hrest]
      rfl

theorem length_encodeGroup (group : List UInt8) : (encodeGroup group).length = 5 := by
  rw [encodeGroup, List.length_map, length_digits]

theorem decodeGroup?_encodeGroup {group : List UInt8} (hlength : group.length = 4) :
    decodeGroup? (encodeGroup group) = some group := by
  have hbytes : ∀ value ∈ group.map UInt8.toNat, value < 256 := by
    intro value hvalue
    obtain ⟨byte, -, rfl⟩ := List.mem_map.mp hvalue
    exact byte.toNat_lt
  have hcount : (group.map UInt8.toNat).length = 4 := by rw [List.length_map, hlength]
  have hfour : ofDigits 256 (group.map UInt8.toNat) < Bytes.capacity 4 := by
    have hlt := ofDigits_lt hbytes
    rwa [hcount] at hlt
  have hread : ((encodeGroup group).mapM digitValue?) =
      some (digits 85 5 (ofDigits 256 (group.map UInt8.toNat))) :=
    mapM_digitValue? fun _ hdigit => lt_of_mem_digits (by decide) hdigit
  -- five digits in base 85 hold every number of four bytes
  have hvalue : ofDigits 85 (digits 85 5 (ofDigits 256 (group.map UInt8.toNat))) =
      ofDigits 256 (group.map UInt8.toNat) := by
    rw [ofDigits_digits]
    exact Nat.mod_eq_of_lt (Nat.lt_trans hfour (by decide))
  have hback : digits 256 4 (ofDigits 256 (group.map UInt8.toNat)) = group.map UInt8.toNat := by
    rw [← hcount]
    exact digits_ofDigits hbytes
  rw [decodeGroup?, hread]
  simp only [Option.bind_eq_bind, Option.bind_some, hvalue, if_pos hfour, hback, List.map_map]
  simp [Function.comp_def]

/-! ## Texts -/

/-- How many zero bytes fill up the last group. -/
def fill (length : Nat) : Nat :=
  (4 - length % 4) % 4

theorem fill_lt (length : Nat) : fill length < 4 :=
  Nat.mod_lt _ (by decide)

/-- A text is decoded group by group. -/
theorem decodeOnto?_append {group : List UInt8} (hlength : group.length = 4) (done : List UInt8)
    (rest : List Char) :
    decodeOnto? done (encodeGroup group ++ rest) = decodeOnto? (group.reverse ++ done) rest := by
  match hchars : encodeGroup group, length_encodeGroup group with
  | [a, b, c, d, e], _ =>
      show decodeOnto? done (a :: b :: c :: d :: e :: rest) = _
      rw [decodeOnto?, ← hchars, decodeGroup?_encodeGroup hlength]

/-- Text that is encoded behind other text is the same as without it. -/
theorem encodeOnto_eq : ∀ (done : List Char) (data : List UInt8),
    encodeOnto done data = done.reverse ++ encodeOnto [] data
  | done, a :: b :: c :: d :: rest => by
      rw [encodeOnto, encodeOnto_eq _ rest, encodeOnto, encodeOnto_eq (_ ++ []) rest]
      simp
  | done, [a, b, c] => by simp [encodeOnto]
  | done, [a, b] => by simp [encodeOnto]
  | done, [a] => by simp [encodeOnto]
  | done, [] => by simp [encodeOnto]

theorem decodeOnto?_encodeOnto : ∀ (done data : List UInt8),
    decodeOnto? done (encodeOnto [] data) =
      some (done.reverse ++ (data ++ List.replicate (fill data.length) 0))
  | done, a :: b :: c :: d :: rest => by
      have hfill : fill (a :: b :: c :: d :: rest).length = fill rest.length := by
        unfold fill
        rw [List.length_cons, List.length_cons, List.length_cons, List.length_cons]
        omega
      rw [encodeOnto, encodeOnto_eq, List.append_nil, List.reverse_reverse, decodeOnto?_append rfl,
        decodeOnto?_encodeOnto _ rest, hfill]
      simp
  | done, [a, b, c] => by
      have hlength : [a, b, c, 0].length = 4 := rfl
      have hgroup := decodeOnto?_append hlength done []
      simpa [encodeOnto, decodeOnto?, fill] using hgroup
  | done, [a, b] => by
      have hlength : [a, b, 0, 0].length = 4 := rfl
      have hgroup := decodeOnto?_append hlength done []
      simpa [encodeOnto, decodeOnto?, fill] using hgroup
  | done, [a] => by
      have hlength : [a, 0, 0, 0].length = 4 := rfl
      have hgroup := decodeOnto?_append hlength done []
      simpa [encodeOnto, decodeOnto?, fill] using hgroup
  | done, [] => by simp [encodeOnto, decodeOnto?, fill]

/-- Decoding gives the bytes back, with the zero bytes that fill up the last group. -/
theorem decode?_encode (data : List UInt8) :
    decode? (encode data) = some (data ++ List.replicate (fill data.length) 0) := by
  rw [decode?, encode, String.toList_ofList, decodeOnto?_encodeOnto]
  rfl

theorem quote_notMem_encodeGroup (group : List UInt8) : '\x27' ∉ encodeGroup group := by
  intro hquote
  obtain ⟨digit, hdigit, heq⟩ := List.mem_map.mp hquote
  exact (digitValue?_alphabet (lt_of_mem_digits (by decide) hdigit)).2 heq

theorem quote_notMem_encodeOnto : ∀ data : List UInt8, '\x27' ∉ encodeOnto [] data
  | a :: b :: c :: d :: rest => by
      rw [encodeOnto, encodeOnto_eq, List.append_nil, List.reverse_reverse, List.mem_append, not_or]
      exact ⟨quote_notMem_encodeGroup _, quote_notMem_encodeOnto rest⟩
  | [a, b, c] => by simpa [encodeOnto] using quote_notMem_encodeGroup [a, b, c, 0]
  | [a, b] => by simpa [encodeOnto] using quote_notMem_encodeGroup [a, b, 0, 0]
  | [a] => by simpa [encodeOnto] using quote_notMem_encodeGroup [a, 0, 0, 0]
  | [] => by simp [encodeOnto]

end Base85

namespace Script

/-- A pattern is found where it stands if its first character stands nowhere before it. -/
theorem afterFirst?_append {first : Char} {pattern before : List Char} (rest : List Char)
    (hbefore : first ∉ before) :
    afterFirst? (first :: pattern) (before ++ (first :: pattern ++ rest)) = some rest := by
  induction before with
  | nil =>
      have hhere : (first :: pattern).isPrefixOf (first :: pattern ++ rest) = true := by simp
      rw [List.nil_append, List.cons_append, afterFirst?, ← List.cons_append, if_pos hhere,
        List.drop_left]
  | cons c before ih =>
      obtain ⟨hne, hmore⟩ := not_or.mp (List.mem_cons.not.mp hbefore)
      have hlater : ¬ (first :: pattern).isPrefixOf
          (c :: (before ++ (first :: pattern ++ rest))) = true := by
        simp [hne]
      rw [List.cons_append, afterFirst?, if_neg hlater, ih hmore]

/-- A script hands back the data that it was made of, with some zero bytes behind it. -/
theorem decode?_encode (data : List UInt8) :
    decode? (encode data) = some (data ++ List.replicate (Base85.fill data.length) 0) := by
  have hquote : '\x27' ∉ (Base85.encode data).toList := by
    rw [Base85.encode, String.toList_ofList]
    exact Base85.quote_notMem_encodeOnto data
  have hscript : (encode data).toList = (header.toList ++ ['\n']) ++
      (opening ++ ((Base85.encode data).toList ++ ['\x27', ')', ';', '\n'])) := by
    simp [encode]
  have hbehind : afterFirst? opening (encode data).toList =
      some ((Base85.encode data).toList ++ ['\x27', ')', ';', '\n']) := by
    rw [hscript]
    have hfirst : 'S' ∉ header.toList ++ ['\n'] := by decide +kernel
    exact afterFirst?_append _ hfirst
  have htext : ((Base85.encode data).toList ++ ['\x27', ')', ';', '\n']).takeWhile (· ≠ '\x27') =
      (Base85.encode data).toList := by
    rw [List.takeWhile_append_of_pos]
    · simp
    · intro c hc
      have hne : c ≠ '\x27' := fun heq => hquote (heq ▸ hc)
      simpa using hne
  rw [decode?, hbehind]
  simp only [Option.bind_eq_bind, Option.bind_some, htext, String.ofList_toList]
  rw [if_pos (by simp), Base85.decode?_encode]

end Script

end PrefixSearch
