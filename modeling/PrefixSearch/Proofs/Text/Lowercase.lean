import PrefixSearch.Text.Lowercase
import PrefixSearch.Text.Utf8
import Mathlib.Data.List.Basic

/-!
# The lowercase of a part of a text

A text is looked up in lowercase, and a typed text is lowercased on its own.  That need not be a
part of the lowercase of the whole: whether a capital sigma is written `ς` or `σ` depends on both
of its neighbours.  Nothing else depends on them, and the number of characters never does.  So the
lowercase of a part can be said for any context, and two contexts give the same one exactly if they
agree about every capital sigma of the part.

Cutting a text in two takes away a neighbour from either side.  `CutsSigma` says when this changes
the part before the cut, and `StrandsSigma` when it changes the part behind it.
-/

namespace PrefixSearch.Text

variable {before after part rest cs : List Char} {c : Char}

/-! ## Neighbours that count for case -/

theorem leadsToCased_cons (c : Char) (cs : List Char) :
    leadsToCased (c :: cs) = if isCaseIgnorable c then leadsToCased cs else isCased c := by
  cases hc : isCaseIgnorable c with
  | true => simp [leadsToCased, List.dropWhile_cons_of_pos hc]
  | false => simp [leadsToCased, List.dropWhile_cons_of_neg (Bool.eq_false_iff.mp hc)]

/-- Whether a text can be passed over when case is looked for. -/
def Ignorable (cs : List Char) : Prop :=
  ∀ c ∈ cs, isCaseIgnorable c = true

theorem ignorable_reverse : Ignorable cs.reverse ↔ Ignorable cs := by
  simp [Ignorable]

theorem leadsToCased_append_of_ignorable (hcs : Ignorable cs) (rest : List Char) :
    leadsToCased (cs ++ rest) = leadsToCased rest := by
  rw [leadsToCased, List.dropWhile_append_of_pos hcs, leadsToCased]

theorem leadsToCased_of_ignorable (hcs : Ignorable cs) : leadsToCased cs = false := by
  rw [← List.append_nil cs, leadsToCased_append_of_ignorable hcs]
  rfl

theorem leadsToCased_append_of_not_ignorable (hcs : ¬ Ignorable cs) (rest : List Char) :
    leadsToCased (cs ++ rest) = leadsToCased cs := by
  induction cs with
  | nil => exact absurd (fun c hc => absurd hc List.not_mem_nil) hcs
  | cons c cs ih =>
      rw [List.cons_append, leadsToCased_cons, leadsToCased_cons]
      cases hc : isCaseIgnorable c with
      | false => rfl
      | true =>
          have htail : ¬ Ignorable cs := fun htail =>
            hcs (List.forall_mem_cons.mpr ⟨hc, htail⟩)
          rw [if_pos rfl, if_pos rfl, ih htail]

/-! ## Parts and their contexts -/

/-- Whether a capital sigma ends a word, given what is before it (read backwards) and behind it. -/
def endsWord (before after : List Char) : Bool :=
  leadsToCased before && !leadsToCased after

theorem lowerBetween_sigma (before after : List Char) :
    lowerBetween before 'Σ' after = [if endsWord before after then 'ς' else 'σ'] :=
  if_pos rfl

theorem lowerBetween_of_ne (hc : c ≠ 'Σ') : lowerBetween before c after = lowerChar c :=
  if_neg hc

/-- The lowercase of a part of a text, given what is before it (read backwards) and behind it. -/
def lowerPart (before part after : List Char) : List Char :=
  match part with
  | [] => []
  | c :: rest => lowerBetween before c (rest ++ after) ++ lowerPart (c :: before) rest after

theorem lowercaseOnto_eq (done before cs : List Char) :
    lowercaseOnto done before cs = done.reverse ++ lowerPart before cs [] := by
  induction cs generalizing done before with
  | nil => rw [lowercaseOnto, lowerPart, List.append_nil]
  | cons c cs ih =>
      rw [lowercaseOnto, ih, lowerPart, List.append_nil, List.reverse_append, List.reverse_reverse,
        List.append_assoc]

theorem toList_lowercase (s : String) : (lowercase s).toList = lowerPart [] s.toList [] := by
  rw [lowercase, String.toList_ofList, lowercaseOnto_eq]
  rfl

/-- A text is lowercased part by part, each in the context of the other. -/
theorem lowerPart_append (before part rest after : List Char) :
    lowerPart before (part ++ rest) after =
      lowerPart before part (rest ++ after) ++ lowerPart (part.reverse ++ before) rest after := by
  induction part generalizing before with
  | nil => rfl
  | cons c part ih =>
      rw [List.cons_append, lowerPart, lowerPart, ih, List.append_assoc, List.append_assoc,
        List.reverse_cons, List.append_assoc]
      rfl

theorem toList_lowercase_append (s t : String) :
    (lowercase (s ++ t)).toList =
      lowerPart [] s.toList t.toList ++ lowerPart s.toList.reverse t.toList [] := by
  rw [toList_lowercase, String.toList_append, lowerPart_append, List.append_nil, List.append_nil]

/-- The neighbours never decide how many characters there are. -/
theorem length_lowerBetween (before after before' after' : List Char) (c : Char) :
    (lowerBetween before c after).length = (lowerBetween before' c after').length := by
  by_cases hc : c = 'Σ'
  · subst hc
    rw [lowerBetween_sigma, lowerBetween_sigma]
    rfl
  · rw [lowerBetween_of_ne hc, lowerBetween_of_ne hc]

theorem length_lowerPart (before after before' after' part : List Char) :
    (lowerPart before part after).length = (lowerPart before' part after').length := by
  induction part generalizing before before' with
  | nil => rfl
  | cons c part ih =>
      rw [lowerPart, lowerPart, List.length_append, List.length_append,
        length_lowerBetween before _ before' (part ++ after'), ih _ (c :: before')]

theorem lowerBetween_ne_nil (before : List Char) (c : Char) (after : List Char) :
    lowerBetween before c after ≠ [] := by
  by_cases hc : c = 'Σ'
  · subst hc
    rw [lowerBetween_sigma]
    exact List.cons_ne_nil _ _
  · rw [lowerBetween_of_ne hc, lowerChar]
    split
    · exact List.cons_ne_nil _ _
    · split <;> exact List.cons_ne_nil _ _

theorem lowerPart_eq_nil : lowerPart before part after = [] ↔ part = [] := by
  cases part with
  | nil => simp [lowerPart]
  | cons c part => simp [lowerPart, lowerBetween_ne_nil]

/-- A sigma is the only character that tells contexts apart. -/
theorem lowerBetween_eq_iff {before' after' : List Char} :
    lowerBetween before c after = lowerBetween before' c after' ↔
      (c = 'Σ' → endsWord before after = endsWord before' after') := by
  by_cases hc : c = 'Σ'
  · subst hc
    rw [lowerBetween_sigma, lowerBetween_sigma]
    cases endsWord before after <;> cases endsWord before' after' <;> simp
  · simp [lowerBetween_of_ne hc, hc]

/-- Two contexts give a part the same lowercase exactly if each of its capital sigmas ends a word in
both or in neither. -/
theorem lowerPart_eq_iff {before' after' : List Char} :
    lowerPart before part after = lowerPart before' part after' ↔
      ∀ x y, part = x ++ 'Σ' :: y →
        endsWord (x.reverse ++ before) (y ++ after) =
          endsWord (x.reverse ++ before') (y ++ after') := by
  induction part generalizing before before' with
  | nil => simp [lowerPart]
  | cons c part ih =>
      have hlength := length_lowerBetween before (part ++ after) before' (part ++ after') c
      rw [lowerPart, lowerPart]
      constructor
      · intro hsame x y hsplit
        obtain ⟨hhead, htail⟩ := List.append_inj hsame hlength
        rw [lowerBetween_eq_iff] at hhead
        rw [ih] at htail
        cases x with
        | nil =>
            obtain ⟨rfl, rfl⟩ := List.cons.inj hsplit
            exact hhead rfl
        | cons d x =>
            obtain ⟨rfl, hrest⟩ := List.cons.inj hsplit
            have hsame := htail x y hrest
            simpa using hsame
      · intro hall
        have hhead : lowerBetween before c (part ++ after) =
            lowerBetween before' c (part ++ after') := by
          rw [lowerBetween_eq_iff]
          rintro rfl
          exact hall [] part rfl
        have htail : lowerPart (c :: before) part after = lowerPart (c :: before') part after' := by
          rw [ih]
          intro x y hsplit
          have hsame := hall (c :: x) y (by rw [hsplit]; rfl)
          simpa using hsame
        rw [hhead, htail]

/-! ## Cutting a text in two -/

/-- Cut off from the rest, a capital sigma becomes the last letter of a word. -/
def CutsSigma (part rest : List Char) : Prop :=
  ∃ x y, part = x ++ 'Σ' :: y ∧ leadsToCased x.reverse = true ∧ Ignorable y ∧
    leadsToCased rest = true

/-- Cut off from what is before it, a capital sigma that ends a word becomes the first letter of
one. -/
def StrandsSigma (front part : List Char) : Prop :=
  ∃ x y, part = x ++ 'Σ' :: y ∧ Ignorable x ∧ leadsToCased front.reverse = true ∧
    leadsToCased y = false

theorem StrandsSigma.mem {front : List Char} (hstrands : StrandsSigma front part) : 'Σ' ∈ part := by
  obtain ⟨x, y, rfl, -⟩ := hstrands
  exact List.mem_append_right _ List.mem_cons_self

theorem endsWord_append_ne_iff :
    endsWord before (cs ++ after) ≠ endsWord before cs ↔
      leadsToCased before = true ∧ Ignorable cs ∧ leadsToCased after = true := by
  by_cases hcs : Ignorable cs
  · rw [endsWord, endsWord, leadsToCased_append_of_ignorable hcs, leadsToCased_of_ignorable hcs]
    cases leadsToCased before <;> simp [hcs]
  · rw [endsWord, endsWord, leadsToCased_append_of_not_ignorable hcs]
    simp [hcs]

theorem append_endsWord_ne_iff :
    endsWord (cs ++ before) after ≠ endsWord cs after ↔
      Ignorable cs ∧ leadsToCased before = true ∧ leadsToCased after = false := by
  by_cases hcs : Ignorable cs
  · rw [endsWord, endsWord, leadsToCased_append_of_ignorable hcs, leadsToCased_of_ignorable hcs]
    cases leadsToCased before <;> simp [hcs]
  · rw [endsWord, endsWord, leadsToCased_append_of_not_ignorable hcs]
    simp [hcs]

/-- The part before a cut is lowercased on its own as in the whole, unless a word ends with a sigma
only where it is cut. -/
theorem lowerPart_front_iff :
    lowerPart [] part [] = lowerPart [] part rest ↔ ¬ CutsSigma part rest := by
  rw [lowerPart_eq_iff]
  simp only [List.append_nil]
  constructor
  · rintro hsame ⟨x, y, hsplit, hneighbours⟩
    exact endsWord_append_ne_iff.mpr hneighbours (hsame x y hsplit).symm
  · intro hcut x y hsplit
    by_contra hne
    exact hcut ⟨x, y, hsplit, endsWord_append_ne_iff.mp (Ne.symm hne)⟩

/-- The part behind a cut is lowercased on its own as in the whole, unless a word that ends with a
sigma begins with it once it is cut. -/
theorem lowerPart_back_iff {front : List Char} :
    lowerPart [] part [] = lowerPart front.reverse part [] ↔ ¬ StrandsSigma front part := by
  rw [lowerPart_eq_iff]
  simp only [List.append_nil]
  constructor
  · rintro hsame ⟨x, y, hsplit, hx, hneighbours⟩
    exact append_endsWord_ne_iff.mpr ⟨ignorable_reverse.mpr hx, hneighbours⟩
      (hsame x y hsplit).symm
  · intro hstrands x y hsplit
    by_contra hne
    obtain ⟨hx, hneighbours⟩ := append_endsWord_ne_iff.mp (Ne.symm hne)
    exact hstrands ⟨x, y, hsplit, ignorable_reverse.mp hx, hneighbours⟩

instance (part rest : List Char) : Decidable (CutsSigma part rest) :=
  decidable_of_iff _ (not_congr lowerPart_front_iff |>.trans not_not)

instance (front part : List Char) : Decidable (StrandsSigma front part) :=
  decidable_of_iff _ (not_congr lowerPart_back_iff |>.trans not_not)

/-- A text with something before it is not looked up as the text alone. -/
theorem normalize_append_ne (caseInsensitive : Bool) {s : String} (hs : s ≠ "") (t : String) :
    normalize caseInsensitive (s ++ t) ≠ normalize caseInsensitive t := by
  intro hsame
  have hfront : (normalize caseInsensitive (s ++ t)).toList.length =
      (normalize caseInsensitive t).toList.length := by rw [hsame]
  cases caseInsensitive with
  | false =>
      rw [normalize, normalize, if_neg Bool.false_ne_true, if_neg Bool.false_ne_true,
        String.toList_append, List.length_append, Nat.add_eq_right, List.length_eq_zero_iff,
        String.toList_eq_nil_iff] at hfront
      exact hs hfront
  | true =>
      have hlength := length_lowerPart s.toList.reverse [] [] [] t.toList
      rw [normalize, normalize, if_pos rfl, if_pos rfl, toList_lowercase t, toList_lowercase_append,
        List.length_append, hlength, Nat.add_eq_right, List.length_eq_zero_iff, lowerPart_eq_nil,
        String.toList_eq_nil_iff] at hfront
      exact hs hfront

/-! ## Prefixes -/

/-- The bytes of a text begin with those of another one exactly if its characters do. -/
theorem utf8_prefix_iff {s t : String} : utf8 s <+: utf8 t ↔ s.toList <+: t.toList := by
  have hbytes : ∀ text : String, utf8 text = text.toList.utf8Encode.data.toList := by
    intro text
    rw [String.utf8Encode_toList]
    rfl
  rw [hbytes, hbytes]
  constructor
  · rintro ⟨more, hmore⟩
    refine List.isPrefix_of_utf8Encode_append_eq_utf8Encode ⟨more.toArray⟩ ?_
    rw [ByteArray.ext_iff, ByteArray.data_append, ← Array.toList_inj, Array.toList_append]
    exact hmore
  · rintro ⟨more, hmore⟩
    rw [← hmore, List.utf8Encode_append, ByteArray.data_append, Array.toList_append]
    exact List.prefix_append _ _

theorem utf8_inj {s t : String} : utf8 s = utf8 t ↔ s = t := by
  constructor
  · intro hsame
    have hfront : s.toList <+: t.toList := utf8_prefix_iff.mp (hsame ▸ List.prefix_rfl)
    have hback : t.toList <+: s.toList := utf8_prefix_iff.mp (hsame ▸ List.prefix_rfl)
    exact String.toList_inj.mp (hfront.eq_of_length_le hback.length_le)
  · exact congrArg utf8

/-- What a text is looked up as begins what the text and more is indexed as, unless case does not
count and a sigma is cut off from the rest of its word. -/
theorem prefix_normalize_iff (caseInsensitive : Bool) (s t : String) :
    utf8 (normalize caseInsensitive s) <+: utf8 (normalize caseInsensitive (s ++ t)) ↔
      ¬ (caseInsensitive = true ∧ CutsSigma s.toList t.toList) := by
  rw [utf8_prefix_iff]
  cases caseInsensitive with
  | false => simp [normalize]
  | true =>
      have hlength := length_lowerPart [] [] [] t.toList s.toList
      rw [normalize, normalize, if_pos rfl, if_pos rfl, toList_lowercase, toList_lowercase_append,
        eq_self_iff_true, true_and, ← lowerPart_front_iff]
      constructor
      · intro hstarts
        have hfront := List.prefix_of_prefix_length_le hstarts (List.prefix_append _ _)
          (Nat.le_of_eq hlength)
        exact hfront.eq_of_length hlength
      · intro hsame
        rw [hsame]
        exact List.prefix_append _ _

end PrefixSearch.Text
