import PrefixSearch.Proofs.Text.Lowercase
import PrefixSearch.Text.Scope

/-!
# Scope suffixes in lowercase

A name is lowercased as a whole and then cut at the separator as it was configured, while a user
types a suffix that was cut off the name as it was written.  The typed suffix is one of the indexed
ones exactly if its lowercase on its own is what stands behind the cut (`StrandsSigma`), and the
lowercase name is still cut there (`KeepsCut`).

The second is so for every separator without case: lowercase leaves its characters alone and makes
them from no other ones, so the separator occurs in the lowercase name exactly where it did before.
-/

namespace PrefixSearch.Text

variable {separator text part before after rest : List Char} {c d : Char}

/-! ## The parts behind a separator -/

theorem afterEach_append (hseparator : separator ≠ []) (rest : List Char) :
    afterEach separator (separator ++ rest) = rest :: afterEach separator rest := by
  cases separator with
  | nil => exact absurd rfl hseparator
  | cons d separator =>
      rw [List.cons_append, afterEach, if_pos ⟨List.cons_ne_nil _ _, by simp⟩]
      simp

theorem afterEach_cons_of_not_prefix (hstarts : ¬ separator <+: c :: rest) :
    afterEach separator (c :: rest) = afterEach separator rest := by
  rw [afterEach, if_neg]
  rintro ⟨-, hoccurs⟩
  exact hstarts (List.isPrefixOf_iff_prefix.mp hoccurs)

/-- The empty separator cuts nothing off. -/
theorem afterEach_empty (text : List Char) : afterEach [] text = [] := by
  induction text with
  | nil => rw [afterEach]
  | cons c text ih => rw [afterEach, if_neg (fun hoccurs => hoccurs.1 rfl), ih]

/-- No occurrence begins with another character. -/
theorem afterEach_append_of_not_mem (hd : d ∉ part) (rest : List Char) :
    afterEach (d :: separator) (part ++ rest) = afterEach (d :: separator) rest := by
  induction part with
  | nil => rfl
  | cons c part ih =>
      rw [List.mem_cons, not_or] at hd
      obtain ⟨hne, hpart⟩ := hd
      rw [List.cons_append, afterEach_cons_of_not_prefix, ih hpart]
      exact fun hstarts => hne (List.cons_prefix_cons.mp hstarts).1

/-- What is cut off stands behind a separator. -/
theorem exists_cut_of_mem_afterEach (hpart : part ∈ afterEach separator text) :
    ∃ front, text = front ++ separator ++ part := by
  fun_induction afterEach separator text with
  | case1 => cases hpart
  | case2 c rest hoccurs tail ih =>
      have htail : separator ++ tail = c :: rest :=
        List.prefix_iff_eq_append.mp (List.isPrefixOf_iff_prefix.mp hoccurs.2)
      rw [← htail]
      rcases List.mem_cons.mp hpart with rfl | hpart
      · exact ⟨[], rfl⟩
      · obtain ⟨front, hfront⟩ := ih hpart
        exact ⟨separator ++ front, by rw [hfront, List.append_assoc, List.append_assoc,
          List.append_assoc]⟩
  | case3 c rest _ ih =>
      obtain ⟨front, hfront⟩ := ih hpart
      exact ⟨c :: front, by rw [hfront]; rfl⟩

/-- What stands behind a separator is a proper suffix. -/
theorem exists_front_of_mem_afterEach (hpart : part ∈ afterEach separator text) :
    ∃ front, front ≠ [] ∧ text = front ++ part := by
  obtain ⟨front, hfront⟩ := exists_cut_of_mem_afterEach hpart
  refine ⟨front ++ separator, List.append_ne_nil_of_right_ne_nil front ?_, hfront⟩
  rintro rfl
  rw [afterEach_empty] at hpart
  cases hpart

theorem mem_scopeSuffixes {separator name suffix : String} :
    suffix ∈ scopeSuffixes separator name ↔
      suffix.toList ≠ [] ∧ suffix.toList ∈ afterEach separator.toList name.toList := by
  rw [scopeSuffixes, List.mem_map]
  constructor
  · rintro ⟨part, hpart, rfl⟩
    obtain ⟨hmem, hne⟩ := List.mem_filter.mp hpart
    rw [String.toList_ofList]
    exact ⟨by simpa using hne, hmem⟩
  · rintro ⟨hne, hmem⟩
    exact ⟨suffix.toList, List.mem_filter.mpr ⟨hmem, by simpa using hne⟩, String.ofList_toList⟩

/-! ## Suffixes of the lowercase name -/

/-- What stands behind the cut in the lowercase of the whole is cut off there too, by the separator
as it was configured. -/
def KeepsCut (separator front suffix : String) : Prop :=
  lowerPart front.toList.reverse suffix.toList [] ∈
    afterEach separator.toList (lowercase (front ++ suffix)).toList

instance (separator front suffix : String) : Decidable (KeepsCut separator front suffix) :=
  inferInstanceAs (Decidable (_ ∈ _))

/-- A typed suffix is one of the indexed ones exactly if it is lowercased on its own as in the name,
and the lowercase name is cut before it. -/
theorem lowercase_mem_scopeSuffixes_iff {separator front suffix : String} (hsuffix : suffix ≠ "") :
    lowercase suffix ∈ scopeSuffixes separator (lowercase (front ++ suffix)) ↔
      ¬ StrandsSigma front.toList suffix.toList ∧ KeepsCut separator front suffix := by
  have hlength := length_lowerPart [] [] front.toList.reverse [] suffix.toList
  have hne : lowerPart [] suffix.toList [] ≠ [] := by
    rw [Ne, lowerPart_eq_nil, String.toList_eq_nil_iff]
    exact hsuffix
  rw [mem_scopeSuffixes, ← lowerPart_back_iff, KeepsCut, toList_lowercase suffix]
  constructor
  · rintro ⟨-, hmem⟩
    -- a suffix of the whole is told by its length
    obtain ⟨other, -, hwhole⟩ := exists_front_of_mem_afterEach hmem
    rw [toList_lowercase_append] at hwhole
    have hsame := (List.append_inj' hwhole hlength.symm).2
    exact ⟨hsame.symm, hsame ▸ hmem⟩
  · rintro ⟨hsame, hmem⟩
    exact ⟨hne, hsame ▸ hmem⟩

/-- A suffix is looked up as one of the indexed ones, unless case does not count and it is lowercased
otherwise than in the name, or the lowercase name is not cut before it. -/
theorem normalize_mem_scopeSuffixes_iff {separator front suffix : String} (caseInsensitive : Bool)
    (hsuffix : suffix ∈ scopeSuffixes separator (front ++ suffix)) :
    normalize caseInsensitive suffix ∈
        scopeSuffixes separator (normalize caseInsensitive (front ++ suffix)) ↔
      (caseInsensitive = true →
        ¬ StrandsSigma front.toList suffix.toList ∧ KeepsCut separator front suffix) := by
  cases caseInsensitive with
  | false =>
      refine iff_of_true hsuffix fun hfalse => ?_
      cases hfalse
  | true =>
      have hne : suffix ≠ "" := fun hempty =>
        (mem_scopeSuffixes.mp hsuffix).1 (String.toList_eq_nil_iff.mpr hempty)
      exact (lowercase_mem_scopeSuffixes_iff hne).trans ⟨fun hsame _ => hsame, fun hsame => hsame rfl⟩

/-! ## Separators without case -/

/-- Lowercase leaves the character alone and makes it from no other one. -/
structure CaseFree (c : Char) : Prop where
  kept : ∀ before after, lowerBetween before c after = [c]
  eq_of_mem : ∀ before d after, c ∈ lowerBetween before d after → d = c

section

variable (hseparator : ∀ d ∈ separator, CaseFree d)
include hseparator

theorem lowerPart_of_caseFree (before after : List Char) :
    lowerPart before separator after = separator := by
  induction separator generalizing before with
  | nil => rfl
  | cons d separator ih =>
      obtain ⟨hd, hrest⟩ := List.forall_mem_cons.mp hseparator
      rw [lowerPart, hd.kept, ih hrest]
      rfl

/-- A separator without case begins the lowercase of a text exactly if it begins the text. -/
theorem prefix_lowerPart_iff (before after : List Char) :
    separator <+: lowerPart before text after ↔ separator <+: text := by
  induction separator generalizing text before with
  | nil => simp
  | cons d separator ih =>
      obtain ⟨hd, hrest⟩ := List.forall_mem_cons.mp hseparator
      cases text with
      | nil => rfl
      | cons c text =>
          rw [lowerPart]
          by_cases hc : c = d
          · subst hc
            rw [hd.kept, List.singleton_append, List.cons_prefix_cons, List.cons_prefix_cons,
              ih hrest]
          · have hfirst := lowerBetween_ne_nil before c (text ++ after)
            constructor
            · intro hstarts
              -- the separator would begin with a small form of the other character
              obtain ⟨e, small, hsmall⟩ := List.exists_cons_of_ne_nil hfirst
              rw [hsmall, List.cons_append, List.cons_prefix_cons] at hstarts
              have hmem : d ∈ lowerBetween before c (text ++ after) := by
                rw [hsmall, hstarts.1]
                exact List.mem_cons_self
              exact absurd (hd.eq_of_mem _ _ _ hmem) hc
            · intro hstarts
              exact absurd (List.cons_prefix_cons.mp hstarts).1.symm hc

/-- No occurrence begins within the small form of a character at which none began. -/
theorem afterEach_lowerPart_cons (hstarts : ¬ separator <+: c :: rest) :
    afterEach separator (lowerPart before (c :: rest) after) =
      afterEach separator (lowerPart (c :: before) rest after) := by
  have hlower : ¬ separator <+: lowerPart before (c :: rest) after := by
    rwa [prefix_lowerPart_iff hseparator]
  cases separator with
  | nil => exact absurd List.nil_prefix hstarts
  | cons d separator =>
      obtain ⟨hd, -⟩ := List.forall_mem_cons.mp hseparator
      rw [lowerPart] at hlower ⊢
      by_cases hc : c = d
      · subst hc
        rw [hd.kept, List.singleton_append] at hlower ⊢
        exact afterEach_cons_of_not_prefix hlower
      · exact afterEach_append_of_not_mem (fun hmem => hc (hd.eq_of_mem _ _ _ hmem)) _

/-- The lowercase of a text is cut wherever the text was. -/
theorem mem_afterEach_lowerPart {front : List Char} (before after : List Char)
    (hpart : part ∈ afterEach separator (front ++ part)) :
    lowerPart (front.reverse ++ before) part after ∈
      afterEach separator (lowerPart before (front ++ part) after) := by
  -- what was read becomes part of the context of the rest
  suffices hcuts : ∀ text, part ∈ afterEach separator text → ∀ front before,
      front ++ part = text → lowerPart (front.reverse ++ before) part after ∈
        afterEach separator (lowerPart before text after) from hcuts _ hpart front before rfl
  clear hpart
  intro text hpart
  fun_induction afterEach separator text with
  | case1 => cases hpart
  | case2 c rest hoccurs tail ih =>
      have htail : separator ++ tail = c :: rest :=
        List.prefix_iff_eq_append.mp (List.isPrefixOf_iff_prefix.mp hoccurs.2)
      intro front before htext
      rw [← htail] at htext ⊢
      rw [lowerPart_append, lowerPart_of_caseFree hseparator, afterEach_append hoccurs.1]
      rcases List.mem_cons.mp hpart with hsame | hpart
      · rw [← hsame] at htext ⊢
        rw [List.append_cancel_right htext]
        exact List.mem_cons_self
      · obtain ⟨further, -, hfurther⟩ := exists_front_of_mem_afterEach hpart
        rw [hfurther, ← List.append_assoc] at htext
        rw [List.append_cancel_right htext, List.reverse_append, List.append_assoc]
        exact List.mem_cons_of_mem _ (ih hpart further (separator.reverse ++ before) hfurther.symm)
  | case3 c rest hoccurs ih =>
      have hstarts : ¬ separator <+: c :: rest := by
        intro hstarts
        refine hoccurs ⟨?_, List.isPrefixOf_iff_prefix.mpr hstarts⟩
        rintro rfl
        rw [afterEach_empty] at hpart
        cases hpart
      obtain ⟨further, -, rfl⟩ := exists_front_of_mem_afterEach hpart
      intro front before htext
      have hfront : front = c :: further := List.append_cancel_right htext
      have hmem := ih hpart further (c :: before) rfl
      rw [afterEach_lowerPart_cons hseparator hstarts, hfront, List.reverse_cons, List.append_assoc]
      exact hmem

end

/-- The lowercase of a name is cut at a separator without case wherever the name was. -/
theorem keepsCut_of_caseFree {separator front suffix : String}
    (hseparator : ∀ d ∈ separator.toList, CaseFree d)
    (hsuffix : suffix ∈ scopeSuffixes separator (front ++ suffix)) :
    KeepsCut separator front suffix := by
  have hpart := (mem_scopeSuffixes.mp hsuffix).2
  rw [String.toList_append] at hpart
  have hmem := mem_afterEach_lowerPart hseparator [] [] hpart
  rw [List.append_nil] at hmem
  rwa [KeepsCut, toList_lowercase, String.toList_append]

/-- The lowercase name has no `X`, so it is not cut there. -/
example : "b" ∈ scopeSuffixes "X" "aXb" ∧ ¬ KeepsCut "X" "aX" "b" := by
  decide +kernel

/-! ## Punctuation of ASCII has no case -/

/-- The small letters on the runs are characters beyond ASCII, but for that of the Kelvin sign. -/
theorem caseRuns_small : ∀ run ∈ caseRuns,
    run.small = 'k'.toNat ∧ run.last = run.first ∨
      0x80 ≤ run.small ∧ (run.small + (run.last - run.first) < 0xD800 ∨
        0xDFFF < run.small ∧ run.small + (run.last - run.first) < 0x110000) := by
  decide +kernel

theorem ofNat_lower? {run : CaseRun} (hrun : run ∈ caseRuns) {code small : Nat}
    (hlower : run.lower? code = some small) :
    Char.ofNat small = 'k' ∨ 0x80 ≤ (Char.ofNat small).toNat := by
  unfold CaseRun.lower? at hlower
  split at hlower
  · next hon =>
    obtain ⟨hfirst, hlast, -⟩ := hon
    obtain rfl := Option.some.inj hlower
    rcases caseRuns_small run hrun with ⟨hkelvin, hone⟩ | ⟨hbeyond, hvalid⟩
    · have hsmall : run.small + (code - run.first) = 'k'.toNat := by omega
      left
      rw [hsmall, Char.ofNat_toNat]
    · have hchar : (run.small + (code - run.first)).isValidChar := by
        unfold Nat.isValidChar
        omega
      right
      rw [Char.ofNat, dif_pos hchar]
      show 0x80 ≤ run.small + (code - run.first)
      omega
  · cases hlower

theorem toLower_of_ascii (hascii : c.toNat < 0x80) :
    c.toLower = c ∨ c.isAlpha = true ∧ c.toLower.isAlpha = true := by
  have hall : ∀ code < 0x80, (Char.ofNat code).toLower = Char.ofNat code ∨
      (Char.ofNat code).isAlpha = true ∧ (Char.ofNat code).toLower.isAlpha = true := by decide
  have hc := hall c.toNat hascii
  rwa [Char.ofNat_toNat] at hc

/-- What lowercase makes of a character is the character itself, a letter, or beyond ASCII. -/
theorem of_mem_lowerChar {small : Char} (hsmall : small ∈ lowerChar c) :
    c = small ∨ small.isAlpha = true ∨ 0x80 ≤ small.toNat := by
  unfold lowerChar at hsmall
  split at hsmall
  · next hascii =>
    rw [List.mem_singleton] at hsmall
    rw [hsmall]
    rcases toLower_of_ascii hascii with hsame | ⟨-, hletter⟩
    · exact Or.inl hsame.symm
    · exact Or.inr (Or.inl hletter)
  · split at hsmall
    · rcases List.mem_pair.mp hsmall with rfl | rfl
      · exact Or.inr (Or.inl (by decide))
      · exact Or.inr (Or.inr (by decide))
    · rw [List.mem_singleton] at hsmall
      cases hfound : caseRuns.findSome? (·.lower? c.toNat) with
      | none =>
          rw [hfound] at hsmall
          exact Or.inl hsmall.symm
      | some code =>
          rw [hfound] at hsmall
          obtain ⟨run, hrun, hlower⟩ := List.exists_of_findSome?_eq_some hfound
          have hcode : small = Char.ofNat code := hsmall
          rw [hcode]
          rcases ofNat_lower? hrun hlower with hkelvin | hbeyond
          · exact Or.inr (Or.inl (by rw [hkelvin]; decide))
          · exact Or.inr (Or.inr hbeyond)

/-- Every character of ASCII that is no letter is without case. -/
theorem caseFree_of_ascii (hascii : c.toNat < 0x80) (hletter : c.isAlpha = false) : CaseFree c where
  kept before after := by
    have hsigma : c ≠ 'Σ' := by
      rintro rfl
      exact absurd hascii (by decide)
    have hsame : c.toLower = c := by
      refine (toLower_of_ascii hascii).resolve_right fun hupper => ?_
      rw [hletter] at hupper
      cases hupper.1
    rw [lowerBetween_of_ne hsigma, lowerChar, if_pos hascii, hsame]
  eq_of_mem before d after hmem := by
    by_cases hd : d = 'Σ'
    · subst hd
      rw [lowerBetween_sigma, List.mem_singleton] at hmem
      have hbeyond : 0x80 ≤ c.toNat := by
        rw [hmem]
        split <;> decide
      omega
    · rw [lowerBetween_of_ne hd] at hmem
      rcases of_mem_lowerChar hmem with hsame | hsmall | hbeyond
      · exact hsame
      · rw [hletter] at hsmall
        cases hsmall
      · omega

end PrefixSearch.Text
