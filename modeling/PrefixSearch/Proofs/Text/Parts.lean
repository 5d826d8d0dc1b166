import PrefixSearch.Proofs.Text.Scope

/-!
# The parts of a name

A separator splits a name into parts.  The first one ends where the separator first occurs, and what is
behind that occurrence is split in the same way, so the separator is found from left to right and no two
of its occurrences overlap.  Every text is split in exactly one way, which is that of the standard
library.

The scope suffixes of a name are its parts from the second one on, joined again, those from the third one
on, and so forth.  What is behind a separator is split as the whole name was, so the suffixes of a suffix
are those that come after it.
-/

namespace PrefixSearch.Text

/-- No occurrence of the separator begins within the part, which is followed by `behind`. -/
def ClearOf (separator part behind : String) : Prop :=
  ∀ front back, part ++ behind = front ++ separator ++ back → part.length ≤ front.length

/-- A separator splits a text into parts: each ends where the separator occurs first, and the next one
begins behind that occurrence. -/
inductive SplitsInto (separator : String) : String → List String → Prop
  | last {part : String} (hclear : ClearOf separator part "") : SplitsInto separator part [part]
  | cut {part rest : String} {parts : List String}
      (hclear : ClearOf separator part (separator ++ rest))
      (hrest : SplitsInto separator rest parts) :
      SplitsInto separator (part ++ (separator ++ rest)) (part :: parts)

variable {separator text part behind name suffix : String} {parts others : List String}

/-! ## Every text is split in one way -/

theorem append_inj_of_length_eq {other rest : String} (htext : part ++ rest = other ++ behind)
    (hlength : part.length = other.length) : part = other ∧ rest = behind := by
  have hlists : part.toList ++ rest.toList = other.toList ++ behind.toList := by
    rw [← String.toList_append, htext, String.toList_append]
  obtain ⟨hpart, hrest⟩ := List.append_inj hlists (by
    rw [String.length_toList, String.length_toList, hlength])
  exact ⟨String.toList_inj.mp hpart, String.toList_inj.mp hrest⟩

theorem clearOf_empty (separator behind : String) : ClearOf separator "" behind :=
  fun _ _ _ => Nat.zero_le _

/-- A part goes on with a character at which the separator does not occur. -/
theorem ClearOf.push {c : Char} (hclear : ClearOf separator part (String.singleton c ++ behind))
    (hother : ∀ back, String.singleton c ++ behind ≠ separator ++ back) :
    ClearOf separator (part ++ String.singleton c) behind := by
  intro front back hoccurs
  rw [String.append_assoc] at hoccurs
  have hle : part.length ≤ front.length := hclear front back hoccurs
  have hne : part.length ≠ front.length := by
    intro hlength
    rw [String.append_assoc] at hoccurs
    exact hother back (append_inj_of_length_eq hoccurs hlength).2
  rw [String.length_append, String.length_singleton]
  omega

/-- The separator does not occur in a part that nothing follows. -/
theorem ClearOf.not_occurs (hseparator : separator ≠ "") (hclear : ClearOf separator part "")
    (front back : String) : part ≠ front ++ separator ++ back := by
  intro hoccurs
  have hle : part.length ≤ front.length := hclear front back (by rw [String.append_empty, hoccurs])
  have hpos : separator.length ≠ 0 := by simpa using hseparator
  rw [hoccurs, String.length_append, String.length_append] at hle
  omega

section

open String.Slice.Pattern.Model

theorem copy_subslice_next {s : String.Slice} {start pos : s.Pos} (hle : start ≤ pos)
    (hend : pos ≠ s.endPos) (hnext : start ≤ pos.next hend) :
    (s.subslice start (pos.next hend) hnext).copy =
      (s.subslice start pos hle).copy ++ String.singleton (pos.get hend) := by
  have hsplits := String.Slice.splits_slice hnext (pos.slice start (pos.next hend) hle (by simp))
  simpa using hsplits.eq_append

/-- The standard library goes from one position to the next and keeps where the part has begun. -/
theorem splitsInto_of_splits (separator : String) [StrictPatternModel separator] {s : String.Slice}
    {start pos : s.Pos} (hle : start ≤ pos) {before behind : String} (hsplits : pos.Splits before behind)
    (hclear : ClearOf separator (s.subslice start pos hle).copy behind) :
    SplitsInto separator ((s.subslice start pos hle).copy ++ behind)
      ((String.Slice.Pattern.Model.split separator start pos hle).map
        (String.Slice.copy ∘ String.Slice.Subslice.toSlice)) := by
  induction pos using WellFounded.induction String.Slice.Pos.wellFounded_gt
    generalizing start before behind with | h pos ih
  by_cases hend : pos = s.endPos
  · -- the part reaches to the end of the text
    subst hend
    obtain rfl := hsplits.eq_right s.splits_endPos
    simpa using SplitsInto.last hclear
  by_cases hoccurs : MatchesAt separator pos
  · -- the part ends here, and the next one begins behind the separator
    obtain ⟨stop, hmatch⟩ := matchesAt_iff_exists_isLongestMatchAt.mp hoccurs
    obtain ⟨_, rest, hpos, hstop⟩ := ForwardStringSearcher.isLongestMatchAt_iff_splits.mp hmatch
    obtain rfl := hsplits.eq_right hpos
    have hrest := ih stop hmatch.lt (Std.le_refl stop) hstop (by simpa using clearOf_empty _ _)
    rw [split_eq_of_isLongestMatchAt hmatch]
    simpa using SplitsInto.cut hclear (by simpa using hrest)
  · -- the part goes on with the character that is here
    have hnext : start ≤ pos.next hend := Std.le_trans hle (by simp)
    obtain ⟨rest, rfl⟩ := hsplits.exists_eq_singleton_append hend
    have hrest := ih (pos.next hend) (by simp) hnext hsplits.next
    rw [copy_subslice_next hle hend, String.append_assoc] at hrest
    rw [split_eq_next_of_not_matchesAt hend hoccurs]
    refine hrest (hclear.push fun back hback => hoccurs ?_)
    exact ForwardStringSearcher.matchesAt_iff_splits.mpr ⟨before, back, hback ▸ hsplits⟩

/-- A text is split as the standard library splits it. -/
theorem splitsInto_split (hseparator : separator ≠ "") (text : String) :
    SplitsInto separator text ((text.split separator).toList.map String.Slice.copy) := by
  have := ForwardStringSearcher.strictPatternModel hseparator
  have := ForwardStringSearcher.lawfulToForwardSearcherModel hseparator
  have hsplits := splitsInto_of_splits separator (Std.le_refl text.toSlice.startPos)
    text.toSlice.splits_startPos (by simpa using clearOf_empty _ _)
  rw [String.split_eq_split_toSlice, String.Slice.toList_split_eq_splitToSubslice,
    String.Slice.Pattern.toList_splitToSubslice_eq_modelSplit, List.map_map]
  simpa using hsplits

end

/-- A text is split in no other way. -/
theorem SplitsInto.unique (hseparator : separator ≠ "") (hparts : SplitsInto separator text parts)
    (hothers : SplitsInto separator text others) : parts = others := by
  induction hparts generalizing others with
  | @last part hclear =>
      generalize htext : part = text at hothers
      cases hothers with
      | last => rfl
      | @cut other rest others _ _ =>
          rw [← String.append_assoc] at htext
          exact absurd htext (ClearOf.not_occurs hseparator hclear other rest)
  | @cut part rest parts hclear hrest ih =>
      generalize htext : part ++ (separator ++ rest) = text at hothers
      cases hothers with
      | last hother =>
          rw [← String.append_assoc] at htext
          exact absurd htext.symm (ClearOf.not_occurs hseparator hother part rest)
      | @cut other behind others hother hothers =>
          have hlength : part.length = other.length := by
            refine Nat.le_antisymm (hclear other behind ?_) (hother part rest ?_)
            · rw [htext, String.append_assoc]
            · rw [← htext, String.append_assoc]
          obtain ⟨rfl, hbehind⟩ := append_inj_of_length_eq htext hlength
          obtain rfl := (String.append_right_inj separator).mp hbehind
          rw [ih hothers]

theorem SplitsInto.ne_nil (hparts : SplitsInto separator text parts) : parts ≠ [] := by
  cases hparts <;> exact List.cons_ne_nil _ _

/-- The parts are joined to the text again. -/
theorem SplitsInto.intercalate_eq (hparts : SplitsInto separator text parts) :
    separator.intercalate parts = text := by
  induction hparts with
  | last => exact String.intercalate_singleton
  | cut _ hrest ih => rw [String.intercalate_cons_of_ne_nil hrest.ne_nil, ih, String.append_assoc]

/-! ## Suffixes are parts that are joined again -/

/-- The parts from the second one on, joined, then those from the third one on, and so forth. -/
def joinedTails (separator : String) (parts : List String) : List String :=
  (List.range' 1 (parts.length - 1)).map fun i => separator.intercalate (parts.drop i)

theorem joinedTails_cons (hparts : parts ≠ []) :
    joinedTails separator (part :: parts) =
      separator.intercalate parts :: joinedTails separator parts := by
  obtain ⟨second, further, rfl⟩ := List.exists_cons_of_ne_nil hparts
  rw [joinedTails, joinedTails, List.length_cons, List.length_cons, Nat.add_sub_cancel,
    Nat.add_sub_cancel, List.range'_succ, List.map_cons, List.drop_one, List.tail_cons,
    ← List.map_add_range', List.map_map]
  simp [Function.comp_def, Nat.add_comm 1]

/-- Nothing is cut off within a part. -/
theorem afterEach_append_of_clear {separator part behind : List Char}
    (hclear : ∀ front, front ++ separator <+: part ++ behind → part.length ≤ front.length) :
    afterEach separator (part ++ behind) = afterEach separator behind := by
  induction part with
  | nil => rfl
  | cons c part ih =>
      rw [List.cons_append, afterEach_cons_of_not_prefix, ih]
      · intro front hoccurs
        have hlength := hclear (c :: front) (List.cons_prefix_cons.mpr ⟨rfl, hoccurs⟩)
        exact Nat.le_of_succ_le_succ hlength
      · intro hoccurs
        exact absurd (hclear [] hoccurs) (Nat.not_succ_le_zero _)

theorem ClearOf.afterEach_append (hclear : ClearOf separator part behind) :
    afterEach separator.toList (part ++ behind).toList = afterEach separator.toList behind.toList := by
  rw [String.toList_append]
  refine afterEach_append_of_clear fun front hoccurs => ?_
  obtain ⟨back, hback⟩ := hoccurs
  have htext : part ++ behind = String.ofList front ++ separator ++ String.ofList back := by
    rw [← String.toList_inj]
    simpa using hback.symm
  have hlength := hclear (String.ofList front) (String.ofList back) htext
  rwa [String.length_ofList] at hlength

theorem SplitsInto.afterEach_eq (hseparator : separator ≠ "")
    (hparts : SplitsInto separator text parts) :
    afterEach separator.toList text.toList = (joinedTails separator parts).map String.toList := by
  induction hparts with
  | @last part hclear =>
      have hnone := hclear.afterEach_append
      rw [String.append_empty] at hnone
      rw [hnone, String.toList_empty, afterEach]
      rfl
  | @cut part rest parts hclear hrest ih =>
      rw [hclear.afterEach_append, String.toList_append, afterEach_append (by simpa using hseparator),
        ih, joinedTails_cons hrest.ne_nil, hrest.intercalate_eq, List.map_cons]

/-! ## Suffixes of suffixes -/

/-- Behind the first separator a text is cut as if nothing stood before it. -/
theorem afterEach_of_cons {separator text part : List Char} {behind : List (List Char)}
    (hparts : afterEach separator text = part :: behind) : afterEach separator part = behind := by
  fun_induction afterEach separator text with
  | case1 => cases hparts
  | case2 =>
      obtain ⟨rfl, rfl⟩ := List.cons.inj hparts
      rfl
  | case3 c rest _ ih => exact ih hparts

/-- Behind every separator a text is cut as if nothing stood before it. -/
theorem afterEach_of_append {separator text part : List Char} {before behind : List (List Char)}
    (hparts : afterEach separator text = before ++ part :: behind) :
    afterEach separator part = behind := by
  induction before generalizing text with
  | nil => exact afterEach_of_cons hparts
  | cons first before ih => exact ih (afterEach_of_cons hparts)

theorem afterEach_pairwise (separator text : List Char) :
    (afterEach separator text).Pairwise
      fun longer shorter => ∃ front, front ≠ [] ∧ longer = front ++ shorter := by
  fun_induction afterEach separator text with
  | case1 => exact .nil
  | case2 c rest hoccurs tail ih => exact .cons (fun _ => exists_front_of_mem_afterEach) ih
  | case3 c rest _ ih => exact ih

/-- The suffixes of a suffix are those after it. -/
theorem scopeSuffixes_of_append {before behind : List String}
    (hsuffixes : scopeSuffixes separator name = before ++ suffix :: behind) :
    scopeSuffixes separator suffix = behind := by
  obtain ⟨shown, rest, hfiltered, -, hrest⟩ := List.map_eq_append_iff.mp hsuffixes
  obtain ⟨part, tail, rfl, rfl, rfl⟩ := List.map_eq_cons_iff.mp hrest
  obtain ⟨cuts, more, hcuts, -, hmore⟩ := List.filter_eq_append_iff.mp hfiltered
  obtain ⟨skipped, after, rfl, -, -, rfl⟩ := List.filter_eq_cons_iff.mp hmore
  rw [← List.append_assoc] at hcuts
  rw [scopeSuffixes, String.toList_ofList, afterEach_of_append hcuts]

theorem scopeSuffixes_eq_filter (hseparator : separator ≠ "") (hparts : SplitsInto separator name parts) :
    scopeSuffixes separator name = (joinedTails separator parts).filter (· ≠ "") := by
  rw [scopeSuffixes, hparts.afterEach_eq hseparator, List.filter_map, List.map_map]
  have hnonempty : (fun part : List Char => !part.isEmpty) ∘ String.toList = (· ≠ "") := by
    funext s
    by_cases hempty : s = "" <;> simp [hempty]
  rw [hnonempty]
  simp [Function.comp_def]

theorem scopeSuffixes_pairwise (separator name : String) :
    (scopeSuffixes separator name).Pairwise
      fun longer shorter => shorter.utf8ByteSize < longer.utf8ByteSize := by
  rw [scopeSuffixes, List.pairwise_map]
  refine ((afterEach_pairwise _ _).filter _).imp ?_
  rintro longer shorter ⟨front, hfront, rfl⟩
  rw [String.ofList_append, String.utf8ByteSize_append]
  have hpos : (String.ofList front).utf8ByteSize ≠ 0 := by simpa using hfront
  omega

theorem exists_cut_of_mem_scopeSuffixes (hseparator : separator ≠ "")
    (hsuffix : suffix ∈ scopeSuffixes separator name) :
    suffix ≠ name ∧ ∃ front, name = front ++ separator ++ suffix := by
  obtain ⟨front, hfront⟩ := exists_cut_of_mem_afterEach (mem_scopeSuffixes.mp hsuffix).2
  have hname : name = String.ofList front ++ separator ++ suffix := by
    rw [← String.toList_inj]
    simpa using hfront
  refine ⟨?_, _, hname⟩
  rintro rfl
  have hpos : separator.length ≠ 0 := by simpa using hseparator
  have hlength := congrArg String.length hname
  rw [String.length_append, String.length_append] at hlength
  omega

/-- A separator splits a name in one way, which is that of the standard library, and the suffixes of the
name are its parts from the second one on, joined, those from the third one on, and so forth, but for empty
ones.  Each is a proper suffix that stands behind the separator, each is shorter than the one before it,
and the suffixes of each are those after it. -/
theorem scopeSuffixes_join_parts (hseparator : separator ≠ "") (name : String) :
    ∃ parts, (name.split separator).toList.map String.Slice.copy = parts ∧
      (∀ others, SplitsInto separator name others ↔ others = parts) ∧
      scopeSuffixes separator name = (joinedTails separator parts).filter (· ≠ "") ∧
      (∀ suffix ∈ scopeSuffixes separator name,
        suffix ≠ name ∧ ∃ front, name = front ++ separator ++ suffix) ∧
      (scopeSuffixes separator name).Pairwise
        (fun longer shorter => shorter.utf8ByteSize < longer.utf8ByteSize) ∧
      ∀ before suffix behind, scopeSuffixes separator name = before ++ suffix :: behind →
        scopeSuffixes separator suffix = behind := by
  have hparts := splitsInto_split hseparator name
  refine ⟨_, rfl, fun others => ⟨fun hothers => hothers.unique hseparator hparts, ?_⟩,
    scopeSuffixes_eq_filter hseparator hparts,
    fun suffix => exists_cut_of_mem_scopeSuffixes hseparator, scopeSuffixes_pairwise separator name,
    fun before suffix behind => scopeSuffixes_of_append⟩
  rintro rfl
  exact hparts

/-- Of three arrows the first two are the separator, and the part behind them begins with the third one.
The last two parts are empty, so the last of the three suffixes is left out. -/
theorem scopeSuffixes_join_parts_arrows :
    ∃ parts, ("a→→→b→→→→".split "→→").toList.map String.Slice.copy = parts ∧
      SplitsInto "→→" "a→→→b→→→→" parts ∧
      (joinedTails "→→" parts).filter (· ≠ "") = ["→b→→→→", "→→"] ∧
      (∃ front, "a→→→b→→→→" = front ++ "→→" ++ "→b→→→→") ∧
      "→→".utf8ByteSize < "→b→→→→".utf8ByteSize ∧
      scopeSuffixes "→→" "→b→→→→" = ["→→"] := by
  have hsuffixes : scopeSuffixes "→→" "a→→→b→→→→" = ["→b→→→→", "→→"] := by decide +kernel
  obtain ⟨parts, hsplit, hunique, hjoined, hcut, hshorter, htail⟩ :=
    scopeSuffixes_join_parts (show "→→" ≠ "" by decide) "a→→→b→→→→"
  rw [hsuffixes] at hjoined hcut hshorter htail
  exact ⟨parts, hsplit, (hunique parts).mpr rfl, hjoined.symm,
    (hcut _ List.mem_cons_self).2, List.rel_of_pairwise_cons hshorter List.mem_cons_self,
    htail [] "→b→→→→" ["→→"] rfl⟩

end PrefixSearch.Text
