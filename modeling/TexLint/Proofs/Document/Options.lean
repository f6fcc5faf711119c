import TexLint.Document.Basic
import TexLint.Document.Options
import TexLint.Proofs.Ordered
import Mathlib.Data.List.TakeWhile

/-!
# The options of several bracket groups

The bracket groups of a command are put together before their options are read, and the options of
several commands are read one command after the other and then put together. This module says when
the two ways agree.

## The model

* `bracketTexts` are the texts of the bracket groups, `groupOptions` the options that each of them
  lists, group by group.
* `OneBlankGroup`: there is one bracket group, and it holds nothing but whitespace.

## What is proved

* `splitOnChar_append`: the parts of two texts with a separator between them.
* `optionMap_eq`: the options are those of the groups one by one, but a blank group counts for
  nothing where it is the only one.
* `optionMap_append`: what comes of the groups in two lists of parameters, and of a blank group
  among others. Elsewhere it gives the option without a name.
-/

namespace TexLint

variable {sep : Char} {text : Text} {P Q : List Parameter}

/-! ### Parts of texts -/

theorem splitOnChar_ne_nil (sep : Char) (text : Text) : splitOnChar sep text ≠ [] := by
  cases text with
  | nil => exact List.cons_ne_nil _ _
  | cons c text =>
    rw [splitOnChar]
    split
    · exact List.cons_ne_nil _ _
    · split <;> exact List.cons_ne_nil _ _

/-- A separator divides the parts before it from those behind it. -/
theorem splitOnChar_append (sep : Char) (a b : Text) :
    splitOnChar sep (a ++ sep :: b) = splitOnChar sep a ++ splitOnChar sep b := by
  induction a with
  | nil => simp [splitOnChar]
  | cons c a ih =>
    rw [List.cons_append, splitOnChar, splitOnChar, ih]
    split
    · rfl
    · obtain ⟨part, parts, hparts⟩ := List.exists_cons_of_ne_nil (splitOnChar_ne_nil sep a)
      rw [hparts, List.cons_append]
      rfl

/-- A text without separators is one part. -/
theorem splitOnChar_of_notMem (h : sep ∉ text) : splitOnChar sep text = [text] := by
  induction text with
  | nil => rfl
  | cons c text ih =>
    rw [List.mem_cons, not_or] at h
    rw [splitOnChar, if_neg (Ne.symm h.1), ih h.2]

/-- The parts of texts with separators between them are the parts of each text. -/
theorem splitOnChar_intersperse (sep : Char) : (texts : List Text) → texts ≠ [] →
    splitOnChar sep (texts.intersperse [sep]).flatten = texts.flatMap (splitOnChar sep)
  | [], h => absurd rfl h
  | [text], _ => by simp
  | text :: next :: texts, _ => by
    rw [List.intersperse_cons_cons, List.flatten_cons, List.flatten_cons, List.singleton_append,
      splitOnChar_append, splitOnChar_intersperse sep (next :: texts) (List.cons_ne_nil _ _)]
    rfl

/-! ### Groups -/

/-- The texts of the bracket groups among some parameters. -/
def bracketTexts (parameters : List Parameter) : List Text :=
  (parameters.filter (!·.isRequired)).map fun p => p.contents.flatMap Content.chars

/-- The options that the bracket groups among some parameters list, with repeats. -/
def groupOptions (parameters : List Parameter) : List (String × String) :=
  (bracketTexts parameters).flatMap fun text => (splitOnChar ',' text).map optionOfPiece

/-- There is one bracket group among some parameters, and it holds nothing but whitespace. -/
def OneBlankGroup (parameters : List Parameter) : Prop :=
  ∃ text, bracketTexts parameters = [text] ∧ isBlank text = true

theorem bracketTexts_append (P Q : List Parameter) :
    bracketTexts (P ++ Q) = bracketTexts P ++ bracketTexts Q := by
  rw [bracketTexts, List.filter_append, List.map_append, ← bracketTexts, ← bracketTexts]

theorem groupOptions_append (P Q : List Parameter) :
    groupOptions (P ++ Q) = groupOptions P ++ groupOptions Q := by
  rw [groupOptions, bracketTexts_append, List.flatMap_append, ← groupOptions, ← groupOptions]

theorem groupOptions_of_nil (h : bracketTexts P = []) : groupOptions P = [] := by
  rw [groupOptions, h, List.flatMap_nil]

theorem OneBlankGroup.ne_nil (h : OneBlankGroup P) : bracketTexts P ≠ [] := by
  obtain ⟨text, htext, -⟩ := h
  rw [htext]
  exact List.cons_ne_nil _ _

theorem not_oneBlankGroup_of_nil (h : bracketTexts P = []) : ¬ OneBlankGroup P :=
  fun hblank => hblank.ne_nil h

/-- Two lists of parameters with bracket groups in both have more than one. -/
theorem not_oneBlankGroup_append (hP : bracketTexts P ≠ []) (hQ : bracketTexts Q ≠ []) :
    ¬ OneBlankGroup (P ++ Q) := by
  rintro ⟨text, htext, -⟩
  rw [bracketTexts_append] at htext
  have hlength := congrArg List.length htext
  rw [List.length_append, List.length_singleton] at hlength
  have := List.length_pos_of_ne_nil hP
  have := List.length_pos_of_ne_nil hQ
  omega

theorem comma_notMem_of_isBlank (h : isBlank text = true) : ',' ∉ text := by
  intro hcomma
  have hspace := List.all_eq_true.mp h _ hcomma
  exact absurd hspace (by decide)

theorem trim_of_isBlank (h : isBlank text = true) : trim text = [] := by
  have hstart : trimStart text = [] :=
    List.dropWhile_eq_nil_iff.mpr fun c hc => List.all_eq_true.mp h c hc
  rw [trim, hstart]
  rfl

/-- A blank group lists one option, which has no name. -/
theorem options_of_isBlank (h : isBlank text = true) :
    (splitOnChar ',' text).map optionOfPiece = [("", "")] := by
  have hequals : ∀ c ∈ text, (c != '=') = true := by
    rintro c hc
    rw [bne_iff_ne]
    rintro rfl
    exact absurd (List.all_eq_true.mp h _ hc) (by decide)
  have hdrop : text.dropWhile (· != '=') = [] := List.dropWhile_eq_nil_iff.mpr hequals
  have htake : text.takeWhile (· != '=') = text := List.takeWhile_eq_self_iff.mpr hequals
  rw [splitOnChar_of_notMem (comma_notMem_of_isBlank h), List.map_singleton, optionOfPiece, htake,
    hdrop, trim_of_isBlank h]
  rfl

theorem groupOptions_of_oneBlankGroup (h : OneBlankGroup P) : groupOptions P = [("", "")] := by
  obtain ⟨text, htext, hblank⟩ := h
  rw [groupOptions, htext, List.flatMap_singleton, options_of_isBlank hblank]

/-! ### Maps -/

theorem joinedOptions_eq (P : List Parameter) :
    joinedOptions P = ((bracketTexts P).intersperse [',']).flatten := rfl

theorem optionMap_of_oneBlankGroup (h : OneBlankGroup P) : optionMap P = .empty := by
  obtain ⟨text, htext, hblank⟩ := h
  have hjoined : joinedOptions P = text := by
    rw [joinedOptions_eq, htext]
    simp
  simp only [optionMap, hjoined, hblank, if_true]

/-- The options are those of the groups one by one, unless the only group is blank. -/
theorem optionMap_eq (h : ¬ OneBlankGroup P) : optionMap P = .ofList (groupOptions P) := by
  by_cases hnil : bracketTexts P = []
  · simp only [optionMap, joinedOptions_eq, groupOptions, hnil]
    rfl
  · have hblank : isBlank (joinedOptions P) = false := by
      rw [joinedOptions_eq]
      rcases hgroups : bracketTexts P with _ | ⟨text, _ | ⟨next, texts⟩⟩
      · exact absurd hgroups hnil
      · rw [List.intersperse_singleton, List.flatten_singleton, ← Bool.not_eq_true]
        exact fun hblank => h ⟨text, hgroups, hblank⟩
      · rw [← Bool.not_eq_true]
        refine mt comma_notMem_of_isBlank (not_not_intro ?_)
        simp
    have hparts : splitOnChar ',' (joinedOptions P) = (bracketTexts P).flatMap (splitOnChar ',') :=
      splitOnChar_intersperse ',' _ hnil
    simp only [optionMap, hblank, Bool.false_eq_true, if_false, hparts, List.map_flatMap,
      groupOptions]

theorem nodup_keys_optionMap (P : List Parameter) : (optionMap P).keys.Nodup := by
  by_cases h : OneBlankGroup P
  · rw [optionMap_of_oneBlankGroup h]
    exact List.nodup_nil
  · rw [optionMap_eq h]
    exact OrderedMap.nodup_keys_ofList _

/-- Where there are bracket groups on both sides, their options are read one by one. -/
theorem optionMap_append_of_ne_nil (hP : bracketTexts P ≠ []) (hQ : bracketTexts Q ≠ []) :
    optionMap (P ++ Q) =
      (OrderedMap.ofList (groupOptions P)).extend (.ofList (groupOptions Q)) := by
  rw [optionMap_eq (not_oneBlankGroup_append hP hQ), groupOptions_append, OrderedMap.ofList_append]

/-- The option without a name comes first for good only if it is the first one anyway. -/
theorem single_extend_eq_iff {m : OptionMap} (h : m.keys.Nodup) :
    (OrderedMap.ofList [("", "")]).extend m = m ↔ m.keys.head? = some "" := by
  constructor
  · intro heq
    have hprefix := OrderedMap.prefix_keys_extend (OrderedMap.ofList [("", "")]) m
    rw [heq] at hprefix
    obtain ⟨rest, hrest⟩ := hprefix
    rw [← hrest]
    rfl
  · intro hhead
    obtain ⟨entries⟩ := m
    cases entries with
    | nil => cases hhead
    | cons e rest =>
      obtain ⟨k, v⟩ := e
      obtain rfl : k = "" := Option.some.inj hhead
      -- The first binding gives the name its value, as it does in the empty map.
      exact OrderedMap.empty_extend h

theorem optionMap_of_nil (h : bracketTexts P = []) : optionMap P = .empty := by
  rw [optionMap_eq (not_oneBlankGroup_of_nil h), groupOptions_of_nil h]
  rfl

/-- Only bracket groups hold options. -/
theorem optionMap_congr (h : bracketTexts P = bracketTexts Q) : optionMap P = optionMap Q := by
  rw [optionMap, optionMap, joinedOptions_eq, joinedOptions_eq, h]

/-- Where one list has no bracket group, the options are those of the other one. -/
theorem optionMap_append_of_nil (h : bracketTexts P = [] ∨ bracketTexts Q = []) :
    optionMap (P ++ Q) = (optionMap P).extend (optionMap Q) := by
  rcases h with hP | hQ
  · have hsame : bracketTexts (P ++ Q) = bracketTexts Q := by
      rw [bracketTexts_append, hP, List.nil_append]
    rw [optionMap_congr hsame, optionMap_of_nil hP,
      OrderedMap.empty_extend (nodup_keys_optionMap Q)]
  · have hsame : bracketTexts (P ++ Q) = bracketTexts P := by
      rw [bracketTexts_append, hQ, List.append_nil]
    rw [optionMap_congr hsame, optionMap_of_nil hQ, OrderedMap.extend_empty]

/-- A blank group puts the option without a name before those of the other groups. -/
theorem optionMap_blank_append_iff (hP : OneBlankGroup P) (hQ : bracketTexts Q ≠ [])
    (hblank : ¬ OneBlankGroup Q) :
    optionMap (P ++ Q) = (optionMap P).extend (optionMap Q) ↔
      (optionMap Q).keys.head? = some "" := by
  have hnodup := nodup_keys_optionMap Q
  rw [optionMap_append_of_ne_nil hP.ne_nil hQ, groupOptions_of_oneBlankGroup hP,
    ← optionMap_eq hblank, optionMap_of_oneBlankGroup hP, OrderedMap.empty_extend hnodup,
    single_extend_eq_iff hnodup]

/-- A blank group puts the option without a name behind those of the other groups. -/
theorem optionMap_append_blank_iff (hP : bracketTexts P ≠ []) (hQ : OneBlankGroup Q)
    (hblank : ¬ OneBlankGroup P) :
    optionMap (P ++ Q) = (optionMap P).extend (optionMap Q) ↔
      (optionMap P).get? "" = some "" := by
  have hinsert : (optionMap P).extend (.ofList (groupOptions Q)) =
      (optionMap P).insert "" "" := by
    rw [groupOptions_of_oneBlankGroup hQ]
    rfl
  rw [optionMap_append_of_ne_nil hP hQ.ne_nil, ← optionMap_eq hblank, hinsert,
    optionMap_of_oneBlankGroup hQ, OrderedMap.extend_empty]
  refine ⟨fun heq => ?_, OrderedMap.insert_of_get?⟩
  rw [← heq, OrderedMap.get?_insert]
  rfl

/-- Two blank groups give the option without a name, though each of them gives nothing. -/
theorem optionMap_append_ne_extend (hP : OneBlankGroup P) (hQ : OneBlankGroup Q) :
    optionMap (P ++ Q) ≠ (optionMap P).extend (optionMap Q) := by
  rw [optionMap_append_of_ne_nil hP.ne_nil hQ.ne_nil, groupOptions_of_oneBlankGroup hP,
    groupOptions_of_oneBlankGroup hQ, optionMap_of_oneBlankGroup hP,
    optionMap_of_oneBlankGroup hQ]
  decide

/-- A blank group counts for nothing where there is no other one, and gives the option without a
name at its place where there is. -/
theorem optionMap_append_cons_of_blank {p : Parameter} (hp : OneBlankGroup [p]) :
    optionMap (P ++ p :: Q) = if bracketTexts (P ++ Q) = [] then .empty
      else .ofList (groupOptions P ++ ("", "") :: groupOptions Q) := by
  have hoptions : groupOptions (P ++ p :: Q) = groupOptions P ++ ("", "") :: groupOptions Q := by
    rw [groupOptions_append, ← List.singleton_append, groupOptions_append,
      groupOptions_of_oneBlankGroup hp]
    rfl
  obtain ⟨text, htext, hblank⟩ := hp
  have htexts : bracketTexts (P ++ p :: Q) = bracketTexts P ++ text :: bracketTexts Q := by
    rw [bracketTexts_append, ← List.singleton_append, bracketTexts_append, htext]
    rfl
  rw [← hoptions, bracketTexts_append]
  split
  · next hnil =>
    obtain ⟨hP, hQ⟩ := List.append_eq_nil_iff.mp hnil
    rw [hP, hQ] at htexts
    exact optionMap_of_oneBlankGroup ⟨text, htexts, hblank⟩
  · next hne =>
    refine optionMap_eq ?_
    rintro ⟨other, hother, -⟩
    rw [htexts] at hother
    refine hne ?_
    rcases List.append_eq_singleton_iff.mp hother with ⟨hP, hrest⟩ | ⟨-, hrest⟩
    · rw [hP, List.nil_append, (List.cons.inj hrest).2]
    · cases hrest

/-- The options of two lists of parameters are those of the first one with those of the second one
on top, unless one list has a blank group only and the other one has bracket groups too. Then the
blank group gives the option without a name, so that the two agree only if that option comes first
without it, or has no value. Among other bracket groups a blank one gives this option always. -/
theorem optionMap_append (P Q : List Parameter) :
    (optionMap (P ++ Q) = (optionMap P).extend (optionMap Q) ↔
      (OneBlankGroup P → bracketTexts Q = [] ∨ (optionMap Q).keys.head? = some "") ∧
      (OneBlankGroup Q → bracketTexts P = [] ∨ (optionMap P).get? "" = some "")) ∧
    ∀ p, OneBlankGroup [p] → optionMap (P ++ p :: Q) =
      if bracketTexts (P ++ Q) = [] then .empty
      else .ofList (groupOptions P ++ ("", "") :: groupOptions Q) := by
  refine ⟨?_, fun p hp => optionMap_append_cons_of_blank hp⟩
  by_cases hP : bracketTexts P = []
  · exact iff_of_true (optionMap_append_of_nil (.inl hP))
      ⟨fun h => absurd hP h.ne_nil, fun _ => .inl hP⟩
  by_cases hQ : bracketTexts Q = []
  · exact iff_of_true (optionMap_append_of_nil (.inr hQ))
      ⟨fun _ => .inl hQ, fun h => absurd hQ h.ne_nil⟩
  rw [or_iff_right hP, or_iff_right hQ]
  by_cases hblankP : OneBlankGroup P
  · by_cases hblankQ : OneBlankGroup Q
    · refine iff_of_false (optionMap_append_ne_extend hblankP hblankQ) fun h => ?_
      have hhead := h.1 hblankP
      rw [optionMap_of_oneBlankGroup hblankQ] at hhead
      cases hhead
    · rw [optionMap_blank_append_iff hblankP hQ hblankQ]
      simp [hblankP, hblankQ]
  · by_cases hblankQ : OneBlankGroup Q
    · rw [optionMap_append_blank_iff hP hblankQ hblankP]
      simp [hblankP, hblankQ]
    · rw [optionMap_append_of_ne_nil hP hQ, ← optionMap_eq hblankP, ← optionMap_eq hblankQ]
      simp [hblankP, hblankQ]

/-- The blank group of `\cmd[a][ ][b=c]` gives the option without a name between the other two. -/
theorem optionMap_append_between :
    let p : Parameter := ⟨.optional, 4, "[a]".toList, [.text "a".toList]⟩
    let blank : Parameter := ⟨.optional, 7, "[ ]".toList, [.text " ".toList]⟩
    let q : Parameter := ⟨.optional, 10, "[b=c]".toList, [.text "b=c".toList]⟩
    ((Document.read "main.tex" "\\cmd[a][ ][b=c]".toList).commands.map (·.parameters) =
      [[p, blank, q]]) ∧ OneBlankGroup [blank] ∧
      optionMap ([p] ++ blank :: [q]) = ⟨[("a", ""), ("", ""), ("b", "c")]⟩ := by
  intro p blank q
  have hblank : OneBlankGroup [blank] := ⟨" ".toList, rfl, rfl⟩
  have hmap := (optionMap_append [p] [q]).2 blank hblank
  refine ⟨by decide +kernel, hblank, hmap.trans ?_⟩
  decide +kernel

/-- In `\cmd[ ][ ]` neither group has an option, but the two together have one. -/
theorem optionMap_append_two_blank :
    let p : Parameter := ⟨.optional, 4, "[ ]".toList, [.text " ".toList]⟩
    let q : Parameter := ⟨.optional, 7, "[ ]".toList, [.text " ".toList]⟩
    ((Document.read "main.tex" "\\cmd[ ][ ]".toList).commands.map (·.parameters) = [[p, q]]) ∧
      optionMap [p] = .empty ∧ optionMap [q] = .empty ∧ optionMap ([p] ++ [q]) = ⟨[("", "")]⟩ ∧
      optionMap ([p] ++ [q]) ≠ (optionMap [p]).extend (optionMap [q]) := by
  decide +kernel

end TexLint
