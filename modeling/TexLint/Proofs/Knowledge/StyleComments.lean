import TexLint.Proofs.Knowledge.Comments

/-!
# Scanning style files with comments

What a style file is found to define and to load depends on its comments, since the scan looks at
them too. This module says when it does not.

## The model

* `StyleFile.NoneInComments`: no occurrence of a pattern begins in a comment.
* `StyleFile.ClearGroups`, `StyleFile.ClearLoads`: the groups behind the word that loads packages
  are closed outside comments, and no comment in the braces has a text.

## What is proved

* `StyleFile.finds_commandDefinition` and its siblings: outside comments, a pattern finds the same
  when they are emptied. For a load this needs clear groups.
* `StyleFile.occurrences_emptyComments`: so it occurs the same in the whole text, if it finds
  nothing in a comment.
* `PackageContents.ofStyleFile_emptyComments`: so the style file is found to define and to load the
  same.
-/

namespace TexLint

namespace StyleFile

variable {p : Context} {c : Char} {text rest w : Text} {q : Char → Bool}

/-! ### The parts of patterns -/

theorem skips_dropWhile (hescape : q '\\' = false) (hsign : q '%' = false) (w : Text) :
    Skips (List.dropWhile q) w := by
  have hcode : Context.code.after (w.takeWhile q) = .code :=
    Context.after_eq_code (notMem_takeWhile hescape w) (notMem_takeWhile hsign w)
  refine ⟨?_, w.takeWhile q, List.takeWhile_append_dropWhile.symm, hcode⟩
  rw [(plainRun_emptyComments Context.noConfusion hsign).2, hcode]

theorem skips_trimStart (w : Text) : Skips trimStart w :=
  skips_dropWhile (by decide) (by decide) w

theorem skips_skipOptional (hescape : c ≠ '\\') (hsign : c ≠ '%') (w : Text) :
    Skips (skipOptional c) w := by
  cases w with
  | nil => exact .of_stays rfl rfl
  | cons d rest =>
    have hemptied := emptyComments_cons (p := .code) Context.noConfusion d rest
    by_cases hd : d = c
    · subst hd
      have hnext : Context.code.next d = .code :=
        Context.next_eq_code Context.noConfusion hescape hsign
      have hskip (rest : Text) : skipOptional d (d :: rest) = rest := if_pos rfl
      refine ⟨?_, [d], (hskip rest).symm ▸ rfl, hnext⟩
      rw [hemptied, hskip, hskip, hnext]
    · have hstays (rest : Text) : skipOptional c (d :: rest) = d :: rest := if_neg hd
      exact .of_stays (hstays _) (hemptied ▸ hstays _)

theorem skipBrackets_of_ne (h : c ≠ '[') (rest : Text) : skipBrackets (c :: rest) = c :: rest := by
  unfold skipBrackets
  split
  · next heq => exact absurd (List.cons.inj heq).1 h
  · rfl

theorem skipBrackets_of_closed {inner behind : Text}
    (h : inner.dropWhile (· != ']') = c :: behind) : skipBrackets ('[' :: inner) = behind := by
  simp only [skipBrackets, h]

theorem skipBrackets_of_not_closed {inner : Text} (h : inner.dropWhile (· != ']') = []) :
    skipBrackets ('[' :: inner) = '[' :: inner := by
  simp only [skipBrackets, h]

/-- A bracket group is gone over if its closing bracket stands outside comments. -/
theorem skips_skipBrackets (h : ∀ inner, w = '[' :: inner → inner.dropWhile (· != ']') ≠ [] →
    Context.code.after (inner.takeWhile (· != ']')) ≠ .comment) : Skips skipBrackets w := by
  cases w with
  | nil => exact .of_stays rfl rfl
  | cons c inner =>
    have hemptied := emptyComments_cons (p := .code) Context.noConfusion c inner
    by_cases hc : c = '['
    · subst hc
      have hclear := h inner rfl
      have hdrop := (run_emptyComments hclear).2
      cases hrest : inner.dropWhile (· != ']') with
      | nil =>
        rw [hrest] at hdrop
        refine .of_stays (skipBrackets_of_not_closed hrest) ?_
        rw [hemptied]
        exact skipBrackets_of_not_closed hdrop
      | cons d behind =>
        obtain rfl : d = ']' := by simpa using stop_of_dropWhile hrest
        have hafter := hclear (by simp [hrest])
        have hclose : (Context.code.after (inner.takeWhile (· != ']'))).next ']' = .code :=
          Context.next_eq_code hafter (by decide) (by decide)
        rw [hrest, emptyComments_cons hafter, hclose] at hdrop
        constructor
        · rw [skipBrackets_of_closed hrest, hemptied]
          exact skipBrackets_of_closed hdrop
        · rw [skipBrackets_of_closed hrest]
          exact (takes_run (p := .code) (c := '[') hrest hclose).goesOn
    · exact .of_stays (skipBrackets_of_ne hc _) (hemptied ▸ skipBrackets_of_ne hc _)

theorem controlWord?_of_ne (h : c ≠ '\\') (rest : Text) : controlWord? (c :: rest) = none := by
  unfold controlWord?
  split
  · next heq => exact absurd (List.cons.inj heq).1 h
  · rfl

/-- The name of a control word holds no comment. -/
theorem finds_controlWord? (w : Text) : Finds .code controlWord? w := by
  cases w with
  | nil => exact .of_none rfl rfl
  | cons c rest =>
    have hemptied := emptyComments_cons (p := .code) Context.noConfusion c rest
    by_cases hc : c = '\\'
    · subst hc
      have hword (rest : Text) : controlWord? ('\\' :: rest) =
          if (rest.takeWhile isNameChar).isEmpty then none
          else some (rest.takeWhile isNameChar, rest.dropWhile isNameChar) := rfl
      obtain ⟨htake, hdrop⟩ := plainRun_emptyComments (p := .escaped) (q := isNameChar) (w := rest)
        Context.noConfusion (by decide)
      have hnext : Context.code.next '\\' = .escaped := rfl
      rw [hnext] at hemptied
      by_cases hname : rest.takeWhile isNameChar = []
      · refine .of_none ?_ ?_
        · rw [hword, hname, List.isEmpty_nil, if_pos rfl]
        · rw [hemptied, hword, htake, hname, List.isEmpty_nil, if_pos rfl]
      · have hsome : ¬ (rest.takeWhile isNameChar).isEmpty := by simpa using hname
        have hcode : Context.escaped.after (rest.takeWhile isNameChar) = .code :=
          Context.after_word (p := .code) Context.noConfusion hname
            (notMem_takeWhile (by decide) rest) (notMem_takeWhile (by decide) rest)
        rw [hcode] at hdrop
        refine .of_some ((hword rest).trans (if_neg hsome)) ?_
          ⟨'\\', rest.takeWhile isNameChar, ?_, hcode⟩
        · rw [hemptied, hword, htake, hdrop, if_neg hsome]
        · rw [List.takeWhile_append_dropWhile]
    · exact .of_none (controlWord?_of_ne hc _) (hemptied ▸ controlWord?_of_ne hc _)

theorem braced?_of_ne (h : c ≠ '{') (rest : Text) : braced? q (c :: rest) = none := by
  unfold braced?
  split
  · next heq => exact absurd (List.cons.inj heq).1 h
  · rfl

theorem braced?_of_closed {list behind : Text} (h : list.dropWhile q = '}' :: behind) :
    braced? q ('{' :: list) = some (list.takeWhile q, behind) := by
  simp only [braced?, h]

theorem braced?_of_nil {list : Text} (h : list.dropWhile q = []) :
    braced? q ('{' :: list) = none := by
  simp only [braced?, h]

theorem braced?_of_stop {list behind : Text} (h : list.dropWhile q = c :: behind) (hc : c ≠ '}') :
    braced? q ('{' :: list) = none := by
  simp only [braced?, h]
  split
  · next heq => exact absurd (List.cons.inj heq).1 hc
  · rfl

/-- The interior of a brace group is found if nothing in it and not its closing brace stands in
a comment. -/
theorem finds_braced? (h : ∀ list, w = '{' :: list → list.dropWhile q ≠ [] →
    Context.code.after (list.takeWhile q) ≠ .comment ∧
      emptyComments .code (list.takeWhile q) = list.takeWhile q) :
    Finds .code (braced? q) w := by
  cases w with
  | nil => exact .of_none rfl rfl
  | cons c list =>
    have hemptied := emptyComments_cons (p := .code) Context.noConfusion c list
    by_cases hc : c = '{'
    · subst hc
      have hclear := h list rfl
      obtain ⟨htake, hdrop⟩ := run_emptyComments fun hne => (hclear hne).1
      have hnext : Context.code.next '{' = .code := rfl
      rw [hnext] at hemptied
      cases hrest : list.dropWhile q with
      | nil =>
        rw [hrest] at hdrop
        exact .of_none (braced?_of_nil hrest) (hemptied ▸ braced?_of_nil hdrop)
      | cons d behind =>
        obtain ⟨hafter, hrun⟩ := hclear (by simp [hrest])
        rw [hrest, emptyComments_cons hafter] at hdrop
        by_cases hd : d = '}'
        · subst hd
          have hclose : (Context.code.after (list.takeWhile q)).next '}' = .code :=
            Context.next_eq_code hafter (by decide) (by decide)
          rw [hclose] at hdrop
          refine .of_some (braced?_of_closed hrest) ?_
            (takes_run (p := .code) (c := '{') hrest hclose)
          rw [hemptied, braced?_of_closed hdrop, htake, hrun]
        · exact .of_none (braced?_of_stop hrest hd) (hemptied ▸ braced?_of_stop hdrop hd)
    · exact .of_none (braced?_of_ne hc _) (hemptied ▸ braced?_of_ne hc _)

/-! ### Control words -/

/-- A text without comment signs stands at the beginning of code also when the comments are
emptied. -/
theorem prefix_emptyComments_iff {chars : Text} (hp : p ≠ .comment) (hsign : '%' ∉ chars) :
    chars <+: emptyComments p text ↔ chars <+: text := by
  induction chars generalizing p text with
  | nil => exact iff_of_true List.nil_prefix List.nil_prefix
  | cons c chars ih =>
    rw [List.mem_cons, not_or] at hsign
    cases text with
    | nil => rfl
    | cons d text =>
      rw [emptyComments_cons hp, List.cons_prefix_cons, List.cons_prefix_cons]
      refine and_congr_right fun hcd => ih (Context.next_ne_comment hp ?_) hsign.2
      exact hcd ▸ Ne.symm hsign.1

/-- Control words with a name, and with neither backslashes nor comment signs in it. -/
def PlainWords (words : List String) : Prop :=
  ∀ word ∈ words, word.toList ≠ [] ∧ '\\' ∉ word.toList ∧ '%' ∉ word.toList

instance : DecidablePred PlainWords := fun words =>
  inferInstanceAs (Decidable (∀ word ∈ words,
    word.toList ≠ [] ∧ '\\' ∉ word.toList ∧ '%' ∉ word.toList))

/-- A control word begins with a backslash. -/
theorem afterWord?_of_ne (words : List String) (h : c ≠ '\\') (rest : Text) :
    afterWord? words (c :: rest) = none := by
  refine List.findSome?_eq_none_iff.mpr fun word _ => if_neg ?_
  simp [List.isPrefixOf, Ne.symm h]

theorem afterWord?_cons_append (word : String) (words : List String) (rest : Text) :
    afterWord? (word :: words) ('\\' :: word.toList ++ rest) = some rest := by
  have hprefix : ('\\' :: word.toList).isPrefixOf ('\\' :: word.toList ++ rest) = true :=
    List.isPrefixOf_iff_prefix.mpr (List.prefix_append _ _)
  rw [afterWord?, List.findSome?_cons, if_pos hprefix, List.drop_left]

theorem afterWord?_cons_of_not {word : String} (words : List String)
    (h : ¬ '\\' :: word.toList <+: text) :
    afterWord? (word :: words) text = afterWord? words text := by
  have hprefix : ¬ ('\\' :: word.toList).isPrefixOf text = true := by
    rwa [List.isPrefixOf_iff_prefix]
  rw [afterWord?, List.findSome?_cons, if_neg hprefix, ← afterWord?]

/-- The same control word stands at the beginning of code when the comments are emptied, and there
is code behind it. -/
theorem afterWord?_emptyComments {words : List String} (hp : p ≠ .comment)
    (hwords : PlainWords words) (text : Text) :
    afterWord? words (emptyComments p text) = (afterWord? words text).map (emptyComments .code) ∧
      ∀ rest ∈ afterWord? words text, GoesOn p text rest := by
  induction words with
  | nil => exact ⟨rfl, fun _ h => nomatch h⟩
  | cons word words ih =>
    obtain ⟨⟨hne, hescape, hname⟩, hwords⟩ := List.forall_mem_cons.mp hwords
    have hsign : '%' ∉ '\\' :: word.toList := by
      rw [List.mem_cons, not_or]
      exact ⟨by decide, hname⟩
    by_cases hprefix : '\\' :: word.toList <+: text
    · obtain ⟨rest, rfl⟩ := hprefix
      have hcode : p.after ('\\' :: word.toList) = .code := Context.after_word hp hne hescape hname
      rw [emptyComments_append, hcode, emptyComments_of_notMem hp hsign, afterWord?_cons_append,
        afterWord?_cons_append]
      refine ⟨rfl, fun rest hrest => ?_⟩
      cases hrest
      exact ⟨_, rfl, hcode⟩
    · rw [afterWord?_cons_of_not words hprefix,
        afterWord?_cons_of_not words ((prefix_emptyComments_iff hp hsign).not.mpr hprefix)]
      exact ih hwords

/-- A pattern that begins with a control word finds the same in code when what follows the word
is found. -/
theorem finds_word {words : List String} {pattern : Pattern} (hp : p ≠ .comment)
    (hwords : PlainWords words) (h : ∀ rest ∈ afterWord? words text, Finds .code pattern rest) :
    Finds p (fun text => (afterWord? words text).bind pattern) text := by
  obtain ⟨hword, hgoes⟩ := afterWord?_emptyComments hp hwords text
  cases hrest : afterWord? words text with
  | none =>
    rw [hrest] at hword
    exact .of_none (by rw [hrest, Option.bind_none]) (by rw [hword]; rfl)
  | some rest =>
    rw [hrest] at hword h hgoes
    constructor
    · rw [hword, hrest]
      exact (h rest rfl).emptied
    · rw [hrest]
      exact fun found hfound => (hgoes rest rfl).takes ((h rest rfl).takes found hfound)

/-! ### The patterns -/

theorem finds_commandDefinition (hp : p ≠ .comment) (text : Text) :
    Finds p commandDefinition text := by
  refine finds_word hp (by decide +kernel) fun rest _ => ?_
  have hstar : Skips (skipOptional '*') rest := skips_skipOptional (by decide) (by decide) rest
  have hbrace := (hstar.comp (skips_trimStart _)).comp
    (skips_skipOptional (c := '{') (by decide) (by decide) _)
  exact Finds.comp (hbrace.comp (skips_trimStart _)) (finds_controlWord? _)

theorem finds_primitiveDefinition (hp : p ≠ .comment) (text : Text) :
    Finds p primitiveDefinition text :=
  finds_word hp (by decide +kernel) fun rest _ =>
    Finds.comp (skips_trimStart rest) (finds_controlWord? _)

/-- The name of an environment holds no comment. -/
theorem finds_environmentDefinition (hp : p ≠ .comment) (text : Text) :
    Finds p environmentDefinition text := by
  refine finds_word hp (by decide +kernel) fun rest _ => ?_
  have hstar : Skips (skipOptional '*') rest := skips_skipOptional (by decide) (by decide) rest
  have hsign (list : Text) : '%' ∉ list.takeWhile isEnvironmentChar :=
    notMem_takeWhile (by decide) list
  have hbraced := Finds.comp (hstar.comp (skips_trimStart _)) <|
    finds_braced? (q := isEnvironmentChar) fun list _ _ =>
      ⟨Context.after_ne_comment Context.noConfusion (hsign list),
        emptyComments_of_notMem Context.noConfusion (hsign list)⟩
  exact hbraced.filter (!·.isEmpty)

/-- What stands between an opening character at the beginning of a text and the first closing one,
if both are there. -/
def interior? (opening closing : Char) : Text → Option Text
  | [] => none
  | c :: rest =>
    if c = opening ∧ closing ∈ rest then some (rest.takeWhile (· != closing)) else none

theorem interior?_cons (opening : Char) {closing : Char}
    (h : rest.dropWhile (· != closing) ≠ []) :
    interior? opening closing (opening :: rest) = some (rest.takeWhile (· != closing)) := by
  refine if_pos ⟨rfl, ?_⟩
  obtain ⟨c, hc, hclosing⟩ : ∃ c ∈ rest, ¬ (c != closing) = true := by
    simpa [List.dropWhile_eq_nil_iff] using h
  obtain rfl : c = closing := by simpa using hclosing
  exact hc

/-- The groups behind the word that loads packages are clear of comments: the brackets are closed
outside comments, and so are the braces, in which no comment has a text. -/
def ClearGroups (rest : Text) : Prop :=
  (∀ inner ∈ interior? '[' ']' (trimStart rest), Context.code.after inner ≠ .comment) ∧
    ∀ list ∈ interior? '{' '}' (trimStart (skipBrackets (trimStart rest))),
      Context.code.after list ≠ .comment ∧ emptyComments .code list = list

instance : DecidablePred ClearGroups := fun rest =>
  inferInstanceAs (Decidable ((∀ inner ∈ interior? '[' ']' (trimStart rest),
      Context.code.after inner ≠ .comment) ∧
    ∀ list ∈ interior? '{' '}' (trimStart (skipBrackets (trimStart rest))),
      Context.code.after list ≠ .comment ∧ emptyComments .code list = list))

/-- A load with clear groups is found. -/
theorem finds_packageLoad (hp : p ≠ .comment)
    (h : ∀ rest ∈ afterWord? ["RequirePackage"] text, ClearGroups rest) :
    Finds p packageLoad text := by
  refine finds_word hp (by decide +kernel) fun rest hrest => ?_
  obtain ⟨hbrackets, hbraces⟩ := h rest hrest
  have hskips : Skips skipBrackets (trimStart rest) := by
    refine skips_skipBrackets fun inner hinner hne => hbrackets _ ?_
    rw [hinner, interior?_cons _ hne]
    rfl
  refine Finds.comp (((skips_trimStart rest).comp hskips).comp (skips_trimStart _)) ?_
  refine finds_braced? fun list hlist hne => hbraces _ ?_
  rw [hlist, interior?_cons _ hne]
  rfl

end StyleFile

/-! ### Occurrences -/

section

variable {pattern : Pattern} {c : Char} {name rest behind : Text}

theorem occurrences_cons_of_none (h : pattern (c :: rest) = none) :
    occurrences pattern (c :: rest) = occurrences pattern rest := by
  simp only [occurrences, occurrencesFrom, h]

theorem occurrencesFrom_append (pattern : Pattern) (taken behind : Text) :
    occurrencesFrom pattern taken.length (taken ++ behind) = occurrences pattern behind := by
  induction taken with
  | nil => rfl
  | cons c taken ih => exact ih

/-- The search goes on behind what an occurrence takes. -/
theorem occurrences_cons_of_some {taken : Text}
    (h : pattern (c :: (taken ++ behind)) = some (name, behind)) :
    occurrences pattern (c :: (taken ++ behind)) = name :: occurrences pattern behind := by
  have hskip : (taken ++ behind).length - behind.length = taken.length := by
    rw [List.length_append, Nat.add_sub_cancel]
  rw [occurrences, occurrencesFrom, h]
  simp only [hskip, occurrencesFrom_append]

end

namespace StyleFile

variable {p : Context} {pattern : Pattern} {text : Text}

/-- Comments do not matter for a pattern in a text: it finds nothing at a place in one, and the
same at all other places when they are emptied. -/
structure Unaffected (pattern : Pattern) (p : Context) (text : Text) : Prop where
  /-- No occurrence begins in a comment. -/
  comment : ∀ before rest, text = before ++ rest → p.after before = .comment → pattern rest = none
  /-- Outside comments the same is found. -/
  code : ∀ before rest, text = before ++ rest → p.after before ≠ .comment →
    Finds (p.after before) pattern rest

theorem Unaffected.drop (before : Text) {rest : Text}
    (h : Unaffected pattern p (before ++ rest)) :
    Unaffected pattern (p.after before) rest where
  comment := fun a b hrest hcomment =>
    h.comment (before ++ a) b (by rw [hrest, List.append_assoc])
      (by rw [Context.after_append, hcomment])
  code := fun a b hrest hcode => by
    rw [← Context.after_append] at hcode ⊢
    exact h.code (before ++ a) b (by rw [hrest, List.append_assoc]) hcode

/-- Nothing begins at a character of a comment, whether it stays or goes. -/
theorem occurrences_emptyComments_comment {c : Char} {rest : Text}
    (hword : ∀ c rest, c ≠ '\\' → pattern (c :: rest) = none) :
    occurrences pattern (emptyComments .comment (c :: rest)) =
      occurrences pattern (emptyComments (Context.comment.next c) rest) := by
  cases hend : endsLine c with
  | false =>
    rw [emptyComments, if_pos ⟨rfl, hend⟩, Context.next, hend]
    rfl
  | true =>
    have hc : c ≠ '\\' := by
      rintro rfl
      cases hend
    have hnot : ¬ (Context.comment = .comment ∧ endsLine c = false) := by simp [hend]
    rw [emptyComments, if_neg hnot, occurrences_cons_of_none (hword c _ hc)]

/-- A pattern that comments do not matter for occurs the same when they are emptied. -/
theorem occurrences_emptyComments (hword : ∀ c rest, c ≠ '\\' → pattern (c :: rest) = none)
    (h : Unaffected pattern p text) :
    occurrences pattern (emptyComments p text) = occurrences pattern text := by
  -- The search goes on behind what an occurrence takes, so the induction is on the length.
  induction hn : text.length using Nat.strong_induction_on generalizing p text with
  | h n ih =>
    cases text with
    | nil => rfl
    | cons c rest =>
      have hlt : rest.length < n := by
        rw [← hn]
        exact Nat.lt_succ_self _
      have hrest : Unaffected pattern (p.next c) rest := h.drop [c]
      by_cases hp : p = .comment
      · subst hp
        have hnone : pattern (c :: rest) = none := h.comment [] _ rfl rfl
        rw [occurrences_cons_of_none hnone, occurrences_emptyComments_comment hword,
          ih _ hlt hrest rfl]
      · have hfinds : Finds p pattern (c :: rest) := h.code [] _ rfl hp
        have hemptied := hfinds.emptied
        rw [emptyComments_cons hp] at hemptied ⊢
        cases hfound : pattern (c :: rest) with
        | none =>
          rw [hfound, Option.map_none] at hemptied
          rw [occurrences_cons_of_none hfound, occurrences_cons_of_none hemptied,
            ih _ hlt hrest rfl]
        | some found =>
          obtain ⟨d, taken, htext, hcode⟩ := hfinds.takes found hfound
          obtain ⟨rfl, rfl⟩ := List.cons.inj htext
          have hbehind : Unaffected pattern .code found.2 := hcode ▸ hrest.drop taken
          rw [hfound, Option.map_some] at hemptied
          rw [emptyComments_append, hcode] at hemptied ⊢
          rw [occurrences_cons_of_some hfound, occurrences_cons_of_some hemptied,
            ih found.2.length ?_ hbehind rfl]
          refine Nat.lt_of_le_of_lt ?_ hlt
          rw [List.length_append]
          exact Nat.le_add_left _ _

/-- No occurrence of a pattern begins in a comment. -/
def NoneInComments (pattern : Pattern) (text : Text) : Prop :=
  ∀ i ≤ text.length, Context.code.after (text.take i) = .comment → pattern (text.drop i) = none

instance (pattern : Pattern) : DecidablePred (NoneInComments pattern) := fun text =>
  inferInstanceAs (Decidable (∀ i ≤ text.length,
    Context.code.after (text.take i) = .comment → pattern (text.drop i) = none))

/-- Outside comments, the groups behind every word that loads packages are clear of comments. -/
def ClearLoads (text : Text) : Prop :=
  ∀ i ≤ text.length, Context.code.after (text.take i) ≠ .comment →
    ∀ rest ∈ afterWord? ["RequirePackage"] (text.drop i), ClearGroups rest

instance : DecidablePred ClearLoads := fun text =>
  inferInstanceAs (Decidable (∀ i ≤ text.length, Context.code.after (text.take i) ≠ .comment →
    ∀ rest ∈ afterWord? ["RequirePackage"] (text.drop i), ClearGroups rest))

/-- A pattern with a control word at its beginning occurs the same when the comments are emptied, if
no occurrence begins in one. -/
theorem occurrences_of_noneInComments {words : List String} {tail : Pattern}
    (h : NoneInComments (fun text => (afterWord? words text).bind tail) text)
    (hcode : ∀ i ≤ text.length, Context.code.after (text.take i) ≠ .comment →
      Finds (Context.code.after (text.take i)) (fun text => (afterWord? words text).bind tail)
        (text.drop i)) :
    occurrences (fun text => (afterWord? words text).bind tail) (emptyComments .code text) =
      occurrences (fun text => (afterWord? words text).bind tail) text := by
  refine occurrences_emptyComments (fun c rest hc => ?_) ⟨?_, ?_⟩
  · rw [afterWord?_of_ne words hc, Option.bind_none]
  all_goals
    rintro before rest rfl hbefore
    have hle : before.length ≤ (before ++ rest).length := by simp
  · have hnone := h _ hle
    rw [List.take_left, List.drop_left] at hnone
    exact hnone hbefore
  · have hfinds := hcode _ hle
    rw [List.take_left, List.drop_left] at hfinds
    exact hfinds hbefore

end StyleFile

namespace PackageContents

open StyleFile

/-- What a style file defines and loads does not depend on what stands in its comments, if no
occurrence of a definition or a load begins in one and, for the loads, the groups behind their word
are clear of comments. -/
theorem ofStyleFile_emptyComments (text : Text) :
    (NoneInComments commandDefinition text → NoneInComments primitiveDefinition text →
      (ofStyleFile (emptyComments .code text)).commands = (ofStyleFile text).commands) ∧
    (NoneInComments environmentDefinition text →
      (ofStyleFile (emptyComments .code text)).environments = (ofStyleFile text).environments) ∧
    (NoneInComments packageLoad text → ClearLoads text →
      (ofStyleFile (emptyComments .code text)).requires = (ofStyleFile text).requires) := by
  refine ⟨fun hcommand hprimitive => ?_, fun henvironment => ?_, fun hload hclear => ?_⟩
  · have hcommands : occurrences commandDefinition (emptyComments .code text) =
        occurrences commandDefinition text :=
      occurrences_of_noneInComments hcommand fun i _ hi => finds_commandDefinition hi _
    have hprimitives : occurrences primitiveDefinition (emptyComments .code text) =
        occurrences primitiveDefinition text :=
      occurrences_of_noneInComments hprimitive fun i _ hi => finds_primitiveDefinition hi _
    simp only [ofStyleFile, hcommands, hprimitives]
  · have henvironments : occurrences environmentDefinition (emptyComments .code text) =
        occurrences environmentDefinition text :=
      occurrences_of_noneInComments henvironment fun i _ hi => finds_environmentDefinition hi _
    simp only [ofStyleFile, henvironments]
  · have hloads : occurrences packageLoad (emptyComments .code text) =
        occurrences packageLoad text :=
      occurrences_of_noneInComments hload fun i hle hi => finds_packageLoad hi (hclear i hle hi)
    simp only [ofStyleFile, hloads]

/-- Comments behind the definitions and in the brackets of the load do not matter. -/
theorem ofStyleFile_emptyComments_harmless :
    let text := ("\\def\\foo\x7b\\%\x7d%\\foo\n\\newenvironment\x7benv\x7d%\x7b\n" ++
      "\\RequirePackage[a,%b\nc]\x7bxcolor\x7d").toList
    let emptied := ("\\def\\foo\x7b\\%\x7d%\n\\newenvironment\x7benv\x7d%\n" ++
      "\\RequirePackage[a,%\nc]\x7bxcolor\x7d").toList
    emptyComments .code text = emptied ∧ (ofStyleFile emptied).commands = ["foo"] ∧
      (ofStyleFile emptied).environments = ["env"] ∧
      (ofStyleFile emptied).requires = ["xcolor"] := by
  intro text emptied
  have hemptied : emptyComments .code text = emptied := by decide +kernel
  obtain ⟨hcommand, hprimitive, henvironment, hload, hclear⟩ :
      NoneInComments commandDefinition text ∧ NoneInComments primitiveDefinition text ∧
        NoneInComments environmentDefinition text ∧ NoneInComments packageLoad text ∧
        ClearLoads text := by
    decide +kernel
  have hfound : ofStyleFile text = ⟨["foo"], ["env"], ["xcolor"]⟩ := by decide +kernel
  obtain ⟨hcommands, henvironments, hrequires⟩ := ofStyleFile_emptyComments text
  rw [hemptied, hfound] at hcommands henvironments hrequires
  exact ⟨hemptied, hcommands hcommand hprimitive, henvironments henvironment,
    hrequires hload hclear⟩

/-- A definition and a load in a comment count, and such a definition hides the one in the next
line. -/
theorem ofStyleFile_in_comments :
    let text := ("%\\newcommand\x7b\\foo\x7d\x7b\x7d\n" ++
      "%\\newenvironment\x7benv\x7d\x7b\x7d\x7b\x7d\n%\\RequirePackage\x7bxcolor\x7d\n").toList
    let lines := "%\\newcommand\n\\newcommand\x7b\\foo\x7d\x7b\x7d".toList
    ofStyleFile text = ⟨["foo"], ["env"], ["xcolor"]⟩ ∧
      ofStyleFile (emptyComments .code text) = ⟨[], [], []⟩ ∧
      ofStyleFile lines = ⟨["newcommand"], [], []⟩ ∧
      ofStyleFile (emptyComments .code lines) = ⟨["foo"], [], []⟩ := by
  decide +kernel

end PackageContents

end TexLint
