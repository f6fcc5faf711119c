import TexLint.Proofs.Source.Building
import TexLint.Proofs.Source.Grammar

/-!
# Which sources show no defect

Exactly the sources that have a derivation in the grammar are read without a defect.

## The model

* `Construct.Finishes` says what a construct that is open still takes from the tokens to come,
  `Nest.Accepts` what a whole nest needs to be closed without a defect.

## What is proved

* `Construct.finishes_of_closes`, `Nest.accepts_settleFrom`: a token that ends a construct shows a
  defect unless the construct is complete.
* `Nest.accepts_read`, `Reading.accepts_next`: what a nest needs before a token is the token and
  what it needs behind it.
* `errors_eq_nil_iff`: a source is read without a defect if and only if it has a derivation.
-/

namespace TexLint

/-! ### What open constructs need -/

open Grammar

namespace Construct

/-- What a construct that is open takes from the tokens to come until it is complete. -/
def Finishes : Construct → List Token → List Token → Prop
  | group, input, rest | required, input, rest =>
    ∃ r : Token, r.kind = .rbrace ∧ Elements input (r :: rest)
  | optional, input, rest => ∃ r : Token, r.kind = .rbracket ∧ OptionalElements input (r :: rest)
  | command takesOptional, input, rest => Parameters takesOptional input rest
  | opening true, input, rest =>
    ∃ parameters, BraceGroup input parameters ∧ Parameters true parameters rest
  | opening false, input, rest => Parameters true input rest
  | environment false, input, rest => ∃ (e : Token) (ending : List Token), e.isEnd = true ∧
    Elements input (e :: ending) ∧ BraceGroup ending rest
  | environment true, input, rest | closing false, input, rest => rest = input
  | closing true, input, rest => BraceGroup input rest
  | strayEnd, input, rest => Parameters false input rest

variable {input rest : List Token} {t : Token}

/-- A token that gives up an optional parameter is no element of it and does not close it. -/
theorem not_finishes_optional (h : (optional.before t).closes = true) :
    ¬ optional.Finishes (t :: input) rest := by
  rw [closes_optional_iff] at h
  rintro ⟨r, hr, hs⟩
  rw [optionalElements_cons_iff] at hs
  rcases hs with hs | ⟨middle, hs, -⟩
  · cases hs
    rcases h with h | h | h | h
    · simp [hr] at h
    · simp [Token.kind_of_isBegin h] at hr
    · simp [Token.kind_of_isEnd h] at hr
    · simp [Token.isParagraphBreak, hr] at h
  · obtain ⟨-, hbreak, hbegin, hs⟩ := optionalElement_cons_iff.mp hs
    rcases h with h | h | h | h
    · exact not_element_cons_of_rbrace h hs
    · simp [h] at hbegin
    · exact not_element_cons_of_isEnd h hs
    · simp [h] at hbreak

/-- A token that ends a construct shows a defect unless the construct is complete. -/
theorem finishes_of_closes {construct : Construct} (h : (construct.before t).closes = true) :
    construct.Finishes (t :: input) rest ↔
      (construct.before t).defect = none ∧ rest = t :: input := by
  cases construct with
  | group | required => cases h
  | optional =>
    have hdefect : (optional.before t).defect ≠ none := by
      rw [before] at h ⊢
      split
      · simp
      · next ht =>
        rw [if_neg ht] at h
        split
        · simp
        · next hbreak => simp [hbreak] at h
    exact iff_of_false (not_finishes_optional h) fun hs => hdefect hs.1
  | command takesOptional =>
    have ht : t.kind ≠ .lbrace ∧ (takesOptional = true → t.kind ≠ .lbracket) := by
      cases takesOptional <;> simpa [before] using h
    exact (parameters_cons_iff_of_ne ht.1 ht.2).trans (by simp [before])
  | opening bare =>
    have ht : t.kind ≠ .lbrace ∧ t.kind ≠ .lbracket := by simpa [before] using h
    cases bare with
    | false => exact (parameters_cons_iff_of_ne ht.1 fun _ => ht.2).trans (by simp [before])
    | true =>
      refine iff_of_false ?_ (by simp [before, ht.1])
      rintro ⟨parameters, hs, -⟩
      exact not_braceGroup_cons ht.1 hs
  | environment ended =>
    obtain rfl : ended = true := h
    simp [Finishes, before]
  | closing bare =>
    cases bare with
    | false => simp [Finishes, before]
    | true =>
      have ht : t.kind ≠ .lbrace := fun ht => by simp [before, ht] at h
      exact iff_of_false (not_braceGroup_cons ht) (by simp [before, ht])
  | strayEnd =>
    have ht : t.kind ≠ .lbrace := by simpa [before] using h
    exact (parameters_cons_iff_of_ne ht (by simp)).trans (by simp [before])

/-- A token that a construct can go on with shows no defect. -/
theorem defect_of_finishes {construct : Construct} (h : construct.Finishes (t :: input) rest) :
    (construct.before t).defect = none := by
  cases hcloses : (construct.before t).closes with
  | true => exact ((finishes_of_closes hcloses).mp h).1
  | false =>
    cases construct with
    | group | required | command takesOptional | environment ended | strayEnd => rfl
    | optional =>
      rw [before] at hcloses ⊢
      split at hcloses
      · cases hcloses
      · next ht =>
        split at hcloses
        · cases hcloses
        · next hbreak => rw [if_neg ht, if_neg hbreak]
    | opening bare =>
      cases bare with
      | false => rfl
      | true =>
        obtain ⟨parameters, hs, -⟩ := h
        simp [before, (braceGroup_cons_iff.mp hs).1]
    | closing bare =>
      cases bare with
      | false => rfl
      | true => simp [before, (braceGroup_cons_iff.mp h).1]

/-- A closing brace completes a brace group. -/
theorem finishes_group_cons_iff_of_rbrace (ht : t.kind = .rbrace) :
    group.Finishes (t :: input) rest ↔ rest = input := by
  simp only [Finishes, elements_cons_iff_of_not_element fun _ => not_element_cons_of_rbrace ht,
    List.cons.injEq]
  constructor
  · rintro ⟨r, -, -, h⟩
    exact h
  · rintro rfl
    exact ⟨t, ht, rfl, rfl⟩

/-- A brace group goes on with an element before any other token. -/
theorem finishes_group_cons_iff_of_ne (ht : t.kind ≠ .rbrace) : group.Finishes (t :: input) rest ↔
    ∃ middle, Element (t :: input) middle ∧ group.Finishes middle rest := by
  constructor
  · rintro ⟨r, hr, hs⟩
    rw [elements_cons_iff_of_ne (by rintro rfl; exact ht hr)] at hs
    obtain ⟨middle, h, hs⟩ := hs
    exact ⟨middle, h, r, hr, hs⟩
  · rintro ⟨middle, h, r, hr, hs⟩
    exact ⟨r, hr, .cons h hs⟩

/-- A closing bracket completes an optional parameter. -/
theorem finishes_optional_cons_iff_of_rbracket (ht : t.kind = .rbracket) :
    optional.Finishes (t :: input) rest ↔ rest = input := by
  simp only [Finishes, optionalElements_cons_iff, optionalElement_cons_iff, List.cons.injEq]
  constructor
  · rintro ⟨r, -, ⟨-, h⟩ | ⟨_, ⟨h, -⟩, -⟩⟩
    · exact h
    · exact absurd ht h
  · rintro rfl
    exact ⟨t, ht, .inl ⟨rfl, rfl⟩⟩

/-- An optional parameter goes on with an element before a token that neither closes it nor gives
it up. -/
theorem finishes_optional_cons_iff_of_ne (ht : t.kind ≠ .rbracket)
    (hopen : (optional.before t).closes = false) : optional.Finishes (t :: input) rest ↔
      ∃ middle, Element (t :: input) middle ∧ optional.Finishes middle rest := by
  rw [← Bool.not_eq_true, closes_optional_iff] at hopen
  simp only [Token.CutsOff, not_or, Bool.not_eq_true] at hopen
  obtain ⟨-, hbegin, -, hbreak⟩ := hopen
  constructor
  · rintro ⟨r, hr, hs⟩
    rw [optionalElements_cons_iff] at hs
    rcases hs with hs | ⟨middle, h, hs⟩
    · cases hs
      exact absurd hr ht
    · exact ⟨middle, (optionalElement_cons_iff.mp h).2.2.2, r, hr, hs⟩
  · rintro ⟨middle, h, r, hr, hs⟩
    exact ⟨r, hr, .cons (optionalElement_cons_iff.mpr ⟨ht, hbreak, hbegin, h⟩) hs⟩

/-- An end with its parameter completes an environment. -/
theorem finishes_environment_cons_iff_of_isEnd (ht : t.isEnd = true) :
    (environment false).Finishes (t :: input) rest ↔ BraceGroup input rest := by
  simp only [Finishes, elements_cons_iff_of_not_element fun _ => not_element_cons_of_isEnd ht,
    List.cons.injEq]
  constructor
  · rintro ⟨e, ending, -, ⟨-, rfl⟩, h⟩
    exact h
  · intro h
    exact ⟨t, input, ht, ⟨rfl, rfl⟩, h⟩

/-- An environment goes on with an element before any other token. -/
theorem finishes_environment_cons_iff_of_ne (ht : t.isEnd = false) :
    (environment false).Finishes (t :: input) rest ↔
      ∃ middle, Element (t :: input) middle ∧ (environment false).Finishes middle rest := by
  constructor
  · rintro ⟨e, ending, he, hs, hclose⟩
    rw [elements_cons_iff_of_ne (by rintro rfl; simp [ht] at he)] at hs
    obtain ⟨middle, h, hs⟩ := hs
    exact ⟨middle, h, e, ending, he, hs, hclose⟩
  · rintro ⟨middle, h, e, ending, he, hs, hclose⟩
    exact ⟨e, ending, he, .cons h hs, hclose⟩

/-- The parameters of a command go on with a group that is opened. -/
theorem finishes_command_cons_iff_of_lbrace {takesOptional : Bool} (ht : t.kind = .lbrace) :
    (command takesOptional).Finishes (t :: input) rest ↔
      ∃ middle, required.Finishes input middle ∧ (command takesOptional).Finishes middle rest := by
  show Parameters takesOptional (t :: input) rest ↔ _
  rw [parameters_cons_iff_of_lbrace ht]
  simp [braceGroup_cons_iff, ht, Finishes]

theorem finishes_command_cons_iff_of_lbracket (ht : t.kind = .lbracket) :
    (command true).Finishes (t :: input) rest ↔
      ∃ middle, optional.Finishes input middle ∧ (command true).Finishes middle rest := by
  show Parameters true (t :: input) rest ↔ _
  rw [parameters_cons_iff_of_lbracket ht]
  simp [bracketGroup_cons_iff, ht, Finishes]

/-- The parameters of a beginning go on with a required one that is opened. -/
theorem finishes_opening_cons_iff_of_lbrace {bare : Bool} (ht : t.kind = .lbrace) :
    (opening bare).Finishes (t :: input) rest ↔
      ∃ middle, required.Finishes input middle ∧ (opening false).Finishes middle rest := by
  cases bare with
  | false => exact finishes_command_cons_iff_of_lbrace ht
  | true => simp [braceGroup_cons_iff, ht, Finishes]

/-- A construct is complete behind a token that completes it. -/
theorem finishes_iff_of_closedBy {construct : Construct} (h : construct.ClosedBy t) :
    construct.Finishes (t :: input) rest ↔ rest = input := by
  cases h with
  | group ht | required ht => exact finishes_group_cons_iff_of_rbrace ht
  | optional ht => exact finishes_optional_cons_iff_of_rbracket ht

/-- A construct goes on with a part that a token opens. -/
theorem finishes_iff_of_enters {construct construct' inner : Construct}
    (h : construct.Enters t construct' inner) (hdefect : (construct.before t).defect = none) :
    construct.Finishes (t :: input) rest ↔
      ∃ middle, inner.Finishes input middle ∧ construct'.Finishes middle rest := by
  cases h with
  | commandRequired ht | strayEndRequired ht => exact finishes_command_cons_iff_of_lbrace ht
  | commandOptional ht => exact finishes_command_cons_iff_of_lbracket ht
  | openingRequired ht => exact finishes_opening_cons_iff_of_lbrace ht
  | @openingOptional bare ht =>
    obtain rfl : bare = false := by simpa [before, ht] using hdefect
    exact finishes_command_cons_iff_of_lbracket ht
  | closingRequired ht => simp [Finishes, braceGroup_cons_iff, ht]
  | ending ht =>
    rw [finishes_environment_cons_iff_of_isEnd ht]
    simp [Finishes]

/-- A construct that takes elements goes on with one before a token that neither completes nor
ends it. -/
theorem finishes_iff_of_element {construct : Construct} (h : construct.TakesElements)
    (hclosed : ¬ construct.ClosedBy t) (hopen : (construct.before t).closes = false)
    (hend : construct = .environment false → t.isEnd = false) :
    construct.Finishes (t :: input) rest ↔
      ∃ middle, Element (t :: input) middle ∧ construct.Finishes middle rest := by
  cases h with
  | group => exact finishes_group_cons_iff_of_ne fun ht => hclosed (.group ht)
  | required => exact finishes_group_cons_iff_of_ne fun ht => hclosed (.required ht)
  | optional => exact finishes_optional_cons_iff_of_ne (fun ht => hclosed (.optional ht)) hopen
  | environment => exact finishes_environment_cons_iff_of_ne (hend rfl)

/-- At the end of the source a construct shows a defect unless it is complete. -/
theorem finishes_nil_iff {construct : Construct} :
    construct.Finishes [] rest ↔ construct.atEnd = none ∧ rest = [] := by
  have hgroup {rest : List Token} : ¬ BraceGroup [] rest := fun h => by cases h
  cases construct with
  | group | required => simp [Finishes, atEnd, elements_nil_iff]
  | optional => simp [Finishes, atEnd, optionalElements_nil_iff]
  | command takesOptional | strayEnd => simp [Finishes, atEnd, parameters_nil_iff]
  | opening bare => cases bare <;> simp [Finishes, atEnd, parameters_nil_iff, hgroup]
  | environment ended => cases ended <;> simp [Finishes, atEnd, elements_nil_iff]
  | closing bare => cases bare <;> simp [Finishes, atEnd, hgroup]

end Construct

/-! ### What open constructs need, one inside the other -/

namespace Nest

variable {input : List Token} {t : Token}

/-- A nest can be closed without another defect behind the given tokens. -/
def Accepts : Nest → List Token → Prop
  | root _, input => Elements input []
  | inside construct _ outer, input => ∃ rest, construct.Finishes input rest ∧ outer.Accepts rest

theorem accepts_add (tree : SyntaxTree) (nest : Nest) :
    (nest.add tree).Accepts input ↔ nest.Accepts input := by
  cases nest <;> rfl

/-- What a nest needs does not change when the constructs that a token ends are closed, and they
show no defect if the nest has what it needs. -/
theorem accepts_settleFrom (t : Token) (finished : List SyntaxTree) (nest : Nest) :
    (nest.settleFrom t finished).2 = [] ∧ (nest.settleFrom t finished).1.Accepts (t :: input) ↔
      nest.Accepts (t :: input) := by
  induction nest generalizing finished with
  | root content => simp [settleFrom, Accepts]
  | inside construct content outer ih =>
    rw [settleFrom]
    simp only []
    split
    · next hcloses =>
      simp only [List.append_eq_nil_iff, Option.toList_eq_nil_iff, and_assoc, ih, Accepts,
        Construct.finishes_of_closes hcloses]
      simp
    · simp only [Option.toList_eq_nil_iff, Accepts]
      refine and_iff_right_of_imp ?_
      rintro ⟨rest, hs, -⟩
      exact Construct.defect_of_finishes hs

/-- The construct that is left innermost takes the token. -/
theorem before_of_settleFrom {nest outer : Nest} {finished content : List SyntaxTree}
    {construct : Construct}
    (hnest : (nest.settleFrom t finished).1 = inside construct content outer)
    (hdefects : (nest.settleFrom t finished).2 = []) : construct.before t = ⟨false, none⟩ := by
  induction nest generalizing finished with
  | root content => cases hnest
  | inside c content' outer' ih =>
    rw [settleFrom] at hnest hdefects
    simp only [] at hnest hdefects
    split at hnest
    · next hcloses =>
      rw [if_pos hcloses] at hdefects
      exact ih hnest (List.append_eq_nil_iff.mp hdefects).2
    · next hcloses =>
      rw [if_neg hcloses] at hdefects
      cases hnest
      simp only [Option.toList_eq_nil_iff] at hdefects
      rw [Bool.not_eq_true] at hcloses
      rw [← hcloses, ← hdefects]

/-- What a nest needs when a token has been read as an element is what it needs behind an element
that begins with the token. -/
theorem accepts_readElement (t : Token) (nest : Nest) :
    (nest.readElement t).2 = [] ∧ (nest.readElement t).1.Accepts input ↔
      ∃ rest, Element (t :: input) rest ∧ nest.Accepts rest := by
  rw [readElement]
  split
  · next hkind =>
    simp only [element_cons_iff_of_command hkind, command_cons_iff, environment_cons_iff]
    cases hbegin : t.isBegin with
    | true =>
      simp only [Token.IsOrdinary, hbegin, if_true, enter, Accepts, Construct.Finishes]
      constructor
      · rintro ⟨-, body, ⟨parameters, hfirst, hs⟩, rest, hend, hrest⟩
        obtain ⟨e, ending, he, hbody, hclose⟩ := hend
        exact ⟨rest, .inr ⟨trivial, _, _, hfirst, hs, e, ending, he, hbody, hclose⟩, hrest⟩
      · rintro ⟨rest, ⟨⟨-, hb, -⟩, -⟩ | ⟨-, _, _, hfirst, hs, hend⟩, hrest⟩
        · cases hb
        · exact ⟨trivial, _, ⟨_, hfirst, hs⟩, rest, hend, hrest⟩
    | false =>
      cases hend : t.isEnd with
      | true => simp [Token.IsOrdinary, hbegin, hend]
      | false =>
        simp [Token.IsOrdinary, Token.takesOptional, hbegin, hend, hkind, enter, Accepts,
          Construct.Finishes]
  · next hkind =>
    simp [element_cons_iff_of_ne, braceGroup_cons_iff, Token.IsPlain, hkind, enter, Accepts,
      Construct.Finishes]
  · next hkind => simp [not_element_cons_of_rbrace hkind]
  · next hcommand hlbrace hrbrace =>
    have hgroup (rest : List Token) : ¬ BraceGroup (t :: input) rest :=
      not_braceGroup_cons hlbrace
    have hplain : t.IsPlain := ⟨hcommand, hlbrace, hrbrace⟩
    simp [element_cons_iff_of_ne hcommand, hplain, hgroup, accepts_add]

/-- What the innermost construct needs when a token has been read is what it needed before it,
less the token. -/
theorem accepts_read_inside {construct : Construct} {content : List SyntaxTree} {outer : Nest}
    (hopen : construct.before t = ⟨false, none⟩) :
    ((inside construct content outer).read t).2 = [] ∧
      ((inside construct content outer).read t).1.Accepts input ↔
        (inside construct content outer).Accepts (t :: input) := by
  have hcloses : (construct.before t).closes = false := by rw [hopen]
  have hread : ReadsInside t construct content outer _ := readsInside_read hcloses
  generalize (inside construct content outer).read t = result at hread ⊢
  cases hread with
  | close hclosed => simp [accepts_add, Accepts, Construct.finishes_iff_of_closedBy hclosed]
  | enter henters =>
    simp only [enter, Accepts, true_and,
      Construct.finishes_iff_of_enters henters (by rw [hopen])]
    constructor
    · rintro ⟨middle, hinner, rest, hrest, houter⟩
      exact ⟨rest, ⟨middle, hinner, hrest⟩, houter⟩
    · rintro ⟨rest, ⟨middle, hinner, hrest⟩, houter⟩
      exact ⟨middle, hinner, rest, hrest, houter⟩
  | misplaced hconstruct hkind =>
    subst hconstruct
    have hnot (middle : List Token) : ¬ Element (t :: input) middle :=
      not_element_cons_of_rbrace hkind
    have hend : t.isEnd = false := by simp [Token.isEnd, hkind]
    simp [Accepts, Construct.finishes_environment_cons_iff_of_ne hend, hnot]
  | element helements hclosed henvironment =>
    rw [accepts_readElement]
    simp only [Accepts, Construct.finishes_iff_of_element helements hclosed hcloses
      fun hconstruct => (henvironment hconstruct).1]
    constructor
    · rintro ⟨middle, hs, rest, hrest, houter⟩
      exact ⟨rest, ⟨middle, hs, hrest⟩, houter⟩
    · rintro ⟨rest, ⟨middle, hs, hrest⟩, houter⟩
      exact ⟨middle, hs, rest, hrest, houter⟩

/-- What a nest needs when a token has been read is what it needed before it, less the token. -/
theorem accepts_read {nest : Nest} (h : ∀ construct content outer,
    nest = inside construct content outer → construct.before t = ⟨false, none⟩) :
    (nest.read t).2 = [] ∧ (nest.read t).1.Accepts input ↔ nest.Accepts (t :: input) := by
  cases nest with
  | root content =>
    rw [read, accepts_readElement, Accepts, elements_cons_iff]
    simp [Accepts]
  | inside construct content outer => exact accepts_read_inside (h construct content outer rfl)

/-- At the end of the source a nest shows no defect if it needs nothing. -/
theorem finishFrom_eq_nil_iff (finished : List SyntaxTree) (nest : Nest) :
    (nest.finishFrom finished).2 = [] ↔ nest.Accepts [] := by
  induction nest generalizing finished with
  | root content => simp [finishFrom, Accepts, elements_nil_iff]
  | inside construct content outer ih =>
    simp [finishFrom, Accepts, ih, Construct.finishes_nil_iff, and_assoc]

end Nest

namespace Reading

/-- Reading a token shows no defect if and only if the nest has what it needs. -/
theorem accepts_next (t : Token) (input : List Token) (r : Reading) :
    (r.next t).errors = [] ∧ (r.next t).nest.Accepts input ↔
      r.errors = [] ∧ r.nest.Accepts (t :: input) := by
  have hread : (r.nest.settle t).2 = [] →
      (((r.nest.settle t).1.read t).2 = [] ∧ ((r.nest.settle t).1.read t).1.Accepts input ↔
        (r.nest.settle t).1.Accepts (t :: input)) := fun hdefects =>
    Nest.accepts_read fun _ _ _ hnest => Nest.before_of_settleFrom hnest hdefects
  rw [← Nest.accepts_settleFrom t [] r.nest]
  simp only [next, List.append_eq_nil_iff, List.reverse_eq_nil_iff, List.map_eq_nil_iff]
  constructor
  · rintro ⟨⟨⟨hearly, hlate⟩, herrors⟩, hnest⟩
    exact ⟨herrors, hearly, (hread hearly).mp ⟨hlate, hnest⟩⟩
  · rintro ⟨herrors, hearly, hnest⟩
    obtain ⟨hlate, hnest⟩ := (hread hearly).mpr hnest
    exact ⟨⟨⟨hearly, hlate⟩, herrors⟩, hnest⟩

/-- Reading tokens to the end shows no defect if and only if they are what the nest needs. -/
theorem accepts_foldl_next (tokens : List Token) (r : Reading) :
    (tokens.foldl next r).errors = [] ∧ (tokens.foldl next r).nest.Accepts [] ↔
      r.errors = [] ∧ r.nest.Accepts tokens := by
  induction tokens generalizing r with
  | nil => rfl
  | cons t tokens ih => rw [List.foldl_cons, ih, accepts_next]

end Reading

/-- A source is read without a defect if and only if its tokens are elements of the grammar. -/
theorem errors_eq_nil_iff (text : Text) :
    (parse text).errors = [] ↔ Elements (tokenize text) [] := by
  have hread := Reading.accepts_foldl_next (tokenize text) .start
  simp only [Reading.start, Nest.Accepts, true_and] at hread
  rw [← hread, ← Nest.finishFrom_eq_nil_iff []]
  simp [parse, parseTokens, Reading.start]

end TexLint
