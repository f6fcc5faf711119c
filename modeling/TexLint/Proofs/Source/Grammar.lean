import TexLint.Source.Parse

/-!
# The grammar of well-formed sources

A source in which nothing is wrong is a sequence of elements: tokens, brace groups, commands
with their parameters and environments. This module states the grammar of such sources.

## The model

* The grammar is a family of relations between the tokens that are still to come and those that
  are left when a construct has been taken from them. What is left matters: a command takes as
  many parameters as there are, so none may follow it (`Parameters.none`).

## What is proved

* `element_cons_iff_of_ne`, `element_cons_iff_of_command`, `parameters_cons_iff_of_lbrace` and the
  lemmas beside them: the first token decides which construct is derived.
* `not_element_cons_of_isEnd`, `not_element_cons_of_rbrace`: an end and a closing brace begin no
  element.
* `optionalElement_cons_iff`: which elements may stand in an optional parameter.
-/

namespace TexLint

/-! ### The grammar -/

namespace Token

/-- Whether a token is an element of its own wherever it stands. -/
def IsPlain (t : Token) : Prop := t.kind ≠ .command ∧ t.kind ≠ .lbrace ∧ t.kind ≠ .rbrace

/-- Whether a token is a control sequence that neither begins nor ends an environment. -/
def IsOrdinary (t : Token) : Prop := t.kind = .command ∧ t.isBegin = false ∧ t.isEnd = false

instance : DecidablePred IsOrdinary := fun t =>
  inferInstanceAs (Decidable (t.kind = .command ∧ t.isBegin = false ∧ t.isEnd = false))

/-- Whether bracket groups that follow a control sequence are its parameters. -/
def takesOptional (t : Token) : Bool := !delimiterCommands.contains t.text

/-- Whether a bracket group is given up before a token. -/
def CutsOff (t : Token) : Prop :=
  t.kind = .rbrace ∨ t.isBegin = true ∨ t.isEnd = true ∨ t.isParagraphBreak = true

end Token

namespace Construct

/-- An optional parameter is given up at a closing brace, at the beginning or the end of an
environment and at a paragraph break. -/
theorem closes_optional_iff {t : Token} : (optional.before t).closes = true ↔ t.CutsOff := by
  rw [before, Token.CutsOff]
  split
  · next h => exact iff_of_true rfl (by simpa [or_assoc] using Or.inl h)
  · next h =>
    simp only [not_or] at h
    split <;> simp [*]

end Construct

/-- No parameter begins the given tokens, be it one that is always taken or an optional one. -/
def NoParameter (takesOptional : Bool) (input : List Token) : Prop :=
  ∀ t ∈ input.head?, t.kind ≠ .lbrace ∧ (takesOptional = true → t.kind ≠ .lbracket)

namespace Grammar

mutual

/-- Elements, as many as one likes. -/
inductive Elements : List Token → List Token → Prop where
  /-- None. -/
  | nil {input : List Token} : Elements input input
  /-- One and then more. -/
  | cons {input middle rest : List Token} : Element input middle → Elements middle rest →
      Elements input rest

/-- An element of a source. -/
inductive Element : List Token → List Token → Prop where
  /-- A token that is neither a control sequence nor a brace. -/
  | token {t : Token} {rest : List Token} : t.IsPlain → Element (t :: rest) rest
  /-- A brace group. -/
  | group {input rest : List Token} : BraceGroup input rest → Element input rest
  /-- A command. -/
  | command {input rest : List Token} : Command input rest → Element input rest
  /-- An environment. -/
  | environment {input rest : List Token} : Environment input rest → Element input rest

/-- A brace group, on its own or as a required parameter. -/
inductive BraceGroup : List Token → List Token → Prop where
  /-- Elements between braces. -/
  | mk {l r : Token} {input rest : List Token} : l.kind = .lbrace → Elements input (r :: rest) →
      r.kind = .rbrace → BraceGroup (l :: input) rest

/-- A control sequence with its parameters. -/
inductive Command : List Token → List Token → Prop where
  /-- Bracket groups are parameters of some control sequences only. -/
  | mk {t : Token} {input rest : List Token} : t.IsOrdinary →
      Parameters t.takesOptional input rest → Command (t :: input) rest

/-- As many parameters as there are, among them bracket groups or not. -/
inductive Parameters : Bool → List Token → List Token → Prop where
  /-- There is no other parameter. -/
  | none {takesOptional : Bool} {input : List Token} : NoParameter takesOptional input →
      Parameters takesOptional input input
  /-- A required parameter and then others. -/
  | required {takesOptional : Bool} {input middle rest : List Token} : BraceGroup input middle →
      Parameters takesOptional middle rest → Parameters takesOptional input rest
  /-- An optional parameter and then others. -/
  | optional {input middle rest : List Token} : BracketGroup input middle →
      Parameters true middle rest → Parameters true input rest

/-- An environment. -/
inductive Environment : List Token → List Token → Prop where
  /-- Its beginning with parameters, the first of them required, then elements, then its end
  with one required parameter. -/
  | mk {b e : Token} {input parameters body ending rest : List Token} : b.isBegin = true →
      BraceGroup input parameters → Parameters true parameters body →
      Elements body (e :: ending) → e.isEnd = true → BraceGroup ending rest →
      Environment (b :: input) rest

/-- A bracket group, which is an optional parameter. -/
inductive BracketGroup : List Token → List Token → Prop where
  /-- Elements between brackets. -/
  | mk {l r : Token} {input rest : List Token} : l.kind = .lbracket →
      OptionalElements input (r :: rest) → r.kind = .rbracket → BracketGroup (l :: input) rest

/-- Elements of an optional parameter, as many as one likes. -/
inductive OptionalElements : List Token → List Token → Prop where
  /-- None. -/
  | nil {input : List Token} : OptionalElements input input
  /-- One and then more. -/
  | cons {input middle rest : List Token} : OptionalElement input middle →
      OptionalElements middle rest → OptionalElements input rest

/-- An element of an optional parameter: any but a closing bracket, a paragraph break and an
environment. -/
inductive OptionalElement : List Token → List Token → Prop where
  /-- A token. -/
  | token {t : Token} {rest : List Token} : t.IsPlain → t.kind ≠ .rbracket →
      t.isParagraphBreak = false → OptionalElement (t :: rest) rest
  /-- A brace group. -/
  | group {input rest : List Token} : BraceGroup input rest → OptionalElement input rest
  /-- A command. -/
  | command {input rest : List Token} : Command input rest → OptionalElement input rest

end

variable {input rest : List Token} {t : Token}

/-! ### What the first token decides -/

theorem elements_nil_iff : Elements [] rest ↔ rest = [] := by
  constructor
  · intro h
    cases h with
    | nil => rfl
    | cons h _ => cases h with
      | group h | command h | environment h => cases h
  · rintro rfl
    exact .nil

theorem elements_cons_iff : Elements (t :: input) rest ↔
    rest = t :: input ∨ ∃ middle, Element (t :: input) middle ∧ Elements middle rest := by
  constructor
  · intro h
    cases h with
    | nil => exact .inl rfl
    | cons h hs => exact .inr ⟨_, h, hs⟩
  · rintro (rfl | ⟨middle, h, hs⟩)
    · exact .nil
    · exact .cons h hs

theorem braceGroup_cons_iff : BraceGroup (t :: input) rest ↔
    t.kind = .lbrace ∧ ∃ r : Token, r.kind = .rbrace ∧ Elements input (r :: rest) := by
  constructor
  · rintro ⟨hl, hs, hr⟩
    exact ⟨hl, _, hr, hs⟩
  · rintro ⟨hl, r, hr, hs⟩
    exact .mk hl hs hr

theorem not_braceGroup_cons (h : t.kind ≠ .lbrace) : ¬ BraceGroup (t :: input) rest :=
  fun hs => h (braceGroup_cons_iff.mp hs).1

theorem bracketGroup_cons_iff : BracketGroup (t :: input) rest ↔
    t.kind = .lbracket ∧ ∃ r : Token, r.kind = .rbracket ∧ OptionalElements input (r :: rest) := by
  constructor
  · rintro ⟨hl, hs, hr⟩
    exact ⟨hl, _, hr, hs⟩
  · rintro ⟨hl, r, hr, hs⟩
    exact .mk hl hs hr

theorem command_cons_iff : Command (t :: input) rest ↔
    t.IsOrdinary ∧ Parameters t.takesOptional input rest := by
  constructor
  · rintro ⟨ht, hs⟩
    exact ⟨ht, hs⟩
  · rintro ⟨ht, hs⟩
    exact .mk ht hs

theorem environment_cons_iff : Environment (t :: input) rest ↔ t.isBegin = true ∧
    ∃ parameters body, BraceGroup input parameters ∧ Parameters true parameters body ∧
      ∃ (e : Token) (ending : List Token), e.isEnd = true ∧ Elements body (e :: ending) ∧
        BraceGroup ending rest := by
  constructor
  · rintro ⟨ht, hfirst, hs, hbody, he, hend⟩
    exact ⟨ht, _, _, hfirst, hs, _, _, he, hbody, hend⟩
  · rintro ⟨ht, _, _, hfirst, hs, _, _, he, hbody, hend⟩
    exact .mk ht hfirst hs hbody he hend

theorem element_cons_iff : Element (t :: input) rest ↔ t.IsPlain ∧ rest = input ∨
    BraceGroup (t :: input) rest ∨ Command (t :: input) rest ∨ Environment (t :: input) rest := by
  constructor
  · intro h
    cases h with
    | token ht => exact .inl ⟨ht, rfl⟩
    | group h => exact .inr (.inl h)
    | command h => exact .inr (.inr (.inl h))
    | environment h => exact .inr (.inr (.inr h))
  · rintro (⟨ht, rfl⟩ | h | h | h)
    · exact .token ht
    · exact .group h
    · exact .command h
    · exact .environment h

/-- A token that is no control sequence begins a group if it is a brace, and otherwise it is an
element. -/
theorem element_cons_iff_of_ne (ht : t.kind ≠ .command) : Element (t :: input) rest ↔
    t.IsPlain ∧ rest = input ∨ BraceGroup (t :: input) rest := by
  have hordinary : ¬ t.IsOrdinary := fun h => ht h.1
  have hbegin : ¬ t.isBegin = true := fun h => ht (Token.kind_of_isBegin h)
  rw [element_cons_iff, command_cons_iff, environment_cons_iff]
  simp [hordinary, hbegin]

/-- A control sequence begins a command or an environment. -/
theorem element_cons_iff_of_command (ht : t.kind = .command) : Element (t :: input) rest ↔
    Command (t :: input) rest ∨ Environment (t :: input) rest := by
  rw [element_cons_iff, braceGroup_cons_iff]
  simp [Token.IsPlain, ht]

/-- An end begins no element. -/
theorem not_element_cons_of_isEnd (ht : t.isEnd = true) : ¬ Element (t :: input) rest := by
  rw [element_cons_iff_of_command (Token.kind_of_isEnd ht), command_cons_iff,
    environment_cons_iff]
  rintro (⟨⟨-, -, hend⟩, -⟩ | ⟨hbegin, -⟩)
  · exact absurd ht (by simp [hend])
  · exact absurd ht (by simp [Token.isEnd_of_isBegin hbegin])

/-- A closing brace begins no element. -/
theorem not_element_cons_of_rbrace (ht : t.kind = .rbrace) : ¬ Element (t :: input) rest := by
  rw [element_cons_iff_of_ne (by simp [ht]), braceGroup_cons_iff]
  simp [Token.IsPlain, ht]

/-- Elements go on to a given token unless they begin with it. -/
theorem elements_cons_iff_of_ne {r : Token} (h : t ≠ r) : Elements (t :: input) (r :: rest) ↔
    ∃ middle, Element (t :: input) middle ∧ Elements middle (r :: rest) := by
  rw [elements_cons_iff]
  simp [Ne.symm h]

/-- Elements cannot go on behind a token that begins none. -/
theorem elements_cons_iff_of_not_element (h : ∀ middle, ¬ Element (t :: input) middle) :
    Elements (t :: input) rest ↔ rest = t :: input := by
  rw [elements_cons_iff]
  simp [h]

/-- What begins an element of an optional parameter begins an element elsewhere too. -/
theorem optionalElement_cons_iff : OptionalElement (t :: input) rest ↔ t.kind ≠ .rbracket ∧
    t.isParagraphBreak = false ∧ t.isBegin = false ∧ Element (t :: input) rest := by
  constructor
  · intro h
    cases h with
    | token ht hbracket hbreak =>
      have hbegin : ¬ t.isBegin = true := fun h => ht.1 (Token.kind_of_isBegin h)
      exact ⟨hbracket, hbreak, by simpa using hbegin, .token ht⟩
    | group h =>
      have hl := (braceGroup_cons_iff.mp h).1
      exact ⟨by simp [hl], by simp [Token.isParagraphBreak, hl], by simp [Token.isBegin, hl],
        .group h⟩
    | command h =>
      obtain ⟨hkind, hbegin, -⟩ := (command_cons_iff.mp h).1
      exact ⟨by simp [hkind], by simp [Token.isParagraphBreak, hkind], hbegin, .command h⟩
  · rintro ⟨hbracket, hbreak, hbegin, h⟩
    cases h with
    | token ht => exact .token ht hbracket hbreak
    | group h => exact .group h
    | command h => exact .command h
    | environment h =>
      have := (environment_cons_iff.mp h).1
      simp [hbegin] at this

theorem optionalElements_cons_iff : OptionalElements (t :: input) rest ↔ rest = t :: input ∨
    ∃ middle, OptionalElement (t :: input) middle ∧ OptionalElements middle rest := by
  constructor
  · intro h
    cases h with
    | nil => exact .inl rfl
    | cons h hs => exact .inr ⟨_, h, hs⟩
  · rintro (rfl | ⟨middle, h, hs⟩)
    · exact .nil
    · exact .cons h hs

theorem optionalElements_nil_iff : OptionalElements [] rest ↔ rest = [] := by
  constructor
  · intro h
    cases h with
    | nil => rfl
    | cons h _ => cases h with
      | group h | command h => cases h
  · rintro rfl
    exact .nil

/-! ### Parameters -/

variable {takesOptional : Bool}

theorem parameters_nil_iff : Parameters takesOptional [] rest ↔ rest = [] := by
  constructor
  · intro h
    cases h with
    | none => rfl
    | required h | optional h => cases h
  · rintro rfl
    exact .none (by simp [NoParameter])

/-- Parameters go on with a brace group that is there. -/
theorem parameters_cons_iff_of_lbrace (ht : t.kind = .lbrace) :
    Parameters takesOptional (t :: input) rest ↔
      ∃ middle, BraceGroup (t :: input) middle ∧ Parameters takesOptional middle rest := by
  constructor
  · intro h
    cases h with
    | none h => exact absurd ht (h t rfl).1
    | required h hs => exact ⟨_, h, hs⟩
    | optional h => simp [(bracketGroup_cons_iff.mp h).1] at ht
  · rintro ⟨middle, h, hs⟩
    exact .required h hs

/-- Parameters go on with a bracket group that is there, if it may be one of them. -/
theorem parameters_cons_iff_of_lbracket (ht : t.kind = .lbracket) :
    Parameters true (t :: input) rest ↔
      ∃ middle, BracketGroup (t :: input) middle ∧ Parameters true middle rest := by
  constructor
  · intro h
    cases h with
    | none h => exact absurd ht ((h t rfl).2 rfl)
    | required h => simp [(braceGroup_cons_iff.mp h).1] at ht
    | optional h hs => exact ⟨_, h, hs⟩
  · rintro ⟨middle, h, hs⟩
    exact .optional h hs

/-- Parameters end before any other token. -/
theorem parameters_cons_iff_of_ne (hbrace : t.kind ≠ .lbrace)
    (hbracket : takesOptional = true → t.kind ≠ .lbracket) :
    Parameters takesOptional (t :: input) rest ↔ rest = t :: input := by
  constructor
  · intro h
    cases h with
    | none => rfl
    | required h => exact absurd (braceGroup_cons_iff.mp h).1 hbrace
    | optional h => exact absurd (bracketGroup_cons_iff.mp h).1 (hbracket rfl)
  · rintro rfl
    exact .none (by simpa [NoParameter] using ⟨hbrace, hbracket⟩)

end Grammar

end TexLint
