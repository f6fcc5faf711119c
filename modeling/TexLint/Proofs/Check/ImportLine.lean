import TexLint.Check.ImportFix
import TexLint.Proofs.Document.Usages
import TexLint.Proofs.Text.Plain

/-!
# Import lines

The line that a fix inserts is recognised as the import of its package in whatever text it
stands: behind open groups and brackets, behind comments, behind a backslash at a line end.

## The model

* `HasLine` says that a text has a line, `Package.importTree` is the tree of an import.

## What is proved

* `subtree_of_hasLine`: a text with an import line has the import in its tree, whatever comes
  before and behind the line.
* `Manuscript.mem_includedPackages_of_hasLine`: the manuscript imports the package.
* `HasLine.insert`, `HasLine.append`: inserting a line keeps the other lines.
-/

namespace TexLint

open SyntaxTree

/-- A text has the given line: it stands between line ends or the ends of the text. -/
def HasLine (text line : Text) : Prop :=
  ∃ before behind, text = before ++ line ++ behind ∧
    (before = [] ∨ before.getLast? = some '\n') ∧ (behind = [] ∨ behind.head? = some '\n')

/-! ### The tree of an import -/

namespace Package

variable {p : Package}

/-- The options of an import as they are written between its brackets. -/
def optionsText (p : Package) : Text := (String.intercalate "," p.options).toList

/-- The tokens of the options of an import. -/
def optionTokens (p : Package) : List Token :=
  if p.options.isEmpty then []
  else [⟨.lbracket, ['[']⟩, ⟨.text, p.optionsText⟩, ⟨.rbracket, [']']⟩]

/-- The tokens of the name in an import. -/
def nameTokens (p : Package) : List Token :=
  [⟨.lbrace, ['{']⟩, ⟨.text, p.name.toList⟩, ⟨.rbrace, ['}']⟩]

/-- The control sequence of an import. -/
def importToken : Token := ⟨.command, "\\usepackage".toList⟩

/-- The tokens of an import. -/
def importTokens (p : Package) : List Token := importToken :: (p.optionTokens ++ p.nameTokens)

/-- The parameter with the options of an import, if there are any. -/
def optionTrees (p : Package) : List SyntaxTree :=
  if p.options.isEmpty then [] else [.node .optional (p.optionTokens.map .leaf)]

/-- The tree of an import. -/
def importTree (p : Package) : SyntaxTree :=
  .node .command
    (.leaf importToken :: (p.optionTrees ++ [.node .required (p.nameTokens.map .leaf)]))

theorem optionsText_ne_nil (h : p.Plain) (hoptions : p.options ≠ []) : p.optionsText ≠ [] := by
  obtain ⟨word, words, heq⟩ := List.exists_cons_of_ne_nil hoptions
  have hword := (h.options word (by simp [heq])).toList_ne_nil
  rw [optionsText, heq, String.toList_intercalate]
  cases words with
  | nil => simpa using hword
  | cons word' words => simp [hword]

theorem forall_mem_intercalate {P : Char → Prop} {sep : Text} (hsep : ∀ c ∈ sep, P c)
    {parts : List Text} (h : ∀ part ∈ parts, ∀ c ∈ part, P c) :
    ∀ c ∈ List.intercalate sep parts, P c := by
  induction parts with
  | nil => simp
  | cons part parts ih =>
    have hpart := h part List.mem_cons_self
    have hparts := ih fun q hq => h q (List.mem_cons_of_mem _ hq)
    cases parts with
    | nil => simpa using hpart
    | cons q parts =>
      intro c hc
      rw [List.intercalate_cons_cons, List.append_assoc, List.mem_append, List.mem_append] at hc
      rcases hc with hc | hc | hc
      · exact hpart c hc
      · exact hsep c hc
      · exact hparts c hc

theorem isTextChar_optionsText (h : p.Plain) : ∀ c ∈ p.optionsText, isTextChar c = true := by
  rw [optionsText, String.toList_intercalate]
  refine forall_mem_intercalate (by simp [isTextChar, isWhitespace]) fun part hpart => ?_
  obtain ⟨word, hword, rfl⟩ := List.mem_map.mp hpart
  exact (h.options word hword).isTextChar

/-- The tokens of an import are read as such behind whatever cuts. -/
theorem tokenize_importCommand (h : p.Plain) (behind : Text) :
    tokenize (p.importCommand.toList ++ behind) = p.importTokens ++ tokenize behind := by
  have hname : tokenize ('{' :: (p.name.toList ++ '}' :: behind)) =
      p.nameTokens ++ tokenize behind := by
    rw [tokenize_single rfl,
      tokenize_text_append h.name.toList_ne_nil h.name.isTextChar (by decide),
      tokenize_single rfl]
    rfl
  have hcommand (c : Char) (hc : c = '{' ∨ c = '[') (rest : Text) :
      tokenize ("\\usepackage".toList ++ c :: rest) = importToken :: tokenize (c :: rest) := by
    rw [tokenize_append]
    · rfl
    · rcases hc with rfl | rfl <;> exact cuts_cons.mpr (by decide)
  rw [importTokens, optionTokens]
  split
  · next hoptions =>
    have htext : p.importCommand.toList ++ behind =
        "\\usepackage".toList ++ '{' :: (p.name.toList ++ '}' :: behind) := by
      simp [importCommand, hoptions]
    rw [htext, hcommand _ (.inl rfl), hname]
    rfl
  · next hoptions =>
    have htext : p.importCommand.toList ++ behind =
        "\\usepackage".toList ++ '[' :: (p.optionsText ++ ']' ::
          '{' :: (p.name.toList ++ '}' :: behind)) := by
      simp [importCommand, hoptions, optionsText]
    rw [htext, hcommand _ (.inr rfl), tokenize_single rfl,
      tokenize_text_append (optionsText_ne_nil h (by simpa using hoptions))
        (isTextChar_optionsText h) (by decide), tokenize_single rfl, hname]
    rfl

/-- The tokens of an import open a command in what they leave open, and fill it. -/
theorem foldl_next_import (p : Package) (nest : Nest) : p.importTokens.foldl Nest.next nest =
    .inside (.command true) p.importTree.children.reverse (nest.settle importToken).1 := by
  have htakes : (!delimiterCommands.contains importToken.text) = true := rfl
  rw [importTokens, List.foldl_cons, Nest.next_command rfl rfl rfl, htakes, List.foldl_append,
    optionTokens, importTree, optionTrees]
  split
  · exact Nest.foldl_next_required rfl rfl rfl
  · rw [optionTokens, if_neg ‹_›, Nest.foldl_next_optional rfl rfl rfl]
    exact Nest.foldl_next_required rfl rfl rfl

end Package

/-- What follows an import in its line is no part of it. -/
theorem kind_of_line_end {t : Token} {tokens : List Token} {behind : Text}
    (h : tokenize behind = t :: tokens) (hb : behind.head? = some '\n') :
    t.kind = .whitespace := by
  obtain ⟨c, rest, htext, hkind⟩ := begins_of_mem_tokenize (h ▸ List.mem_cons_self)
  have hall := tokensText_tokenize behind
  rw [h, tokensText_cons, htext] at hall
  rw [← hall] at hb
  cases hb
  exact hkind

/-- An import that begins a line is read as such, whatever comes before the line. -/
theorem tokenize_line {p : Package} (hp : p.Plain) {before : Text}
    (hbefore : before = [] ∨ before.getLast? = some '\n') (behind : Text) :
    tokenize (before ++ p.importCommand.toList ++ behind) =
      tokenize before ++ p.importTokens ++ tokenize behind := by
  have hcuts : Cuts before '\\' := by
    rcases hbefore with rfl | hbefore
    · trivial
    · obtain ⟨start, rfl⟩ := List.getLast?_eq_some_iff.mp hbefore
      exact cuts_newline start
  have hhead : ∃ rest, p.importCommand.toList = '\\' :: rest := by
    simp [Package.importCommand]
  obtain ⟨rest, hrest⟩ := hhead
  rw [List.append_assoc, List.append_assoc, ← Package.tokenize_importCommand hp, hrest]
  exact tokenize_append hcuts _

/-- No parameter begins behind the line of an import. -/
theorem noParameter_of_line_end {behind : Text}
    (h : behind = [] ∨ behind.head? = some '\n') :
    ∀ t ∈ (tokenize behind).head?, t.kind ≠ .lbrace ∧ t.kind ≠ .lbracket := by
  intro t ht
  obtain ⟨tokens, htokens⟩ := List.head?_eq_some_iff.mp ht
  have hkind : t.kind = .whitespace := by
    rcases h with rfl | h
    · cases htokens
    · exact kind_of_line_end htokens h
  simp [hkind]

/-- A text with the line that imports a package has the import in its tree. -/
theorem subtree_of_hasLine {p : Package} {text : Text} (hp : p.Plain)
    (h : HasLine text p.importCommand.toList) : Subtree p.importTree (parse text).tree := by
  obtain ⟨before, behind, rfl, hbefore, hbehind⟩ := h
  obtain ⟨c, hc, hsub⟩ := Nest.exists_mem_trees_of_command (noParameter_of_line_end hbehind) true
    p.importTree.children.reverse
    (((tokenize before).foldl Nest.next (.root [])).settle Package.importToken).1
  rw [List.reverse_reverse] at hsub
  rw [parse_tree, tokenize_line hp hbefore, List.foldl_append, List.foldl_append,
    p.foldl_next_import]
  exact .child hc hsub

/-! ### The package is imported -/

/-- A command in the form of an import imports the package. -/
theorem names_importTree {p : Package} (hp : p.Plain) {u : CommandUsage}
    (hname : u.name = "\\usepackage") {offset : Nat}
    (hparameters : u.parameters = p.importTree.parameters offset) :
    u.imports.map (·.name) = [p.name] := by
  have hgroup : ∃ group, u.firstRequired = some group ∧
      group.text = '{' :: (p.name.toList ++ ['}']) := by
    rw [CommandUsage.firstRequired, hparameters, Package.importTree, Package.optionTrees]
    split <;> simp [parameters, SyntaxTree.children, toParameter?, Parameter.isRequired,
      Package.nameTokens, tokensText]
  obtain ⟨group, hfirst, htext⟩ := hgroup
  have hnames : packageNames group = [p.name] := by
    rw [packageNames, Parameter.interior, htext, stripGroup_braces hp.name.isTextChar,
      split_parameter hp.name.toList_ne_nil hp.name.isWhitespace (hp.name.not_mem (by decide))]
    simp [trim_eq_self hp.name.isWhitespace, hp.name.ne_empty]
  rw [CommandUsage.imports, hname, hfirst]
  simp [Vocabulary.packageImports, hnames]

namespace Manuscript

theorem mem_collect_iff {α : Type} {m : Manuscript} {f : Document → List α} {x : Located α} :
    x ∈ m.collect f ↔ ∃ d, m.documents[x.document]? = some d ∧ x.value ∈ f d := by
  obtain ⟨i, a⟩ := x
  simp only [collect, List.mem_flatten, List.mem_mapIdx, List.getElem?_eq_some_iff]
  constructor
  · rintro ⟨_, ⟨j, hj, rfl⟩, hx⟩
    obtain ⟨b, hb, heq⟩ := List.mem_map.mp hx
    cases heq
    exact ⟨_, ⟨hj, rfl⟩, hb⟩
  · rintro ⟨d, ⟨hi, rfl⟩, ha⟩
    exact ⟨_, ⟨i, hi, rfl⟩, List.mem_map.mpr ⟨a, ha, rfl⟩⟩

theorem mem_includedPackages_iff {m : Manuscript} {name : String} :
    name ∈ m.includedPackages ↔
      ∃ d ∈ m.documents, ∃ u ∈ d.commands, name ∈ u.imports.map (·.name) := by
  rw [includedPackages, mem_distinct, packageImports]
  constructor
  · intro h
    obtain ⟨x, hx, rfl⟩ := List.mem_map.mp h
    obtain ⟨d, hd, hmem⟩ := mem_collect_iff.mp hx
    obtain ⟨u, hu, himport⟩ := List.mem_flatMap.mp hmem
    exact ⟨d, List.mem_of_getElem? hd, u, hu, List.mem_map.mpr ⟨_, himport, rfl⟩⟩
  · rintro ⟨d, hd, u, hu, hname⟩
    obtain ⟨i, hi⟩ := List.mem_iff_getElem?.mp hd
    obtain ⟨entry, himport, rfl⟩ := List.mem_map.mp hname
    exact List.mem_map.mpr ⟨⟨i, entry⟩,
      mem_collect_iff.mpr ⟨d, hi, List.mem_flatMap.mpr ⟨u, hu, himport⟩⟩, rfl⟩

/-- A manuscript imports a package if one of its documents has the line that does so. -/
theorem mem_includedPackages_of_hasLine {m : Manuscript} {path : String} {text : Text}
    (hd : Document.read path text ∈ m.documents) {p : Package} (hp : p.Plain)
    (h : HasLine text p.importCommand.toList) : p.name ∈ m.includedPackages := by
  obtain ⟨u, hu, hname, offset, hparameters⟩ :=
    Document.exists_command_of_subtree rfl (subtree_of_hasLine hp h)
  exact mem_includedPackages_iff.mpr
    ⟨_, hd, u, hu, by simp [names_importTree hp hname hparameters]⟩

end Manuscript

/-! ### Inserting a line -/

/-- A line that is inserted at the start of a line keeps the other lines. -/
theorem HasLine.insert {before behind line : Text} (h : HasLine (before ++ behind) line)
    (hline : '\n' ∉ line) (hbefore : before = [] ∨ before.getLast? = some '\n') (new : Text) :
    HasLine (before ++ (new ++ '\n' :: behind)) line := by
  obtain ⟨start, rest, heq, hstart, hrest⟩ := h
  rw [List.append_assoc] at heq
  have hmore (more : Text) : (more ++ new ++ ['\n']).getLast? = some '\n' := by simp
  rcases List.append_eq_append_iff.mp heq with ⟨between, rfl, rfl⟩ | ⟨between, rfl, hbetween⟩
  · -- The line stands behind the place of the new one.
    rcases List.eq_nil_or_concat between with rfl | ⟨init, last, rfl⟩
    · exact ⟨before ++ new ++ ['\n'], rest, by simp, .inr (hmore before), hrest⟩
    · refine ⟨before ++ (new ++ '\n' :: (init ++ [last])), rest, by simp, .inr ?_, hrest⟩
      rcases hstart with hstart | hstart
      · simp at hstart
      · simpa [List.getLast?_cons] using hstart
  · rcases List.eq_nil_or_concat between with rfl | ⟨init, last, rfl⟩
    · refine ⟨start ++ new ++ ['\n'], rest, ?_, .inr (hmore start), hrest⟩
      simp only [List.nil_append] at hbetween
      simp [hbetween]
    · -- The line stands before that place: the line end there cannot be in the line itself.
      have hlast : last = '\n' := by
        rcases hbefore with hbefore | hbefore
        · simp at hbefore
        · simpa using hbefore
      subst hlast
      rcases List.append_eq_append_iff.mp hbetween with ⟨more, hinit, rfl⟩ | ⟨more, rfl, -⟩
      · cases more with
        | nil =>
          rw [List.append_nil] at hinit
          exact absurd (by simp [← hinit]) hline
        | cons c more =>
          rw [hinit]
          refine ⟨start, c :: more ++ (new ++ '\n' :: behind), by simp, hstart, .inr ?_⟩
          simpa using hrest
      · exact absurd (by simp) hline

/-- A line that is put at the end keeps the other lines. -/
theorem HasLine.append {text line : Text} (h : HasLine text line) (new : Text) :
    HasLine (text ++ '\n' :: new) line := by
  obtain ⟨before, behind, rfl, hbefore, hbehind⟩ := h
  refine ⟨before, behind ++ '\n' :: new, by simp, hbefore, .inr ?_⟩
  rcases hbehind with rfl | hbehind
  · rfl
  · simp [hbehind]

end TexLint
