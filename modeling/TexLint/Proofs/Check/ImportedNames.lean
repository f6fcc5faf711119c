import TexLint.Proofs.Check.ImportFrame
import TexLint.Proofs.Check.ImportTrees
import TexLint.Proofs.Document.Prefixes
import TexLint.Proofs.Text.Coverage
import TexLint.Proofs.Text.Fields

/-!
# What a document imports with one more line

A fix adds no import but its own. What the line of the fix has been put into may import less then,
or something of a name that no package has. One place makes trouble: a backslash may have taken
the line end behind which the line goes. What stood in brackets behind it was a parameter of this
control symbol, and it is a parameter of something else then.

## The model

* `Document.Imports`: a document imports a package of a given name.
* `Document.importOffset` is the place where a fix inserts its line.
* `Document.ClosedAtEscape`: no import goes on behind a backslash that takes the line end at this
  place.

## What is proved

* `Document.exists_import_of_line`: a line that imports a package is a command of the document.
* `Document.imports_of_prefix`, `Document.imports_of_corresponds`: names that are imported have been
  imported before, where the line is put between imports or into them.
* `Document.imports_of_importEdit`: so it is with the line of a fix.
* `Document.closedAtEscape_importEdit`: behind that line, the next fix finds no such backslash.
-/

namespace TexLint

open SyntaxTree

/-! ### The line -/

section Line

variable {p : Package}

theorem toList_importCommand (hoptions : p.options = []) :
    p.importCommand.toList = "\\usepackage".toList ++ '{' :: (p.name.toList ++ ['}']) := by
  simp [Package.importCommand, hoptions]

theorem exists_importCommand_concat (p : Package) :
    ∃ init, p.importCommand.toList = init ++ ['}'] := by
  refine ⟨("\\usepackage" ++ (if p.options.isEmpty then "" else
    "[" ++ String.intercalate "," p.options ++ "]") ++ "\x7b" ++ p.name).toList, ?_⟩
  simp [Package.importCommand]

/-- Characters without meaning are balanced. -/
theorem Balanced.append_of_plain {run rest : Text} (h : ∀ c ∈ run, isPlainChar c = true)
    (hrest : Balanced rest) : Balanced (run ++ rest) := by
  induction run with
  | nil => exact hrest
  | cons c run ih =>
    rw [List.forall_mem_cons] at h
    exact .char (ne_of_isPlainChar h.1 (by decide)) (ne_of_isPlainChar h.1 (by decide))
      (ne_of_isPlainChar h.1 (by decide)) (ih h.2)

theorem balanced_importCommand (hp : p.Plain) (hoptions : p.options = []) :
    Balanced p.importCommand.toList := by
  have hname : Balanced p.name.toList := by
    simpa using Balanced.append_of_plain hp.name.plain .nil
  rw [toList_importCommand hoptions]
  have hword : ∀ c ∈ "sepackage".toList, isPlainChar c = true :=
    List.all_eq_true.mp (by decide)
  exact .escape (.append_of_plain hword (.group hname .nil))

theorem comma_not_mem_importCommand (hp : p.Plain) (hoptions : p.options = []) :
    ',' ∉ p.importCommand.toList := by
  rw [toList_importCommand hoptions]
  simp [hp.name.not_mem (d := ',') (by decide)]

/-- A group that takes the line names no package that it has not named before. -/
theorem TakesLine.mem_namesIn (hp : p.Plain) (hoptions : p.options = []) {group group' : Text}
    (h : TakesLine p.importCommand.toList group group') (hgroup' : group'.head? = some '{')
    {name : String} (hname : '\\' ∉ name.toList) (hmem : name ∈ namesIn (stripGroup group')) :
    name ∈ namesIn (stripGroup group) := by
  rcases h with rfl | ⟨before, behind, rfl, rfl, hbehind⟩
  · exact hmem
  · cases before with
    | nil => cases hgroup'
    | cons c before =>
      cases hgroup'
      have hbackslash : '\\' ∈ p.importCommand.toList := by simp [Package.importCommand]
      exact mem_namesIn_stripGroup (balanced_importCommand hp hoptions) hbackslash
        (comma_not_mem_importCommand hp hoptions) hbehind hname hmem

end Line

/-- An import is an ordinary control sequence. -/
theorem Token.isOrdinary_of_isImport {t : Token} (h : t.isImport = true) : t.IsOrdinary := by
  obtain ⟨kind, text⟩ := t
  obtain rfl : kind = .command := Token.kind_of_isImport h
  rw [Token.isImport, Bool.and_eq_true, List.contains_iff_mem] at h
  have hall : ∀ name ∈ Vocabulary.packageImports,
      (Token.mk .command name.toList).IsOrdinary := by decide
  simpa using hall _ h.2

theorem kind_of_mem_parameters {p : Package} {t : Token}
    (h : t ∈ p.optionTokens ++ p.nameTokens) : t.kind ≠ .command := by
  rw [Package.optionTokens, Package.nameTokens] at h
  split at h <;> simp at h <;> rcases h with rfl | rfl | h <;> grind

/-- The first brace group of a command of a source is written with its brace in front. -/
theorem head?_of_firstGroup? {t : Token} {parameters : List SyntaxTree} {text group : Text}
    (hsub : Subtree (.node .command (.leaf t :: parameters)) (parse text).tree)
    (h : firstGroup? parameters = some group) : group.head? = some '{' := by
  obtain ⟨tree, hfind, rfl⟩ := Option.map_eq_some_iff.mp h
  have htree : Subtree tree (parse text).tree :=
    (subtree_of_mem_children (List.mem_cons_of_mem _ (List.mem_of_find?_eq_some hfind))).trans hsub
  obtain ⟨children, rfl⟩ := exists_of_isNode (by simpa using List.find?_some hfind)
  obtain ⟨hlexed, behind, hwell⟩ := wellFormed_of_subtree htree
  rw [tokens_node] at hlexed
  obtain ⟨inner, htext, -⟩ := text_of_required hwell.1 hlexed
  rw [text_node, htext]
  rfl

namespace Document

/-- A document imports a package of a name. -/
def Imports (d : Document) (name : String) : Prop :=
  ∃ u ∈ d.commands, name ∈ u.imports.map (·.name)

section Place

variable {p : Package} {path : String} {before behind : Text} {u : CommandUsage}

theorem isImport_of_command {t : Token} (ht : t.kind = .command)
    (hname : u.name = String.ofList t.text)
    (himport : Vocabulary.packageImports.contains u.name = true) : t.isImport = true := by
  rw [Token.isImport, Bool.and_eq_true, beq_iff_eq, ← hname]
  exact ⟨ht, himport⟩

/-! ### The import of the line -/

/-- At the end of a source, the tree of an import stands behind the tokens before its line. -/
theorem stands_importTree (hp : p.Plain) (hbefore : before = [] ∨ before.getLast? = some '\n') :
    Stands p.importTree (tokenize before) [(parse (before ++ p.importCommand.toList)).tree] := by
  have htokens := tokenize_line hp hbefore []
  rw [List.append_nil, tokenize, List.append_nil] at htokens
  rw [parse_tree, htokens, List.foldl_append, p.foldl_next_import, Nest.trees,
    Nest.treesWith_inside, List.nil_append, close_importTree]
  let nest := (tokenize before).foldl Nest.next (.root [])
  obtain ⟨read, hread, hstands⟩ := (nest.settle Package.importToken).1.exists_stands_treesWith
  have hnest : tokensOfAll nest.trees = tokenize before := by
    rw [Nest.tokens_trees_foldl_next]
    simp [Nest.trees, Nest.treesWith_root]
  have hsettle : (nest.settle Package.importToken).1.treesWith [] = nest.trees :=
    Nest.trees_settleFrom Package.importToken [] nest
  obtain rfl : read = tokenize before := by
    simpa [hsettle, hnest] using (hread []).symm
  exact .into [] (hstands _)

/-- The line of an import is a command of the document. -/
theorem exists_import_of_line (hp : p.Plain)
    (hbefore : before = [] ∨ before.getLast? = some '\n')
    (hbehind : behind = [] ∨ behind.head? = some '\n') (path : String) :
    ∃ u ∈ (read path (before ++ p.importCommand.toList ++ behind)).commands,
      u.name = "\\usepackage" ∧
        u.span = .ofLength (byteLength before) (byteLength p.importCommand.toList) ∧
          u.imports.map (·.name) = [p.name] := by
  have hsplit : p.importTree = .node .command (.leaf Package.importToken :: p.optionTrees ++
      .node .required ([.leaf ⟨.lbrace, ['{']⟩, .leaf ⟨.text, p.name.toList⟩] ++
        [.leaf ⟨.rbrace, ['}']⟩]) :: []) := rfl
  have htokens : tokensOfAll p.importTree.children = p.importTokens := by
    rw [← tokens_importTree, hsplit, tokens_node]
    rfl
  have htext : tokensText p.importTokens = p.importCommand.toList := by
    rw [← tokens_importTree, ← text_importTree hp, SyntaxTree.text]
  have hlength : byteLength (tokensText (tokenize before ++ tokensOfAll p.importTree.children)) ≤
      byteLength (before ++ p.importCommand.toList) := by
    rw [tokensText_append, tokensText_tokenize, htokens, htext]
  have hstands := stands_importTree hp hbefore
  rw [← List.append_nil (before ++ p.importCommand.toList), hsplit] at hstands
  obtain ⟨after, hafter⟩ := exists_stands_of_closed (by decide) rfl hstands hlength behind
  rw [List.append_cons] at hafter
  -- What follows the line begins no parameter.
  have hread := tokenize_line hp hbefore behind
  rw [← htokens] at hread
  obtain rfl := eq_nil_of_noParameter hafter hread (noParameter_of_line_end hbehind)
  rw [List.append_nil] at hafter
  obtain ⟨u, hu, hat⟩ := exists_command_of_stands path rfl hafter
  have hname : u.name = "\\usepackage" := hat.name.trans String.ofList_toList
  refine ⟨u, hu, hname, ?_, names_importTree hp hname hat.parameters⟩
  rw [hat.span, tokensText_tokenize, ← text_importTree hp, ← length_eq]
  rfl

/-- Where no import follows the line, an import that does not start before the line is that of the
line. -/
theorem start_eq_of_le (hp : p.Plain) (hbefore : before = [] ∨ before.getLast? = some '\n')
    (hno : ∀ t ∈ tokenize behind, t.isImport = false)
    (hu : u ∈ (read path (before ++ p.importCommand.toList ++ behind)).commands)
    (himport : Vocabulary.packageImports.contains u.name = true)
    (hle : byteLength before ≤ u.span.start) : u.span.start = byteLength before := by
  obtain ⟨a, t, parameters, rest, htokens, ht, hname, hspan⟩ := exists_tokens_of_command hu
  have hstart : u.span.start = byteLength (tokensText a) := by rw [hspan]; rfl
  have hmem : t ∈ tokenize (before ++ p.importCommand.toList ++ behind) := by
    rw [htokens]
    simp
  have hne : t.text ≠ [] := (begins_of_mem_tokenize hmem).text_ne_nil
  rw [tokenize_line hp hbefore, List.append_assoc, List.append_assoc] at htokens
  obtain ⟨m, rfl, hm⟩ := exists_append_of_byteLength_le hne htokens
    (by rwa [tokensText_tokenize, ← hstart])
  cases m with
  | nil => rw [hstart, List.append_nil, tokensText_tokenize]
  | cons t' m =>
    -- The token would be one of a parameter, or stand behind the line.
    rw [Package.importTokens, List.cons_append, List.cons_append] at hm
    have hmem : t ∈ p.optionTokens ++ p.nameTokens ++ tokenize behind := by
      rw [(List.cons.inj hm).2]
      simp
    rcases List.mem_append.mp hmem with hmem | hmem
    · exact absurd ht (kind_of_mem_parameters hmem)
    · exact absurd (isImport_of_command ht hname himport) (Bool.eq_false_iff.mp (hno t hmem))

/-- Where no import follows the line, the next line goes behind it. -/
theorem exists_importAnchor_of_line (hp : p.Plain)
    (hbefore : before = [] ∨ before.getLast? = some '\n')
    (hbehind : behind = [] ∨ behind.head? = some '\n')
    (hno : ∀ t ∈ tokenize behind, t.isImport = false) (path : String) :
    ∃ anchor, (read path (before ++ p.importCommand.toList ++ behind)).importAnchor? = some anchor ∧
      anchor.span.stop = byteLength (before ++ p.importCommand.toList) := by
  obtain ⟨u, hu, hname, hspan, -⟩ := exists_import_of_line hp hbefore hbehind path
  have himport : Vocabulary.packageImports.contains u.name = true := by
    rw [hname]
    decide
  obtain ⟨anchor, hanchor, himport', rfl | hlt⟩ := exists_importAnchor hu himport
  · refine ⟨u, hanchor, ?_⟩
    rw [hspan, byteLength_append]
    rfl
  · have hstart : u.span.start = byteLength before := by rw [hspan]; rfl
    have heq := start_eq_of_le hp hbefore hno (mem_commands_of_importAnchor? hanchor) himport'
      (by omega)
    omega

/-! ### Names that are imported -/

/-- A line behind which there is no import, and before which each import has ended, adds the import
of its package only. -/
theorem imports_of_prefix (hp : p.Plain) (hbefore : before = [] ∨ before.getLast? = some '\n')
    (htokens : tokenize (before ++ behind) = tokenize before ++ tokenize behind)
    (hno : ∀ t ∈ tokenize ('\n' :: behind), t.isImport = false)
    (hclosed : ∀ u ∈ (read path (before ++ behind)).commands,
      Vocabulary.packageImports.contains u.name = true → u.span.stop < byteLength before)
    {name : String}
    (h : (read path (before ++ p.importCommand.toList ++ '\n' :: behind)).Imports name) :
    name = p.name ∨ (read path (before ++ behind)).Imports name := by
  obtain ⟨u', hu', hname⟩ := h
  have himport : Vocabulary.packageImports.contains u'.name = true :=
    CommandUsage.isImport_of_imports_ne_nil fun hnil => by simp [hnil] at hname
  by_cases hlt : u'.span.start < byteLength before
  · obtain ⟨u, hu, hsame, -, hparameters⟩ := exists_command_exchange ⟨_, htokens.symm⟩
      ⟨_, by rw [tokenize_line hp hbefore, List.append_assoc]⟩ hu' hlt
    have hparameters := hparameters (hclosed u hu (hsame ▸ himport))
    refine .inr ⟨u, hu, ?_⟩
    rwa [CommandUsage.names_imports_congr hsame.symm] at hname
    rw [CommandUsage.firstRequired, CommandUsage.firstRequired, hparameters]
  · have hbehind : '\n' :: behind = [] ∨ ('\n' :: behind).head? = some '\n' := .inr rfl
    obtain ⟨u, hu, -, hspan, hnames⟩ := exists_import_of_line hp hbefore hbehind path
    have hstart := start_eq_of_le hp hbefore hno hu' himport (by omega)
    obtain rfl : u' = u := eq_of_start hu' hu (by rw [hstart, hspan]; rfl)
    rw [hnames, List.mem_singleton] at hname
    exact .inl hname

end Place

/-- The first brace group of a usage is that of its node. -/
theorem text_firstRequired {u : CommandUsage} {t : Token} {parameters : List SyntaxTree}
    {offset : Nat}
    (h : u.parameters = (SyntaxTree.node .command (.leaf t :: parameters)).parameters offset) :
    u.firstRequired.map (·.text) = firstGroup? parameters := by
  rw [CommandUsage.firstRequired, h, find?_parameters]
  rfl

/-- The node of a usage stands in the row of the source. -/
theorem exists_hasCommand {path : String} {text : Text} {row : List SyntaxTree} {u : CommandUsage}
    (hu : u ∈ (read path text).commands) (htree : (parse text).tree = .node .root row) :
    ∃ before t parameters, t.kind = .command ∧ u.IsAt before t parameters ∧
      HasCommand t parameters row := by
  obtain ⟨before, t, parameters, hstands, ht, hat⟩ := exists_isAt hu
  obtain ⟨tree, hroot, hsub⟩ := hstands.exists_subtree
  rw [List.mem_singleton.mp hroot, htree] at hsub
  refine ⟨before, t, parameters, ht, hat, ?_⟩
  cases hsub with
  | child hc hsub => exact ⟨_, hc, hsub⟩

theorem subtree_of_hasCommand {text : Text} {row : List SyntaxTree} {t : Token}
    {parameters : List SyntaxTree} (htree : (parse text).tree = .node .root row)
    (h : HasCommand t parameters row) :
    Subtree (.node .command (.leaf t :: parameters)) (parse text).tree := by
  obtain ⟨c, hc, hsub⟩ := h
  rw [htree]
  exact .child hc hsub

/-- Where the imports of two sources correspond, those of the second one name what has been
imported before. -/
theorem imports_of_corresponds {p : Package} (hp : p.Plain) (hoptions : p.options = [])
    {path : String} {text text' : Text} {row row' : List SyntaxTree}
    (htree : (parse text).tree = .node .root row) (htree' : (parse text').tree = .node .root row')
    (h : Corresponds p (TakesLine p.importCommand.toList) row row') {name : String}
    (hname : '\\' ∉ name.toList) (himports : (read path text').Imports name) :
    name = p.name ∨ (read path text).Imports name := by
  obtain ⟨u', hu', hmem⟩ := himports
  have himport : Vocabulary.packageImports.contains u'.name = true :=
    CommandUsage.isImport_of_imports_ne_nil fun hnil => by simp [hnil] at hmem
  obtain ⟨before, t, parameters', ht, hat, hcommand⟩ := exists_hasCommand hu' htree'
  rcases h.imports t parameters' (isImport_of_command ht hat.name himport) hcommand with
    heq | ⟨parameters, hcommand₀, hfirst⟩
  · -- It is the import of the line.
    have hparameters := hat.parameters
    rw [heq] at hparameters
    obtain rfl : t = Package.importToken := by
      cases heq
      rfl
    have hname' : u'.name = "\\usepackage" := hat.name.trans String.ofList_toList
    rw [names_importTree hp hname' hparameters, List.mem_singleton] at hmem
    exact .inl hmem
  · have hsub := subtree_of_hasCommand htree hcommand₀
    obtain ⟨u, hu, hsame, offset, hparameters⟩ := @exists_command_of_subtree path _ _ _ ht hsub
    refine .inr ⟨u, hu, ?_⟩
    rw [CommandUsage.names_imports, if_pos himport, text_firstRequired hat.parameters] at hmem
    rw [CommandUsage.names_imports, hsame, ← hat.name, if_pos himport,
      text_firstRequired hparameters]
    generalize htext : firstGroup? parameters = text₀ at hfirst
    generalize htext' : firstGroup? parameters' = text₀' at hfirst hmem
    cases hfirst with
    | none => cases hmem
    | some htakes =>
      have hhead := head?_of_firstGroup? (subtree_of_hasCommand htree' hcommand) htext'
      exact htakes.mem_namesIn hp hoptions hhead hname hmem

/-! ### The place of the line -/

section Anchor

variable {path : String} {text : Text} {anchor : CommandUsage}

/-- Each import in a text begins before the end of the command behind which a line is inserted. -/
theorem exists_importAnchor_of_token (path : String) {before behind : List Token} {t : Token}
    (h : tokenize text = before ++ t :: behind) (ht : t.isImport = true) :
    ∃ anchor, (read path text).importAnchor? = some anchor ∧
      byteLength (tokensText before) < anchor.span.stop := by
  have hordinary := Token.isOrdinary_of_isImport ht
  obtain ⟨u, hu, hname, hstart⟩ := @exists_command_of_token path _ _ _ _ h hordinary
  have himport : Vocabulary.packageImports.contains u.name = true := by
    rw [Token.isImport, Bool.and_eq_true] at ht
    rw [hname]
    exact ht.2
  obtain ⟨anchor, hanchor, -, hle⟩ := exists_importAnchor hu himport
  refine ⟨anchor, hanchor, ?_⟩
  have hlt := start_lt_stop (mem_commands_of_importAnchor? hanchor)
  rcases hle with rfl | hle <;> omega

/-- If there is no such command, then the text has no import. -/
theorem not_isImport_of_importAnchor?_eq_none (h : (read path text).importAnchor? = none) :
    ∀ t ∈ tokenize ('\n' :: text), t.isImport = false := by
  intro t ht
  by_contra himport
  have himport : t.isImport = true := by simpa using himport
  obtain ⟨before, behind, htokens⟩ :=
    List.append_of_mem (mem_tokenize_of_cons_newline (Token.kind_of_isImport himport) ht)
  obtain ⟨anchor, hanchor, -⟩ := exists_importAnchor_of_token path htokens himport
  rw [h] at hanchor
  cases hanchor

/-- Behind it there is no import. -/
theorem not_isImport_of_le (h : (read path text).importAnchor? = some anchor)
    {tokens rest : List Token} (htokens : tokenize text = tokens ++ rest)
    (hle : anchor.span.stop ≤ byteLength (tokensText tokens)) :
    ∀ t ∈ rest, t.isImport = false := by
  intro t ht
  obtain ⟨a, b, rfl⟩ := List.append_of_mem ht
  rw [← List.append_assoc] at htokens
  by_contra himport
  obtain ⟨_, hanchor, hlt⟩ := exists_importAnchor_of_token path htokens (by simpa using himport)
  obtain rfl := Option.some.inj (hanchor.symm.trans h)
  rw [tokensText_append, byteLength_append] at hlt
  omega

/-- The line end behind which a line is inserted is in blanks, or a backslash takes it. Behind it
there is no import. -/
theorem tokenize_importLine {before between behind : Text}
    (h : (read path text).importAnchor? = some anchor)
    (hstop : anchor.span.stop = byteLength before) (hbetween : '\n' ∉ between)
    (htext : text = before ++ between ++ ['\n'] ++ behind) :
    ((∃ a b x y, '\n' ∉ x ∧ tokenize text = a ++ ⟨.whitespace, x ++ '\n' :: y⟩ :: b ∧
        tokenize (before ++ between ++ ['\n']) = a ++ [⟨.whitespace, x ++ ['\n']⟩] ∧
        tokenize ('\n' :: behind) = ⟨.whitespace, '\n' :: y⟩ :: b) ∨
      ∃ a, tokenize (before ++ between ++ ['\n']) = a ++ [escapedLineEnd] ∧
        tokenize text = tokenize (before ++ between ++ ['\n']) ++ tokenize behind) ∧
      ∀ t ∈ tokenize ('\n' :: behind), t.isImport = false := by
  obtain ⟨first, t, parameters, rest, htokens, -, -, hspan⟩ :=
    exists_tokens_of_command (mem_commands_of_importAnchor? h)
  have hlength : byteLength (tokensText (first ++ t :: parameters)) = byteLength before := by
    rw [← hstop, hspan, tokensText_append, byteLength_append]
    rfl
  have hparts : tokensText (first ++ t :: parameters) ++ tokensText rest =
      before ++ (between ++ '\n' :: behind) := by
    rw [← tokensText_append, ← htokens, tokensText_tokenize, htext]
    simp
  obtain ⟨hbefore, hrest⟩ := append_inj_of_byteLength hparts hlength
  have hcases := tokenize_lineEnd htokens hrest hbetween
  rw [hbefore] at hcases
  refine ⟨hcases, fun t ht => ?_⟩
  -- Each token behind the line end stands behind the command.
  have hle : anchor.span.stop ≤ byteLength (before ++ between ++ ['\n']) := by
    rw [hstop, List.append_assoc, byteLength_append]
    exact Nat.le_add_right _ _
  rcases hcases with ⟨a, b, x, y, -, htokens, hstart, hbehind⟩ | ⟨a, -, htokens⟩
  · rw [hbehind] at ht
    rcases List.mem_cons.mp ht with rfl | ht
    · rfl
    · rw [List.append_cons] at htokens
      refine not_isImport_of_le h htokens (hle.trans ?_) t ht
      rw [← tokensText_tokenize (before ++ between ++ ['\n']), hstart, tokensText_append,
        tokensText_append, byteLength_append, byteLength_append]
      simp [tokensText]
  · by_contra himport
    have himport : t.isImport = true := by simpa using himport
    have hmem := mem_tokenize_of_cons_newline (Token.kind_of_isImport himport) ht
    rw [← tokensText_tokenize (before ++ between ++ ['\n'])] at hle
    rw [not_isImport_of_le h htokens hle t hmem] at himport
    cases himport

end Anchor

/-- The place in the text where a fix inserts its line. -/
def importOffset (d : Document) : Nat := (d.importEdit (.named "")).offset

/-- If a backslash takes the line end behind which a fix inserts its line, then each import has
ended before this backslash. -/
def ClosedAtEscape (d : Document) : Prop :=
  ∀ s ∈ d.commands, s.name = "\\\n" → s.nameSpan.stop = d.importOffset →
    ∀ u ∈ d.commands, Vocabulary.packageImports.contains u.name = true →
      u.span.stop ≤ s.span.start

instance : DecidablePred ClosedAtEscape := fun d =>
  inferInstanceAs (Decidable (∀ s ∈ d.commands, _ → _ → ∀ u ∈ d.commands, _ → _))

theorem offset_importEdit (d : Document) (p : Package) :
    (d.importEdit p).offset = d.importOffset := by
  rw [importOffset, importEdit, importEdit]
  simp only []
  split
  · rfl
  · split <;> rfl

/-! ### The line of a fix -/

section Edit

variable {p : Package} {path : String} {text : Text}

/-- A fix puts its line where a line begins, and there is no import behind it. -/
theorem exists_importLine (path : String) (text : Text) (p : Package) : ∃ before behind,
    ((read path text).importEdit p).apply text = before ++ p.importCommand.toList ++ behind ∧
      (before = [] ∨ before.getLast? = some '\n') ∧ (behind = [] ∨ behind.head? = some '\n') ∧
        ∀ t ∈ tokenize behind, t.isImport = false := by
  rcases importEdit_cases path text p with ⟨hnone, -, happly⟩ | ⟨anchor, before, between, hanchor,
    hstop, hbetween, ⟨behind, htext, -, happly⟩ | ⟨-, -, happly⟩⟩
  · exact ⟨[], '\n' :: text, happly, .inl rfl, .inr rfl,
      not_isImport_of_importAnchor?_eq_none hnone⟩
  · exact ⟨_, _, happly, .inr (by simp), .inr rfl,
      (tokenize_importLine hanchor hstop hbetween htext).2⟩
  · exact ⟨text ++ ['\n'], [], by simpa using happly, .inr (by simp), .inl rfl,
      fun t ht => nomatch ht⟩

/-- When the line of a fix has been inserted, the document imports the package of the fix, and of
names without a backslash only those that it imported before. -/
theorem imports_of_importEdit (hp : p.Plain) (hoptions : p.options = [])
    (hclosed : (read path text).ClosedAtEscape) {name : String} (hname : '\\' ∉ name.toList)
    (h : (read path (((read path text).importEdit p).apply text)).Imports name) :
    name = p.name ∨ (read path text).Imports name := by
  rcases importEdit_cases path text p with ⟨hnone, -, happly⟩ | ⟨anchor, before, between, hanchor,
    hstop, hbetween, ⟨behind, htext, hoffset, happly⟩ | ⟨-, -, happly⟩⟩
  · rw [happly] at h
    have hno := not_isImport_of_importAnchor?_eq_none hnone
    refine imports_of_prefix hp (.inl rfl) rfl hno (fun u hu himport => ?_) h
    obtain ⟨_, hanchor, -⟩ := exists_importAnchor hu himport
    rw [List.nil_append, hnone] at hanchor
    cases hanchor
  · rw [happly] at h
    have hline : before ++ between ++ ['\n'] = [] ∨
        (before ++ between ++ ['\n']).getLast? = some '\n' := .inr (by simp)
    obtain ⟨⟨a, b, x, y, hx, htokens, hstart, hbehind⟩ | ⟨a, hstart, htokens⟩, hno⟩ :=
      tokenize_importLine hanchor hstop hbetween htext
    · have htokens' := tokenize_line hp hline ('\n' :: behind)
      rw [hstart, hbehind, List.append_assoc a] at htokens'
      obtain ⟨row, row', htree, htree', hrow⟩ := corresponds_between hp hx htokens htokens'
      exact imports_of_corresponds hp hoptions htree htree' hrow hname h
    · -- The imports have ended before the backslash that takes the line end.
      have hescape : tokenize text = a ++ escapedLineEnd :: tokenize behind := by
        rw [htokens, hstart, List.append_assoc]
        rfl
      obtain ⟨s, hs, hsname, hsstart⟩ := @exists_command_of_token path _ _ _ _ hescape (by decide)
      have hlength : byteLength (tokensText a) + 2 = byteLength (before ++ between ++ ['\n']) := by
        rw [← tokensText_tokenize (before ++ between ++ ['\n']), hstart, tokensText_append,
          byteLength_append]
        rfl
      have hends : ∀ u ∈ (read path text).commands,
          Vocabulary.packageImports.contains u.name = true → u.span.stop ≤ s.span.start := by
        refine hclosed s hs hsname ?_
        rw [← offset_importEdit _ p, hoffset, ← hlength, CommandUsage.nameSpan, hsname, hsstart]
        rfl
      rw [htext] at htokens hends ⊢
      refine imports_of_prefix hp hline htokens hno (fun u hu himport => ?_) h
      have := hends u hu himport
      omega
  · rw [happly] at h
    obtain ⟨row, row', htree, htree', hrow⟩ := corresponds_atEnd hp text
    exact imports_of_corresponds hp hoptions htree htree' hrow hname h

/-- The next line goes behind the line end of the one that has been put last. -/
theorem exists_importOffset_of_line (path : String) {before behind : Text} {anchor : CommandUsage}
    (hbehind : behind = [] ∨ behind.head? = some '\n')
    (hanchor : (read path (before ++ behind)).importAnchor? = some anchor)
    (hstop : anchor.span.stop = byteLength before) : ∃ lineEnd rest, behind = lineEnd ++ rest ∧
      (lineEnd = [] ∨ lineEnd = ['\n']) ∧
        (read path (before ++ behind)).importOffset = byteLength (before ++ lineEnd) := by
  rw [← offset_importEdit _ (.named "")]
  rcases importEdit_cases path (before ++ behind) (.named "") with ⟨hnone, -⟩ | ⟨_, before',
    between, hanchor', hstop', hbetween, ⟨rest, htext, hoffset, -⟩ | ⟨htext, hoffset, -⟩⟩
  · rw [hnone] at hanchor
    cases hanchor
  · obtain rfl := Option.some.inj (hanchor.symm.trans hanchor')
    rw [List.append_assoc before', List.append_assoc before'] at htext
    obtain ⟨rfl, rfl⟩ := append_inj_of_byteLength htext (hstop.symm.trans hstop')
    -- The line end is the first character behind the command.
    have hnil : between = [] := by
      cases between with
      | nil => rfl
      | cons c between =>
        rcases hbehind with hbehind | hbehind
        · cases hbehind
        · cases hbehind
          exact absurd List.mem_cons_self hbetween
    subst hnil
    exact ⟨['\n'], rest, rfl, .inr rfl, by simpa using hoffset⟩
  · obtain rfl := Option.some.inj (hanchor.symm.trans hanchor')
    obtain ⟨rfl, rfl⟩ := append_inj_of_byteLength htext (hstop.symm.trans hstop')
    have hnil : behind = [] := by
      rcases hbehind with hbehind | hbehind
      · exact hbehind
      · exact absurd (List.mem_of_head? hbehind) hbetween
    subst hnil
    exact ⟨[], [], rfl, .inl rfl, hoffset⟩

/-- Behind the line of a fix, no backslash takes the line end. -/
theorem closedAtEscape_importEdit (hp : p.Plain) :
    (read path (((read path text).importEdit p).apply text)).ClosedAtEscape := by
  obtain ⟨before, behind, happly, hbefore, hbehind, hno⟩ := exists_importLine path text p
  rw [happly]
  obtain ⟨_, hanchor, hstop⟩ := exists_importAnchor_of_line hp hbefore hbehind hno path
  obtain ⟨lineEnd, rest, rfl, hlineEnd, hoffset⟩ :=
    exists_importOffset_of_line path hbehind hanchor hstop
  intro s hs hsname hsstop
  exfalso
  obtain ⟨j, hj⟩ := List.mem_iff_getElem?.mp hs
  obtain ⟨a, b, htext, hstart, -⟩ := exists_text_of_command hj
  rw [hoffset, CommandUsage.nameSpan, ← hstart] at hsstop
  rw [← List.append_assoc _ lineEnd rest] at htext
  have hlength : byteLength (before ++ p.importCommand.toList ++ lineEnd) =
      byteLength (a ++ s.name.toList) := by
    rw [← hsstop, byteLength_append]
    rfl
  obtain ⟨hsame, -⟩ := append_inj_of_byteLength htext hlength
  -- The line ends in a brace, so that no backslash stands there.
  obtain ⟨line, hline⟩ := exists_importCommand_concat p
  rw [hline, hsname] at hsame
  have hreverse := congrArg List.reverse hsame
  rcases hlineEnd with rfl | rfl <;> simp at hreverse

end Edit

end Document

end TexLint
