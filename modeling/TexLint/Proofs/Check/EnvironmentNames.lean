import TexLint.Proofs.Check.Monotone
import TexLint.Proofs.Document.Ranges
import TexLint.Proofs.Source.Faults

/-!
# Where reports on environments stand

A report on an environment stands a fixed number of bytes behind the start of its beginning, and it
is as long as the name of the environment. This is the place of the name if the brace group that
gives the name comes first. If a bracket group comes first, the place is one in the brackets.

## What is proved

* `SyntaxTree.PartOf.opening_cases`: what comes first behind the control sequence of a beginning,
  and where its first brace group stands.
* `exists_missingBeginName`: a beginning whose brace group does not come first is a defect of the
  source.
* `Knowledge.analyze_names_environment`: which reports on environments stand at the names.
* `Knowledge.analyze_beside_name`: a report that stands beside the name, and one that ends inside a
  character.
-/

namespace TexLint

open SyntaxTree

/-! ### Beginnings without a name in front -/

/-- What is wrong with a part of a tree is wrong with the tree. -/
theorem SyntaxTree.Subtree.mem_faults {kind around : NodeKind} {children : List SyntaxTree}
    {tree : SyntaxTree} {f : Fault} (h : Subtree (node kind children) tree)
    (hfault : ∀ around, fault? around kind children = some f) : f ∈ tree.faults around := by
  induction h generalizing around with
  | self =>
    rw [faults, hfault around]
    exact List.mem_append_left _ (List.mem_singleton_self f)
  | @child k trees c hmem _ ih =>
    obtain ⟨before, behind, rfl⟩ := List.append_of_mem hmem
    rw [faults, faultsOfAll_append, faultsOfAll]
    exact List.mem_append_right _ (List.mem_append_right _ (List.mem_append_left _ ih))

/-- A beginning whose control sequence is not followed by a brace group is a defect of the source. -/
theorem exists_missingBeginName {text : Text} {children : List SyntaxTree}
    (h : Subtree (.node .opening children) (parse text).tree)
    (hfirst : children[1]?.any (isNode .required) = false) :
    ∃ e ∈ (parse text).errors, e.defect = .missingBeginName := by
  have hfault : Fault.namelessBegin ∈ (parse text).tree.faults .root :=
    h.mem_faults fun _ => by simp [fault?, hfirst]
  obtain ⟨e, he, hdefect⟩ := List.mem_map.mp ((perm_faults_parse text).mem_iff.mpr hfault)
  refine ⟨e, he, ?_⟩
  cases hkind : e.defect <;> simp [hkind, Defect.fault] at hdefect ⊢

namespace SyntaxTree.PartOf

variable {text : Text} {offset : Nat} {parts : List SyntaxTree} {group : Nat × SyntaxTree}

/-- A beginning is written with its control sequence in front. -/
theorem exists_of_opening (h : PartOf text offset (.node .opening parts)) :
    ∃ t parameters, parts = .leaf t :: parameters ∧ t.text = "\\begin".toList ∧
      ∀ p ∈ parameters, p.IsParameter true := by
  obtain ⟨-, behind, hwell⟩ := wellFormed_of_subtree h.subtree
  obtain ⟨t, parameters, rfl, ht, hparameters, -⟩ := hwell.1.exists_of_opening
  simp only [Token.isBegin, Bool.and_eq_true, beq_iff_eq] at ht
  exact ⟨t, parameters, rfl, ht.2, hparameters⟩

/-- A bracket group is written with its bracket in front. -/
theorem exists_text_of_optional {tree : SyntaxTree} (h : PartOf text offset tree)
    (hoptional : tree.isNode .optional = true) : ∃ inner, tree.text = '[' :: inner := by
  obtain ⟨children, rfl⟩ := exists_of_isNode hoptional
  obtain ⟨hlexed, behind, hwell⟩ := wellFormed_of_subtree h.subtree
  rw [tokens_node] at hlexed
  obtain ⟨inner, htext, -⟩ := text_of_optional hwell.1 hlexed
  exact ⟨inner, by rw [text_node, htext]⟩

/-- The first brace group of a beginning follows the control sequence, or a bracket group does. In
the second case the brace group stands behind it, and the source has a defect. -/
theorem opening_cases (h : PartOf text offset (.node .opening parts))
    (hgroup : (withOffsets offset parts).find? (·.2.isNode .required) = some group) :
    (group.1 = offset + 6 ∧ ∃ rest, textOfAll parts = "\\begin\x7b".toList ++ rest) ∨
      (offset + 6 < group.1 ∧ ∃ rest, textOfAll parts = "\\begin[".toList ++ rest) ∧
        ∃ e ∈ (parse text).errors, e.defect = .missingBeginName := by
  obtain ⟨t, parameters, rfl, ht, hparameters⟩ := h.exists_of_opening
  have hlength : (leaf t).length = 6 := by rw [length_eq, text_leaf, ht]; rfl
  rw [withOffsets_cons, List.find?_cons_of_neg (by simp [isNode]), hlength] at hgroup
  cases parameters with
  | nil => cases hgroup
  | cons p parameters =>
    have hpart : PartOf text (offset + 6) p := by
      refine h.child (x := (offset + 6, p)) ?_
      rw [children, withOffsets_cons, withOffsets_cons, hlength]
      simp
    rcases hparameters p List.mem_cons_self with hrequired | ⟨-, hoptional⟩
    · rw [withOffsets_cons, List.find?_cons_of_pos (by simp [hrequired])] at hgroup
      cases hgroup
      obtain ⟨inner, hinner⟩ := hpart.exists_text_of_required hrequired
      refine .inl ⟨rfl, inner ++ textOfAll parameters, ?_⟩
      simp [ht, hinner]
    · have hfirst : p.isNode .required = false := by
        obtain ⟨children, rfl⟩ := exists_of_isNode hoptional
        rfl
      rw [withOffsets_cons, List.find?_cons_of_neg (by simp [hfirst])] at hgroup
      obtain ⟨inner, hinner⟩ := hpart.exists_text_of_optional hoptional
      obtain ⟨before, -, -, hplace⟩ := exists_of_mem_withOffsets (List.mem_of_find?_eq_some hgroup)
      refine .inr ⟨⟨?_, inner ++ textOfAll parameters, ?_⟩,
        exists_missingBeginName h.subtree (by simpa using hfirst)⟩
      · have hpos : 0 < byteLength ('[' :: inner) := byteLength_pos (List.cons_ne_nil _ _)
        rw [← hinner, ← length_eq] at hpos
        omega
      · simp [ht, hinner]

end SyntaxTree.PartOf

/-! ### Names and reports -/

namespace Document

variable {path : String} {text : Text}

/-- The name of an environment has a range that is as long as the name. -/
theorem nameSpan_eq_ofLength {e : EnvironmentUsage} (he : e ∈ (read path text).environments) :
    e.nameSpan = .ofLength e.nameSpan.start (byteLength e.name.toList) := by
  obtain ⟨v, -, opening, group, -, rfl⟩ := exists_namedBeginning he
  rw [String.toList_ofList]
  rfl

/-- The name of an environment stands right behind a beginning that its brace follows, and further
on behind one that a bracket follows, which is a defect of the source. -/
theorem nameSpan_cases {e : EnvironmentUsage} (he : e ∈ (read path text).environments) :
    (e.nameSpan.start = e.span.start + beginLength ∧
        slice? text (.ofLength e.span.start beginLength) = some "\\begin\x7b".toList) ∨
      (e.span.start + beginLength < e.nameSpan.start ∧
        slice? text (.ofLength e.span.start beginLength) = some "\\begin[".toList) ∧
        ∃ error ∈ (read path text).errors, error.defect = .missingBeginName := by
  obtain ⟨v, hv, ⟨offset, opening⟩, group, hbeginning, rfl⟩ := exists_namedBeginning he
  obtain ⟨hpart, -, -, hnode, -⟩ := partOf_namedBeginning? hv hbeginning
  obtain ⟨parts, rfl⟩ := exists_of_isNode hnode
  have hfind := (find?_of_namedBeginning? hbeginning).2
  have hslice {start rest : Text} (htext : textOfAll parts = start ++ rest)
      (hlength : byteLength start = beginLength) :
      slice? text (.ofLength offset beginLength) = some start := by
    rw [← hlength]
    have hstart : (⟨offset, start⟩ : Piece).StandsIn offset (node .opening parts).text :=
      ⟨[], rest, by rw [text_node, htext]; rfl, rfl⟩
    exact (hstart.trans (w := ⟨offset, (node .opening parts).text⟩) hpart.standsIn).slice?
  rcases hpart.opening_cases hfind with ⟨hgroup, rest, htext⟩ | ⟨⟨hgroup, rest, htext⟩, herror⟩
  · exact .inl ⟨congrArg (· + 1) hgroup, hslice htext rfl⟩
  · exact .inr ⟨⟨Nat.succ_lt_succ hgroup, hslice htext (by decide)⟩, herror⟩

end Document

namespace Knowledge

theorem span_of_environmentProblem? {k : Knowledge} {included defined : List String} {i : Nat}
    {e : EnvironmentUsage} {x : Problem} (h : k.environmentProblem? included defined i e = some x) :
    x.span = .ofLength (e.span.start + beginLength) (byteLength e.name.toList) := by
  rw [environmentProblem?] at h
  split at h
  · cases h
  · obtain ⟨packages, -, rfl⟩ := Option.map_eq_some_iff.mp h
    rfl

variable {m : Manuscript}

/-- The check for missing imports gives an answer for every manuscript whose documents have been
collected. Each report on an environment is that of a usage, whose name stands in the document at
the range of the name, between whole characters. The report has this range if the name's brace
follows the control sequence of the beginning. If a bracket follows it instead, the report starts
before the name, and the missing brace is a defect of the document. -/
theorem analyze_names_environment (hready : m.indexing = false)
    (hread : ∀ d ∈ m.documents, ∃ path text, d = Document.read path text) (k : Knowledge)
    (settings : Settings) (only : Option Nat) :
    ∃ reports, k.analyze settings m only = .ok reports ∧
      ∀ x ∈ reports, x.kind = .missingEnvironmentImport →
        ∃ d e, m.documents[x.document]? = some d ∧ e ∈ d.environments ∧
          k.environmentProblem? m.includedPackages m.definedEnvironments x.document e = some x ∧
          slice? d.text e.nameSpan = some e.name.toList ∧
          ((slice? d.text (.ofLength e.span.start beginLength) = some "\\begin\x7b".toList ∧
              x.span = e.nameSpan) ∨
            (slice? d.text (.ofLength e.span.start beginLength) = some "\\begin[".toList ∧
              x.span.start < e.nameSpan.start) ∧
              ∃ error ∈ d.errors, error.defect = .missingBeginName) := by
  by_cases hcheck : settings.dependencyCheck = true
  · refine ⟨_, analyze_of_dependencyCheck hcheck hready only, ?_⟩
    intro x hx hkind
    rw [problems_eq, List.mem_append] at hx
    rcases hx with hx | hx
    · obtain ⟨i, d, -, -, u, -, hproblem⟩ := exists_of_mem_found hx
      have hat := Problem.isAt_iff.mp (isAt_of_commandProblem? k _ i d u x hproblem)
      rw [hkind] at hat
      cases hat.1
    · obtain ⟨i, d, hd, -, e, he, hproblem⟩ := exists_of_mem_found hx
      have hat := Problem.isAt_iff.mp (isAt_of_environmentProblem? k _ _ i d e x hproblem)
      obtain ⟨path, text, rfl⟩ := hread d (List.mem_of_getElem? hd)
      have hspan := span_of_environmentProblem? hproblem
      rw [← hat.2.1] at hd hproblem
      refine ⟨_, e, hd, he, hproblem, (slice?_span_of_environment he).2, ?_⟩
      rcases Document.nameSpan_cases he with ⟨hstart, hslice⟩ | ⟨⟨hstart, hslice⟩, herror⟩
      · exact .inl ⟨hslice, by rw [hspan, Document.nameSpan_eq_ofLength he, hstart]⟩
      · exact .inr ⟨⟨hslice, by rwa [hspan]⟩, herror⟩
  · refine ⟨[], analyze_of_not_dependencyCheck (Bool.eq_false_iff.mpr hcheck) only, ?_⟩
    intro x hx
    cases hx

/-- A report on an environment with a name that is not written in single bytes. -/
theorem analyze_names_environment_wide :
    let environment : EnvironmentSchema := ⟨"é", some (.named "a")⟩
    let k : Knowledge := ⟨(CatalogueChange.environment environment).apply .empty, .empty⟩
    let text := "ü\\begin\x7bé\x7d[x]\\end\x7bé\x7d".toList
    let m := Manuscript.ofDocuments [.read "main.tex" text]
    ∃ report, k.analyze .default m none = .ok [report] ∧ report.span = ⟨9, 11⟩ ∧
      ∃ e ∈ (Document.read "main.tex" text).environments,
        report.span = e.nameSpan ∧ slice? text report.span = some e.name.toList := by
  intro environment k text m
  have hread : ∀ d ∈ m.documents, ∃ path text, d = Document.read path text := by
    simp [m, Manuscript.ofDocuments]
  obtain ⟨reports, hanalyze, hnames⟩ := analyze_names_environment (m := m) rfl hread k .default none
  have hreports : k.analyze .default m none =
      .ok [⟨.missingEnvironmentImport, 0, ⟨9, 11⟩, [.named "a"]⟩] := by decide +kernel
  obtain rfl := Except.ok.inj (hanalyze.symm.trans hreports)
  obtain ⟨d, e, hd, he, -, hslice, hplace⟩ := hnames _ (List.mem_singleton_self _) rfl
  obtain rfl : Document.read "main.tex" text = d := Option.some.inj hd
  rcases hplace with ⟨-, hspan⟩ | ⟨-, error, herror, -⟩
  · exact ⟨_, hreports, rfl, e, he, hspan, by rw [hspan]; exact hslice⟩
  · have hnone : (Document.read "main.tex" text).errors = [] := by decide +kernel
    rw [hnone] at herror
    cases herror

/-- A report stands beside the name of its environment where a bracket group comes before the name.
It may end inside a character then. -/
theorem analyze_beside_name :
    let environment : EnvironmentSchema := ⟨"align", some (.named "amsmath")⟩
    let k : Knowledge := ⟨(CatalogueChange.environment environment).apply .empty, .empty⟩
    let text := "\\begin[x]\x7balign\x7d\\end\x7balign\x7d".toList
    let wide := "\\begin[äöü]\x7balign\x7d\\end\x7balign\x7d".toList
    let report : Problem := ⟨.missingEnvironmentImport, 0, ⟨7, 12⟩, [.named "amsmath"]⟩
    k.analyze .default (.ofDocuments [.read "main.tex" text]) none = .ok [report] ∧
      k.analyze .default (.ofDocuments [.read "main.tex" wide]) none = .ok [report] ∧
      (Document.read "main.tex" text).environments = [⟨"align", ⟨0, 16⟩, ⟨10, 15⟩⟩] ∧
      slice? text report.span = some "x]\x7bal".toList ∧ slice? wide report.span = none := by
  intro environment k text wide report
  exact ⟨by decide +kernel, by decide +kernel, by decide +kernel, by decide +kernel,
    by decide +kernel⟩

end Knowledge

end TexLint
