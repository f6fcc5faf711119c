import TexLint.Proofs.Check.Insertion
import TexLint.Proofs.Document.Parameters
import TexLint.Proofs.Source.Growth

/-!
# What a fix leaves alone

A fix inserts a line, and reads the root document anew. The imports whose brace group has been
closed before that line stay; one that is still open takes the line into its group and imports
something else from then on.

## The model

* `CommandUsage.FirstGroupClosed`: the first brace group of a command has its closing brace.

## What is proved

* `Document.exists_command_of_closed`: what follows the first brace group of a command does not
  matter to the command up to that group.
* `Document.stop_le_offset_importEdit`: a line is inserted behind the last import.
* `Package.mem_includedPackages_of_inserted`: which imports a fix keeps.
-/

namespace TexLint

open SyntaxTree

namespace SyntaxTree

variable {tree group : SyntaxTree} {init behind : List SyntaxTree} {p : Parameter} {offset : Nat}

/-- The first required parameter of a node stands at its first brace group. -/
theorem place_of_find?_parameters (hchildren : tree.children = init ++ group :: behind)
    (hinit : ∀ c ∈ init, c.isNode .required = false) (hgroup : group.isNode .required = true)
    (h : (tree.parameters offset).find? (·.isRequired) = some p) :
    p.span.stop = offset + byteLength (textOfAll (init ++ [group])) := by
  rw [parameters, hchildren] at h
  clear hchildren
  induction init generalizing offset with
  | nil =>
    obtain ⟨children, rfl⟩ := exists_of_isNode hgroup
    rw [List.nil_append, withOffsets_cons, List.filterMap_cons] at h
    cases h
    simp [Parameter.span, Span.ofLength, textOfAll]
  | cons c init ih =>
    have hc := hinit c List.mem_cons_self
    rw [List.cons_append, textOfAll_cons, byteLength_append, ← Nat.add_assoc, ← length_eq]
    refine ih (fun d hd => hinit d (List.mem_cons_of_mem _ hd)) ?_
    rw [List.cons_append, withOffsets_cons, List.filterMap_cons] at h
    cases c with
    | leaf t => exact h
    | node kind children =>
      cases kind with
      | root | group | command | environment | opening | closing | error => exact h
      | required => cases hc
      | optional => exact h

/-- The first required parameter of a node is its first brace group, whatever follows. -/
theorem text_of_find?_parameters (offset : Nat)
    (hchildren : tree.children = init ++ group :: behind)
    (hinit : ∀ c ∈ init, c.isNode .required = false) (hgroup : group.isNode .required = true) :
    ((tree.parameters offset).find? (·.isRequired)).map (·.text) = some group.text := by
  rw [find?_parameters, hchildren, List.find?_append, List.find?_eq_none.mpr (by simpa using hinit)]
  simp [hgroup]

theorem exists_of_isClosed {children : List SyntaxTree}
    (h : (node .required children).isClosed = true) :
    ∃ inner r, children = inner ++ [leaf r] ∧ r.kind = .rbrace := by
  rcases children.eq_nil_or_concat' with rfl | ⟨inner, last, rfl⟩
  · cases h
  · rw [isClosed, List.getLast?_concat, Option.any_some] at h
    cases last with
    | node kind parts => cases h
    | leaf r => exact ⟨inner, r, rfl, beq_iff_eq.mp h⟩

end SyntaxTree

/-! ### Imports by commands -/

namespace CommandUsage

/-- The first brace group of a command of a source has its closing brace. -/
def FirstGroupClosed (text : Text) (u : CommandUsage) : Prop :=
  ∃ v ∈ (parse text).tree.preorder 0 0, v.command?.map (· u.index) = some u ∧
    (v.tree.children.find? (·.isNode .required)).any (·.isClosed) = true

instance (text : Text) : DecidablePred (FirstGroupClosed text) := fun _ =>
  inferInstanceAs (Decidable (∃ v ∈ _, _ ∧ _))

variable {u u' : CommandUsage}

/-- The packages that a command imports are named in the text of its first brace group. -/
theorem names_imports (u : CommandUsage) : u.imports.map (·.name) =
    if Vocabulary.packageImports.contains u.name then
      ((u.firstRequired.map (·.text)).map fun text => namesIn (stripGroup text)).getD []
    else [] := by
  rw [imports]
  split
  · cases u.firstRequired with
    | none => rfl
    | some group => simp [packageNames_eq, Parameter.interior, Function.comp_def]
  · rfl

/-- Which packages a command imports depends on its name and on the text of its first brace
group. -/
theorem names_imports_congr (hname : u'.name = u.name)
    (htext : u'.firstRequired.map (·.text) = u.firstRequired.map (·.text)) :
    u'.imports.map (·.name) = u.imports.map (·.name) := by
  rw [names_imports, names_imports, hname, htext]

theorem isImport_of_imports_ne_nil (h : u.imports ≠ []) :
    Vocabulary.packageImports.contains u.name = true := by
  by_contra hname
  exact h (by rw [imports, if_neg hname])

end CommandUsage

/-! ### Commands of a text that goes on -/

theorem isPrefix_of_byteLength_le {a b text : Text} (ha : a <+: text) (hb : b <+: text)
    (hle : byteLength a ≤ byteLength b) : a <+: b := by
  rcases List.prefix_or_prefix_of_prefix ha hb with h | ⟨rest, rfl⟩
  · exact h
  · rw [byteLength_append] at hle
    have hrest : rest = [] := by
      by_contra hne
      have hpos := byteLength_pos hne
      omega
    rw [hrest]
    exact ⟨[], by simp⟩

namespace CommandUsage

variable {text : Text} {u : CommandUsage}

/-- A command whose first brace group is closed is a node that ends with its brace there. -/
theorem FirstGroupClosed.exists_visit (h : u.FirstGroupClosed text) :
    ∃ v ∈ (parse text).tree.preorder 0 0, ∃ t init inner r after,
      v.tree = .node .command (.leaf t :: init ++ .node .required (inner ++ [.leaf r]) :: after) ∧
      t.kind = .command ∧ r.kind = .rbrace ∧ (∀ c ∈ init, c.isNode .required = false) ∧
      u.name = String.ofList t.text ∧ u.parameters = v.tree.parameters v.offset := by
  obtain ⟨v, hv, hcommand, hclosed⟩ := h
  obtain ⟨usage, husage, hu⟩ := Option.map_eq_some_iff.mp hcommand
  obtain ⟨t, rest, htree, hkind, rfl⟩ := command?_eq_some_iff.mp husage
  cases hgroup : v.tree.children.find? (·.isNode .required) with
  | none => simp [hgroup] at hclosed
  | some group =>
    rw [hgroup, Option.any_some] at hclosed
    obtain ⟨hrequired, init, after, hchildren, hinit⟩ := List.find?_eq_some_iff_append.mp hgroup
    obtain ⟨children, rfl⟩ := exists_of_isNode hrequired
    obtain ⟨inner, r, rfl, hr⟩ := exists_of_isClosed hclosed
    rw [htree, SyntaxTree.children] at hchildren
    cases init with
    | nil => cases hchildren
    | cons c init =>
      obtain ⟨rfl, rfl⟩ := List.cons.inj hchildren
      refine ⟨v, hv, t, init, inner, r, after, htree, hkind, hr, fun c hc => ?_, ?_, ?_⟩
      · simpa using hinit c (List.mem_cons_of_mem _ hc)
      · rw [← hu]
      · rw [← hu]

end CommandUsage

section Sources

variable {before behind : Text} {init after inner : List SyntaxTree} {start : List Token}
  {r : Token} {kind : NodeKind}

/-- A node with a closed brace group that ends in a part of the source stands in every source that
begins with this part, up to the group. -/
theorem exists_stands_of_closed (hkind : kind ≠ .root) (hr : r.kind = .rbrace)
    (hstands : Stands (.node kind (init ++ .node .required (inner ++ [.leaf r]) :: after)) start
      [(parse (before ++ behind)).tree])
    (hle : byteLength (tokensText (start ++
      tokensOfAll (init ++ [.node .required (inner ++ [.leaf r])]))) ≤ byteLength before)
    (behind' : Text) :
    ∃ after', Stands (.node kind (init ++ .node .required (inner ++ [.leaf r]) :: after')) start
      [(parse (before ++ behind')).tree] := by
  obtain ⟨more, htokens⟩ := hstands.exists_tokens
  have hall : tokenize (before ++ behind) =
      start ++ (tokensOfAll init ++ tokensOfAll inner) ++ r :: (tokensOfAll after ++ more) := by
    simpa [tokens_parse] using htokens
  let cut := tokensText (start ++ tokensOfAll (init ++ [.node .required (inner ++ [.leaf r])]))
  have hread (rest : Text) : tokenize (cut ++ rest) =
      start ++ tokensOfAll (init ++ [.node .required (inner ++ [.leaf r])]) ++ tokenize rest := by
    simpa [cut] using tokenize_append_of_rbrace hall hr rest
  have hcut : tokenize cut =
      start ++ tokensOfAll (init ++ [.node .required (inner ++ [.leaf r])]) := by
    simpa [tokenize] using hread []
  have hprefix : cut <+: before ++ behind := by
    refine ⟨tokensText (tokensOfAll after ++ more), ?_⟩
    rw [← tokensText_append, ← tokensText_tokenize (before ++ behind), hall]
    simp
  obtain ⟨between, hbetween⟩ : cut <+: before :=
    isPrefix_of_byteLength_le hprefix (List.prefix_append _ _) hle
  -- Both sources begin with the tokens up to the brace.
  have hbegins (behind : Text) : tokenize cut <+: tokenize (before ++ behind) :=
    ⟨tokenize (between ++ behind), by rw [← hbetween, List.append_assoc, hread, hcut]⟩
  exact exists_stands_exchange (hbegins behind) (hbegins behind') hkind hr hstands hcut

end Sources

namespace Document

variable {path : String} {before behind behind' : Text} {u : CommandUsage}

/-- What follows the first brace group of a command does not matter to the command up to that
group, if the group has its closing brace. -/
theorem exists_command_of_closed (hclosed : u.FirstGroupClosed (before ++ behind))
    (hstop : ∀ g ∈ u.firstRequired, g.span.stop ≤ byteLength before) :
    ∃ u' ∈ (read path (before ++ behind')).commands, u'.name = u.name ∧
      u'.firstRequired.map (·.text) = u.firstRequired.map (·.text) := by
  obtain ⟨v, hv, t, init, inner, r, after, htree, ht, hr, hinit, hname, hparameters⟩ :=
    hclosed.exists_visit
  have hinit : ∀ c ∈ leaf t :: init, c.isNode .required = false :=
    List.forall_mem_cons.mpr ⟨rfl, hinit⟩
  obtain ⟨start, hstands, hoffset⟩ := exists_stands_of_mem_preorder hv []
  have hchildren : v.tree.children =
      leaf t :: init ++ .node .required (inner ++ [.leaf r]) :: after := by
    rw [htree]
    rfl
  have hfirst := text_of_find?_parameters v.offset hchildren hinit rfl
  obtain ⟨g, hg, -⟩ := Option.map_eq_some_iff.mp hfirst
  have hle : byteLength (tokensText (start ++ tokensOfAll (.leaf t :: init ++
      [.node .required (inner ++ [.leaf r])]))) ≤ byteLength before := by
    have hplace := place_of_find?_parameters hchildren hinit rfl hg
    have hg' := hstop g (by rw [CommandUsage.firstRequired, hparameters]; exact hg)
    rw [hplace, hoffset, Nat.zero_add] at hg'
    rwa [tokensText_append, byteLength_append]
  rw [htree] at hstands
  obtain ⟨after', hstands'⟩ := exists_stands_of_closed (by decide) hr hstands hle behind'
  obtain ⟨tree, htree', hsub⟩ := hstands'.exists_subtree
  rw [List.mem_singleton.mp htree'] at hsub
  obtain ⟨u', hu', hname', offset, hparameters'⟩ := exists_command_of_subtree ht hsub
  refine ⟨u', hu', hname'.trans hname.symm, ?_⟩
  rw [CommandUsage.firstRequired, CommandUsage.firstRequired, hparameters, hparameters', hfirst]
  exact text_of_find?_parameters _ rfl hinit rfl

/-- A line is inserted behind the last import. -/
theorem stop_le_offset_importEdit {text : Text} {anchor : CommandUsage} (p : Package)
    (h : (read path text).importAnchor? = some anchor) :
    anchor.span.stop ≤ ((read path text).importEdit p).offset := by
  rcases importEdit_cases path text p with ⟨hnone, -⟩ | ⟨_, before, between, hanchor, hstop, -,
    ⟨behind, -, hoffset, -⟩ | ⟨htext, hoffset, -⟩⟩
  · cases h.symm.trans hnone
  · obtain rfl := Option.some.inj (h.symm.trans hanchor)
    rw [hstop, hoffset, List.append_assoc, byteLength_append]
    exact Nat.le_add_right _ _
  · obtain rfl := Option.some.inj (h.symm.trans hanchor)
    rw [hstop, hoffset, htext, byteLength_append]
    exact Nat.le_add_right _ _

/-- If a document has imports, the last one is the one behind which a line is inserted. -/
theorem exists_importAnchor {text : Text} (hu : u ∈ (read path text).commands)
    (himport : Vocabulary.packageImports.contains u.name = true) :
    ∃ anchor, (read path text).importAnchor? = some anchor ∧
      Vocabulary.packageImports.contains anchor.name = true ∧
      (u = anchor ∨ u.span.start < anchor.span.start) := by
  cases hfind : (read path text).commands.reverse.find?
      (Vocabulary.packageImports.contains ·.name) with
  | none =>
    have hnone := List.find?_eq_none.mp hfind u (List.mem_reverse.mpr hu)
    exact absurd himport hnone
  | some anchor =>
    obtain ⟨hanchor, later, earlier, hreverse, hlater⟩ := List.find?_eq_some_iff_append.mp hfind
    refine ⟨anchor, by rw [importAnchor?, hfind]; rfl, hanchor, ?_⟩
    have hsorted : (read path text).commands.reverse.Pairwise (·.span.start > ·.span.start) :=
      List.pairwise_reverse.mpr pairwise_commands
    rw [hreverse] at hsorted
    have hmem := List.mem_reverse.mpr hu
    rw [hreverse, List.mem_append, List.mem_cons] at hmem
    rcases hmem with hmem | hmem | hmem
    · exact absurd himport (by simpa using hlater u hmem)
    · exact .inl hmem
    · exact .inr ((List.pairwise_cons.mp (List.pairwise_append.mp hsorted).2.1).1 u hmem)

end Document

theorem Inserts.exists_append {line before behind edited : Text}
    (h : Inserts line before behind edited) : ∃ more, edited = before ++ more := by
  cases h with
  | between _ heq => exact ⟨_, heq⟩
  | last _ heq => exact ⟨_, heq⟩

theorem Manuscript.eq_root_of_getElem? {m : Manuscript} {d d' : Document} (h : m.root = .ok d)
    (hd' : m.documents[0]? = some d') : d' = d := by
  obtain ⟨documents, indexing, fingerprint⟩ := m
  cases documents with
  | nil => cases h
  | cons =>
    cases h
    exact (Option.some.inj hd').symm

namespace Package

variable {p : Package} {graph : LoadGraph} {m : Manuscript}

/-- A fix leaves the imports of the other documents alone. In the root document it keeps what a
command imports if its first brace group is closed and ends where the line is inserted or before.
So no import is lost if the first group of each import is closed, and no other import starts before
the end of the group. -/
theorem mem_includedPackages_of_inserted {path : String} {text : Text}
    (hroot : m.root = .ok (.read path text)) {edit : TextEdit} {actions : List HostAction}
    (h : p.fix graph m = .ok (.inserted edit, actions)) :
    let root := Document.read path text
    let m' := m.replace edit.document (.read path (edit.apply text))
    (∀ i, i ≠ 0 → m'.documents[i]? = m.documents[i]?) ∧
    (∀ u ∈ root.commands, u.FirstGroupClosed text →
      (∀ g ∈ u.firstRequired, g.span.stop ≤ edit.offset) →
      ∀ name ∈ u.imports.map (·.name), name ∈ m'.includedPackages) ∧
    ((∀ u ∈ root.commands, u.imports ≠ [] → u.FirstGroupClosed text ∧
        ∀ w ∈ root.commands, Vocabulary.packageImports.contains w.name = true →
          u.span.start < w.span.start → ∀ g ∈ u.firstRequired, g.span.stop ≤ w.span.start) →
      ∀ name ∈ m.includedPackages, name ∈ m'.includedPackages) := by
  intro root m'
  have hedit := eq_importEdit_of_fix hroot h
  obtain ⟨before, behind, htext, hdocument, hoffset, hinserts⟩ :=
    Document.exists_insertion path text p
  rw [← hedit] at hdocument hoffset hinserts
  obtain ⟨more, hmore⟩ := hinserts.exists_append
  have hroot' : m'.root = .ok (.read path (before ++ more)) := by
    show (m.replace edit.document _).root = _
    rw [hdocument, hmore]
    exact Manuscript.root_replace hroot _
  have hothers (i : Nat) (hi : i ≠ 0) : m'.documents[i]? = m.documents[i]? := by
    show (m.documents.set edit.document _)[i]? = _
    rw [hdocument, List.getElem?_set_ne hi.symm]
  have hclosed (u : CommandUsage) (hclosed : u.FirstGroupClosed text)
      (hstop : ∀ g ∈ u.firstRequired, g.span.stop ≤ edit.offset) :
      ∀ name ∈ u.imports.map (·.name), name ∈ m'.includedPackages := by
    intro name hname
    rw [htext] at hclosed
    rw [hoffset] at hstop
    obtain ⟨u', hu', hname', htext'⟩ := Document.exists_command_of_closed hclosed hstop
    rw [← CommandUsage.names_imports_congr hname' htext'] at hname
    exact Manuscript.mem_includedPackages_iff.mpr
      ⟨_, Manuscript.mem_documents_of_root hroot', u', hu', hname⟩
  refine ⟨hothers, fun u _ => hclosed u, fun himports name hname => ?_⟩
  obtain ⟨d, hd, u, hu, hname⟩ := Manuscript.mem_includedPackages_iff.mp hname
  obtain ⟨i, hi⟩ := List.mem_iff_getElem?.mp hd
  cases i with
  | succ i =>
    rw [← hothers _ (Nat.succ_ne_zero i)] at hi
    exact Manuscript.mem_includedPackages_iff.mpr ⟨d, List.mem_of_getElem? hi, u, hu, hname⟩
  | zero =>
    obtain rfl : d = root := Manuscript.eq_root_of_getElem? hroot hi
    have hne : u.imports ≠ [] := by
      rintro hnil
      simp [hnil] at hname
    obtain ⟨hgroup, hapart⟩ := himports u hu hne
    obtain ⟨anchor, hanchor, himport, hplace⟩ :=
      Document.exists_importAnchor hu (CommandUsage.isImport_of_imports_ne_nil hne)
    have hbehind := Document.stop_le_offset_importEdit p hanchor
    rw [← hedit] at hbehind
    refine hclosed u hgroup (fun g hg => Nat.le_trans ?_ hbehind) name hname
    rcases hplace with rfl | hlt
    · exact (Document.standsIn_of_parameter hu (List.mem_of_find?_eq_some hg)).2.2
    · have hmem := Document.mem_commands_of_importAnchor? hanchor
      exact Nat.le_trans (hapart anchor hmem himport hlt g hg) (Document.start_lt_stop hmem).le

/-- An import that is still open takes the line of the fix into its group, and what it has named
is not imported any more. -/
theorem not_mem_includedPackages_of_open :
    let p : Package := ⟨"b", []⟩
    let text := "\\usepackage\x7ba".toList
    let m := Manuscript.ofDocuments [.read "a.tex" text]
    ∃ edit, p.fix .empty m = .ok (.inserted edit, [.insertImport edit]) ∧
      "a" ∈ m.includedPackages ∧
      "a" ∉ (m.replace edit.document (.read "a.tex" (edit.apply text))).includedPackages :=
  ⟨⟨0, 13, "\n\\usepackage\x7bb\x7d".toList⟩, by decide +kernel⟩

/-- A fix keeps the imports before its line, also where a group behind them is left open. -/
theorem mem_includedPackages_of_inserted_twice :
    let p : Package := ⟨"x", []⟩
    let text := "\\usepackage\x7ba,b\x7d\n\\RequirePackage[o]\x7bc\x7d% d\n\x7b".toList
    let m := Manuscript.ofDocuments [.read "a.tex" text]
    let edit : TextEdit := ⟨0, 42, "\\usepackage\x7bx\x7d\n".toList⟩
    p.fix .empty m = .ok (.inserted edit, [.insertImport edit]) ∧
      m.includedPackages = ["a", "b", "c"] ∧ ∀ name ∈ m.includedPackages,
        name ∈ (m.replace edit.document (.read "a.tex" (edit.apply text))).includedPackages := by
  intro p text m edit
  have hfix : p.fix .empty m = .ok (.inserted edit, [.insertImport edit]) := by decide +kernel
  exact ⟨hfix, by decide +kernel,
    (mem_includedPackages_of_inserted rfl hfix).2.2 (by decide +kernel)⟩

end Package

end TexLint
