import TexLint.Proofs.Machine.Manuscripts
import TexLint.Proofs.Check.Insertion
import TexLint.Proofs.Check.MissingImport
import TexLint.Proofs.Source.Shape

/-!
# Checking imports with sizes that fit

What a machine does to report missing imports and to add one: it computes the ranges of names from
what is known of them, looks at the text behind the last import, and cuts a text where a line goes.

## The model

* `problems?`, `analyze?` report, `importEdit?`, `fix?` make an edit, and `makeEdit?` makes it. They
  follow the functions of the same names.
* `floorBoundary?` goes back from an offset to the start of a character, byte by byte.

## What is proved

* `nameSpan?_eq`, `start_add_beginLength_le`: the name of a command that is known, and that of an
  environment behind its beginning, end in the text.
* `floorBoundary?_eq`: the way back ends, at the offset at which `splitFloor` cuts.
* `analyze?_eq`, `fix?_eq`, `makeEdit?_eq`: the check, the fixes and their edits have their answers.
-/

namespace TexLint

open SyntaxTree

namespace Machine

/-! ### Reports -/

/-- Whether a command of the document is being defined by the one just before it. -/
def isBeingDefined? (d : Document) (u : CommandUsage) : Option Bool :=
  match d.previous? u with
  | none => return false
  | some previous => return (← definition? d previous).any (·.defines u)

/-- The place of a command's name, whose length the schemas give. -/
def nameSpan? (schemas : List CommandSchema) (u : CommandUsage) : Option Span := do
  let lengths := schemas.map fun s => byteLength s.command.toList
  let shortest ← size? (lengths.min?.getD 0)
  rangeAt? u.span.start (← size? (shortest + 1))

/-- The problem with a command, if it has one. -/
def commandProblem? (k : Knowledge) (included : List String) (position : Nat) (d : Document)
    (u : CommandUsage) : Option (Option Problem) := do
  if ← isBeingDefined? d u then return none
  let schemas := k.catalogue.commandSchemas u.baseName
  match k.unsatisfied? included (Knowledge.dependencies schemas) with
  | none => return none
  | some packages =>
    return some ⟨.missingCommandImport, position, ← nameSpan? schemas u, packages⟩

/-- The problem with an environment, if it has one. -/
def environmentProblem? (k : Knowledge) (included defined : List String) (position : Nat)
    (e : EnvironmentUsage) : Option (Option Problem) := do
  if defined.contains e.name then return none
  let package := (k.catalogue.environment? e.name).bind (·.dependency)
  match k.unsatisfied? included package.toList with
  | none => return none
  | some packages =>
    let start ← size? (e.span.start + beginLength)
    let span ← rangeAt? start (byteLength e.name.toList)
    return some ⟨.missingEnvironmentImport, position, span, packages⟩

/-- The problems of the usages in the documents in scope. -/
def found? {υ : Type} (m : Manuscript) (scope : Nat → Bool) (usages : Document → List υ)
    (problem? : Nat → Document → υ → Option (Option Problem)) : Option (List Problem) :=
  return (← (m.inScope scope).mapM fun e => (usages e.2).filterMapM (problem? e.1 e.2)).flatten

/-- The problems in the documents of a manuscript whose positions are in scope. -/
def problems? (k : Knowledge) (m : Manuscript) (scope : Nat → Bool) : Option (List Problem) := do
  let included ← includedPackages? m
  let defined ← definedEnvironments? m
  let commands ← found? m scope (·.commands) (commandProblem? k included)
  let environments ← found? m scope (·.environments) fun position _ =>
    environmentProblem? k included defined position
  return commands ++ environments

/-- The problems of a manuscript: in all its documents, or in one. -/
def analyze? (k : Knowledge) (settings : Settings) (m : Manuscript) (only : Option Nat) :
    Option (Except ManuscriptError (List Problem)) :=
  if settings.dependencyCheck then
    match m.ensureReady with
    | .error e => return .error e
    | .ok () => return .ok (← problems? k m fun position => only.all (· == position))
  else return .ok []

/-! ### Edits -/

/-- The edit that imports a package in the root document. -/
def importEdit? (d : Document) (p : Package) : Option TextEdit :=
  let line := p.importCommand.toList
  match d.importAnchor? with
  | none => return ⟨0, 0, line ++ ['\n']⟩
  | some anchor => do
    let behind ← dropBytes? d.text anchor.span.stop
    let restOfLine := behind.takeWhile (· != '\n')
    if restOfLine.length < behind.length then
      return ⟨0, ← size? (anchor.span.stop + byteLength restOfLine + 1), line ++ ['\n']⟩
    else return ⟨0, ← size? (byteLength d.text), '\n' :: line⟩

/-- Imports a package unless it is imported already or excluded by an imported one. -/
def fix? (p : Package) (graph : LoadGraph) (m : Manuscript) :
    Option (Except ManuscriptError (FixOutcome × List HostAction)) :=
  match m.root with
  | .error e => return .error e
  | .ok root => do
    let included ← includedPackages? m
    if p.isKernel || included.contains p.name then return .ok (.alreadyIncluded, [])
    match graph.conflictingPackage p.name included with
    | some conflicting =>
      return .ok (.conflict p.name conflicting, [conflictAdvisory p.name])
    | none =>
      let edit ← importEdit? root p
      return .ok (.inserted edit, [.insertImport edit])

/-- Whether an offset is at the start of a character, or at the end. -/
def isBoundary (text : Text) (offset : Nat) : Bool := (dropBytes? text offset).isSome

/-- Goes back from an offset to a boundary. There is no offset below zero. -/
def floorBoundary? (text : Text) : Nat → Option Nat
  | 0 => if isBoundary text 0 then some 0 else none
  | offset + 1 =>
    if isBoundary text (offset + 1) then some (offset + 1) else floorBoundary? text offset

/-- The source with the edit made. -/
def makeEdit? (edit : TextEdit) (source : Text) : Option Text := do
  let offset ← floorBoundary? source (min edit.offset (byteLength source))
  let before ← slice? source ⟨0, offset⟩
  let behind ← slice? source ⟨offset, byteLength source⟩
  return before ++ edit.text ++ behind

/-! ### What is reported -/

section Reports

variable {k : Knowledge} {m : Manuscript} {d : Document} {u : CommandUsage} {e : EnvironmentUsage}

theorem isBeingDefined?_eq (hd : d.Fits) : isBeingDefined? d u = some (d.isBeingDefined u) := by
  rw [isBeingDefined?, Document.isBeingDefined]
  cases hprevious : d.previous? u with
  | none => rfl
  | some previous =>
    obtain ⟨i, -, hi⟩ := Option.bind_eq_some_iff.mp hprevious
    simp only [definition?_eq hd (List.mem_of_getElem? hi)]
    rfl

theorem nameSpan?_eq (hcatalogue : k.catalogue.Built) (hd : d.Fits) (hu : u ∈ d.commands)
    (hne : k.catalogue.commandSchemas u.baseName ≠ []) :
    nameSpan? (k.catalogue.commandSchemas u.baseName) u =
      some (Knowledge.nameSpan (k.catalogue.commandSchemas u.baseName) u) := by
  obtain ⟨hread, hlimit⟩ := hd
  rw [hread] at hu
  obtain ⟨j, hj⟩ := List.mem_iff_getElem?.mp hu
  obtain ⟨before, behind, htext, -, hstop⟩ :=
    exists_of_slice? (Knowledge.slice?_nameSpan hcatalogue hj hne)
  have hlength := congrArg byteLength htext
  rw [byteLength_append, byteLength_append] at hlength
  simp only [Knowledge.nameSpan, Span.ofLength] at hstop
  rw [nameSpan?, size?_eq (by omega)]
  simp only [Option.bind_eq_bind, Option.bind_some]
  rw [size?_eq (by omega), Option.bind_some, rangeAt?_eq (by omega)]
  rfl

theorem commandProblem?_eq (hcatalogue : k.catalogue.Built) (hd : d.Fits) (hu : u ∈ d.commands)
    (included : List String) (position : Nat) : commandProblem? k included position d u =
      some (k.commandProblem? included position d u) := by
  rw [commandProblem?, isBeingDefined?_eq hd, Knowledge.commandProblem?]
  cases d.isBeingDefined u with
  | true => rfl
  | false =>
    cases hpackages : k.unsatisfied? included
        (Knowledge.dependencies (k.catalogue.commandSchemas u.baseName)) with
    | none => simp [hpackages]
    | some packages =>
      -- There is a schema, since there is a package.
      have hne : k.catalogue.commandSchemas u.baseName ≠ [] := fun hnil => by
        rw [hnil] at hpackages
        cases hpackages
      simp [hpackages, nameSpan?_eq hcatalogue hd hu hne]

/-- The name of an environment stands behind its beginning and its brace. -/
theorem start_add_beginLength_le (hd : d.Fits) (he : e ∈ d.environments) :
    e.span.start + beginLength + byteLength e.name.toList ≤ byteLength d.text := by
  obtain ⟨hread, -⟩ := hd
  rw [hread] at he
  obtain ⟨v, hv, opening, group, hbeginning, rfl⟩ := exists_namedBeginning he
  obtain ⟨hopening, hgroup, hrequired, hnode, hmem⟩ := partOf_namedBeginning? hv hbeginning
  obtain ⟨inner, htext⟩ := hgroup.exists_text_of_required hrequired
  obtain ⟨offset, tree⟩ := opening
  obtain ⟨children, rfl⟩ := exists_of_isNode hnode
  obtain ⟨-, behind, hwell⟩ := wellFormed_of_subtree hopening.subtree
  obtain ⟨t, parameters, rfl, hbegin, -⟩ := hwell.1.shape
  -- The group is not the first of the subtrees, which is the control sequence.
  have hstart : offset + byteLength t.text ≤ group.1 := by
    rw [SyntaxTree.children, withOffsets_cons, List.mem_cons] at hmem
    rcases hmem with rfl | hmem
    · cases hrequired
    · obtain ⟨before, -, -, hoffset⟩ := exists_of_mem_withOffsets hmem
      rw [hoffset, length_eq, text_leaf]
      exact Nat.le_add_right _ _
  have hname : 1 + byteLength group.2.groupName ≤ 0 + byteLength group.2.text :=
    (standsIn_groupName htext).le.2
  have hword : byteLength t.text + 1 = beginLength := by
    simp only [Token.isBegin, Bool.and_eq_true, beq_iff_eq] at hbegin
    rw [hbegin.2]
    decide
  have hstop := hgroup.stop_le
  rw [length_eq] at hstop
  rw [String.toList_ofList]
  show offset + beginLength + byteLength group.2.groupName ≤ _
  omega

theorem environmentProblem?_eq (hd : d.Fits) (he : e ∈ d.environments)
    (included defined : List String) (position : Nat) :
    environmentProblem? k included defined position e =
      some (k.environmentProblem? included defined position e) := by
  have hle := start_add_beginLength_le hd he
  have hlimit := hd.2
  rw [environmentProblem?, Knowledge.environmentProblem?]
  split
  · rfl
  · cases hpackages : k.unsatisfied? included
        ((k.catalogue.environment? e.name).bind (·.dependency)).toList with
    | none => simp [hpackages]
    | some packages =>
      simp only [hpackages, Option.bind_eq_bind]
      rw [size?_eq (by omega), Option.bind_some, rangeAt?_eq (by omega)]
      rfl

theorem found?_eq {υ : Type} {scope : Nat → Bool} {usages : Document → List υ}
    {problem? : Nat → Document → υ → Option (Option Problem)}
    {problem : Nat → Document → υ → Option Problem}
    (h : ∀ d ∈ m.documents, ∀ u ∈ usages d, ∀ position,
      problem? position d u = some (problem position d u)) :
    found? m scope usages problem? = some (Knowledge.found m scope usages problem) := by
  rw [found?, Knowledge.found, List.flatMap_def]
  rw [mapM_eq fun e he => filterMapM_eq fun u hu => ?_]
  · rfl
  · obtain ⟨hd, -⟩ := Manuscript.mem_inScope_iff.mp he
    exact h e.2 (List.mem_of_getElem? hd) u hu e.1

theorem problems?_eq (hcatalogue : k.catalogue.Built) (hm : ∀ d ∈ m.documents, d.Fits)
    (scope : Nat → Bool) : problems? k m scope = some (k.problems m scope) := by
  rw [problems?, includedPackages?_eq hm, definedEnvironments?_eq hm, Knowledge.problems_eq]
  simp only [Option.bind_eq_bind, Option.bind_some]
  rw [found?_eq fun d hd u hu => commandProblem?_eq hcatalogue (hm d hd) hu m.includedPackages,
    found?_eq fun d hd e he =>
      environmentProblem?_eq (hm d hd) he m.includedPackages m.definedEnvironments]
  rfl

/-- A manuscript whose documents fit is checked. -/
theorem analyze?_eq (hcatalogue : k.catalogue.Built) (hm : ∀ d ∈ m.documents, d.Fits)
    (settings : Settings) (only : Option Nat) :
    analyze? k settings m only = some (k.analyze settings m only) := by
  rw [analyze?, Knowledge.analyze]
  split
  · cases m.ensureReady with
    | error e => rfl
    | ok _ => simp only [problems?_eq hcatalogue hm]; rfl
  · rfl

end Reports

/-! ### What is inserted -/

section Edits

variable {m : Manuscript} {d : Document} {text : Text}

theorem importEdit?_eq (hd : d.Fits) (p : Package) : importEdit? d p = some (d.importEdit p) := by
  rw [importEdit?, Document.importEdit]
  cases hanchor : d.importAnchor? with
  | none => rfl
  | some anchor =>
    obtain ⟨hread, hlimit⟩ := hd
    have hmem := Document.mem_commands_of_importAnchor? hanchor
    rw [hread] at hmem
    obtain ⟨before, written, behind, htext, hspan⟩ := Document.exists_text_of_span hmem
    have hstop : anchor.span.stop = byteLength (before ++ written) := by
      rw [hspan, byteLength_append]
      rfl
    have hdrop : dropBytes? d.text anchor.span.stop = some behind := by
      rw [hstop, htext, dropBytes?_byteLength]
    have hfloor : (splitFloor d.text anchor.span.stop).2 = behind := by
      rw [hstop, htext, splitFloor_byteLength]
    simp only [hdrop, hfloor, Option.bind_eq_bind, Option.bind_some]
    split
    · next hline =>
      have hall : behind.takeWhile (· != '\n') ++ behind.dropWhile (· != '\n') = behind :=
        List.takeWhile_append_dropWhile
      have hlength := congrArg byteLength htext
      rw [byteLength_append, ← hstop, ← hall, byteLength_append] at hlength
      have hrest : 0 < byteLength (behind.dropWhile (· != '\n')) := by
        refine byteLength_pos fun hnil => ?_
        rw [hnil, List.append_nil] at hall
        exact Nat.lt_irrefl _ (hall ▸ hline)
      rw [size?_eq (by omega)]
      rfl
    · rw [size?_eq hlimit]
      rfl

theorem fix?_eq (hm : ∀ d ∈ m.documents, d.Fits) (p : Package) (graph : LoadGraph) :
    fix? p graph m = some (p.fix graph m) := by
  rw [fix?, Package.fix]
  cases hroot : m.root with
  | error e => rfl
  | ok root =>
    have hedit := importEdit?_eq (hm root (Manuscript.mem_documents_of_root hroot)) p
    simp only [includedPackages?_eq hm, Option.bind_eq_bind, Option.bind_some]
    show _ = some (ite _ _ _)
    split
    · rfl
    · cases graph.conflictingPackage p.name m.includedPackages with
      | some conflicting => rfl
      | none => simp only [hedit]; rfl

/-- An offset that is no boundary is passed over. -/
theorem splitFloor_succ {offset : Nat} (h : isBoundary text (offset + 1) = false) :
    splitFloor text (offset + 1) = splitFloor text offset := by
  suffices hfrom : ∀ read,
      splitFloorFrom read text (offset + 1) = splitFloorFrom read text offset from hfrom []
  induction text generalizing offset with
  | nil => exact fun _ => rfl
  | cons c rest ih =>
    intro read
    rw [isBoundary, dropBytes?] at h
    rw [splitFloorFrom, splitFloorFrom]
    by_cases hle : c.utf8Size ≤ offset
    · have hoffset : offset + 1 - c.utf8Size = offset - c.utf8Size + 1 := by omega
      rw [if_pos (by omega), hoffset] at h
      rw [if_pos (by omega), if_pos hle, hoffset]
      exact ih h _
    · have hlt : ¬ c.utf8Size ≤ offset + 1 := fun hlt => by
        have hzero : offset + 1 - c.utf8Size = 0 := by omega
        rw [if_pos hlt, hzero] at h
        cases rest <;> cases h
      rw [if_neg hlt, if_neg hle]

/-- The way back ends at the offset at which the text is cut. -/
theorem floorBoundary?_eq (text : Text) (offset : Nat) :
    floorBoundary? text offset = some (byteLength (splitFloor text offset).1) := by
  have hfound {offset : Nat} (h : isBoundary text offset = true) :
      byteLength (splitFloor text offset).1 = offset := by
    obtain ⟨rest, hrest⟩ := Option.isSome_iff_exists.mp h
    obtain ⟨before, rfl, rfl⟩ := exists_of_dropBytes? hrest
    rw [splitFloor_byteLength]
  induction offset with
  | zero =>
    have hzero : isBoundary text 0 = true := by cases text <;> rfl
    rw [floorBoundary?, if_pos hzero, hfound hzero]
  | succ offset ih =>
    rw [floorBoundary?]
    cases h : isBoundary text (offset + 1) with
    | true => rw [if_pos rfl, hfound h]
    | false => rw [if_neg (by decide), ih, splitFloor_succ h]

/-- An offset past the end is as good as the end. -/
theorem splitFloor_min (text : Text) (offset : Nat) :
    splitFloor text (min offset (byteLength text)) = splitFloor text offset := by
  rcases Nat.le_total offset (byteLength text) with hle | hle
  · rw [Nat.min_eq_left hle]
  · rw [Nat.min_eq_right hle]
    obtain ⟨past, rfl⟩ := Nat.exists_eq_add_of_le hle
    clear hle
    induction past with
    | zero => rfl
    | succ past ih =>
      have hpast : isBoundary text (byteLength text + past + 1) = false := by
        rw [isBoundary, Option.isSome_eq_false_iff, Option.isNone_iff_eq_none]
        refine Option.eq_none_iff_forall_ne_some.mpr fun rest hrest => ?_
        obtain ⟨before, rfl, hlength⟩ := exists_of_dropBytes? hrest
        rw [byteLength_append] at hlength
        omega
      rw [ih, ← Nat.add_assoc, splitFloor_succ hpast]

/-- An edit is made in any text, at any offset. -/
theorem makeEdit?_eq (edit : TextEdit) (source : Text) :
    makeEdit? edit source = some (edit.apply source) := by
  have hsource := splitFloor_append source edit.offset
  rw [makeEdit?, floorBoundary?_eq, splitFloor_min, TextEdit.apply]
  simp only [Option.bind_eq_bind, Option.bind_some]
  generalize splitFloor source edit.offset = cut at hsource
  obtain ⟨before, behind⟩ := cut
  subst hsource
  have hbefore := slice?_append [] before behind
  have hbehind := slice?_append before behind []
  simp only [List.nil_append, List.append_nil, Span.ofLength, byteLength_nil, Nat.zero_add,
    ← byteLength_append] at hbefore hbehind
  rw [hbefore, Option.bind_some, hbehind]
  rfl

end Edits

end Machine

end TexLint
