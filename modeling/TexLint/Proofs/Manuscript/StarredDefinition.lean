import TexLint.Proofs.Check.MissingImport
import TexLint.Proofs.Document.Starred

/-!
# Starred definitions

A definition of a command may be starred: the same commands and environments are defined, and the
same problems are reported. The commands that define operators, environments and theorems define
nothing when they are starred.

## The model

* `Document.NamesApart`: a place in a document is part of no name that the document gives to
  something.
* `Problem.behind`: a problem after one byte has been inserted into a document.
* `CommandUsage.definedEnvironment?`: the environment that a command defines.

## What is proved

* `rel_definition?`: the definitions of a document and of the one with the star correspond to each
  other.
* `filterMap_commandProblem?`, `filterMap_environmentProblem?`: so do the problems.
* `Manuscript.agree_of_starred`, `Manuscript.analyze_starred`: what a manuscript defines stays, and
  so does what is reported, up to the byte of the star.
* `definition?_unstarredOnly`: the other commands that define something lose it.
-/

namespace TexLint

/-! ### Names in a document -/

/-- Whether a command names something in its first brace group. -/
def namesInGroup (name : String) : Bool :=
  Vocabulary.definesCommand name || Vocabulary.definesEnvironment name ||
    Vocabulary.packageImports.contains name

/-- A place in a document is part of no name: of none in a brace group, of no command that is glued
to the one that defines it, and of no name of an environment. -/
structure Document.NamesApart (d : Document) (place : Span) : Prop where
  /-- It is in no group that holds a name. -/
  group : ∀ u ∈ d.commands, namesInGroup u.name = true →
    ∀ p ∈ u.firstRequired, p.span.Apart place
  /-- It is no command that is defined by the one before it. -/
  glued : ∀ u ∈ d.commands, Vocabulary.definesCommand u.name = true → u.firstRequired = none →
    ∀ target ∈ d.commands[u.index + 1]?, target.span.start = u.span.stop →
      target.span.start ≠ place.start
  /-- It is in no name of an environment. -/
  environment : ∀ e ∈ d.environments, e.nameSpan.Apart place

instance (d : Document) (place : Span) : Decidable (d.NamesApart place) :=
  decidable_of_iff (_ ∧ _ ∧ _)
    ⟨fun ⟨group, glued, environment⟩ => ⟨group, glued, environment⟩,
      fun h => ⟨h.group, h.glued, h.environment⟩⟩

section Vocabulary

variable {name : String}

theorem namesInGroup_starrable (h : name ∈ starrable) :
    (Vocabulary.definesCommand name = true ∧ Vocabulary.definesEnvironment name = false ∧
      Vocabulary.packageImports.contains name = false) ∧
    Vocabulary.definesCommand (starredName name) = true ∧
      Vocabulary.definesEnvironment (starredName name) = false ∧
      Vocabulary.packageImports.contains (starredName name) = false := by
  revert name
  decide +kernel

theorem unstarred_starrable (h : name ∈ starrable) :
    unstarred (starredName name) = unstarred name := by
  revert name
  decide +kernel

end Vocabulary

/-! ### Lists that correspond to each other -/

section Rel

variable {α β : Type} {R : α → β → Prop} {l : List α} {l' : List β}

theorem forall₂_mem (h : List.Forall₂ R l l') : List.Forall₂ (fun a b => a ∈ l ∧ R a b) l l' := by
  have hsub : ∀ r : List α, l ⊆ r → List.Forall₂ (fun a b => a ∈ r ∧ R a b) l l' := by
    intro r
    induction h with
    | nil => exact fun _ => .nil
    | cons hab _ ih =>
      intro hr
      obtain ⟨ha, hr⟩ := List.cons_subset.mp hr
      exact .cons ⟨ha, hab⟩ (ih hr)
  exact hsub l (List.Subset.refl l)

theorem eq_none_of_rel {o : Option β} (h : Option.Rel R none o) : o = none := by
  cases h
  rfl

theorem exists_of_rel {a : α} {o : Option β} (h : Option.Rel R (some a) o) :
    ∃ b, o = some b ∧ R a b := by
  cases h with
  | some hab => exact ⟨_, rfl, hab⟩

theorem rel_getElem? (h : List.Forall₂ R l l') (i : Nat) : Option.Rel R l[i]? l'[i]? := by
  induction h generalizing i with
  | nil => exact .none
  | cons hab _ ih =>
    cases i with
    | zero => exact .some hab
    | succ i => exact ih i

theorem map_eq_of_forall₂ {γ : Type} {f : α → γ} {g : β → γ} (h : List.Forall₂ R l l')
    (hfg : ∀ a b, R a b → g b = f a) : l'.map g = l.map f := by
  induction h with
  | nil => rfl
  | cons hab _ ih => rw [List.map_cons, List.map_cons, hfg _ _ hab, ih]

/-- What a function finds in one list is what another one finds in the other list. -/
theorem filterMap_eq_of_forall₂ {γ δ : Type} {f : α → Option γ} {g : β → Option δ} {m : γ → δ}
    (h : List.Forall₂ R l l') (hfg : ∀ a ∈ l, ∀ b, R a b → g b = (f a).map m) :
    l'.filterMap g = (l.filterMap f).map m := by
  induction h with
  | nil => rfl
  | @cons a b l l' hab _ ih =>
    obtain ⟨ha, hl⟩ := List.forall_mem_cons.mp hfg
    rw [List.filterMap_cons, List.filterMap_cons, ha b hab, ih hl]
    cases f a with
    | none => rfl
    | some c => rfl

end Rel

/-! ### One document -/

/-- A definition, and what has become of it when the command at a place is starred. -/
structure Definition.Starred (place : Span) (D D' : Definition) : Prop where
  /-- The name is the same. -/
  name : D'.name = D.name
  /-- The range of the name moves. -/
  nameSpan : KeptSpan place D.nameSpan D'.nameSpan

/-- A problem after one byte has been inserted into a document. -/
def Problem.behind (x : Problem) (document offset : Nat) : Problem :=
  if x.document = document ∧ offset ≤ x.span.start then { x with span := x.span.shift 1 } else x

theorem Problem.behind_of_kept {place : Span} {kind : ProblemKind} {i o o' k n : Nat}
    {packages : List Package} (h : Kept place o o') (hk : place.start + k < place.stop) :
    Problem.behind ⟨kind, i, .ofLength (o + k) n, packages⟩ i place.stop =
      ⟨kind, i, .ofLength (o' + k) n, packages⟩ := by
  rcases h with ⟨hbefore, rfl⟩ | ⟨hbehind, rfl⟩
  · exact if_neg fun hle => absurd hle.2 (by simp only [Span.ofLength]; omega)
  · rw [Problem.behind, if_pos ⟨rfl, by simp only [Span.ofLength]; omega⟩]
    simp only [Span.ofLength, Span.shift, Nat.add_right_comm]

/-- The environment that a command defines, if it defines one. -/
def CommandUsage.definedEnvironment? (u : CommandUsage) : Option String :=
  if Vocabulary.definesEnvironment u.name then
    u.firstRequired.bind fun group =>
      let name := trim group.interior
      if name.isEmpty then none else some (String.ofList name)
  else none

section Starred

variable {place : Span} {name : String} {d d' : Document} {u u' : CommandUsage}

namespace CommandUsage.Starred

variable (h : u.Starred place name u') (hname : name ∈ starrable)
include h hname

theorem definesCommand_eq :
    Vocabulary.definesCommand u'.name = Vocabulary.definesCommand u.name := by
  obtain ⟨⟨hdefines, -, -⟩, hdefines', -, -⟩ := namesInGroup_starrable hname
  rcases h.name with heq | ⟨-, -, heq, heq'⟩
  · rw [heq]
  · rw [heq, heq', hdefines, hdefines']

theorem definesEnvironment_eq :
    Vocabulary.definesEnvironment u'.name = Vocabulary.definesEnvironment u.name := by
  obtain ⟨⟨-, hdefines, -⟩, -, hdefines', -⟩ := namesInGroup_starrable hname
  rcases h.name with heq | ⟨-, -, heq, heq'⟩
  · rw [heq]
  · rw [heq, heq', hdefines, hdefines']

theorem packageImports_eq : Vocabulary.packageImports.contains u'.name =
    Vocabulary.packageImports.contains u.name := by
  obtain ⟨⟨-, -, himports⟩, -, -, himports'⟩ := namesInGroup_starrable hname
  rcases h.name with heq | ⟨-, -, heq, heq'⟩
  · rw [heq]
  · rw [heq, heq', himports, himports']

theorem baseName_eq : u'.baseName = u.baseName := by
  rw [baseName, baseName]
  rcases h.name with heq | ⟨-, -, heq, heq'⟩
  · rw [heq]
  · rw [heq, heq', unstarred_starrable hname]

end CommandUsage.Starred

/-- A group that holds a name stays as it is. -/
theorem rel_group (hplace : place.start < place.stop) (hapart : d.NamesApart place)
    (hu : u ∈ d.commands) (h : u.Starred place name u') (hgroup : namesInGroup u.name = true) :
    Option.Rel (fun p p' => p'.interior = p.interior ∧ KeptSpan place p.span p'.span)
      u.firstRequired u'.firstRequired := by
  have hfirst := h.firstRequired
  have hnames := hapart.group u hu hgroup
  revert hfirst hnames
  generalize u.firstRequired = p
  generalize u'.firstRequired = p'
  intro hfirst hnames
  cases hfirst with
  | none => exact .none
  | some hp =>
    refine .some ⟨?_, hp.span⟩
    rcases hp.text with htext | hcontains
    · rw [Parameter.interior, Parameter.interior, htext]
    · rw [(hnames _ rfl).contains_eq_false hplace] at hcontains
      cases hcontains

section Document

variable (hname : name ∈ starrable) (hplace : place.start < place.stop)
  (hd : d.Starred place name d') (hapart : d.NamesApart place)
include hname hplace hd hapart

/-- The definitions of a document correspond to each other. -/
theorem rel_definition? (hu : u ∈ d.commands) (h : u.Starred place name u') :
    Option.Rel (Definition.Starred place) (d.definition? u) (d'.definition? u') := by
  rw [Document.definition?, Document.definition?, h.definesCommand_eq hname]
  by_cases hdefines : Vocabulary.definesCommand u.name = true
  · have hgroup := rel_group hplace hapart hu h (by rw [namesInGroup, hdefines]; rfl)
    have hglued := hapart.glued u hu hdefines
    rw [if_pos hdefines, if_pos hdefines]
    generalize u.firstRequired = p at hgroup hglued ⊢
    generalize u'.firstRequired = p' at hgroup ⊢
    cases hgroup with
    | none =>
      have htarget := rel_getElem? hd.commands (u.index + 1)
      show Option.Rel _ (d.gluedDefinition? u) (d'.gluedDefinition? u')
      rw [Document.gluedDefinition?, Document.gluedDefinition?, h.index]
      have hglued := hglued rfl
      generalize d.commands[u.index + 1]? = target at htarget hglued ⊢
      generalize d'.commands[u.index + 1]? = target' at htarget ⊢
      cases htarget with
      | none => exact .none
      | @some target target' ht =>
        rw [Option.bind_some, Option.bind_some]
        by_cases hnext : target.span.start = u.span.stop
        · rw [if_pos hnext, if_pos ((ht.span.start.eq_iff hplace h.span.stop).mpr hnext)]
          refine .some ⟨?_, ht.span⟩
          rcases ht.name with heq | ⟨hstart, -⟩
          · exact heq
          · exact absurd hstart (hglued target rfl hnext)
        · rw [if_neg hnext, if_neg (mt (ht.span.start.eq_iff hplace h.span.stop).mp hnext)]
          exact .none
    | @some p p' hp =>
      obtain ⟨hinterior, hspan⟩ := hp
      show Option.Rel _ (d.bracedDefinition? u p) (d'.bracedDefinition? u' p')
      rw [Document.bracedDefinition?, Document.bracedDefinition?, hinterior]
      split
      · exact .some ⟨rfl, hspan⟩
      · exact .none
  · rw [if_neg hdefines, if_neg hdefines]
    exact .none

theorem map_name_definitions :
    d'.definitions.map (·.name) = d.definitions.map (·.name) := by
  have hdefinitions : List.Forall₂ (Definition.Starred place) d.definitions d'.definitions :=
    List.rel_filterMap
      (fun u u' hu => rel_definition? hname hplace hd hapart hu.1 hu.2) (forall₂_mem hd.commands)
  exact map_eq_of_forall₂ hdefinitions fun D D' hD => hD.name

omit hname hd in
/-- The command at the place is not what the command before it defines. -/
theorem contains_nameSpan_eq_false {v : CommandUsage} {D : Definition} (hv : v ∈ d.commands)
    (hD : d.definition? v = some D) (hu : d.commands[v.index + 1]? = some u)
    (hstart : u.span.start = place.start) (hstop : place.stop ≤ u.span.stop) :
    D.nameSpan.contains u.span = false := by
  rw [Document.definition?] at hD
  by_cases hdefines : Vocabulary.definesCommand v.name = true
  · rw [if_pos hdefines] at hD
    have hglued := hapart.glued v hv hdefines
    have hgroup := hapart.group v hv (by rw [namesInGroup, hdefines]; rfl)
    generalize v.firstRequired = p at hD hglued hgroup
    cases p with
    | none =>
      have hD : d.gluedDefinition? v = some D := hD
      rw [Document.gluedDefinition?, hu, Option.bind_some] at hD
      by_cases hnext : u.span.start = v.span.stop
      · exact absurd hstart (hglued rfl u hu hnext)
      · rw [if_neg hnext] at hD
        cases hD
    | some p =>
      have hD : d.bracedDefinition? v p = some D := hD
      rw [Document.bracedDefinition?] at hD
      split at hD
      · cases hD
        have hfree := (hgroup p rfl).contains_eq_false hplace
        rw [← Bool.not_eq_true, Span.contains_iff] at hfree ⊢
        exact fun hcontains => hfree ⟨hstart ▸ hcontains.1, Nat.le_trans hstop hcontains.2⟩
      · cases hD
  · rw [if_neg hdefines] at hD
    cases hD

/-- A command is being defined when it has been so before. -/
theorem isBeingDefined_eq (hindex : ∀ (j : Nat) (v : CommandUsage), d.commands[j]? = some v →
    v.index = j) (hu : u ∈ d.commands) (h : u.Starred place name u') :
    d'.isBeingDefined u' = d.isBeingDefined u := by
  obtain ⟨j, hj⟩ := List.mem_iff_getElem?.mp hu
  obtain rfl := hindex j u hj
  rw [Document.isBeingDefined, Document.isBeingDefined, Document.previous?, Document.previous?,
    CommandUsage.previousIndex, CommandUsage.previousIndex, h.index]
  by_cases hfirst : u.index = 0
  · rw [if_pos hfirst]
    rfl
  · rw [if_neg hfirst, Option.bind_some, Option.bind_some]
    have hprevious := rel_getElem? hd.commands (u.index - 1)
    cases hv : d.commands[u.index - 1]? with
    | none =>
      rw [hv] at hprevious
      rw [eq_none_of_rel hprevious]
      rfl
    | some v =>
      rw [hv] at hprevious
      obtain ⟨v', hv', hstarred⟩ := exists_of_rel hprevious
      have hmem := List.mem_of_getElem? hv
      have hdefinition := rel_definition? hname hplace hd hapart hmem hstarred
      rw [hv', Option.bind_some, Option.bind_some]
      cases hD : d.definition? v with
      | none =>
        rw [hD] at hdefinition
        rw [eq_none_of_rel hdefinition]
        rfl
      | some D =>
        rw [hD] at hdefinition
        obtain ⟨D', hD', hnames⟩ := exists_of_rel hdefinition
        rw [hD', Option.any_some, Option.any_some, Definition.defines, Definition.defines,
          hnames.nameSpan.contains_eq hplace h.span, hnames.name]
        rcases h.name with heq | ⟨hstart, hstop, -, -⟩
        · rw [heq]
        · have hnext : d.commands[v.index + 1]? = some u := by
            rw [hindex _ v hv, Nat.sub_add_cancel (Nat.pos_of_ne_zero hfirst), hj]
          rw [contains_nameSpan_eq_false hplace hapart hmem hD hnext hstart hstop,
            Bool.and_false, Bool.and_false]

/-- The same packages are imported. -/
theorem map_name_imports : (d'.commands.flatMap (·.imports)).map (·.name) =
    (d.commands.flatMap (·.imports)).map (·.name) := by
  rw [List.map_flatMap, List.map_flatMap, List.flatMap_def, List.flatMap_def,
    map_eq_of_forall₂ (forall₂_mem hd.commands)]
  rintro u u' ⟨hu, h⟩
  rw [CommandUsage.imports, CommandUsage.imports, h.packageImports_eq hname]
  by_cases himports : Vocabulary.packageImports.contains u.name = true
  · have hgroup := rel_group hplace hapart hu h (by rw [namesInGroup, himports, Bool.or_true])
    rw [if_pos himports, if_pos himports]
    generalize u.firstRequired = p at hgroup ⊢
    generalize u'.firstRequired = p' at hgroup ⊢
    cases hgroup with
    | none => rfl
    | some hp =>
      simp only [List.map_map, packageNames_eq, hp.1]
      rfl
  · rw [if_neg himports, if_neg himports]

/-- The same environments are defined. -/
theorem filterMap_definedEnvironment? : d'.commands.filterMap (·.definedEnvironment?) =
    d.commands.filterMap (·.definedEnvironment?) := by
  have hdefined : ∀ u u', u ∈ d.commands ∧ u.Starred place name u' →
      u'.definedEnvironment? = u.definedEnvironment? := by
    rintro u u' ⟨hu, h⟩
    rw [CommandUsage.definedEnvironment?, CommandUsage.definedEnvironment?,
      h.definesEnvironment_eq hname]
    by_cases hdefines : Vocabulary.definesEnvironment u.name = true
    · have hgroup := rel_group hplace hapart hu h
        (by rw [namesInGroup, hdefines, Bool.or_true, Bool.true_or])
      rw [if_pos hdefines, if_pos hdefines]
      generalize u.firstRequired = p at hgroup ⊢
      generalize u'.firstRequired = p' at hgroup ⊢
      cases hgroup with
      | none => rfl
      | some hp => rw [Option.bind_some, Option.bind_some, hp.1]
    · rw [if_neg hdefines, if_neg hdefines]
  have hfound : d'.commands.filterMap (·.definedEnvironment?) =
      (d.commands.filterMap (·.definedEnvironment?)).map id :=
    filterMap_eq_of_forall₂ (forall₂_mem hd.commands) fun u _ u' hu => by
      rw [hdefined u u' hu, Option.map_id]
      rfl
  rw [hfound, List.map_id]

variable (k : Knowledge) (included defined : List String) (i : Nat)

/-- The problems with commands move by one byte behind the star. -/
theorem filterMap_commandProblem? (hindex : ∀ (j : Nat) (v : CommandUsage),
    d.commands[j]? = some v → v.index = j) :
    d'.commands.filterMap (k.commandProblem? included i d') =
      (d.commands.filterMap (k.commandProblem? included i d)).map (·.behind i place.stop) := by
  refine filterMap_eq_of_forall₂ hd.commands fun u hu u' h => ?_
  rw [Knowledge.commandProblem?, Knowledge.commandProblem?,
    isBeingDefined_eq hname hplace hd hapart hindex hu h, h.baseName_eq hname]
  split
  · rfl
  · rw [Option.map_map]
    refine congrArg (Option.map · _) (funext fun packages => ?_)
    exact (Problem.behind_of_kept h.span.start (k := 0) hplace).symm

omit hname hplace in
/-- So do the problems with environments. -/
theorem filterMap_environmentProblem? (hlong : place.start + beginLength < place.stop) :
    d'.environments.filterMap (k.environmentProblem? included defined i) =
      (d.environments.filterMap (k.environmentProblem? included defined i)).map
        (·.behind i place.stop) := by
  refine filterMap_eq_of_forall₂ hd.environments fun e he e' h => ?_
  have hsame : e'.name = e.name := h.name.resolve_right (not_not.mpr (hapart.environment e he))
  rw [Knowledge.environmentProblem?, Knowledge.environmentProblem?, hsame]
  split
  · rfl
  · rw [Option.map_map]
    refine congrArg (Option.map · _) (funext fun packages => ?_)
    exact (Problem.behind_of_kept h.start hlong).symm

end Document

end Starred

/-! ### Whole manuscripts -/

namespace Manuscript

theorem filterMap_collect {α β : Type} (m : Manuscript) (f : Document → List α) (g : α → Option β) :
    (m.collect f).filterMap (fun x => g x.value) =
      m.documents.flatMap fun d => (f d).filterMap g := by
  rw [collect, List.filterMap_flatten, List.flatMap_def]
  congr 1
  refine List.ext_getElem (by simp) fun i hi hi' => ?_
  simp [List.filterMap_map]

theorem definedEnvironments_eq (m : Manuscript) : m.definedEnvironments =
    distinct (m.documents.flatMap fun d => d.commands.filterMap (·.definedEnvironment?)) := by
  rw [definedEnvironments, commands, List.filterMap_filter, ← filterMap_collect]
  rfl

theorem includedPackages_eq (m : Manuscript) : m.includedPackages =
    distinct (m.documents.flatMap fun d => (d.commands.flatMap (·.imports)).map (·.name)) := by
  have hnames := m.filterMap_collect (fun d => d.commands.flatMap (·.imports))
    (fun x => some x.name)
  simp only [List.filterMap_eq_map'] at hnames
  rw [includedPackages, packageImports, hnames]

theorem definedCommands_eq (m : Manuscript) : m.definedCommands =
    m.documents.flatMap fun d => d.definitions.map (·.name) := by
  have hnames := m.filterMap_collect (·.definitions) (fun x => some x.name)
  simp only [List.filterMap_eq_map'] at hnames
  exact hnames

section Replace

variable {m : Manuscript} {i : Nat} {d d' : Document} (hd : m.documents[i]? = some d)
include hd

/-- A document that gives the same as the one it takes the place of changes nothing. -/
theorem flatMap_replace {α : Type} (f : Document → List α) (h : f d' = f d) :
    (m.replace i d').documents.flatMap f = m.documents.flatMap f := by
  obtain ⟨hi, rfl⟩ := List.getElem?_eq_some_iff.mp hd
  rw [List.flatMap_def, List.flatMap_def, replace, List.map_set, h,
    ← List.getElem_map f (h := by rwa [List.length_map]), List.set_getElem_self]

omit hd in
theorem inScope_replace (m : Manuscript) (i : Nat) (d' : Document) (scope : Nat → Bool) :
    (m.replace i d').inScope scope =
      (m.inScope scope).map fun e => if e.1 = i then (i, d') else e := by
  have hmap : (m.replace i d').documents.mapIdx (fun j e => (j, e)) =
      (m.documents.mapIdx fun j e => (j, e)).map fun e => if e.1 = i then (i, d') else e := by
    refine List.ext_getElem (by simp [replace]) fun j hj hj' => ?_
    simp only [replace, List.getElem_mapIdx, List.getElem_map, List.getElem_set, eq_comm (a := i)]
    split
    · next h => rw [h]
    · rfl
  rw [inScope, hmap, List.filter_map]
  refine congrArg _ (List.filter_congr fun e _ => ?_)
  show scope (if e.1 = i then (i, d') else e).1 = scope e.1
  split
  · next h => rw [h]
  · rfl

/-- What is found in a document moves with its usages, and the rest stays. -/
theorem found_replace {υ : Type} {usages : Document → List υ}
    {problem? : Nat → Document → υ → Option Problem} {kind : ProblemKind} {start : υ → Nat}
    (hat : ∀ j e u x, problem? j e u = some x → x.isAt kind j (start u) = true)
    (scope : Nat → Bool) {offset : Nat} (h : (usages d').filterMap (problem? i d') =
      ((usages d).filterMap (problem? i d)).map (·.behind i offset)) :
    Knowledge.found (m.replace i d') scope usages problem? =
      (Knowledge.found m scope usages problem?).map (·.behind i offset) := by
  rw [Knowledge.found, Knowledge.found, inScope_replace, List.flatMap_map, List.map_flatMap]
  refine List.flatMap_congr fun e he => ?_
  by_cases hi : e.1 = i
  · have hdocument := (mem_inScope_iff.mp he).1
    rw [hi, hd, Option.some_inj] at hdocument
    rw [if_pos hi, hi, ← hdocument]
    exact h
  · rw [if_neg hi]
    refine ((List.map_congr_left fun x hx => if_neg fun hbehind => hi ?_).trans
      (List.map_id _)).symm
    obtain ⟨u, -, hu⟩ := List.mem_filterMap.mp hx
    rw [← hbehind.1, (Problem.isAt_iff.mp (hat e.1 e.2 u x hu)).2.1]

/-- Manuscripts define and lack the same when a document in them is starred. -/
theorem agree_of_starred {place : Span} {name : String} (hname : name ∈ starrable)
    (hlong : place.start + beginLength < place.stop) (hstarred : d.Starred place name d')
    (hapart : d.NamesApart place) (hindex : ∀ (j : Nat) (v : CommandUsage),
      d.commands[j]? = some v → v.index = j) :
    (m.replace i d').definedCommands = m.definedCommands ∧
      (m.replace i d').definedEnvironments = m.definedEnvironments ∧
      ∀ (k : Knowledge) (scope : Nat → Bool),
        k.problems (m.replace i d') scope = (k.problems m scope).map (·.behind i place.stop) := by
  have hplace : place.start < place.stop := Nat.lt_of_le_of_lt (Nat.le_add_right _ _) hlong
  have henvironments : (m.replace i d').definedEnvironments = m.definedEnvironments := by
    rw [definedEnvironments_eq, definedEnvironments_eq, flatMap_replace hd _
      (filterMap_definedEnvironment? hname hplace hstarred hapart)]
  have hincluded : (m.replace i d').includedPackages = m.includedPackages := by
    rw [includedPackages_eq, includedPackages_eq, flatMap_replace hd _
      (map_name_imports hname hplace hstarred hapart)]
  refine ⟨?_, henvironments, fun k scope => ?_⟩
  · rw [definedCommands_eq, definedCommands_eq, flatMap_replace hd _
      (map_name_definitions hname hplace hstarred hapart)]
  · rw [Knowledge.problems_eq, Knowledge.problems_eq, hincluded, henvironments, List.map_append,
      found_replace hd (Knowledge.isAt_of_commandProblem? k _) scope
        (filterMap_commandProblem? hname hplace hstarred hapart k _ i hindex),
      found_replace hd (Knowledge.isAt_of_environmentProblem? k _ _) scope
        (filterMap_environmentProblem? hstarred hapart k _ _ i hlong)]

end Replace

/-- Starring a command that defines a command changes neither which commands nor which environments
a manuscript defines. The same problems are reported, at places that move by the byte of the star if
they are behind it. The command must not be part of a name that the document gives to something. -/
theorem analyze_starred {m : Manuscript} {i : Nat} {path name : String} {before behind : Text}
    {u : CommandUsage} (hname : name ∈ starrable)
    (hd : m.documents[i]? = some (.read path (before ++ name.toList ++ behind)))
    (hu : u ∈ (Document.read path (before ++ name.toList ++ behind)).commands)
    (huname : u.name = name) (hustart : u.span.start = byteLength before)
    (hapart : (Document.read path (before ++ name.toList ++ behind)).NamesApart
      (.ofLength (byteLength before) (byteLength name.toList))) :
    let m' := m.replace i (.read path (before ++ name.toList ++ '*' :: behind))
    m'.definedCommands = m.definedCommands ∧ m'.definedEnvironments = m.definedEnvironments ∧
      ∀ (k : Knowledge) (settings : Settings) (only : Option Nat),
        k.analyze settings m' only = (k.analyze settings m only).map
          (·.map (·.behind i (byteLength before + byteLength name.toList))) := by
  intro m'
  obtain ⟨hcommands, henvironments, hproblems⟩ := agree_of_starred hd hname
    (Nat.add_lt_add_left (eight_le_byteLength hname) _)
    (Document.read_starred hname path hu huname hustart) hapart
    fun _ _ => Document.index_of_command
  refine ⟨hcommands, henvironments, fun k settings only => ?_⟩
  rw [Knowledge.analyze, Knowledge.analyze]
  split
  · rw [hproblems]
    show (m.ensureReady.bind fun _ => _) = (m.ensureReady.bind fun _ => _).map _
    cases m.ensureReady <;> rfl
  · rfl

/-- A starred definition is still a definition, and what is used behind it is still reported. -/
theorem analyze_starred_newcommand :
    let k : Knowledge := ⟨(CatalogueChange.command ⟨"foo", [], some (.named "a")⟩).apply .empty,
      .empty⟩
    let m := ofDocuments
      [.read "a.tex" "\\foo\\newcommand\x7b\\foo\x7d\x7b\\newcommand\x7d\\foo".toList]
    let m' := m.replace 0
      (.read "a.tex" "\\foo\\newcommand*\x7b\\foo\x7d\x7b\\newcommand\x7d\\foo".toList)
    m'.definedCommands = ["\\foo"] ∧ k.analyze .default m' none =
      .ok [⟨.missingCommandImport, 0, ⟨0, 4⟩, [.named "a"]⟩,
        ⟨.missingCommandImport, 0, ⟨35, 39⟩, [.named "a"]⟩] := by
  intro k m m'
  have hcommand : ∃ u ∈ (Document.read "a.tex"
      "\\foo\\newcommand\x7b\\foo\x7d\x7b\\newcommand\x7d\\foo".toList).commands,
      u.name = "\\newcommand" ∧ u.span.start = 4 := by
    decide +kernel
  obtain ⟨u, hu, hname, hstart⟩ := hcommand
  obtain ⟨hcommands, -, hanalyze⟩ := @analyze_starred m 0 "a.tex" "\\newcommand" "\\foo".toList
    "\x7b\\foo\x7d\x7b\\newcommand\x7d\\foo".toList u (by decide) rfl hu hname hstart
    (by decide +kernel)
  refine ⟨hcommands.trans (by decide +kernel), (hanalyze k .default none).trans ?_⟩
  have hproblems : k.analyze .default m none =
      .ok [⟨.missingCommandImport, 0, ⟨0, 4⟩, [.named "a"]⟩,
        ⟨.missingCommandImport, 0, ⟨34, 38⟩, [.named "a"]⟩] := by
    decide +kernel
  rw [hproblems]
  rfl

end Manuscript

/-! ### Definitions that lose what they define -/

/-- The commands that are defined, or known to define, without a star only. -/
def unstarredOnly : List String :=
  ["\\DeclareMathOperator", "\\newenvironment", "\\renewenvironment", "\\newtheorem"]

/-- When one of these commands is starred, it defines nothing. -/
theorem definition?_unstarredOnly {name : String} (h : name ∈ unstarredOnly) {u : CommandUsage}
    (hu : u.name = starredName name) (d : Document) :
    d.definition? u = none ∧ u.definedEnvironment? = none := by
  have hvocabulary : ∀ name ∈ unstarredOnly, Vocabulary.definesCommand (starredName name) = false ∧
      Vocabulary.definesEnvironment (starredName name) = false := by
    decide +kernel
  obtain ⟨hcommand, henvironment⟩ := hvocabulary name h
  constructor
  · exact if_neg (by rw [hu, hcommand]; decide)
  · exact if_neg (by rw [hu, henvironment]; decide)

namespace Manuscript

/-- A starred theorem is no definition, so the environment is reported. -/
theorem definedEnvironments_starred_theorem :
    let k : Knowledge := ⟨(CatalogueChange.environment ⟨"proof", some (.named "amsthm")⟩).apply
      .empty, .empty⟩
    let m := ofDocuments [.read "a.tex"
      "\\newtheorem\x7bproof\x7d\x7bP\x7d\\begin\x7bproof\x7d\\end\x7bproof\x7d".toList]
    let m' := m.replace 0 (.read "a.tex"
      "\\newtheorem*\x7bproof\x7d\x7bP\x7d\\begin\x7bproof\x7d\\end\x7bproof\x7d".toList)
    m.definedEnvironments = ["proof"] ∧ m'.definedEnvironments = [] ∧
      k.analyze .default m none = .ok [] ∧ k.analyze .default m' none =
        .ok [⟨.missingEnvironmentImport, 0, ⟨29, 34⟩, [.named "amsthm"]⟩] := by
  decide +kernel

end Manuscript

end TexLint
