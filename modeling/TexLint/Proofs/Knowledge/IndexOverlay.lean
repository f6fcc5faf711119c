import TexLint.Knowledge.Catalogue
import TexLint.Proofs.Ordered

/-!
# What the index of installed packages adds

Each name that the index lists and the catalogue does not know gets one schema. Several
packages may list a name; the schema names the first one of them.

## The model

* `PackageIndex.firstListing` is the first package of an index that lists a name.

## What is proved

* `found_foldl`: where each step only adds what is not found yet, the first thing that is
  added counts.
* `Catalogue.get?_commands_extendFromIndex`, `Catalogue.get?_environments_extendFromIndex`:
  what is found under each name, known or new.
-/

namespace TexLint

namespace PackageIndex

/-- The first package of an index that lists a name, among its commands or environments. -/
def firstListing (index : PackageIndex) (names : PackageContents → List String) (name : String) :
    Option String :=
  (index.packages.entries.find? fun found => (names found.2).contains name).map Prod.fst

variable {index : PackageIndex} {names : PackageContents → List String} {name : String}

theorem firstListing_eq_some_iff {package : String} :
    index.firstListing names name = some package ↔ ∃ before contents behind,
      index.packages.entries = before ++ (package, contents) :: behind ∧
      name ∈ names contents ∧ ∀ found ∈ before, name ∉ names found.2 := by
  simp only [firstListing, Option.map_eq_some_iff, List.find?_eq_some_iff_append,
    Bool.not_eq_true', List.contains_eq_mem, decide_eq_false_iff_not, decide_eq_true_eq]
  constructor
  · rintro ⟨⟨_, contents⟩, ⟨hname, before, behind, hentries, hbefore⟩, rfl⟩
    exact ⟨before, contents, behind, hentries, hname, hbefore⟩
  · rintro ⟨before, contents, behind, hentries, hname, hbefore⟩
    exact ⟨(package, contents), ⟨hname, before, behind, hentries, hbefore⟩, rfl⟩

/-- What the packages of an index give for a name is what the first one that lists it gives. -/
theorem findSome?_listing {α : Type} (index : PackageIndex) (names : PackageContents → List String)
    (name : String) (new : String → α) :
    (index.packages.entries.findSome? fun found =>
        if name ∈ names found.2 then some (new found.1) else none) =
      (index.firstListing names name).map new := by
  unfold firstListing
  induction index.packages.entries with
  | nil => rfl
  | cons found rest ih =>
    rw [List.findSome?_cons, List.find?_cons]
    by_cases hname : name ∈ names found.2
    · simp [hname]
    · simp [hname, ih]

end PackageIndex

/-- Where each step only adds what is not found yet, the first thing that is added counts. -/
theorem found_foldl {σ β α : Type} (found? : σ → Option α) {step : σ → β → σ} {new : β → Option α}
    (h : ∀ s b, found? (step s b) = (found? s).or (new b)) (bs : List β) (s : σ) :
    found? (bs.foldl step s) = (found? s).or (bs.findSome? new) := by
  induction bs generalizing s with
  | nil => rw [List.foldl_nil, List.findSome?_nil, Option.or_none]
  | cons b bs ih =>
    rw [List.foldl_cons, ih, h, Option.or_assoc, List.findSome?_cons]
    cases new b <;> rfl

theorem findSome?_eq_name {α : Type} (name : String) (a : α) (names : List String) :
    (names.findSome? fun n => if n = name then some a else none) =
      if name ∈ names then some a else none := by
  induction names with
  | nil => rfl
  | cons n names ih =>
    rw [List.findSome?_cons, ih]
    by_cases hn : n = name
    · simp [hn]
    · simp [hn, Ne.symm hn]

namespace Catalogue

/-- The schema of a command that a package is found to define. -/
def foundCommand (name package : String) : CommandSchema := ⟨name, [], some (.named package)⟩

/-- The schema of an environment that a package is found to define. -/
def foundEnvironment (name package : String) : EnvironmentSchema := ⟨name, some (.named package)⟩

theorem get?_addFoundCommand (package name n : String) (c : Catalogue) :
    (c.addFoundCommand package n).commands.get? name =
      (c.commands.get? name).or (if n = name then some [foundCommand name package] else none) := by
  have hcommands : (c.addFoundCommand package n).commands =
      if c.commands.contains n then c.commands
      else c.commands.insert n [foundCommand n package] := by
    unfold addFoundCommand
    split <;> rfl
  rw [hcommands, OrderedMap.get?_ite_insert]
  by_cases hn : n = name
  · simp [hn]
  · simp [hn]

theorem get?_addFoundEnvironment (package name n : String) (c : Catalogue) :
    (c.addFoundEnvironment package n).environments.get? name =
      (c.environments.get? name).or
        (if n = name then some (foundEnvironment name package) else none) := by
  have henvironments : (c.addFoundEnvironment package n).environments =
      if c.environments.contains n then c.environments
      else c.environments.insert n (foundEnvironment n package) := by
    unfold addFoundEnvironment
    split <;> rfl
  rw [henvironments, OrderedMap.get?_ite_insert]
  by_cases hn : n = name
  · simp [hn]
  · simp [hn]

theorem environments_foldl_addFoundCommand (package : String) (names : List String)
    (c : Catalogue) : (names.foldl (addFoundCommand package) c).environments = c.environments := by
  refine foldl_kept environments ?_ names c
  intro c name
  rw [addFoundCommand]
  split <;> rfl

theorem commands_foldl_addFoundEnvironment (package : String) (names : List String)
    (c : Catalogue) : (names.foldl (addFoundEnvironment package) c).commands = c.commands := by
  refine foldl_kept commands ?_ names c
  intro c name
  rw [addFoundEnvironment]
  split <;> rfl

/-- A command that is known keeps its schemas; one that is not known gets a schema that names the
first package that lists it. -/
theorem get?_commands_extendFromIndex (c : Catalogue) (index : PackageIndex) (name : String) :
    (c.extendFromIndex index).commands.get? name = (c.commands.get? name).or
      ((index.firstListing (·.commands) name).map fun p => [foundCommand name p]) := by
  have hstep (c : Catalogue) (found : String × PackageContents) :
      (c.addFound found).commands.get? name = (c.commands.get? name).or
        (if name ∈ found.2.commands then some [foundCommand name found.1] else none) := by
    rw [addFound, commands_foldl_addFoundEnvironment, ← findSome?_eq_name]
    exact found_foldl (fun c : Catalogue => c.commands.get? name)
      (fun c n => get?_addFoundCommand found.1 name n c) _ _
  rw [extendFromIndex, ← PackageIndex.findSome?_listing]
  exact found_foldl (fun c : Catalogue => c.commands.get? name) hstep _ _

/-- An environment that is known keeps its schema; one that is not known gets a schema that names
the first package that lists it. -/
theorem get?_environments_extendFromIndex (c : Catalogue) (index : PackageIndex) (name : String) :
    (c.extendFromIndex index).environments.get? name = (c.environments.get? name).or
      ((index.firstListing (·.environments) name).map (foundEnvironment name)) := by
  have hstep (c : Catalogue) (found : String × PackageContents) :
      (c.addFound found).environments.get? name = (c.environments.get? name).or
        (if name ∈ found.2.environments then some (foundEnvironment name found.1) else none) := by
    rw [addFound, ← findSome?_eq_name, ← environments_foldl_addFoundCommand found.1
      found.2.commands c]
    exact found_foldl (fun c : Catalogue => c.environments.get? name)
      (fun c n => get?_addFoundEnvironment found.1 name n c) _ _
  rw [extendFromIndex, ← PackageIndex.findSome?_listing]
  exact found_foldl (fun c : Catalogue => c.environments.get? name) hstep _ _

end Catalogue

end TexLint
