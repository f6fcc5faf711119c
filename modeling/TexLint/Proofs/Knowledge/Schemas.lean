import TexLint.Knowledge.Builtin
import TexLint.Knowledge.Overlay
import TexLint.Proofs.Ordered

/-!
# Schemas and the names they are found by

A report takes the length of a command's name from the schemas of the command, so these must
agree with the name under which they are found.

## The model

* A `CatalogueChange` is one way in which a catalogue grows. A catalogue is `Catalogue.Built`
  if it grows out of the empty or the built-in one.
* `Catalogue.Consistent` says what every catalogue keeps to: names stand once, and the schemas
  under a name describe it, differ from each other and are such as are accepted.

## What is proved

* `Catalogue.commandSchemas_registerCommand`: a schema is registered behind the others of its
  command, and no other command is touched.
* `Catalogue.Built.consistent`: a catalogue that has grown in whatever way is consistent.
* `Catalogue.Built.command_eq`: in a catalogue that has grown in whatever way, what is found
  under a name describes the command of that name.
* `Catalogue.schemas_stand`: what a user of a catalogue can rely on, changes that were refused
  halfway included.
* `Catalogue.mem_packages_of_command`, `Catalogue.mem_packages_of_environment`: the packages
  that are needed for a command or an environment are among those of the catalogue.
-/

namespace TexLint

/-- One way in which a catalogue grows. -/
inductive CatalogueChange where
  /-- A schema of a command is registered, unless it is refused. -/
  | command (schema : CommandSchema)
  /-- The schema of an environment is set. -/
  | environment (schema : EnvironmentSchema)
  /-- Entries are added, up to the first one that is refused. -/
  | entries (entries : CatalogueEntries)
  /-- An overlay is added, up to the first entry that is refused, if it can be read. -/
  | overlay (text : Text)
  /-- What the index of installed packages lists is added. -/
  | index (index : PackageIndex)

/-- The catalogue after a change. -/
def CatalogueChange.apply (c : Catalogue) : CatalogueChange → Catalogue
  | command schema => (c.registerCommand schema).toOption.getD c
  | environment schema => c.registerEnvironment schema
  | entries e => (c.merge e).1
  | overlay text => (c.mergeText text).1
  | index i => c.extendFromIndex i

namespace CommandSchema

/-- A schema as it is registered: its command stands without one leading backslash. -/
def registered (s : CommandSchema) : CommandSchema :=
  { s with command := withoutBackslash s.command }

/-- No argument is without extensions if each file argument allows one. -/
theorem argumentWithoutExtensions_eq_none_iff {s : CommandSchema} :
    s.argumentWithoutExtensions = none ↔
      ∀ a ∈ s.requiredArguments, ∀ f, a.file = some f → f.extensions ≠ [] := by
  simp only [argumentWithoutExtensions, List.find?_eq_none, Option.any_eq_true,
    List.isEmpty_iff, not_exists, not_and, ne_eq]

end CommandSchema

namespace Catalogue

/-- A catalogue that grows out of the empty or the built-in one. -/
inductive Built : Catalogue → Prop where
  /-- The empty catalogue. -/
  | empty : Built .empty
  /-- The built-in catalogue. -/
  | builtin : Built .builtin
  /-- A catalogue after one more change. -/
  | change {c : Catalogue} (change : CatalogueChange) : Built c → Built (change.apply c)

/-- A schema is accepted if its file arguments allow an extension. -/
theorem registerCommand_eq_ok_iff {c c' : Catalogue} {schema : CommandSchema} :
    c.registerCommand schema = .ok c' ↔ schema.argumentWithoutExtensions = none ∧
      c' = ⟨c.commands.insert schema.registered.command
        (addNew (c.commandSchemas schema.command) schema.registered), c.environments⟩ := by
  rw [registerCommand]
  cases schema.argumentWithoutExtensions with
  | some argument => simp
  | none =>
    simp only [true_and, Except.ok.injEq]
    exact eq_comm

/-- A schema is registered behind the others of its command, unless it is one of them. -/
theorem commandSchemas_registerCommand {c c' : Catalogue} {schema : CommandSchema}
    (h : c.registerCommand schema = .ok c') (name : String) : c'.commandSchemas name =
      if withoutBackslash name = withoutBackslash schema.command then
        addNew (c.commandSchemas schema.command) schema.registered
      else c.commandSchemas name := by
  obtain ⟨-, rfl⟩ := registerCommand_eq_ok_iff.mp h
  by_cases hname : withoutBackslash name = withoutBackslash schema.command
  · simp [commandSchemas, CommandSchema.registered, hname]
  · simp [commandSchemas, CommandSchema.registered, hname]

/-- The schemas that were known stay where they are. -/
theorem prefix_registerCommand {c c' : Catalogue} {schema : CommandSchema}
    (h : c.registerCommand schema = .ok c') (name : String) :
    c.commandSchemas name <+: c'.commandSchemas name := by
  rw [commandSchemas_registerCommand h]
  split
  · next hname =>
    have hsame : c.commandSchemas name = c.commandSchemas schema.command := by
      rw [commandSchemas, commandSchemas, hname]
    rw [hsame]
    exact prefix_addNew _ _
  · exact List.prefix_rfl

theorem mem_commandSchemas_registerCommand {c c' : Catalogue} {schema : CommandSchema}
    (h : c.registerCommand schema = .ok c') :
    schema.registered ∈ c'.commandSchemas schema.command := by
  rw [commandSchemas_registerCommand h, if_pos rfl]
  exact mem_addNew.mpr (.inr rfl)

/-- Environments are bound to their names one after the other. -/
theorem foldl_registerEnvironment (schemas : List EnvironmentSchema) (c : Catalogue) :
    schemas.foldl registerEnvironment c =
      ⟨c.commands, c.environments.extend ⟨schemas.map fun s => (s.name, s)⟩⟩ := by
  induction schemas generalizing c with
  | nil => rfl
  | cons schema schemas ih => rw [List.foldl_cons, ih, registerEnvironment]; rfl

/-! ### What every catalogue keeps to -/

/-- What holds of the schemas that are known of a command. -/
structure SchemasOf (name : String) (schemas : List CommandSchema) : Prop where
  /-- There is one. -/
  ne_nil : schemas ≠ []
  /-- They differ from each other. -/
  nodup : schemas.Nodup
  /-- They describe the command of that name. -/
  command_eq : ∀ s ∈ schemas, s.command = name
  /-- Their file arguments allow an extension. -/
  valid : ∀ s ∈ schemas, s.argumentWithoutExtensions = none

/-- What holds of a catalogue as a whole. -/
structure Consistent (c : Catalogue) : Prop where
  /-- Each command has one entry. -/
  nodup_commands : c.commands.keys.Nodup
  /-- Each environment has one entry. -/
  nodup_environments : c.environments.keys.Nodup
  /-- The schemas of each command are as they should be. -/
  commands : ∀ name schemas, c.commands.get? name = some schemas → SchemasOf name schemas
  /-- Each environment stands under its own name. -/
  environments : ∀ name schema, c.environments.get? name = some schema → schema.name = name

variable {c c' : Catalogue} {schema : CommandSchema}

/-- A schema that is accepted fits behind those that are known, or may be the first one. -/
theorem schemasOf_addNew {name : String} {schemas : List CommandSchema}
    (h : schemas = [] ∨ SchemasOf name schemas) (hcommand : schema.command = name)
    (hvalid : schema.argumentWithoutExtensions = none) :
    SchemasOf name (addNew schemas schema) := by
  have hknown : schemas.Nodup ∧
      ∀ s ∈ schemas, s.command = name ∧ s.argumentWithoutExtensions = none := by
    rcases h with rfl | h
    · exact ⟨List.nodup_nil, by simp⟩
    · exact ⟨h.nodup, fun s hs => ⟨h.command_eq s hs, h.valid s hs⟩⟩
  have hadded : ∀ s ∈ addNew schemas schema,
      s.command = name ∧ s.argumentWithoutExtensions = none := by
    intro s hs
    rcases mem_addNew.mp hs with hs | rfl
    · exact hknown.2 s hs
    · exact ⟨hcommand, hvalid⟩
  exact ⟨List.ne_nil_of_mem (mem_addNew.mpr (.inr rfl)), nodup_addNew hknown.1,
    fun s hs => (hadded s hs).1, fun s hs => (hadded s hs).2⟩

theorem Consistent.schemasOf_of_mem (h : c.Consistent) {e : String × List CommandSchema}
    (he : e ∈ c.commands.entries) : SchemasOf e.1 e.2 :=
  h.commands _ _ (OrderedMap.get?_eq_some_of_mem h.nodup_commands he)

theorem Consistent.name_eq_of_mem (h : c.Consistent) {e : String × EnvironmentSchema}
    (he : e ∈ c.environments.entries) : e.2.name = e.1 :=
  h.environments _ _ (OrderedMap.get?_eq_some_of_mem h.nodup_environments he)

theorem consistent_empty : Consistent .empty := by
  refine ⟨List.nodup_nil, List.nodup_nil, ?_, ?_⟩
  · intro name schemas h
    cases h
  · intro name schema h
    cases h

theorem Consistent.insert (h : c.Consistent) {name : String} {schemas : List CommandSchema}
    (hschemas : SchemasOf name schemas) :
    Consistent { c with commands := c.commands.insert name schemas } := by
  refine ⟨?_, h.nodup_environments, ?_, h.environments⟩
  · rw [OrderedMap.keys_insert]
    exact nodup_addNew h.nodup_commands
  · intro name' schemas' hget
    rw [OrderedMap.get?_insert] at hget
    split at hget
    · next hname =>
      cases hget
      rw [beq_iff_eq.mp hname]
      exact hschemas
    · exact h.commands name' schemas' hget

theorem Consistent.registerEnvironment (h : c.Consistent) (schema : EnvironmentSchema) :
    (c.registerEnvironment schema).Consistent := by
  refine ⟨h.nodup_commands, ?_, h.commands, ?_⟩
  · rw [Catalogue.registerEnvironment, OrderedMap.keys_insert]
    exact nodup_addNew h.nodup_environments
  · intro name schema' hget
    rw [Catalogue.registerEnvironment, OrderedMap.get?_insert] at hget
    split at hget
    · next hname =>
      cases hget
      exact (beq_iff_eq.mp hname).symm
    · exact h.environments name schema' hget

/-- The schemas that are known of a command may be none; otherwise they are as they should
be. -/
theorem Consistent.commandSchemas (h : c.Consistent) (name : String) :
    c.commandSchemas name = [] ∨ SchemasOf (withoutBackslash name) (c.commandSchemas name) := by
  rw [Catalogue.commandSchemas]
  cases hget : c.commands.get? (withoutBackslash name) with
  | none => exact .inl rfl
  | some schemas => exact .inr (h.commands _ schemas hget)

theorem Consistent.registerCommand (h : c.Consistent) (hc : c.registerCommand schema = .ok c') :
    c'.Consistent := by
  obtain ⟨hvalid, rfl⟩ := registerCommand_eq_ok_iff.mp hc
  exact h.insert (schemasOf_addNew (h.commandSchemas schema.command) rfl hvalid)

theorem Consistent.registerCommands (h : c.Consistent) (schemas : List CommandSchema) :
    (c.registerCommands schemas).1.Consistent := by
  induction schemas generalizing c with
  | nil => exact h
  | cons schema schemas ih =>
    rw [Catalogue.registerCommands]
    split
    · next hc => exact ih (h.registerCommand hc)
    · exact h

theorem Consistent.merge (h : c.Consistent) (e : CatalogueEntries) : (c.merge e).1.Consistent := by
  have hcommands := h.registerCommands e.commands
  have henvironments {c : Catalogue} (h : c.Consistent) :
      (e.environments.foldl Catalogue.registerEnvironment c).Consistent :=
    List.foldlRecOn _ _ h fun _ h schema _ => h.registerEnvironment schema
  rw [Catalogue.merge]
  split
  · next hc =>
    rw [hc] at hcommands
    exact henvironments hcommands
  · exact hcommands

theorem Consistent.addFoundCommand (h : c.Consistent) (package name : String) :
    (c.addFoundCommand package name).Consistent := by
  rw [Catalogue.addFoundCommand]
  split
  · exact h
  · exact h.insert (schemasOf_addNew (.inl rfl) rfl rfl)

theorem Consistent.addFoundEnvironment (h : c.Consistent) (package name : String) :
    (c.addFoundEnvironment package name).Consistent := by
  rw [Catalogue.addFoundEnvironment]
  split
  · exact h
  · exact h.registerEnvironment _

theorem Consistent.extendFromIndex (h : c.Consistent) (index : PackageIndex) :
    (c.extendFromIndex index).Consistent := by
  refine List.foldlRecOn _ _ h fun c h found _ => ?_
  refine List.foldlRecOn _ _ ?_ fun c h name _ => h.addFoundEnvironment found.1 name
  exact List.foldlRecOn _ _ h fun c h name _ => h.addFoundCommand found.1 name

theorem Consistent.apply (h : c.Consistent) (change : CatalogueChange) :
    (change.apply c).Consistent := by
  cases change with
  | command schema =>
    simp only [CatalogueChange.apply]
    cases hc : c.registerCommand schema with
    | error => exact h
    | ok c' => exact h.registerCommand hc
  | environment schema => exact h.registerEnvironment schema
  | entries e => exact h.merge e
  | overlay text =>
    simp only [CatalogueChange.apply, mergeText]
    split
    · exact h
    · exact h.merge _
  | index i => exact h.extendFromIndex i

/-- A catalogue that has grown in whatever way is consistent. -/
theorem Built.consistent (h : c.Built) : c.Consistent := by
  induction h with
  | empty => exact consistent_empty
  | builtin => exact consistent_empty.merge _
  | change change _ ih => exact ih.apply change

theorem exists_get?_of_mem_commandSchemas {name : String} {s : CommandSchema}
    (hs : s ∈ c.commandSchemas name) :
    ∃ schemas, c.commands.get? (withoutBackslash name) = some schemas ∧ s ∈ schemas := by
  rw [commandSchemas] at hs
  cases hget : c.commands.get? (withoutBackslash name) with
  | none => simp [hget] at hs
  | some schemas => exact ⟨schemas, rfl, by simpa [hget] using hs⟩

/-- What is found under the name of a command describes that command. -/
theorem Built.command_eq (h : c.Built) {name : String} {s : CommandSchema}
    (hs : s ∈ c.commandSchemas name) : s.command = withoutBackslash name := by
  rcases h.consistent.commandSchemas name with hnil | hschemas
  · rw [hnil] at hs
    cases hs
  · exact hschemas.command_eq s hs

/-- In a catalogue that has grown in whatever way, through changes that were refused halfway
too, each known command has a schema; its schemas differ from each other, describe that command,
and allow an extension in each file argument. Each environment stands under its own name. A
schema that is accepted is then found under its command, with one leading backslash left out,
behind the schemas that were known, which stay where they are. -/
theorem schemas_stand (h : c.Built) :
    (∀ e ∈ c.commands.entries, e.2 ≠ [] ∧ e.2.Nodup ∧ ∀ s ∈ e.2,
      s.command = e.1 ∧ ∀ a ∈ s.requiredArguments, ∀ f, a.file = some f → f.extensions ≠ []) ∧
    (∀ e ∈ c.environments.entries, e.2.name = e.1) ∧
    ∀ schema c', c.registerCommand schema = .ok c' →
      schema.registered ∈ c'.commandSchemas schema.command ∧
        ∀ name, c.commandSchemas name <+: c'.commandSchemas name := by
  have hc := h.consistent
  refine ⟨?_, ?_, ?_⟩
  · intro e he
    have hentry := hc.schemasOf_of_mem he
    refine ⟨hentry.ne_nil, hentry.nodup, fun s hs => ⟨hentry.command_eq s hs, ?_⟩⟩
    exact CommandSchema.argumentWithoutExtensions_eq_none_iff.mp (hentry.valid s hs)
  · intro e he
    exact hc.name_eq_of_mem he
  · intro schema c' hregister
    exact ⟨mem_commandSchemas_registerCommand hregister, prefix_registerCommand hregister⟩

/-- An overlay of which the second command is refused leaves the first one known; `\\foo` is then
registered behind it. -/
theorem schemas_stand_refused :
    let foo : CommandSchema := ⟨"foo", [], none⟩
    let bar : CommandSchema := ⟨"bar", [.required ⟨"file", some ⟨[], ""⟩, true⟩], none⟩
    let schema : CommandSchema := ⟨"\\foo", [], some (.named "a")⟩
    let c := (CatalogueChange.entries ⟨[foo, bar], []⟩).apply .empty
    c.Built ∧ (Catalogue.empty.merge ⟨[foo, bar], []⟩).2.isSome = true ∧
      ∃ c', c.registerCommand schema = .ok c' ∧
        c.commandSchemas "\\foo" <+: c'.commandSchemas "\\foo" ∧
        schema.registered ∈ c'.commandSchemas "\\foo" := by
  intro foo bar schema c
  have hc : c.Built := .change (.entries ⟨[foo, bar], []⟩) .empty
  obtain ⟨-, -, hregister⟩ := schemas_stand hc
  obtain ⟨hmem, hprefix⟩ := hregister schema _ (registerCommand_eq_ok_iff.mpr ⟨rfl, rfl⟩)
  exact ⟨hc, rfl, _, registerCommand_eq_ok_iff.mpr ⟨rfl, rfl⟩, hprefix _, hmem⟩

/-! ### The packages of a catalogue -/

/-- The packages that the schemas of a catalogue name. -/
def packages (c : Catalogue) : List Package :=
  c.toEntries.commands.filterMap (·.dependency) ++ c.toEntries.environments.filterMap (·.dependency)

theorem mem_packages_of_command {name : String} {s : CommandSchema}
    (hs : s ∈ c.commandSchemas name) {p : Package} (hp : s.dependency = some p) :
    p ∈ c.packages := by
  obtain ⟨schemas, hget, hs⟩ := exists_get?_of_mem_commandSchemas hs
  have hentry : s ∈ c.toEntries.commands :=
    List.mem_flatMap.mpr ⟨(_, schemas), OrderedMap.mem_of_get? hget, hs⟩
  exact List.mem_append_left _ (List.mem_filterMap.mpr ⟨s, hentry, hp⟩)

theorem mem_packages_of_environment {name : String} {s : EnvironmentSchema}
    (hs : c.environment? name = some s) {p : Package} (hp : s.dependency = some p) :
    p ∈ c.packages := by
  have hentry : s ∈ c.toEntries.environments :=
    List.mem_map.mpr ⟨(name, s), OrderedMap.mem_of_get? hs, rfl⟩
  exact List.mem_append_right _ (List.mem_filterMap.mpr ⟨s, hentry, hp⟩)

end Catalogue

end TexLint
