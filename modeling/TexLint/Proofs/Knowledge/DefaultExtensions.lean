import TexLint.Check.Reference
import TexLint.Files.Path
import TexLint.Knowledge.Builtin
import TexLint.Proofs.Knowledge.Schemas

/-!
# Extensions that a catalogue prescribes

A file that a command names without an extension gets the one that the schema of the command
prescribes.

## The model

* `CommandSchema.Prescribes` and `Catalogue.Prescribes` say which extensions these can be.

## What is proved

* `Catalogue.prescribes_of_mem_filesOf`: the extension of a file that a command names is
  prescribed.
* `Catalogue.prescribes_merge`: an overlay prescribes what its schemas prescribe.
* `Catalogue.isUnfit_of_prescribes_builtin`: nothing unfit is built in.
-/

namespace TexLint

/-- Whether a schema prescribes an extension for the files that an argument names. -/
def CommandSchema.Prescribes (s : CommandSchema) (extension : String) : Prop :=
  ∃ argument ∈ s.requiredArguments, ∃ file ∈ argument.file, file.defaultExtension = extension

namespace Catalogue

variable {c c' : Catalogue} {schema : CommandSchema} {extension : String}

/-- Whether a schema of a catalogue prescribes an extension. -/
def Prescribes (c : Catalogue) (extension : String) : Prop :=
  ∃ name, ∃ schema ∈ c.commandSchemas name, schema.Prescribes extension

/-- A file that a command names has the extension that an argument of a schema prescribes. -/
theorem prescribes_of_mem_filesOf {u : CommandUsage} {s : Span} {file : FileArgument}
    (h : Reference.file s file ∈ filesOf c u) : c.Prescribes file.defaultExtension := by
  unfold filesOf at h
  cases hschema : (c.commandSchemas u.baseName).head? with
  | none => simp [hschema] at h
  | some schema =>
    rw [hschema, Option.elim_some, CommandUsage.fileReferences] at h
    obtain ⟨references, hreferences, hmem⟩ := List.mem_flatten.mp h
    obtain ⟨i, hi, rfl⟩ := List.mem_mapIdx.mp hreferences
    -- A parameter is read as the argument in its place, or as the last one that names files.
    cases hargument : (schema.requiredArguments[i]?).or
        (schema.requiredArguments.reverse.find? (·.file.isSome)) with
    | none => simp [hargument] at hmem
    | some argument =>
      rw [hargument, Option.elim_some] at hmem
      refine ⟨_, schema, List.mem_of_mem_head? hschema, argument, ?_, file, ?_, rfl⟩
      · rcases Option.or_eq_some_iff.mp hargument with hget | ⟨-, hfind⟩
        · exact List.mem_of_getElem? hget
        · exact List.mem_reverse.mp (List.mem_of_find?_eq_some hfind)
      · unfold CommandUsage.filesIn at hmem
        split at hmem
        · cases hmem
        · split at hmem <;> simp_all

theorem prescribes_registerCommand (hc : c.registerCommand schema = .ok c')
    (h : c'.Prescribes extension) : c.Prescribes extension ∨ schema.Prescribes extension := by
  obtain ⟨name, known, hknown, hprescribes⟩ := h
  rw [commandSchemas_registerCommand hc] at hknown
  split at hknown
  · rcases mem_addNew.mp hknown with hknown | rfl
    · exact .inl ⟨_, known, hknown, hprescribes⟩
    · exact .inr hprescribes
  · exact .inl ⟨name, known, hknown, hprescribes⟩

theorem prescribes_registerCommands {schemas : List CommandSchema}
    (h : (c.registerCommands schemas).1.Prescribes extension) :
    c.Prescribes extension ∨ ∃ schema ∈ schemas, schema.Prescribes extension := by
  induction schemas generalizing c with
  | nil => exact .inl h
  | cons schema schemas ih =>
    rw [registerCommands] at h
    split at h
    · next c' hc =>
      rcases ih h with h | ⟨later, hlater, h⟩
      · rcases prescribes_registerCommand hc h with h | h
        · exact .inl h
        · exact .inr ⟨schema, List.mem_cons_self, h⟩
      · exact .inr ⟨later, List.mem_cons_of_mem _ hlater, h⟩
    · exact .inl h

/-- An overlay prescribes what its schemas prescribe. -/
theorem prescribes_merge {e : CatalogueEntries} (h : (c.merge e).1.Prescribes extension) :
    c.Prescribes extension ∨ ∃ schema ∈ e.commands, schema.Prescribes extension := by
  refine prescribes_registerCommands ?_
  unfold merge at h
  split at h
  · next c' hc =>
    rw [foldl_registerEnvironment] at h
    rw [hc]
    exact h
  · exact h

/-- No extension that is built in has a slash in it. -/
theorem isUnfit_of_prescribes_builtin (h : builtin.Prescribes extension) :
    Path.isUnfit extension = false := by
  have hall : ∀ schema ∈ Builtin.commands, ∀ argument ∈ schema.requiredArguments,
      ∀ file ∈ argument.file, Path.isUnfit file.defaultExtension = false := by decide +kernel
  rcases prescribes_merge h with ⟨name, schema, hschema, -⟩ | ⟨schema, hschema, h⟩
  · exact nomatch hschema
  · obtain ⟨argument, hargument, file, hfile, rfl⟩ := h
    exact hall schema hschema argument hargument file hfile

end Catalogue

end TexLint
