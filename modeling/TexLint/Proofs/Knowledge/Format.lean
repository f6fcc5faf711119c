import TexLint.Knowledge.Overlay
import TexLint.Proofs.Json.RoundTrip
import TexLint.Proofs.Ordered

/-!
# What is known is read back from its JSON form

The JSON forms of packages, schemas and loads are values that can be written, and their
readers give back what was written.

## What is proved

* `Json.toList?_array`, `Json.toOption?_ofOption`, `OrderedMap.ofJson?_toJson`: a form that is
  made of other forms is read back if these are.
* `ofJson?_toJson` for each type. An argument is kept as a whole before it is read, for which
  three levels are enough.
* `CatalogueEntries.readAs?_write`, `LoadEntries.readAs?_write`, `PackageIndex.readAs?_write`:
  entries and the index come back from their text, whatever its layout.
-/

namespace TexLint

namespace Json

/-! ### Forms that are made of other forms -/

section Parts

variable {α : Type} {read : Json → Option α} {form : α → Json}

theorem WellFormed.arrayOf (h : ∀ a, (form a).WellFormed) (xs : List α) :
    (Json.array (xs.map form)).WellFormed := by
  refine .array fun item hitem => ?_
  obtain ⟨a, -, rfl⟩ := List.mem_map.mp hitem
  exact h a

theorem WellFormed.ofText (s : String) : (Json.text s).WellFormed := .string _

theorem WellFormed.ofTexts (names : List String) : (Json.texts names).WellFormed :=
  .arrayOf .ofText names

theorem WellFormed.ofRecord {fields : List (String × Json)}
    (h : ∀ field ∈ fields, field.2.WellFormed) : (Json.record fields).WellFormed := by
  refine .object fun field hfield => ?_
  obtain ⟨f, hf, rfl⟩ := List.mem_map.mp hfield
  exact h f hf

theorem WellFormed.optional (h : ∀ a, (form a).WellFormed) (o : Option α) :
    (Json.ofOption form o).WellFormed := by
  cases o with
  | none => exact .null
  | some a => exact h a

theorem toList?_array (h : ∀ a, read (form a) = some a) (xs : List α) :
    toList? read (array (xs.map form)) = some xs := by
  change (xs.map form).mapM read = some xs
  induction xs with
  | nil => rfl
  | cons a xs ih =>
    rw [List.map_cons, List.mapM_cons, h, ih]
    rfl

theorem toList?_texts (names : List String) : toList? toText? (texts names) = some names := by
  have hread (s : String) : toText? (text s) = some s := rfl
  exact toList?_array hread names

theorem toOption?_ofOption (h : ∀ a, read (form a) = some a) (hnull : ∀ a, form a ≠ .null)
    (o : Option α) : toOption? read (ofOption form o) = some o := by
  cases o with
  | none => rfl
  | some a =>
    rw [ofOption, toOption?, h, Option.map_some]
    exact hnull a

theorem areKept_texts {levels : Nat} (names : List String) :
    areKept levels (names.map text) = true := by
  induction names with
  | nil => rfl
  | cons name names ih =>
    rw [List.map_cons, areKept, ih, Bool.and_true]
    rfl

end Parts

end Json

open Json (WellFormed fieldsOf toList? toText? toOption? withDefault)

/-- A map whose keys stand once is read back. -/
theorem OrderedMap.ofJson?_toJson {α : Type} {read : Json → Option α} {form : α → Json}
    (h : ∀ a, read (form a) = some a) {m : OrderedMap String α} (hkeys : m.keys.Nodup) :
    OrderedMap.ofJson? read (m.toJson form) = some m := by
  have hfields (entries : List (String × α)) :
      Json.toFields? read (.record (entries.map fun e => (e.1, form e.2))) = some entries := by
    simp only [Json.toFields?, Json.record, List.map_map]
    induction entries with
    | nil => rfl
    | cons e entries ih =>
      rw [List.map_cons, List.mapM_cons, ih]
      simp [h]
  rw [OrderedMap.ofJson?, OrderedMap.toJson, hfields, Option.map_some, ofList_entries hkeys]

/-! ### Packages and schemas -/

namespace Package

theorem wellFormed_toJson (p : Package) : p.toJson.WellFormed := by
  refine .ofRecord fun field hfield => ?_
  rcases List.mem_cons.mp hfield with rfl | hfield
  · exact .ofText _
  · split at hfield
    · cases hfield
    · rw [List.mem_singleton.mp hfield]
      exact .ofTexts _

theorem ofJson?_toJson (p : Package) : ofJson? p.toJson = some p := by
  obtain ⟨name, options⟩ := p
  cases options with
  | nil => rfl
  | cons option options =>
    have hoptions := Json.toList?_texts (option :: options)
    simp [ofJson?, toJson, Json.record, fieldsOf, Json.field?, Json.required, withDefault, hoptions,
      toText?, Json.text]

end Package

namespace FileArgument

theorem wellFormed_toJson (f : FileArgument) : f.toJson.WellFormed := by
  refine .ofRecord fun field hfield => ?_
  simp only [List.mem_cons, List.not_mem_nil, or_false] at hfield
  rcases hfield with rfl | rfl
  · exact .ofTexts _
  · exact .ofText _

theorem ofJson?_toJson (f : FileArgument) : ofJson? f.toJson = some f := by
  have hextensions := Json.toList?_texts f.extensions
  simp [ofJson?, toJson, Json.record, fieldsOf, Json.field?, Json.required, hextensions, toText?,
    Json.text]

/-- The form of a file argument is nested two levels deep. -/
theorem isKept_toJson (levels : Nat) (f : FileArgument) :
    f.toJson.isKept (levels + 2) = true := by
  simp [toJson, Json.record, Json.isKept, Json.areKeptFields, Json.texts, Json.areKept_texts,
    Json.text]

end FileArgument

namespace Argument

theorem wellFormed_toJson (a : Argument) : a.toJson.WellFormed := by
  cases a with
  | optional name =>
    refine .ofRecord fun field hfield => ?_
    simp only [List.mem_cons, List.not_mem_nil, or_false] at hfield
    rcases hfield with rfl | rfl <;> exact .ofText _
  | required a =>
    obtain ⟨name, file, commaSeparated⟩ := a
    refine .ofRecord fun field hfield => ?_
    simp only [List.mem_append, List.mem_cons, List.not_mem_nil, or_false, Option.mem_toList,
      Option.map_eq_some_iff] at hfield
    rcases hfield with ((rfl | rfl) | ⟨f, -, rfl⟩) | rfl
    · exact .ofText _
    · exact .ofText _
    · exact f.wellFormed_toJson
    · exact .bool _

/-- Three levels are enough for an argument to be read back. -/
theorem ofJson?_toJson (levels : Nat) (a : Argument) :
    ofJson? (levels + 3) a.toJson = some a := by
  cases a with
  | optional name => rfl
  | required a =>
    obtain ⟨name, file, commaSeparated⟩ := a
    cases file with
    | none => rfl
    | some f =>
      have hkept := f.isKept_toJson levels
      have hfile : toOption? FileArgument.ofJson? (Json.ofOption FileArgument.toJson (some f)) =
          some (some f) :=
        Json.toOption?_ofOption FileArgument.ofJson?_toJson (fun _ => nofun) _
      rw [Json.ofOption] at hfile
      simp [ofJson?, toJson, Json.record, Json.isKept, Json.areKeptFields, hkept, splitKind?,
        fieldsOf, Json.field?, Json.required, withDefault, hfile, toText?, Json.text, Json.toBool?]

end Argument

namespace CommandSchema

theorem wellFormed_toJson (s : CommandSchema) : s.toJson.WellFormed := by
  refine .ofRecord fun field hfield => ?_
  simp only [List.mem_cons, List.not_mem_nil, or_false] at hfield
  rcases hfield with rfl | rfl | rfl
  · exact .ofText _
  · exact .arrayOf Argument.wellFormed_toJson _
  · exact .optional Package.wellFormed_toJson _

/-- Five levels are enough for a schema to be read back. -/
theorem ofJson?_toJson (levels : Nat) (s : CommandSchema) :
    ofJson? (levels + 5) s.toJson = some s := by
  have harguments : toList? (Argument.ofJson? (levels + 3)) (.array (s.arguments.map (·.toJson))) =
      some s.arguments := Json.toList?_array (Argument.ofJson?_toJson levels) _
  have hdependency : toOption? Package.ofJson? (Json.ofOption Package.toJson s.dependency) =
      some s.dependency := Json.toOption?_ofOption Package.ofJson?_toJson (fun _ => nofun) _
  simp [ofJson?, toJson, Json.record, fieldsOf, Json.field?, Json.required, withDefault, harguments,
    hdependency, toText?, Json.text]

end CommandSchema

namespace EnvironmentSchema

theorem wellFormed_toJson (s : EnvironmentSchema) : s.toJson.WellFormed := by
  refine .ofRecord fun field hfield => ?_
  simp only [List.mem_cons, List.not_mem_nil, or_false] at hfield
  rcases hfield with rfl | rfl
  · exact .ofText _
  · exact .optional Package.wellFormed_toJson _

theorem ofJson?_toJson (s : EnvironmentSchema) : ofJson? s.toJson = some s := by
  have hdependency : toOption? Package.ofJson? (Json.ofOption Package.toJson s.dependency) =
      some s.dependency := Json.toOption?_ofOption Package.ofJson?_toJson (fun _ => nofun) _
  simp [ofJson?, toJson, Json.record, fieldsOf, Json.field?, Json.required, withDefault,
    hdependency, toText?, Json.text]

end EnvironmentSchema

/-! ### Catalogues and graphs -/

namespace CatalogueEntries

theorem wellFormed_toJson (e : CatalogueEntries) : e.toJson.WellFormed := by
  refine .ofRecord fun field hfield => ?_
  simp only [List.mem_cons, List.not_mem_nil, or_false] at hfield
  rcases hfield with rfl | rfl
  · exact .arrayOf CommandSchema.wellFormed_toJson _
  · exact .arrayOf EnvironmentSchema.wellFormed_toJson _

theorem ofJson?_toJson (e : CatalogueEntries) : ofJson? e.toJson = some e := by
  have hcommands : toList? (CommandSchema.ofJson? (maxJsonLevels - 2))
      (.array (e.commands.map (·.toJson))) = some e.commands :=
    Json.toList?_array (CommandSchema.ofJson?_toJson 120) _
  have henvironments : toList? EnvironmentSchema.ofJson?
      (.array (e.environments.map (·.toJson))) = some e.environments :=
    Json.toList?_array EnvironmentSchema.ofJson?_toJson _
  simp [ofJson?, toJson, Json.record, fieldsOf, Json.field?, withDefault, hcommands, henvironments]

/-- The entries of a catalogue come back from their text. -/
theorem readAs?_write (e : CatalogueEntries) (l : Json.Layout) :
    Json.readAs? ofJson? (e.toJson.write l) = some e := by
  rw [Json.readAs?, Json.read?_write e.wellFormed_toJson, Option.bind_some, ofJson?_toJson]

end CatalogueEntries

namespace LoadEntries

theorem wellFormed_toJson (e : LoadEntries) : e.toJson.WellFormed := by
  refine .ofRecord fun field hfield => ?_
  simp only [List.mem_cons, List.not_mem_nil, or_false] at hfield
  rcases hfield with rfl | rfl
  · refine .ofRecord fun field hfield => ?_
    obtain ⟨entry, -, rfl⟩ := List.mem_map.mp hfield
    exact .ofTexts _
  · exact .arrayOf .ofTexts _

theorem ofJson?_toJson {e : LoadEntries} (h : e.loads.keys.Nodup) :
    ofJson? e.toJson = some e := by
  have hloads : OrderedMap.ofJson? (toList? toText?) (e.loads.toJson Json.texts) = some e.loads :=
    OrderedMap.ofJson?_toJson Json.toList?_texts h
  have hconflicts : toList? (toList? toText?) (.array (e.conflicts.map Json.texts)) =
      some e.conflicts := Json.toList?_array Json.toList?_texts _
  simp [ofJson?, toJson, Json.record, fieldsOf, Json.field?, withDefault, hloads, hconflicts]

/-- The entries of a graph come back from their text if each package has one entry. -/
theorem readAs?_write {e : LoadEntries} (h : e.loads.keys.Nodup) (l : Json.Layout) :
    Json.readAs? ofJson? (e.toJson.write l) = some e := by
  rw [Json.readAs?, Json.read?_write e.wellFormed_toJson, Option.bind_some, ofJson?_toJson h]

end LoadEntries

/-! ### The index of installed packages -/

namespace PackageContents

theorem wellFormed_toJson (c : PackageContents) : c.toJson.WellFormed := by
  refine .ofRecord fun field hfield => ?_
  simp only [List.mem_cons, List.not_mem_nil, or_false] at hfield
  rcases hfield with rfl | rfl | rfl <;> exact .ofTexts _

theorem ofJson?_toJson (c : PackageContents) : ofJson? c.toJson = some c := by
  have hcommands := Json.toList?_texts c.commands
  have henvironments := Json.toList?_texts c.environments
  have hrequires := Json.toList?_texts c.requires
  simp [ofJson?, toJson, Json.record, fieldsOf, Json.field?, Json.required, withDefault, hcommands,
    henvironments, hrequires]

end PackageContents

namespace PackageIndex

theorem wellFormed_toJson (i : PackageIndex) : i.toJson.WellFormed := by
  refine .ofRecord fun field hfield => ?_
  rw [List.mem_singleton.mp hfield]
  refine .ofRecord fun field hfield => ?_
  obtain ⟨entry, -, rfl⟩ := List.mem_map.mp hfield
  exact entry.2.wellFormed_toJson

theorem ofJson?_toJson {i : PackageIndex} (h : i.packages.keys.Nodup) :
    ofJson? i.toJson = some i := by
  have hpackages : OrderedMap.ofJson? PackageContents.ofJson?
      (i.packages.toJson PackageContents.toJson) = some i.packages :=
    OrderedMap.ofJson?_toJson PackageContents.ofJson?_toJson h
  simp [ofJson?, toJson, Json.record, fieldsOf, Json.field?, Json.required, hpackages]

/-- An index comes back from its text if each package is in it once. -/
theorem readAs?_write {i : PackageIndex} (h : i.packages.keys.Nodup) (l : Json.Layout) :
    Json.readAs? ofJson? (i.toJson.write l) = some i := by
  rw [Json.readAs?, Json.read?_write i.wellFormed_toJson, Option.bind_some, ofJson?_toJson h]

end PackageIndex

end TexLint
