import Mathlib.Algebra.Order.BigOperators.Group.List
import Mathlib.Algebra.Order.Group.Nat
import TexLint.Proofs.Knowledge.Format
import TexLint.Proofs.Knowledge.Schemas

/-!
# Saving a catalogue and loading it

A catalogue is saved as a list of its schemas. It is loaded by registering them one after
the other, and registering takes a backslash off a name that has none left.

## The model

* The text that is saved may have any layout (`Json.Layout`).

## What is proved

* `Catalogue.registerCommands_of_valid`: what registering a list of schemas does to the names
  and to the schemas of each name.
* `Catalogue.Consistent.ofText_write`: a saved catalogue can be loaded. The environments come
  back as they were, the schemas of a command under its name without one more backslash.
* `Catalogue.reload_eq_iff`: the loaded catalogue is the saved one, or at least has the same
  schemas under each name, if and only if no name that is known begins with a backslash.
-/

namespace TexLint

/-- The backslash of a command is taken off. -/
theorem withoutBackslash_append (name : String) : withoutBackslash ("\\" ++ name) = name := by
  have hlist : ("\\" ++ name).toList = '\\' :: name.toList := String.toList_append
  simp only [withoutBackslash, hlist, String.ofList_toList]

theorem length_withoutBackslash_lt {name : String} (h : withoutBackslash name ≠ name) :
    (withoutBackslash name).length < name.length := by
  unfold withoutBackslash at h ⊢
  split at h
  · next rest hname =>
    rw [← String.length_toList (s := name), hname, String.length_ofList]
    exact Nat.lt_succ_self _
  · exact absurd rfl h

/-- Where taking off the backslashes leaves the same names, there were none. -/
theorem withoutBackslash_eq_of_perm {names : List String}
    (h : (names.map withoutBackslash).Perm names) :
    ∀ name ∈ names, withoutBackslash name = name := by
  by_contra hsome
  simp only [not_forall] at hsome
  obtain ⟨name, hname, hne⟩ := hsome
  have hle : ∀ name ∈ names, (withoutBackslash name).length ≤ name.length := by
    intro name _
    by_cases heq : withoutBackslash name = name
    · rw [heq]
    · exact (length_withoutBackslash_lt heq).le
  have hlt := List.sum_lt_sum _ _ hle ⟨name, hname, length_withoutBackslash_lt hne⟩
  have hsum := (h.map String.length).sum_eq
  rw [List.map_map] at hsum
  exact absurd hsum hlt.ne

namespace Catalogue

variable {c c' : Catalogue}

/-! ### The schemas of a catalogue as a list -/

/-- The schemas of a command are those among all schemas that describe it. -/
theorem Consistent.filter_commands (h : c.Consistent) (name : String) :
    c.toEntries.commands.filter (·.command == name) = (c.commands.get? name).getD [] := by
  have hentries : ∀ e ∈ c.commands.entries, ∀ s ∈ e.2, s.command = e.1 := by
    intro e he
    exact (h.schemasOf_of_mem he).command_eq
  have hnodup := h.nodup_commands
  unfold toEntries OrderedMap.get?
  unfold OrderedMap.keys at hnodup
  generalize c.commands.entries = entries at hentries hnodup
  induction entries with
  | nil => rfl
  | cons e rest ih =>
    obtain ⟨key, schemas⟩ := e
    obtain ⟨hkey, hrest⟩ := List.nodup_cons.mp hnodup
    have hschemas := hentries _ List.mem_cons_self
    have ih := ih (fun e he => hentries e (List.mem_cons_of_mem _ he)) hrest
    rw [List.flatMap_cons, List.filter_append, ih, List.lookup_cons]
    by_cases hname : name = key
    · subst hname
      have hnone : rest.lookup name = none :=
        OrderedMap.get?_eq_none_iff (m := ⟨rest⟩).mpr hkey
      have hall : schemas.filter (·.command == name) = schemas :=
        List.filter_eq_self.mpr fun s hs => beq_iff_eq.mpr (hschemas s hs)
      simp [hnone, hall]
    · have hnil : schemas.filter (·.command == name) = [] := by
        refine List.filter_eq_nil_iff.mpr fun s hs => ?_
        rw [hschemas s hs, beq_iff_eq]
        exact Ne.symm hname
      have hne : (name == key) = false := beq_eq_false_iff_ne.mpr hname
      simp [hnil, hne]

/-- The commands of all schemas are the names in order. -/
theorem Consistent.distinct_map_commands (h : c.Consistent) (f : String → String) :
    distinct (c.toEntries.commands.map fun s => f s.command) =
      distinct (c.commands.keys.map f) := by
  have hentries : ∀ e ∈ c.commands.entries, e.2 ≠ [] ∧ ∀ s ∈ e.2, s.command = e.1 := by
    intro e he
    exact ⟨(h.schemasOf_of_mem he).ne_nil, (h.schemasOf_of_mem he).command_eq⟩
  unfold toEntries OrderedMap.keys distinct
  generalize c.commands.entries = entries at hentries
  generalize [] = acc
  induction entries generalizing acc with
  | nil => rfl
  | cons e rest ih =>
    obtain ⟨key, schemas⟩ := e
    obtain ⟨hne, hschemas⟩ := hentries _ List.mem_cons_self
    -- The schemas of one name add the name once.
    have hrun : (schemas.map fun s => f s.command).foldl addNew acc = addNew acc (f key) := by
      obtain ⟨s, schemas, rfl⟩ := List.exists_cons_of_ne_nil hne
      rw [List.map_cons, List.foldl_cons, hschemas s List.mem_cons_self]
      refine foldl_addNew_of_subset fun name hname => ?_
      obtain ⟨t, ht, rfl⟩ := List.mem_map.mp hname
      rw [hschemas t (List.mem_cons_of_mem _ ht)]
      exact mem_addNew.mpr (.inr rfl)
    simp only [List.flatMap_cons, List.map_append, List.foldl_append, hrun, List.map_cons,
      List.foldl_cons]
    exact ih (fun e he => hentries e (List.mem_cons_of_mem _ he)) _

theorem Consistent.valid_commands (h : c.Consistent) :
    ∀ s ∈ c.toEntries.commands, s.argumentWithoutExtensions = none := by
  intro s hs
  obtain ⟨e, he, hs⟩ := List.mem_flatMap.mp hs
  exact (h.schemasOf_of_mem he).valid s hs

/-- The environments are made again out of their schemas. -/
theorem Consistent.foldl_environments (h : c.Consistent) (hc' : c'.environments = .empty) :
    c.toEntries.environments.foldl Catalogue.registerEnvironment c' =
      ⟨c'.commands, c.environments⟩ := by
  have hentries : c.toEntries.environments.map (fun s => (s.name, s)) = c.environments.entries := by
    rw [toEntries, List.map_map]
    refine (List.map_congr_left fun e he => ?_).trans (List.map_id _)
    rw [Function.comp_apply, h.name_eq_of_mem he, id]
  rw [foldl_registerEnvironment, hc', hentries]
  exact congrArg _ (OrderedMap.ofList_entries h.nodup_environments)

/-! ### Loading -/

/-- Schemas that are accepted add their names in order, and each one is registered behind the
others of its name. -/
theorem registerCommands_of_valid {schemas : List CommandSchema}
    (h : ∀ s ∈ schemas, s.argumentWithoutExtensions = none) (c : Catalogue) :
    ∃ c', c.registerCommands schemas = (c', none) ∧ c'.environments = c.environments ∧
      c'.commands.keys = (schemas.map (·.registered.command)).foldl addNew c.commands.keys ∧
      ∀ name, c'.commandSchemas name = ((schemas.map CommandSchema.registered).filter
        (·.command == withoutBackslash name)).foldl addNew (c.commandSchemas name) := by
  induction schemas generalizing c with
  | nil => exact ⟨c, rfl, rfl, rfl, fun _ => rfl⟩
  | cons schema schemas ih =>
    obtain ⟨d, hd⟩ : ∃ d, c.registerCommand schema = .ok d :=
      ⟨_, registerCommand_eq_ok_iff.mpr ⟨h _ List.mem_cons_self, rfl⟩⟩
    have hadded := (registerCommand_eq_ok_iff.mp hd).2
    obtain ⟨c', hc', henvironments, hkeys, hfound⟩ :=
      ih (fun s hs => h s (List.mem_cons_of_mem _ hs)) d
    refine ⟨c', ?_, ?_, ?_, fun name => ?_⟩
    · rw [registerCommands, hd]
      exact hc'
    · rw [henvironments, hadded]
    · rw [hkeys, hadded, OrderedMap.keys_insert]
      rfl
    · rw [hfound, commandSchemas_registerCommand hd, List.map_cons, List.filter_cons]
      by_cases hname : withoutBackslash name = withoutBackslash schema.command
      · have hsame : c.commandSchemas schema.command = c.commandSchemas name := by
          rw [commandSchemas, commandSchemas, hname]
        simp [hname, hsame, CommandSchema.registered]
      · simp [hname, Ne.symm hname, CommandSchema.registered]

/-- A saved catalogue can be loaded. Its environments come back as they were, its commands
under their names without one more backslash. -/
theorem Consistent.ofText_write (h : c.Consistent) (l : Json.Layout) :
    ∃ c', ofText (c.toEntries.toJson.write l) = .ok c' ∧ c'.Consistent ∧
      c'.environments = c.environments ∧
      c'.commands.keys = distinct (c.commands.keys.map withoutBackslash) ∧
      ∀ name, c'.commandSchemas name = distinct ((c.toEntries.commands.map
        CommandSchema.registered).filter (·.command == withoutBackslash name)) := by
  obtain ⟨c', hc', henvironments, hkeys, hfound⟩ :=
    registerCommands_of_valid h.valid_commands .empty
  have hmerge : empty.merge c.toEntries = (⟨c'.commands, c.environments⟩, none) := by
    rw [Catalogue.merge, hc', ← h.foldl_environments henvironments]
  have hconsistent := consistent_empty.merge c.toEntries
  rw [hmerge] at hconsistent
  refine ⟨_, ?_, hconsistent, rfl, ?_, hfound⟩
  · rw [ofText, mergeText, CatalogueEntries.readAs?_write]
    simp only [hmerge, Option.map_none]
  · rw [hkeys]
    exact h.distinct_map_commands withoutBackslash

/-- Consistent catalogues with the same schemas under every name know the same names. -/
theorem Consistent.get?_eq (h : c.Consistent) (h' : c'.Consistent)
    (hfound : ∀ name, c'.commandSchemas name = c.commandSchemas name) (name : String) :
    c'.commands.get? name = c.commands.get? name := by
  have hname := hfound ("\\" ++ name)
  rw [Catalogue.commandSchemas, Catalogue.commandSchemas, withoutBackslash_append] at hname
  cases hget : c.commands.get? name with
  | none =>
    cases hget' : c'.commands.get? name with
    | none => rfl
    | some schemas =>
      rw [hget, hget'] at hname
      exact absurd hname (h'.commands _ _ hget').ne_nil
  | some schemas =>
    cases hget' : c'.commands.get? name with
    | none =>
      rw [hget, hget'] at hname
      exact absurd hname.symm (h.commands _ _ hget).ne_nil
    | some schemas' =>
      rw [hget, hget'] at hname
      exact congrArg some hname

/-- Where no name begins with a backslash, registering the schemas anew changes nothing about
them. -/
theorem Consistent.registered_commands (h : c.Consistent)
    (hnames : ∀ name ∈ c.commands.keys, withoutBackslash name = name) (name : String) :
    distinct ((c.toEntries.commands.map CommandSchema.registered).filter
      (·.command == withoutBackslash name)) = c.commandSchemas name := by
  have hsame : c.toEntries.commands.map CommandSchema.registered = c.toEntries.commands := by
    refine (List.map_congr_left fun s hs => ?_).trans (List.map_id _)
    obtain ⟨e, he, hs⟩ := List.mem_flatMap.mp hs
    have hcommand := (h.schemasOf_of_mem he).command_eq s hs
    rw [CommandSchema.registered, hcommand, hnames _ (List.mem_map_of_mem he), ← hcommand]
    rfl
  have hnodup : (c.commandSchemas name).Nodup := by
    rcases h.commandSchemas name with hnil | hschemas
    · rw [hnil]
      exact List.nodup_nil
    · exact hschemas.nodup
  rw [hsame, h.filter_commands]
  exact distinct_of_nodup hnodup

/-- A saved catalogue can be loaded, whatever the layout of its text. The environments come
back as they were. Each command comes back under its name without one leading backslash, with
the schemas of all names that become the same. So the loaded catalogue is the saved one, or at
least finds the same schemas under every name, exactly if no name that is known begins with a
backslash; the control symbol of the backslash does. -/
theorem reload_eq_iff (h : c.Built) (l : Json.Layout) :
    ∃ c', ofText (c.toEntries.toJson.write l) = .ok c' ∧
      c'.environments = c.environments ∧
      c'.commands.keys = distinct (c.commands.keys.map withoutBackslash) ∧
      (∀ name, c'.commandSchemas name = distinct ((c.toEntries.commands.map
        CommandSchema.registered).filter (·.command == withoutBackslash name))) ∧
      (c' = c ↔ ∀ name ∈ c.commands.keys, withoutBackslash name = name) ∧
      ((∀ name, c'.commandSchemas name = c.commandSchemas name) ↔
        ∀ name ∈ c.commands.keys, withoutBackslash name = name) := by
  have hc := h.consistent
  obtain ⟨c', htext, hc', henvironments, hkeys, hfound⟩ := hc.ofText_write l
  have hsame (hlookup : ∀ name, c'.commandSchemas name = c.commandSchemas name) :
      ∀ name ∈ c.commands.keys, withoutBackslash name = name := by
    have hget := hc.get?_eq hc' hlookup
    have hperm : c'.commands.keys.Perm c.commands.keys := by
      refine (List.perm_ext_iff_of_nodup hc'.nodup_commands hc.nodup_commands).mpr fun name => ?_
      rw [← not_iff_not, ← OrderedMap.get?_eq_none_iff, ← OrderedMap.get?_eq_none_iff, hget]
    rw [hkeys] at hperm
    -- No two names become the same, so the names without their backslashes are the names.
    rw [distinct_eq_of_length (by rw [hperm.length_eq, List.length_map])] at hperm
    exact withoutBackslash_eq_of_perm hperm
  have hreload (hnames : ∀ name ∈ c.commands.keys, withoutBackslash name = name) : c' = c := by
    have hlookup : ∀ name, c'.commandSchemas name = c.commandSchemas name := by
      intro name
      rw [hfound, hc.registered_commands hnames]
    have hmap : c.commands.keys.map withoutBackslash = c.commands.keys :=
      (List.map_congr_left hnames).trans (List.map_id _)
    rw [hmap, distinct_of_nodup hc.nodup_commands] at hkeys
    have hcommands : c'.commands = c.commands :=
      OrderedMap.ext_of_get? hc'.nodup_commands hkeys (hc.get?_eq hc' hlookup)
    obtain ⟨commands, environments⟩ := c
    exact congrArg₂ Catalogue.mk hcommands henvironments
  refine ⟨c', htext, henvironments, hkeys, hfound, ⟨?_, hreload⟩, hsame, ?_⟩
  · rintro rfl
    exact hsame fun _ => rfl
  · intro hnames name
    rw [hreload hnames]

/-- A catalogue in which `\\foo` has two schemas comes back as it was. -/
theorem reload_eq_of_foo :
    let foo : CommandSchema := ⟨"\\foo", [.required ⟨"file", some ⟨["tex"], "tex"⟩, true⟩], none⟩
    let foo' : CommandSchema := ⟨"foo", [], some (.named "a")⟩
    let c := (CatalogueChange.entries ⟨[foo, foo'], [⟨"bar", none⟩]⟩).apply .empty
    c.Built ∧ c.commandSchemas "foo" = [foo.registered, foo'] ∧
      ofText (c.toEntries.toJson.write .indented) = .ok c := by
  intro foo foo' c
  have hc : c.Built := .change (.entries ⟨[foo, foo'], [⟨"bar", none⟩]⟩) .empty
  obtain ⟨c', htext, -, -, -, heq, -⟩ := reload_eq_iff hc .indented
  refine ⟨hc, by decide +kernel, ?_⟩
  rw [htext, heq.mpr (by decide +kernel)]

/-- The backslash is a command of which the name begins with a backslash. After it has been
saved and loaded, its schema stands under the empty name. -/
theorem reload_ne_of_backslash :
    let c := (CatalogueChange.command ⟨"\\\\", [], none⟩).apply .empty
    c.Built ∧ c.commandSchemas "\\\\" = [⟨"\\", [], none⟩] ∧
      ∃ c', ofText (c.toEntries.toJson.write .compact) = .ok c' ∧
        c'.commandSchemas "\\\\" = [] ∧ c'.commands.keys = [""] := by
  intro c
  have hc : c.Built := .change (.command ⟨"\\\\", [], none⟩) .empty
  obtain ⟨c', htext, -, -, hkeys, hfound⟩ := hc.consistent.ofText_write .compact
  refine ⟨hc, by decide +kernel, c', htext, ?_, ?_⟩
  · rw [hfound]
    decide +kernel
  · rw [hkeys]
    decide +kernel

end Catalogue

end TexLint
