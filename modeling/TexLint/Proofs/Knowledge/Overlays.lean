import TexLint.Proofs.Knowledge.Format
import TexLint.Proofs.Knowledge.LoadClosure
import TexLint.Proofs.Knowledge.Schemas

/-!
# What is added twice

Adding what is known already changes nothing. So an overlay can be added again, and a graph
that is saved and loaded is the one that was saved.

## The model

* `LoadGraph.HasConflict` says that a group of packages adds no conflict, since it has fewer
  than two members or is known in some order.
* `LoadGraph.Tidy` says what every graph keeps to: no loader, load or conflict stands twice,
  and nothing stands there that is not worth an entry.

## What is proved

* `LoadGraph.merge_merge`: entries that are added to a graph a second time change nothing.
* `LoadGraph.Built.merge_toEntries`: the entries of a graph make the graph again.
* `Catalogue.merge_merge`: entries that are added to a catalogue a second time change nothing,
  and the same schema is refused, if any.
* `reload_and_overlays`: the same of texts.
-/

namespace TexLint

namespace LoadGraph

/-! ### Graphs: entries that are known -/

/-- A group that adds no conflict. -/
def HasConflict (g : LoadGraph) (group : List String) : Prop :=
  (distinct group).length ≤ 1 ∨ ∃ known ∈ g.conflicts, sameMembers (distinct group) known = true

theorem sameMembers_refl (group : List String) : sameMembers group group = true := by
  unfold sameMembers
  rw [Bool.and_eq_true, List.all_eq_true]
  exact ⟨beq_self_eq_true _, fun _ h => List.contains_iff_mem.mpr h⟩

/-- A group is added if it has two members and is not known. -/
theorem addConflict_cases (g : LoadGraph) (group : List String) :
    g.HasConflict group ∧ g.addConflict group = g ∨
      1 < (distinct group).length ∧
      (∀ known ∈ g.conflicts, sameMembers (distinct group) known = false) ∧
      g.addConflict group = { g with conflicts := g.conflicts ++ [distinct group] } := by
  unfold addConflict HasConflict
  simp only [Bool.and_eq_true, decide_eq_true_eq, Bool.not_eq_true', List.any_eq_false]
  split
  · next h => exact .inr ⟨h.1, fun known hknown => by simpa using h.2 known hknown, rfl⟩
  · next h =>
    refine .inl ⟨?_, rfl⟩
    by_cases hlength : 1 < (distinct group).length
    · exact .inr (by simpa [hlength] using h)
    · exact .inl (Nat.not_lt.mp hlength)

variable {g : LoadGraph} {group : List String}

theorem addConflict_of_hasConflict (h : g.HasConflict group) : g.addConflict group = g := by
  rcases g.addConflict_cases group with ⟨-, heq⟩ | ⟨hlength, hnew, -⟩
  · exact heq
  · rcases h with hle | ⟨known, hknown, hsame⟩
    · omega
    · rw [hnew known hknown] at hsame
      cases hsame

theorem hasConflict_addConflict (g : LoadGraph) (group : List String) :
    (g.addConflict group).HasConflict group := by
  rcases g.addConflict_cases group with ⟨h, heq⟩ | ⟨-, -, heq⟩
  · rw [heq]
    exact h
  · rw [heq]
    exact .inr ⟨_, List.mem_append_right _ (List.mem_singleton.mpr rfl), sameMembers_refl _⟩

theorem HasConflict.addConflict (h : g.HasConflict group) (group' : List String) :
    (g.addConflict group').HasConflict group := by
  rcases g.addConflict_cases group' with ⟨-, heq⟩ | ⟨-, -, heq⟩
  · rw [heq]
    exact h
  · rw [heq]
    exact h.imp_right fun ⟨known, hknown, hsame⟩ => ⟨known, List.mem_append_left _ hknown, hsame⟩

theorem hasConflict_foldl_addConflict {groups : List (List String)} (h : group ∈ groups) :
    (groups.foldl LoadGraph.addConflict g).HasConflict group := by
  induction groups generalizing g with
  | nil => cases h
  | cons group' groups ih =>
    rw [List.foldl_cons]
    rcases List.mem_cons.mp h with rfl | h
    · exact List.foldlRecOn groups _ (motive := fun g => HasConflict g group)
        (hasConflict_addConflict g group) fun _ hb group' _ => hb.addConflict group'
    · exact ih h

theorem addLoads_of_loads {entry : String × List String}
    (h : ∀ package ∈ entry.2, g.Loads entry.1 package) : g.addLoads entry = g :=
  foldl_of_fixed fun package hpackage => addLoad_of_loads (h package hpackage)

/-- Entries that are known add nothing. -/
theorem merge_eq_self {e : LoadEntries} (hloads : ∀ pair ∈ e.pairs, g.Loads pair.1 pair.2)
    (hconflicts : ∀ group ∈ e.conflicts, g.HasConflict group) : g.merge e = g := by
  have hfold : e.loads.entries.foldl addLoads g = g := by
    refine foldl_of_fixed fun entry hentry => addLoads_of_loads ?_
    intro package hpackage
    exact hloads (entry.1, package) <|
      List.mem_flatMap.mpr ⟨entry, hentry, List.mem_map_of_mem hpackage⟩
  rw [merge, hfold]
  exact foldl_of_fixed fun group hgroup => addConflict_of_hasConflict (hconflicts group hgroup)

/-- Entries that are added a second time change nothing. -/
theorem merge_merge (g : LoadGraph) (e : LoadEntries) : (g.merge e).merge e = g.merge e :=
  merge_eq_self (fun _ hpair => loads_merge.mpr (.inr hpair)) fun _ hgroup =>
    hasConflict_foldl_addConflict hgroup

/-! ### Graphs: what every graph keeps to -/

/-- What holds of a graph as a whole. -/
structure Tidy (g : LoadGraph) : Prop where
  /-- Each loader has one entry. -/
  nodup_keys : g.loads.keys.Nodup
  /-- It loads something, and no package twice. -/
  loads : ∀ loader packages, g.loads.get? loader = some packages → packages ≠ [] ∧ packages.Nodup
  /-- The members of a conflict differ, and there are at least two. -/
  conflicts : ∀ group ∈ g.conflicts, group.Nodup ∧ 1 < group.length
  /-- No conflict is there in another order before. -/
  differ : g.conflicts.Pairwise fun known group => sameMembers group known = false

theorem tidy_empty : Tidy .empty := by
  refine ⟨List.nodup_nil, ?_, ?_, .nil⟩
  · intro loader packages h
    cases h
  · intro group h
    cases h

theorem Tidy.addLoad (h : g.Tidy) (loader package : String) :
    (g.addLoad loader package).Tidy where
  nodup_keys := by
    rw [addLoad_loads, OrderedMap.keys_insert]
    exact nodup_addNew h.nodup_keys
  loads := by
    intro loader' packages hget
    rw [addLoad_loads, OrderedMap.get?_insert] at hget
    split at hget
    · cases hget
      refine ⟨List.ne_nil_of_mem (mem_addNew.mpr (.inr rfl)), nodup_addNew ?_⟩
      rw [directLoads]
      cases hknown : g.loads.get? loader with
      | none => exact List.nodup_nil
      | some packages => exact (h.loads loader packages hknown).2
    · exact h.loads loader' packages hget
  conflicts := by simpa using h.conflicts
  differ := by simpa using h.differ

theorem Tidy.addConflict (h : g.Tidy) (group : List String) : (g.addConflict group).Tidy := by
  rcases g.addConflict_cases group with ⟨-, heq⟩ | ⟨hlength, hnew, heq⟩
  · rw [heq]
    exact h
  · rw [heq]
    refine ⟨h.nodup_keys, h.loads, ?_, ?_⟩
    · intro group' hgroup'
      rcases List.mem_append.mp hgroup' with hgroup' | hgroup'
      · exact h.conflicts group' hgroup'
      · rw [List.mem_singleton.mp hgroup']
        exact ⟨nodup_distinct group, hlength⟩
    · refine List.pairwise_append.mpr ⟨h.differ, List.pairwise_singleton _ _, ?_⟩
      intro known hknown group' hgroup'
      rw [List.mem_singleton.mp hgroup']
      exact hnew known hknown

theorem Built.tidy (h : g.Built) : g.Tidy :=
  h.invariant (P := Tidy) (fun _ loader package h => h.addLoad loader package)
    (fun _ group h => h.addConflict group) tidy_empty

/-! ### Graphs: the entries of a graph -/

theorem loads_addLoads_cons (packages : List String) (g : LoadGraph) (loader package : String) :
    (g.addLoads (loader, package :: packages)).loads =
      g.loads.insert loader ((package :: packages).foldl addNew (g.directLoads loader)) := by
  induction packages generalizing g package with
  | nil => exact g.addLoad_loads loader package
  | cons package' packages ih =>
    have hstep : g.addLoads (loader, package :: package' :: packages) =
        (g.addLoad loader package).addLoads (loader, package' :: packages) := rfl
    rw [hstep, ih, addLoad_loads, OrderedMap.insert_insert]
    simp [directLoads]

/-- The loads of a package that loads nothing yet get an entry at the end. -/
theorem loads_addLoads_of_notMem {entry : String × List String} (hne : entry.2 ≠ [])
    (hnodup : entry.2.Nodup) (hnew : entry.1 ∉ g.loads.keys) :
    (g.addLoads entry).loads = ⟨g.loads.entries ++ [entry]⟩ := by
  obtain ⟨loader, packages⟩ := entry
  obtain ⟨package, packages, rfl⟩ := List.exists_cons_of_ne_nil hne
  have hnone : g.directLoads loader = [] := by
    rw [directLoads, OrderedMap.get?_eq_none_iff.mpr hnew]
    rfl
  rw [loads_addLoads_cons, hnone, foldl_addNew_of_nodup (by simpa using hnodup), List.nil_append,
    OrderedMap.insert_of_notMem hnew]

theorem loads_foldl_addLoads_of_nodup {entries : List (String × List String)}
    (hnodup : ((g.loads.entries ++ entries).map Prod.fst).Nodup)
    (hentries : ∀ e ∈ entries, e.2 ≠ [] ∧ e.2.Nodup) :
    (entries.foldl LoadGraph.addLoads g).loads = ⟨g.loads.entries ++ entries⟩ := by
  induction entries generalizing g with
  | nil => rw [List.foldl_nil, List.append_nil]
  | cons e entries ih =>
    obtain ⟨hne, he⟩ := hentries e List.mem_cons_self
    have hadd : (g.addLoads e).loads.entries = g.loads.entries ++ [e] := by
      rw [loads_addLoads_of_notMem hne he (OrderedMap.notMem_keys_of_nodup hnodup)]
    have hrest : ∀ f ∈ entries, f.2 ≠ [] ∧ f.2.Nodup := by
      intro f hf
      exact hentries f (List.mem_cons_of_mem _ hf)
    rw [List.append_cons, ← hadd] at hnodup ⊢
    rw [List.foldl_cons, ih hnodup hrest]

/-- A new group of packages that differ gets an entry at the end. -/
theorem conflicts_addConflict_of_new (hgroup : group.Nodup) (hlength : 1 < group.length)
    (hnew : ∀ known ∈ g.conflicts, sameMembers group known = false) :
    (g.addConflict group).conflicts = g.conflicts ++ [group] := by
  rcases g.addConflict_cases group with ⟨hknown, -⟩ | ⟨-, -, heq⟩
  · rw [HasConflict, distinct_of_nodup hgroup] at hknown
    rcases hknown with hle | ⟨known, hknown, hsame⟩
    · omega
    · rw [hnew known hknown] at hsame
      cases hsame
  · rw [heq, distinct_of_nodup hgroup]

theorem conflicts_foldl_addConflict {groups : List (List String)}
    (hdiffer : (g.conflicts ++ groups).Pairwise fun known group => sameMembers group known = false)
    (hgroups : ∀ group ∈ groups, group.Nodup ∧ 1 < group.length) :
    (groups.foldl LoadGraph.addConflict g).conflicts = g.conflicts ++ groups := by
  induction groups generalizing g with
  | nil => rw [List.foldl_nil, List.append_nil]
  | cons group groups ih =>
    obtain ⟨hgroup, hlength⟩ := hgroups group List.mem_cons_self
    have hnew : ∀ known ∈ g.conflicts, sameMembers group known = false := by
      intro known hknown
      exact (List.pairwise_append.mp hdiffer).2.2 known hknown group List.mem_cons_self
    have hadd := conflicts_addConflict_of_new hgroup hlength hnew
    have hrest : ∀ group' ∈ groups, group'.Nodup ∧ 1 < group'.length := by
      intro group' hgroup'
      exact hgroups group' (List.mem_cons_of_mem _ hgroup')
    rw [List.append_cons, ← hadd] at hdiffer ⊢
    rw [List.foldl_cons, ih hdiffer hrest]

theorem conflicts_addLoads (g : LoadGraph) (entry : String × List String) :
    (g.addLoads entry).conflicts = g.conflicts :=
  foldl_kept conflicts (fun g package => g.addLoad_conflicts entry.1 package) _ g

theorem conflicts_foldl_addLoads (g : LoadGraph) (entries : List (String × List String)) :
    (entries.foldl LoadGraph.addLoads g).conflicts = g.conflicts :=
  foldl_kept conflicts conflicts_addLoads entries g

theorem foldl_addConflict_loads (g : LoadGraph) (groups : List (List String)) :
    (groups.foldl LoadGraph.addConflict g).loads = g.loads :=
  foldl_kept loads addConflict_loads groups g

/-- The entries of a graph make the graph again, and the closure that has no entries of its own. -/
theorem Built.merge_toEntries (h : g.Built) : LoadGraph.empty.merge g.toEntries = g := by
  have hsync : (LoadGraph.empty.merge g.toEntries).InSync :=
    (Built.change (.entries g.toEntries) .empty).inSync
  refine hsync.ext h.inSync ?_ ?_
  · have hentries : ∀ e ∈ g.loads.entries, e.2 ≠ [] ∧ e.2.Nodup := by
      intro e he
      exact h.tidy.loads e.1 e.2 (OrderedMap.get?_eq_some_of_mem h.tidy.nodup_keys he)
    rw [LoadGraph.merge, foldl_addConflict_loads]
    exact loads_foldl_addLoads_of_nodup (g := LoadGraph.empty) h.tidy.nodup_keys hentries
  · have hnone : (g.loads.entries.foldl LoadGraph.addLoads LoadGraph.empty).conflicts = [] :=
      conflicts_foldl_addLoads _ _
    have hdiffer := h.tidy.differ
    rw [← List.nil_append g.conflicts, ← hnone] at hdiffer
    have hconflicts := conflicts_foldl_addConflict hdiffer h.tidy.conflicts
    rwa [hnone] at hconflicts

end LoadGraph

/-! ### Catalogues: schemas that are known -/

namespace Catalogue

variable {c c' d : Catalogue} {schema : CommandSchema}

theorem registerCommand_of_mem (hvalid : schema.argumentWithoutExtensions = none)
    (h : schema.registered ∈ c.commandSchemas schema.command) :
    c.registerCommand schema = .ok c := by
  obtain ⟨schemas, hget, -⟩ := exists_get?_of_mem_commandSchemas h
  have hknown : c.commandSchemas schema.command = schemas := by
    rw [commandSchemas, hget]
    rfl
  refine registerCommand_eq_ok_iff.mpr ⟨hvalid, ?_⟩
  rw [addNew_of_mem h, hknown, CommandSchema.registered, OrderedMap.insert_of_get? hget]

theorem subset_registerCommands (schemas : List CommandSchema) (c : Catalogue) (name : String) :
    c.commandSchemas name ⊆ (c.registerCommands schemas).1.commandSchemas name := by
  induction schemas generalizing c with
  | nil => exact List.Subset.refl _
  | cons schema schemas ih =>
    rw [registerCommands]
    split
    · next hc => exact List.Subset.trans (prefix_registerCommand hc name).subset (ih _)
    · exact List.Subset.refl _

/-- A catalogue that knows what registering schemas has added to another one gets nothing new
from them, and refuses the same schema. -/
theorem registerCommands_of_subset {schemas : List CommandSchema}
    (h : ∀ name, (c.registerCommands schemas).1.commandSchemas name ⊆ d.commandSchemas name) :
    d.registerCommands schemas = (d, (c.registerCommands schemas).2) := by
  induction schemas generalizing c with
  | nil => rfl
  | cons schema schemas ih =>
    rw [registerCommands] at h ⊢
    rw [registerCommands]
    cases hc : c.registerCommand schema with
    | error e =>
      have hd : d.registerCommand schema = .error e := by
        rw [registerCommand] at hc ⊢
        cases hargument : schema.argumentWithoutExtensions with
        | none => simp [hargument] at hc
        | some argument => simpa [hargument] using hc
      simp only [hd]
    | ok c' =>
      simp only [hc] at h
      have hmem : schema.registered ∈ d.commandSchemas schema.command :=
        h _ (subset_registerCommands schemas c' _ (mem_commandSchemas_registerCommand hc))
      simp only [registerCommand_of_mem (registerCommand_eq_ok_iff.mp hc).1 hmem]
      exact ih h

/-- Entries that are added a second time change nothing, and the same schema is refused. -/
theorem merge_merge (c : Catalogue) (e : CatalogueEntries) :
    (c.merge e).1.merge e = c.merge e := by
  cases hc : c.registerCommands e.commands with
  | mk c' refused =>
    have hcommands (d : Catalogue) (hd : d.commands = c'.commands) :
        d.registerCommands e.commands = (d, refused) := by
      have hsubset : ∀ name, (c.registerCommands e.commands).1.commandSchemas name ⊆
          d.commandSchemas name := by
        intro name
        rw [hc, commandSchemas, commandSchemas, hd]
        exact List.Subset.refl _
      rw [registerCommands_of_subset hsubset, hc]
    cases refused with
    | some refused =>
      have hmerge : c.merge e = (c', some refused) := by rw [merge, hc]
      rw [hmerge, merge, hcommands c' rfl]
    | none =>
      have hmerge : c.merge e = (e.environments.foldl registerEnvironment c', none) := by
        rw [merge, hc]
      have hcommands := hcommands (e.environments.foldl registerEnvironment c')
        (by rw [foldl_registerEnvironment])
      rw [hmerge, merge, hcommands]
      simp only [foldl_registerEnvironment, OrderedMap.extend_extend]

end Catalogue

/-! ### Texts -/

/-- A graph that is saved, in whatever layout, and loaded is the one that was saved, with the
same loads and conflicts in the same order and the same closure, which is not saved but found
anew, and adding its own entries to it changes nothing.
An overlay that is added a second time, to a graph or to a catalogue, leaves what adding it once
has left; where a schema of it is refused or it cannot be read, this happens again. -/
theorem reload_and_overlays {g : LoadGraph} (h : g.Built) (l : Json.Layout) :
    LoadGraph.ofText? (g.toEntries.toJson.write l) = some g ∧
    g.merge g.toEntries = g ∧
    (∀ (g : LoadGraph) (text : Text),
      (g.mergeText? text).bind (·.mergeText? text) = g.mergeText? text) ∧
    ∀ (c : Catalogue) (text : Text), (c.mergeText text).1.mergeText text = c.mergeText text := by
  have hentries := h.merge_toEntries
  refine ⟨?_, ?_, ?_, ?_⟩
  · rw [LoadGraph.ofText?, LoadGraph.mergeText?, LoadEntries.readAs?_write h.tidy.nodup_keys,
      Option.map_some, hentries]
  · have hmerge := LoadGraph.merge_merge .empty g.toEntries
    rwa [hentries] at hmerge
  · intro g text
    unfold LoadGraph.mergeText?
    cases Json.readAs? LoadEntries.ofJson? text with
    | none => rfl
    | some e => simp [LoadGraph.merge_merge]
  · intro c text
    unfold Catalogue.mergeText
    cases Json.readAs? CatalogueEntries.ofJson? text with
    | none => rfl
    | some e => simp [Catalogue.merge_merge]

/-- A graph in which a conflict was added with one member repeated. -/
theorem reload_and_overlays_repeated :
    let g := (LoadChange.conflict ["a", "c", "a"]).apply ((LoadChange.load "a" "b").apply .empty)
    g.Built ∧ g.toEntries.conflicts = [["a", "c"]] ∧
      LoadGraph.ofText? (g.toEntries.toJson.write .indented) = some g := by
  intro g
  have hg : g.Built := .change (.conflict ["a", "c", "a"]) (.change (.load "a" "b") .empty)
  exact ⟨hg, by decide +kernel, (reload_and_overlays hg .indented).1⟩

end TexLint
