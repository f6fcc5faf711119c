import TexLint.Proofs.Knowledge.IndexOverlay
import TexLint.Proofs.Knowledge.Overlays

/-!
# An index adds and changes nothing else

What a catalogue or a graph knows stays as it is, at its place, when the index of installed
packages is added. What is new comes last.

## The model

* `OrderedMap.ExtendedBy` says that a map has become another one by bindings of new keys alone.

## What is proved

* `OrderedMap.ExtendedBy.trans`, `OrderedMap.exists_extendedBy_foldl`: steps that bind new keys
  alone do so together.
* `OrderedMap.ExtendedBy.mem_iff_of_get?_eq_or`: the new bindings, by what is found under a key.
* `Catalogue.addFound_of_known`, `LoadGraph.extendFromIndex_of_loads`: what is known is not added.
* `conservative_extendFromIndex`: what an index adds to a catalogue and to a graph, that it
  leaves the rest, and that it adds nothing a second time.
-/

namespace TexLint

/-! ### Maps -/

namespace OrderedMap

variable {κ ν σ β : Type} {m n o : OrderedMap κ ν} {new new' : List (κ × ν)} {k : κ} {v : ν}

/-- A map becomes another one by bindings of new keys, which come last. -/
structure ExtendedBy (m : OrderedMap κ ν) (new : List (κ × ν)) (n : OrderedMap κ ν) : Prop where
  /-- The bindings that were there keep their places and values. -/
  entries : n.entries = m.entries ++ new
  /-- The new keys were not bound. -/
  fresh : ∀ e ∈ new, e.1 ∉ m.keys
  /-- Each new key is bound once. -/
  nodup : (new.map Prod.fst).Nodup

namespace ExtendedBy

theorem refl (m : OrderedMap κ ν) : m.ExtendedBy [] m :=
  ⟨(List.append_nil _).symm, by simp, List.nodup_nil⟩

theorem keys (h : m.ExtendedBy new n) : n.keys = m.keys ++ new.map Prod.fst := by
  rw [OrderedMap.keys, h.entries, List.map_append, OrderedMap.keys]

theorem trans (h : m.ExtendedBy new n) (h' : n.ExtendedBy new' o) :
    m.ExtendedBy (new ++ new') o := by
  have hfresh : ∀ e ∈ new', e.1 ∉ m.keys ∧ e.1 ∉ new.map Prod.fst := by
    intro e he
    have hnew := h'.fresh e he
    rw [h.keys, List.mem_append, not_or] at hnew
    exact hnew
  refine ⟨?_, ?_, ?_⟩
  · rw [h'.entries, h.entries, List.append_assoc]
  · intro e he
    rcases List.mem_append.mp he with he | he
    · exact h.fresh e he
    · exact (hfresh e he).1
  · rw [List.map_append, List.nodup_append]
    refine ⟨h.nodup, h'.nodup, ?_⟩
    rintro key hkey _ hnew rfl
    obtain ⟨e, he, rfl⟩ := List.mem_map.mp hnew
    exact (hfresh e he).2 hkey

variable [BEq κ] [LawfulBEq κ]

/-- What is found under a key that was not bound is what was bound last. -/
theorem get?_of_notMem (h : m.ExtendedBy new n) (hk : k ∉ m.keys) :
    n.get? k = new.lookup k := by
  have hnone : m.entries.lookup k = none := get?_eq_none_iff.mpr hk
  rw [get?, h.entries, List.lookup_append, hnone, Option.none_or]

/-- The new bindings are those that are found under keys that were not bound. -/
theorem mem_iff (h : m.ExtendedBy new n) : (k, v) ∈ new ↔ k ∉ m.keys ∧ n.get? k = some v := by
  constructor
  · intro hmem
    have hk := h.fresh _ hmem
    have hlookup : (OrderedMap.mk new).get? k = some v := get?_eq_some_of_mem h.nodup hmem
    exact ⟨hk, (h.get?_of_notMem hk).trans hlookup⟩
  · rintro ⟨hk, hget⟩
    rw [h.get?_of_notMem hk] at hget
    exact mem_of_get? (m := ⟨new⟩) hget

/-- Where the keys that were not bound are found with what is given, the new bindings are these. -/
theorem mem_iff_of_get?_eq_or {α : Type} {given : Option α} {f : α → ν} (h : m.ExtendedBy new n)
    (hget : n.get? k = (m.get? k).or (given.map f)) :
    (k, v) ∈ new ↔ k ∉ m.keys ∧ ∃ a, given = some a ∧ v = f a := by
  rw [h.mem_iff, hget]
  refine and_congr_right fun hk => ?_
  rw [get?_eq_none_iff.mpr hk, Option.none_or, Option.map_eq_some_iff]
  exact exists_congr fun a => and_congr_right fun _ => eq_comm

end ExtendedBy

/-- Binding a key unless it is bound binds at most one new key. -/
theorem exists_extendedBy_ite_insert [BEq κ] [LawfulBEq κ] (m : OrderedMap κ ν) (k : κ) (v : ν) :
    ∃ new, m.ExtendedBy new (if m.contains k then m else m.insert k v) := by
  by_cases hknown : k ∈ m.keys
  · rw [if_pos (contains_iff.mpr hknown)]
    exact ⟨[], .refl m⟩
  · rw [if_neg (mt contains_iff.mp hknown), insert_of_notMem hknown]
    refine ⟨[(k, v)], rfl, ?_, List.pairwise_singleton _ _⟩
    intro e he
    rw [List.mem_singleton.mp he]
    exact hknown

/-- Where each step binds new keys alone, all of them do. -/
theorem exists_extendedBy_foldl (map : σ → OrderedMap κ ν) {step : σ → β → σ}
    (h : ∀ s b, ∃ new, (map s).ExtendedBy new (map (step s b))) (bs : List β) (s : σ) :
    ∃ new, (map s).ExtendedBy new (map (bs.foldl step s)) := by
  refine List.foldlRecOn bs step (motive := fun t => ∃ new, (map s).ExtendedBy new (map t))
    ⟨[], .refl _⟩ ?_
  rintro t ⟨new, hnew⟩ b _
  obtain ⟨new', hnew'⟩ := h t b
  exact ⟨new ++ new', hnew.trans hnew'⟩

end OrderedMap

/-! ### Catalogues -/

/-- A name that a package lists is found, whatever is found under names that are known. -/
theorem PackageIndex.isSome_or_firstListing {α : Type} {index : PackageIndex}
    {names : PackageContents → List String} {name : String} {found : String × PackageContents}
    (hfound : found ∈ index.packages.entries) (hname : name ∈ names found.2) (known : Option α)
    (new : String → α) : (known.or ((index.firstListing names name).map new)).isSome = true := by
  have hlisted : (index.firstListing names name).isSome = true := by
    rw [firstListing, Option.isSome_map, List.find?_isSome]
    exact ⟨found, hfound, List.contains_iff_mem.mpr hname⟩
  rw [Option.isSome_or, Option.isSome_map, hlisted, Bool.or_true]

namespace Catalogue

variable {c : Catalogue} {index : PackageIndex} {found : String × PackageContents} {name : String}

theorem exists_extendedBy_addFoundCommand (package : String) (c : Catalogue) (name : String) :
    ∃ new, c.commands.ExtendedBy new (c.addFoundCommand package name).commands := by
  rw [addFoundCommand, apply_ite Catalogue.commands]
  exact c.commands.exists_extendedBy_ite_insert name _

theorem exists_extendedBy_addFoundEnvironment (package : String) (c : Catalogue) (name : String) :
    ∃ new, c.environments.ExtendedBy new (c.addFoundEnvironment package name).environments := by
  rw [addFoundEnvironment, apply_ite Catalogue.environments]
  exact c.environments.exists_extendedBy_ite_insert name _

theorem exists_extendedBy_commands_extendFromIndex (c : Catalogue) (index : PackageIndex) :
    ∃ new, c.commands.ExtendedBy new (c.extendFromIndex index).commands := by
  refine OrderedMap.exists_extendedBy_foldl commands ?_ index.packages.entries c
  intro c found
  rw [addFound, commands_foldl_addFoundEnvironment]
  exact OrderedMap.exists_extendedBy_foldl commands
    (exists_extendedBy_addFoundCommand found.1) found.2.commands c

theorem exists_extendedBy_environments_extendFromIndex (c : Catalogue) (index : PackageIndex) :
    ∃ new, c.environments.ExtendedBy new (c.extendFromIndex index).environments := by
  refine OrderedMap.exists_extendedBy_foldl environments ?_ index.packages.entries c
  intro c found
  rw [addFound, ← environments_foldl_addFoundCommand found.1 found.2.commands c]
  exact OrderedMap.exists_extendedBy_foldl environments
    (exists_extendedBy_addFoundEnvironment found.1) found.2.environments _

/-- The commands that an index lists are known when it has been added. -/
theorem mem_commands_extendFromIndex (c : Catalogue) (hfound : found ∈ index.packages.entries)
    (hname : name ∈ found.2.commands) : name ∈ (c.extendFromIndex index).commands.keys := by
  refine OrderedMap.mem_keys_of_isSome_get? ?_
  rw [get?_commands_extendFromIndex]
  exact @PackageIndex.isSome_or_firstListing _ index (·.commands) name found hfound hname _ _

/-- The environments that an index lists are known when it has been added. -/
theorem mem_environments_extendFromIndex (c : Catalogue) (hfound : found ∈ index.packages.entries)
    (hname : name ∈ found.2.environments) : name ∈ (c.extendFromIndex index).environments.keys := by
  refine OrderedMap.mem_keys_of_isSome_get? ?_
  rw [get?_environments_extendFromIndex]
  exact @PackageIndex.isSome_or_firstListing _ index (·.environments) name found hfound hname _ _

/-- A package that lists only known names adds nothing. -/
theorem addFound_of_known (hcommands : ∀ name ∈ found.2.commands, name ∈ c.commands.keys)
    (henvironments : ∀ name ∈ found.2.environments, name ∈ c.environments.keys) :
    c.addFound found = c := by
  have hfold : found.2.commands.foldl (addFoundCommand found.1) c = c := by
    refine foldl_of_fixed ?_
    intro name hname
    exact if_pos (OrderedMap.contains_iff.mpr (hcommands name hname))
  rw [addFound, hfold]
  refine foldl_of_fixed ?_
  intro name hname
  exact if_pos (OrderedMap.contains_iff.mpr (henvironments name hname))

/-- An index that is added a second time adds nothing. -/
theorem extendFromIndex_extendFromIndex (c : Catalogue) (index : PackageIndex) :
    (c.extendFromIndex index).extendFromIndex index = c.extendFromIndex index := by
  refine foldl_of_fixed ?_
  intro found hfound
  refine addFound_of_known ?_ ?_
  · intro name hname
    exact mem_commands_extendFromIndex c hfound hname
  · intro name hname
    exact mem_environments_extendFromIndex c hfound hname

end Catalogue

/-! ### Graphs -/

namespace LoadGraph

variable {g : LoadGraph}

/-- The direct loads of every package stay in front, in their order. -/
theorem prefix_directLoads_addLoad (g : LoadGraph) (loader package a : String) :
    g.directLoads a <+: (g.addLoad loader package).directLoads a := by
  rw [directLoads, directLoads, addLoad_loads, OrderedMap.get?_insert]
  by_cases ha : a = loader
  · subst ha
    simpa [directLoads] using prefix_addNew (g.directLoads a) package
  · simp [ha]

theorem prefix_directLoads_addLoads (g : LoadGraph) (entry : String × List String) (a : String) :
    g.directLoads a <+: (g.addLoads entry).directLoads a :=
  List.foldlRecOn _ _ (motive := fun h : LoadGraph => g.directLoads a <+: h.directLoads a)
    List.prefix_rfl fun h hg package _ =>
      hg.trans (prefix_directLoads_addLoad h entry.1 package a)

theorem prefix_directLoads_extendFromIndex (g : LoadGraph) (index : PackageIndex) (a : String) :
    g.directLoads a <+: (g.extendFromIndex index).directLoads a :=
  List.foldlRecOn _ _ (motive := fun h : LoadGraph => g.directLoads a <+: h.directLoads a)
    List.prefix_rfl fun h hg _ _ => hg.trans (prefix_directLoads_addLoads h _ a)

theorem conflicts_extendFromIndex (g : LoadGraph) (index : PackageIndex) :
    (g.extendFromIndex index).conflicts = g.conflicts :=
  foldl_kept conflicts (fun g _ => conflicts_addLoads g _) _ g

/-- What an index loads, package by package. -/
theorem mem_loads_index_iff {index : PackageIndex} {a b : String} :
    (a, b) ∈ (LoadChange.index index).loads ↔
      b ≠ a ∧ ∃ contents, (a, contents) ∈ index.packages.entries ∧ b ∈ contents.requires := by
  simp only [LoadChange.loads, List.mem_flatMap, List.mem_map, List.mem_filter, bne_iff_ne]
  constructor
  · rintro ⟨⟨_, contents⟩, hentry, package, ⟨hpackage, hne⟩, hpair⟩
    cases hpair
    exact ⟨hne, contents, hentry, hpackage⟩
  · rintro ⟨hne, contents, hentry, hb⟩
    exact ⟨(a, contents), hentry, b, ⟨hb, hne⟩, rfl⟩

/-- An index that lists only known loads adds nothing. -/
theorem extendFromIndex_of_loads {index : PackageIndex}
    (h : ∀ pair ∈ (LoadChange.index index).loads, g.Loads pair.1 pair.2) :
    g.extendFromIndex index = g := by
  refine foldl_of_fixed fun found hfound => addLoads_of_loads ?_
  intro package hpackage
  exact h (found.1, package) <|
    List.mem_flatMap.mpr ⟨found, hfound, List.mem_map_of_mem hpackage⟩

end LoadGraph

/-! ### Both -/

/-- An index is an overlay that keeps what is there. In a catalogue every known command and
environment keeps its place and its schemas; the names that are new are those that the index
lists and the catalogue does not know, each bound once, to one schema without arguments of the
first package that lists the name. In a graph the loads of every package stay, in their order,
and the conflicts; a load is new if a listed package requires it and is another one. Adding the
index again changes neither of them. -/
theorem conservative_extendFromIndex (c : Catalogue) (g : LoadGraph) (index : PackageIndex) :
    (∃ new, c.commands.ExtendedBy new (c.extendFromIndex index).commands ∧
      ∀ name schemas, (name, schemas) ∈ new ↔ name ∉ c.commands.keys ∧
        ∃ package, index.firstListing (·.commands) name = some package ∧
          schemas = [⟨name, [], some (.named package)⟩]) ∧
    (∃ new, c.environments.ExtendedBy new (c.extendFromIndex index).environments ∧
      ∀ name schema, (name, schema) ∈ new ↔ name ∉ c.environments.keys ∧
        ∃ package, index.firstListing (·.environments) name = some package ∧
          schema = ⟨name, some (.named package)⟩) ∧
    (c.extendFromIndex index).extendFromIndex index = c.extendFromIndex index ∧
    (∀ a, g.directLoads a <+: (g.extendFromIndex index).directLoads a) ∧
    (∀ a b, (g.extendFromIndex index).Loads a b ↔ g.Loads a b ∨
      b ≠ a ∧ ∃ contents, (a, contents) ∈ index.packages.entries ∧ b ∈ contents.requires) ∧
    (g.extendFromIndex index).conflicts = g.conflicts ∧
    (g.extendFromIndex index).extendFromIndex index = g.extendFromIndex index := by
  obtain ⟨newCommands, hcommands⟩ := c.exists_extendedBy_commands_extendFromIndex index
  obtain ⟨newEnvironments, henvironments⟩ := c.exists_extendedBy_environments_extendFromIndex index
  have hloads (a b : String) : (g.extendFromIndex index).Loads a b ↔ g.Loads a b ∨
      b ≠ a ∧ ∃ contents, (a, contents) ∈ index.packages.entries ∧ b ∈ contents.requires := by
    rw [LoadGraph.loads_extendFromIndex, LoadGraph.mem_loads_index_iff]
  refine ⟨⟨newCommands, hcommands, ?_⟩, ⟨newEnvironments, henvironments, ?_⟩,
    c.extendFromIndex_extendFromIndex index, g.prefix_directLoads_extendFromIndex index, hloads,
    g.conflicts_extendFromIndex index, ?_⟩
  · intro name schemas
    exact hcommands.mem_iff_of_get?_eq_or (c.get?_commands_extendFromIndex index name)
  · intro name schema
    exact henvironments.mem_iff_of_get?_eq_or (c.get?_environments_extendFromIndex index name)
  · refine LoadGraph.extendFromIndex_of_loads ?_
    intro pair hpair
    exact LoadGraph.loads_extendFromIndex.mpr (.inr hpair)

end TexLint
