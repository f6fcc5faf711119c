import TexLint.Knowledge.Builtin
import TexLint.Knowledge.Overlay
import TexLint.Proofs.Ordered
import TexLint.Proofs.Reach

/-!
# Loads as paths

The loads of a package, as a graph lists them, are the packages that paths of direct loads
lead to.

## The model

* `LoadGraph.Loads` is one direct load, `LoadGraph.Reaches` a path of one or more.
* A `LoadChange` is one way in which a graph grows; `LoadChange.loads` lists the direct loads
  that it brings. A graph is `LoadGraph.Built` if it grows out of the empty or the built-in
  one.
* A graph is `LoadGraph.InSync` if the closure that it keeps is the one that the direct loads
  give.

## What is proved

* `LoadGraph.Built.invariant`: what holds of the empty graph and is kept when a load or a
  conflict is added holds of every graph.
* `LoadGraph.insertLoad_of_loads`, `LoadGraph.insertLoad_of_not_loads`: what an insertion does,
  and what it answers.
* `LoadGraph.Built.inSync`: the closure that a graph keeps fits its direct loads, whatever was
  added to it and in which order.
* `loads_foldl_apply`: after any changes, the direct loads are those that were there and
  those that the changes bring, in whatever order.
* `LoadGraph.closure_eq_paths`: the transitive loads of a package, its loaders and whether it
  is loaded by an included package are what the paths say, for graphs with circles too.
-/

namespace TexLint

open Relation

namespace LoadGraph

/-- A package loads another one directly. -/
def Loads (g : LoadGraph) (loader package : String) : Prop := package ∈ g.directLoads loader

/-- A package loads another one, directly or through others. -/
def Reaches (g : LoadGraph) : String → String → Prop := TransGen g.Loads

end LoadGraph

/-! ### How a graph grows -/

/-- One way in which a graph grows. -/
inductive LoadChange where
  /-- A direct load is added. -/
  | load (loader package : String)
  /-- A group of packages that exclude each other is added. -/
  | conflict (group : List String)
  /-- Entries are added. -/
  | entries (entries : LoadEntries)
  /-- An overlay is added, if it can be read. -/
  | overlay (text : Text)
  /-- What the index of installed packages lists is added. -/
  | index (index : PackageIndex)

/-- The direct loads that entries list. -/
def LoadEntries.pairs (e : LoadEntries) : List (String × String) :=
  e.loads.entries.flatMap fun (loader, packages) => packages.map (loader, ·)

namespace LoadChange

/-- The graph after a change. -/
def apply (g : LoadGraph) : LoadChange → LoadGraph
  | load loader package => g.addLoad loader package
  | conflict group => g.addConflict group
  | entries e => g.merge e
  | overlay text => (g.mergeText? text).getD g
  | index i => g.extendFromIndex i

/-- The direct loads that a change brings. -/
def loads : LoadChange → List (String × String)
  | load loader package => [(loader, package)]
  | conflict _ => []
  | entries e => e.pairs
  | overlay text => ((Json.readAs? LoadEntries.ofJson? text).map LoadEntries.pairs).getD []
  | index i => i.packages.entries.flatMap fun (name, contents) =>
      (contents.requires.filter (· != name)).map (name, ·)

end LoadChange

/-- A graph that grows out of the empty or the built-in one. -/
inductive LoadGraph.Built : LoadGraph → Prop where
  /-- The empty graph. -/
  | empty : Built .empty
  /-- The built-in graph. -/
  | builtin : Built .builtin
  /-- A graph after one more change. -/
  | change {g : LoadGraph} (c : LoadChange) : Built g → Built (c.apply g)

namespace LoadGraph

theorem loads_addLoad {g : LoadGraph} {loader package a b : String} :
    (g.addLoad loader package).Loads a b ↔ g.Loads a b ∨ (a, b) = (loader, package) := by
  rw [Loads, Loads, directLoads, addLoad_loads, OrderedMap.get?_insert]
  by_cases h : a = loader
  · subst h
    simp [mem_addNew]
  · simp [h, directLoads]

theorem loads_addConflict {g : LoadGraph} {group : List String} {a b : String} :
    (g.addConflict group).Loads a b ↔ g.Loads a b := by
  rw [Loads, directLoads, addConflict_loads]
  rfl

theorem loads_addLoads {g : LoadGraph} {entry : String × List String} {a b : String} :
    (g.addLoads entry).Loads a b ↔ g.Loads a b ∨ (a, b) ∈ entry.2.map (entry.1, ·) := by
  obtain ⟨loader, packages⟩ := entry
  simp only [addLoads]
  induction packages generalizing g with
  | nil => simp
  | cons package packages ih =>
    rw [List.foldl_cons, ih, loads_addLoad, List.map_cons, List.mem_cons, or_assoc]

theorem loads_foldl_addLoads {g : LoadGraph} {entries : List (String × List String)}
    {a b : String} : (entries.foldl addLoads g).Loads a b ↔
      g.Loads a b ∨
        (a, b) ∈ entries.flatMap fun (loader, packages) => packages.map (loader, ·) := by
  induction entries generalizing g with
  | nil => simp
  | cons entry entries ih =>
    rw [List.foldl_cons, ih, loads_addLoads, List.flatMap_cons, List.mem_append, or_assoc]

theorem loads_foldl_addConflict {g : LoadGraph} {groups : List (List String)} {a b : String} :
    (groups.foldl addConflict g).Loads a b ↔ g.Loads a b := by
  induction groups generalizing g with
  | nil => rfl
  | cons group groups ih => rw [List.foldl_cons, ih, loads_addConflict]

theorem loads_merge {g : LoadGraph} {e : LoadEntries} {a b : String} :
    (g.merge e).Loads a b ↔ g.Loads a b ∨ (a, b) ∈ e.pairs := by
  rw [merge, loads_foldl_addConflict, loads_foldl_addLoads]
  rfl

theorem loads_extendFromIndex {g : LoadGraph} {i : PackageIndex} {a b : String} :
    (g.extendFromIndex i).Loads a b ↔ g.Loads a b ∨ (a, b) ∈ (LoadChange.index i).loads := by
  have h := @loads_foldl_addLoads g
    (i.packages.entries.map fun e => (e.1, e.2.requires.filter (· != e.1))) a b
  rw [List.foldl_map, List.flatMap_map] at h
  exact h

end LoadGraph

/-- A change adds the direct loads that it brings, and no others. -/
theorem loads_apply {g : LoadGraph} {c : LoadChange} {a b : String} :
    (c.apply g).Loads a b ↔ g.Loads a b ∨ (a, b) ∈ c.loads := by
  cases c with
  | load loader package => simp [LoadChange.apply, LoadChange.loads, LoadGraph.loads_addLoad]
  | conflict group => simp [LoadChange.apply, LoadChange.loads, LoadGraph.loads_addConflict]
  | entries e => exact LoadGraph.loads_merge
  | overlay text =>
    simp only [LoadChange.apply, LoadChange.loads, LoadGraph.mergeText?]
    cases Json.readAs? LoadEntries.ofJson? text with
    | none => simp
    | some e => exact LoadGraph.loads_merge
  | index i => exact LoadGraph.loads_extendFromIndex

/-- The direct loads after any changes: those that were there and those that the changes
bring. -/
theorem loads_foldl_apply {g : LoadGraph} {changes : List LoadChange} {a b : String} :
    (changes.foldl (fun g c => c.apply g) g).Loads a b ↔
      g.Loads a b ∨ (a, b) ∈ changes.flatMap LoadChange.loads := by
  induction changes generalizing g with
  | nil => simp
  | cons c changes ih =>
    rw [List.foldl_cons, ih, loads_apply, List.flatMap_cons, List.mem_append, or_assoc]

namespace LoadGraph

/-! ### What every graph keeps to -/

section Invariant

variable {P : LoadGraph → Prop}
  (hload : ∀ g loader package, P g → P (g.addLoad loader package))
  (hconflict : ∀ g group, P g → P (g.addConflict group))

include hload in
theorem invariant_addLoads {g : LoadGraph} (h : P g) (entry : String × List String) :
    P (g.addLoads entry) :=
  List.foldlRecOn _ _ h fun g h package _ => hload g entry.1 package h

include hload hconflict in
theorem invariant_merge {g : LoadGraph} (h : P g) (e : LoadEntries) : P (g.merge e) :=
  List.foldlRecOn _ _
    (List.foldlRecOn _ _ h fun _ h entry _ => invariant_addLoads hload h entry)
    fun g h group _ => hconflict g group h

include hload hconflict in
/-- What a load and a conflict keep is kept by every change. -/
theorem invariant_apply {g : LoadGraph} (h : P g) (c : LoadChange) : P (c.apply g) := by
  cases c with
  | load loader package => exact hload g loader package h
  | conflict group => exact hconflict g group h
  | entries e => exact invariant_merge hload hconflict h e
  | overlay text =>
    simp only [LoadChange.apply, mergeText?]
    cases Json.readAs? LoadEntries.ofJson? text with
    | none => exact h
    | some e => exact invariant_merge hload hconflict h e
  | index i => exact List.foldlRecOn _ _ h fun _ h _ _ => invariant_addLoads hload h _

include hload hconflict in
/-- What holds of the empty graph, and is kept when a load or a conflict is added, holds of every
graph. -/
theorem Built.invariant (hempty : P .empty) {g : LoadGraph} (h : g.Built) : P g := by
  induction h with
  | empty => exact hempty
  | builtin => exact invariant_merge hload hconflict hempty _
  | change c _ ih => exact invariant_apply hload hconflict ih c

end Invariant

theorem Built.changes {g : LoadGraph} (h : g.Built) (changes : List LoadChange) :
    (changes.foldl (fun g c => c.apply g) g).Built := by
  induction changes generalizing g with
  | nil => exact h
  | cons c changes ih => exact ih (.change c h)

/-! ### The closure -/

theorem mem_loaded_of_loads {g : LoadGraph} {a b : String} (h : g.Loads a b) : b ∈ g.loaded := by
  unfold Loads directLoads at h
  cases hget : g.loads.get? a with
  | none => simp [hget] at h
  | some packages =>
    rw [hget] at h
    exact mem_distinct.mpr (List.mem_flatMap.mpr ⟨_, OrderedMap.mem_of_get? hget, h⟩)

theorem mem_keys_of_loads {g : LoadGraph} {a b : String} (h : g.Loads a b) :
    a ∈ g.loads.keys := by
  unfold Loads directLoads at h
  cases hget : g.loads.get? a with
  | none => simp [hget] at h
  | some packages => exact List.mem_map.mpr ⟨_, OrderedMap.mem_of_get? hget, rfl⟩

/-- A direct load that is known changes nothing. -/
theorem insertLoad_of_loads {g : LoadGraph} {loader package : String}
    (h : g.Loads loader package) : g.insertLoad loader package = (g, false) := by
  obtain ⟨packages, hget⟩ := OrderedMap.exists_get?_of_mem_keys (mem_keys_of_loads h)
  have hdirect : g.directLoads loader = packages := by rw [directLoads, hget]; rfl
  have hknown : g.hasLoad loader package = true := List.contains_iff_mem.mpr h
  have hloads : g.loads.insert loader (addNew (g.directLoads loader) package) = g.loads := by
    rw [addNew_of_mem h, hdirect, OrderedMap.insert_of_get? hget]
  rw [insertLoad, hknown, hloads]
  rfl

/-- A direct load that is new rebuilds the closure. -/
theorem insertLoad_of_not_loads {g : LoadGraph} {loader package : String}
    (h : ¬ g.Loads loader package) : g.insertLoad loader package = (rebuildClosure
      { g with loads := g.loads.insert loader (addNew (g.directLoads loader) package) }, true) := by
  have hnew : g.hasLoad loader package = false := by
    rw [hasLoad, ← Bool.not_eq_true, List.contains_iff_mem]
    exact h
  rw [insertLoad, hnew]
  rfl

theorem addLoad_of_loads {g : LoadGraph} {loader package : String} (h : g.Loads loader package) :
    g.addLoad loader package = g := by rw [addLoad, insertLoad_of_loads h]

/-- The closure that a graph keeps is the one that its direct loads give. -/
def InSync (g : LoadGraph) : Prop := g.closure = g.rebuiltClosure

theorem InSync.addLoad {g : LoadGraph} (h : g.InSync) (loader package : String) :
    (g.addLoad loader package).InSync := by
  by_cases hknown : g.Loads loader package
  · rw [addLoad_of_loads hknown]
    exact h
  · rw [LoadGraph.addLoad, insertLoad_of_not_loads hknown]
    rfl

theorem InSync.addConflict {g : LoadGraph} (h : g.InSync) (group : List String) :
    (g.addConflict group).InSync := by
  unfold LoadGraph.addConflict
  simp only []
  split <;> exact h

/-- Whatever is added to a graph, and in whatever order, its closure fits its direct loads. -/
theorem Built.inSync {g : LoadGraph} (h : g.Built) : g.InSync :=
  h.invariant (P := InSync) (fun _ loader package h => h.addLoad loader package)
    (fun _ group h => h.addConflict group) rfl

/-- Graphs that are in sync are the same if their loads and conflicts are. -/
theorem InSync.ext {g g' : LoadGraph} (h : g.InSync) (h' : g'.InSync) (hloads : g.loads = g'.loads)
    (hconflicts : g.conflicts = g'.conflicts) : g = g' := by
  obtain ⟨loads, closure, conflicts⟩ := g
  obtain ⟨loads', closure', conflicts'⟩ := g'
  obtain rfl : loads = loads' := hloads
  obtain rfl : conflicts = conflicts' := hconflicts
  obtain rfl : closure = closure' := h.trans h'.symm
  rfl

/-- The closure binds each loader to what a search of its loads finds. -/
theorem InSync.get?_closure {g : LoadGraph} (h : g.InSync) (l : String) :
    g.closure.get? l =
      if l ∈ g.loads.keys then some (reachable g.loaded g.directLoads l) else none := by
  rw [show g.closure = g.rebuiltClosure from h, rebuiltClosure, OrderedMap.get?_ofList_map]

theorem InSync.nodup_keys {g : LoadGraph} (h : g.InSync) : g.closure.keys.Nodup := by
  rw [show g.closure = g.rebuiltClosure from h]
  exact OrderedMap.nodup_keys_ofList _

/-- A search of the loads of a package finds what paths lead to. -/
theorem mem_reachable_loaded_iff {g : LoadGraph} {l p : String} :
    p ∈ reachable g.loaded g.directLoads l ↔ p ≠ l ∧ g.Reaches l p := by
  have hstep : Search.Step g.loaded g.directLoads = g.Loads := by
    ext a b
    exact ⟨And.left, fun h => ⟨h, mem_loaded_of_loads h⟩⟩
  rw [mem_reachable_iff, hstep, Reaches]

theorem mem_keys_of_reaches {g : LoadGraph} {l p : String} (h : g.Reaches l p) :
    l ∈ g.loads.keys := by
  obtain ⟨_, hload, -⟩ := TransGen.head'_iff.mp h
  exact mem_keys_of_loads hload

section InSync

variable {g : LoadGraph} (h : g.InSync) {l p : String}
include h

/-- What the closure binds a package to is what paths of direct loads lead to. -/
theorem exists_get?_closure_iff :
    (∃ packages, g.closure.get? l = some packages ∧ p ∈ packages) ↔ p ≠ l ∧ g.Reaches l p := by
  rw [h.get?_closure l]
  constructor
  · rintro ⟨packages, hget, hp⟩
    split at hget
    · cases hget
      exact mem_reachable_loaded_iff.mp hp
    · cases hget
  · intro hpath
    exact ⟨_, if_pos (mem_keys_of_reaches hpath.2), mem_reachable_loaded_iff.mpr hpath⟩

/-- The transitive loads of a package are what paths of direct loads lead to. -/
theorem mem_transitiveLoads_iff : p ∈ g.transitiveLoads l ↔ p ≠ l ∧ g.Reaches l p := by
  rw [← exists_get?_closure_iff h, transitiveLoads]
  cases g.closure.get? l with
  | none => simp
  | some packages => simp

theorem nodup_transitiveLoads (l : String) : (g.transitiveLoads l).Nodup := by
  rw [transitiveLoads, h.get?_closure l]
  split
  · exact nodup_reachable (nodup_distinct _)
  · exact List.nodup_nil

/-- The loaders of a package are those from which paths lead to it. -/
theorem mem_loadersOf_iff : l ∈ g.loadersOf p ↔ p ≠ l ∧ g.Reaches l p := by
  rw [← exists_get?_closure_iff h, loadersOf]
  constructor
  · intro hl
    obtain ⟨⟨_, packages⟩, hmem, rfl⟩ := List.mem_map.mp hl
    obtain ⟨hentry, hp⟩ := List.mem_filter.mp hmem
    exact ⟨packages, OrderedMap.get?_eq_some_of_mem h.nodup_keys hentry,
      List.contains_iff_mem.mp hp⟩
  · rintro ⟨packages, hget, hp⟩
    exact List.mem_map.mpr ⟨(l, packages), List.mem_filter.mpr
      ⟨OrderedMap.mem_of_get? hget, List.contains_iff_mem.mpr hp⟩, rfl⟩

theorem isLoadedByAny_iff {included : List String} :
    g.isLoadedByAny p included = true ↔ ∃ l ∈ included, l ≠ p ∧ g.Reaches l p := by
  simp only [isLoadedByAny, List.any_eq_true, List.contains_iff_mem, mem_loadersOf_iff h]
  exact exists_congr fun l => ⟨fun ⟨hpath, hl⟩ => ⟨hl, hpath.1.symm, hpath.2⟩,
    fun ⟨hl, hne, hpath⟩ => ⟨⟨hne.symm, hpath⟩, hl⟩⟩

end InSync

/-- The closure that a graph keeps is in sync with its direct loads, so what the graph says of
loads is what its paths say: the transitive loads of a package are the others that paths of direct
loads lead to, each listed once, its loaders those from which such paths lead to it, and it is
loaded by an included package if a path leads to it from another package that is included. So
changes that bring the same direct loads, in whatever order, lead to the same answers. -/
theorem closure_eq_paths {g : LoadGraph} (h : g.Built) :
    g.InSync ∧
    (∀ l p, p ∈ g.transitiveLoads l ↔ p ≠ l ∧ g.Reaches l p) ∧
    (∀ l, (g.transitiveLoads l).Nodup) ∧
    (∀ l p, l ∈ g.loadersOf p ↔ p ≠ l ∧ g.Reaches l p) ∧
    (∀ p included, g.isLoadedByAny p included = true ↔
      ∃ l ∈ included, l ≠ p ∧ g.Reaches l p) ∧
    ∀ changes changes' : List LoadChange,
      (∀ e, e ∈ changes.flatMap LoadChange.loads ↔ e ∈ changes'.flatMap LoadChange.loads) →
      let g₁ := changes.foldl (fun g c => c.apply g) g
      let g₂ := changes'.foldl (fun g c => c.apply g) g
      (∀ l p, p ∈ g₁.transitiveLoads l ↔ p ∈ g₂.transitiveLoads l) ∧
      (∀ l p, l ∈ g₁.loadersOf p ↔ l ∈ g₂.loadersOf p) ∧
      ∀ p included, g₁.isLoadedByAny p included = g₂.isLoadedByAny p included := by
  have hsync := h.inSync
  refine ⟨hsync, fun _ _ => mem_transitiveLoads_iff hsync, nodup_transitiveLoads hsync,
    fun _ _ => mem_loadersOf_iff hsync, fun _ _ => isLoadedByAny_iff hsync, ?_⟩
  intro changes changes' hsame g₁ g₂
  have h₁ : g₁.InSync := (h.changes changes).inSync
  have h₂ : g₂.InSync := (h.changes changes').inSync
  have hreach : g₁.Reaches = g₂.Reaches := by
    have hloads : g₁.Loads = g₂.Loads := by
      ext a b
      rw [loads_foldl_apply, loads_foldl_apply, hsame]
    rw [Reaches, Reaches, hloads]
  refine ⟨fun l p => ?_, fun l p => ?_, fun p included => ?_⟩
  · rw [mem_transitiveLoads_iff h₁, mem_transitiveLoads_iff h₂, hreach]
  · rw [mem_loadersOf_iff h₁, mem_loadersOf_iff h₂, hreach]
  · rw [Bool.eq_iff_iff, isLoadedByAny_iff h₁, isLoadedByAny_iff h₂, hreach]

/-- The loads `a → b → a`, `b → c` go in a circle. -/
theorem closure_eq_paths_circle :
    let g := ((LoadGraph.empty.addLoad "a" "b").addLoad "b" "a").addLoad "b" "c"
    g.Built ∧ "c" ∈ g.transitiveLoads "a" ∧ "a" ∉ g.transitiveLoads "a" ∧
      "a" ∈ g.loadersOf "c" := by
  intro g
  have hg : g.Built :=
    .change (.load "b" "c") (.change (.load "b" "a") (.change (.load "a" "b") .empty))
  obtain ⟨-, hloads, -, hloaders, -⟩ := closure_eq_paths hg
  have hpath : g.Reaches "a" "c" := by
    refine TransGen.tail (.single (b := "b") ?_) ?_ <;> simp [g, loads_addLoad]
  refine ⟨hg, (hloads "a" "c").mpr ⟨by decide, hpath⟩, fun h => ?_, ?_⟩
  · exact ((hloads "a" "a").mp h).1 rfl
  · exact (hloaders "a" "c").mpr ⟨by decide, hpath⟩

end LoadGraph

end TexLint
