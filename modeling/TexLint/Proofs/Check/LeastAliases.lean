import TexLint.Proofs.Check.AliasClosure
import Mathlib.Data.List.Perm.Basic
import Mathlib.Order.Bounds.Basic

/-!
# The least set of aliases

Aliases are gathered in rounds: each of them goes through all definitions, and another one follows
for as long as the list has become longer. The rounds come to an end, and what they leave does not
depend on the order in which the definitions are gone through.

## The model

* `Rounds` is the search for aliases without a bound on the number of rounds.
* `Manuscript.Closes` says that a set of commands holds every command that the manuscript defines
  through a member.

## What is proved

* `rounds_addAliases`: the search ends, and the bound on the number of rounds does not cut it short.
* `Manuscript.isLeast_closure`: what it leaves is the least set that holds the base commands and is
  closed under the definitions.
* `IsAlias.mono`: more definitions leave no fewer aliases.
* `AliasCache.aliases_update`: all of this for the aliases that a new cache knows after an update.
-/

namespace TexLint

/-! ### The end of the search -/

/-- A search for aliases that starts with a list of commands ends with another one. -/
inductive Rounds (written : List Definition) : List String → List String → Prop where
  /-- A round that adds nothing is the last one. -/
  | last {members : List String} : (written.foldl addAlias members).length = members.length →
      Rounds written members (written.foldl addAlias members)
  /-- After a round that adds something comes another one. -/
  | more {members result : List String} :
      (written.foldl addAlias members).length ≠ members.length →
      Rounds written (written.foldl addAlias members) result → Rounds written members result

/-- Each round but the last adds a command that is missing, so the search ends. Where there are more
rounds than commands that are missing, it is not cut short. -/
theorem rounds_addAliases (written : List Definition) {members : List String} (rounds : Nat)
    (hrounds : (missing (written.map fun d => (d.name, d.bodyNames)) members).length < rounds) :
    Rounds written members (addAliases written rounds members) := by
  induction rounds generalizing members with
  | zero => omega
  | succ rounds ih =>
    rw [addAliases]
    split
    · next hlength => exact .last hlength
    · next hlength =>
      refine .more hlength (ih ?_)
      rw [foldl_addAlias_eq] at hlength ⊢
      rcases foldl_addNamed_cases (written.map fun d => (d.name, d.bodyNames)) members with
        ⟨hsame, -⟩ | ⟨-, d, hd, hnew, hmem⟩
      · exact absurd (congrArg List.length hsame) hlength
      · have hfewer := length_missing_lt (subset_foldl_addNamed _ members) hd hnew hmem
        omega

/-! ### What the search leaves -/

/-- More definitions leave no fewer aliases. -/
theorem IsAlias.mono {definitions definitions' : List (String × List String)} {base : List String}
    {name : String} (hsub : definitions ⊆ definitions') (h : IsAlias definitions base name) :
    IsAlias definitions' base name := by
  induction h with
  | base hname => exact .base hname
  | defined hd hinvoked _ ih => exact .defined (hsub hd) hinvoked ih

namespace Manuscript

variable {m m' : Manuscript} {base : List String}

/-- A set of commands holds the command of every definition whose body invokes a command that is in
the set without its star. -/
def Closes (m : Manuscript) (s : Set String) : Prop :=
  ∀ d ∈ m.definitions, (∃ u ∈ d.value.body, u.baseName ∈ s) → d.value.name ∈ s

theorem rounds_closure (m : Manuscript) (base : List String) :
    Rounds (m.definitions.map (·.value)) (distinct base) (m.closure base) := by
  refine rounds_addAliases _ _ (Nat.lt_succ_of_le ?_)
  refine Nat.le_trans (List.length_filter_le ..) ?_
  rw [List.length_map, List.length_map]

/-- An alias is in every set that holds the base commands and is closed under the definitions. -/
theorem Closes.mem_of_isAlias {s : Set String} (h : m.Closes s) (hbase : ∀ b ∈ base, b ∈ s)
    {name : String} (halias : IsAlias m.definitionList base name) : name ∈ s := by
  induction halias with
  | base hname => exact hbase _ hname
  | defined hd hinvoked _ ih =>
    obtain ⟨written, hwritten, rfl⟩ := List.mem_map.mp hd
    obtain ⟨u, hu, rfl⟩ := List.mem_map.mp hinvoked
    exact h written hwritten ⟨u, hu, ih⟩

/-- The aliases are closed under the definitions. -/
theorem closes_closure (m : Manuscript) (base : List String) :
    m.Closes {name | name ∈ m.closure base} := by
  intro d hd ⟨u, hu, hmem⟩
  have halias : IsAlias m.definitionList base (unstarred u.name) := mem_closure_iff.mp hmem
  have hdefined : (d.value.name, d.value.bodyNames) ∈ m.definitionList := List.mem_map_of_mem hd
  exact mem_closure_iff.mpr (.defined hdefined (List.mem_map_of_mem hu) halias)

/-- The aliases are the least set that holds the base commands and is closed under the
definitions. -/
theorem isLeast_closure (m : Manuscript) (base : List String) :
    IsLeast {s : Set String | (∀ b ∈ base, b ∈ s) ∧ m.Closes s} {name | name ∈ m.closure base} := by
  constructor
  · exact ⟨fun b hb => mem_closure_iff.mpr (.base hb), m.closes_closure base⟩
  · intro s ⟨hbase, hcloses⟩ name hname
    exact hcloses.mem_of_isAlias hbase (mem_closure_iff.mp hname)

theorem closure_subset (hsub : m.definitionList ⊆ m'.definitionList) (base : List String) :
    m.closure base ⊆ m'.closure base := by
  intro name hname
  exact mem_closure_iff.mpr ((mem_closure_iff.mp hname).mono hsub)

/-- The definitions are those of the first document, then those of the second one, and so on. -/
theorem definitionList_eq_flatMap (m : Manuscript) : m.definitionList =
    m.documents.flatMap fun d => d.definitions.map fun x => (x.name, x.bodyNames) := by
  rw [definitionList, definitions, collect, List.map_flatten, List.flatMap_def]
  refine congrArg _ (List.ext_getElem (by simp) fun i _ _ => ?_)
  simp

/-- Other documents in front change the order of the definitions only. -/
theorem perm_definitionList (h : m.documents.Perm m'.documents) :
    m.definitionList.Perm m'.definitionList := by
  rw [definitionList_eq_flatMap, definitionList_eq_flatMap]
  exact h.flatMap_right _

end Manuscript

namespace AliasCache

open Manuscript

/-- After an update, a cache that kept nothing knows the closure of the base set for each of its
commands. -/
theorem aliases_update_empty {m : Manuscript} {base : List String} {b : String} (hb : b ∈ base) :
    (empty.update base m).2.aliases b = m.closure base := by
  cases base with
  | nil => cases hb
  | cons key rest =>
    have hmem : b ∈ aliasClosure (m.definitions.map (·.value)) (key :: rest) :=
      mem_closure_iff.mpr (.base hb)
    have hentries : (empty.update (key :: rest) m).2.sets.entries =
        [(key, ⟨m.definitionFingerprint, m.closure (key :: rest)⟩)] := rfl
    rw [aliases, hentries, Manuscript.closure, List.find?_cons, List.contains_iff_mem.mpr hmem]

/-- The search for the aliases of a base set ends for every manuscript. What a new cache knows after
an update as the aliases of one of the base commands is what the search leaves. It is the least set
that holds the base commands and, with a command, every command that the manuscript defines through
it, starred or not. So it is the same when the documents or the definitions come in another order,
and it loses nothing when there are more definitions. -/
theorem aliases_update (m : Manuscript) (base : List String) :
    ∃ members, Rounds (m.definitions.map (·.value)) (distinct base) members ∧
      ∀ b ∈ base, (empty.update base m).2.aliases b = members ∧
        IsLeast {s : Set String | (∀ b ∈ base, b ∈ s) ∧ m.Closes s}
          {name | name ∈ (empty.update base m).2.aliases b} ∧
        (∀ m' : Manuscript,
          m.documents.Perm m'.documents ∨ m.definitionList.Perm m'.definitionList →
          ∀ name, name ∈ (empty.update base m').2.aliases b ↔
            name ∈ (empty.update base m).2.aliases b) ∧
        ∀ m' : Manuscript, m.definitionList ⊆ m'.definitionList →
          (empty.update base m).2.aliases b ⊆ (empty.update base m').2.aliases b := by
  refine ⟨m.closure base, m.rounds_closure base, ?_⟩
  intro b hb
  have haliases (m : Manuscript) : (empty.update base m).2.aliases b = m.closure base :=
    aliases_update_empty hb
  simp only [haliases]
  refine ⟨trivial, m.isLeast_closure base, ?_, ?_⟩
  · intro m' horder name
    have hperm : m.definitionList.Perm m'.definitionList :=
      horder.elim perm_definitionList id
    exact ⟨fun h => closure_subset hperm.symm.subset base h,
      fun h => closure_subset hperm.subset base h⟩
  · intro m' hsub
    exact closure_subset hsub base

/-- Definitions that refer to each other in a circle, the last one first: all of them stand for the
base command. -/
theorem aliases_update_circle :
    let text := "\\def\\c\x7b\\b*\x7d\\def\\b\x7b\\a\\c\x7d\\def\\a\x7b\\ref\x7d\\def\\d\x7b\\d\x7d"
    let m := Manuscript.ofDocuments [.read "main.tex" text.toList]
    let members := ["\\ref", "\\a", "\\b", "\\c"]
    "\\ref" ∈ ["\\ref"] ∧ (empty.update ["\\ref"] m).2.aliases "\\ref" = members ∧
      Rounds (m.definitions.map (·.value)) ["\\ref"] members ∧
      IsLeast {s : Set String | (∀ b ∈ ["\\ref"], b ∈ s) ∧ m.Closes s}
        {name | name ∈ members} := by
  intro text m members
  have hmem : "\\ref" ∈ ["\\ref"] := List.mem_singleton_self _
  have hmembers : (empty.update ["\\ref"] m).2.aliases "\\ref" = members := by decide +kernel
  obtain ⟨result, hrounds, hresult⟩ := aliases_update m ["\\ref"]
  obtain ⟨haliases, hleast, -⟩ := hresult "\\ref" hmem
  rw [hmembers] at haliases hleast
  rw [← haliases] at hrounds
  exact ⟨hmem, hmembers, hrounds, hleast⟩

end AliasCache

end TexLint
