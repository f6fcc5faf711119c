import TexLint.Proofs.Check.Alias
import Mathlib.Data.List.Basic

/-!
# The commands that stand for others

A command behaves like a base command if a chain of definitions leads from it to one. The closure
of a base set holds these commands and no others.

## The model

* `IsAlias` is the least set that holds the base commands and, with a command, every command whose
  definition invokes it, starred or not.
* `missing` are the defined commands that are not yet in a list. A round that adds one makes it
  shorter, which bounds the number of rounds.

## What is proved

* `foldl_addNamed_cases`: a round finds the list closed under the definitions or adds a defined
  command.
* `closedUnder_addAliases`: with enough rounds the list is closed under the definitions.
* `Manuscript.mem_closure_iff`: the closure of a base set in a manuscript consists of its aliases.
-/

namespace TexLint

/-- The commands that behave like the base commands, given the defined commands and what each
definition invokes. -/
inductive IsAlias (definitions : List (String × List String)) (base : List String) :
    String → Prop where
  /-- A base command does. -/
  | base {name : String} : name ∈ base → IsAlias definitions base name
  /-- A command does if its definition invokes one that does, whatever star the invocation has. -/
  | defined {d : String × List String} {invoked : String} : d ∈ definitions → invoked ∈ d.2 →
      IsAlias definitions base (unstarred invoked) → IsAlias definitions base d.1

/-- Base commands that behave like others need not be told apart from them. -/
theorem IsAlias.of_base {definitions : List (String × List String)} {base base' : List String}
    {name : String} (h : IsAlias definitions base name)
    (hbase : ∀ b ∈ base, IsAlias definitions base' b) : IsAlias definitions base' name := by
  induction h with
  | base hname => exact hbase _ hname
  | defined hd hinvoked _ ih => exact .defined hd hinvoked ih

variable {definitions : List (String × List String)} {base members : List String}

/-! ### One round -/

theorem addNamed_cases (members : List String) (d : String × List String) :
    addNamed members d = members ∧
        ((∃ invoked ∈ d.2, unstarred invoked ∈ members) → d.1 ∈ members) ∨
      addNamed members d = members ++ [d.1] ∧ d.1 ∉ members ∧
        ∃ invoked ∈ d.2, unstarred invoked ∈ members := by
  have hany : (d.2.any fun name => members.contains (unstarred name)) = true ↔
      ∃ invoked ∈ d.2, unstarred invoked ∈ members := by
    simp
  rw [addNamed, addNew]
  by_cases hinvokes : ∃ invoked ∈ d.2, unstarred invoked ∈ members
  · rw [if_pos (hany.mpr hinvokes)]
    by_cases hmem : d.1 ∈ members
    · exact .inl ⟨if_pos (List.contains_iff_mem.mpr hmem), fun _ => hmem⟩
    · exact .inr ⟨if_neg (by simpa using hmem), hmem, hinvokes⟩
  · exact .inl ⟨if_neg (by rwa [hany]), fun h => absurd h hinvokes⟩

theorem subset_foldl_addNamed (definitions : List (String × List String)) (members : List String) :
    members ⊆ definitions.foldl addNamed members := by
  induction definitions generalizing members with
  | nil => exact fun _ => id
  | cons d definitions ih =>
    have hstep : members ⊆ addNamed members d := by
      rcases addNamed_cases members d with ⟨hsame, -⟩ | ⟨hmore, -⟩
      · rw [hsame]
        exact fun _ => id
      · rw [hmore]
        exact List.subset_append_left _ _
    exact fun name hname => ih _ (hstep hname)

/-- A list is closed under some definitions: it holds the commands of those that invoke a member. -/
def ClosedUnder (definitions : List (String × List String)) (members : List String) : Prop :=
  ∀ d ∈ definitions, (∃ invoked ∈ d.2, unstarred invoked ∈ members) → d.1 ∈ members

/-- A round changes nothing in a list that is closed under the definitions, and adds a defined
command to any other list. -/
theorem foldl_addNamed_cases (definitions : List (String × List String)) (members : List String) :
    definitions.foldl addNamed members = members ∧ ClosedUnder definitions members ∨
      members.length < (definitions.foldl addNamed members).length ∧
        ∃ d ∈ definitions, d.1 ∉ members ∧ d.1 ∈ definitions.foldl addNamed members := by
  induction definitions generalizing members with
  | nil => exact .inl ⟨rfl, by simp [ClosedUnder]⟩
  | cons d definitions ih =>
    rw [List.foldl_cons]
    rcases addNamed_cases members d with ⟨hsame, hclosed⟩ | ⟨hmore, hnew, -⟩
    · rw [hsame]
      rcases ih members with ⟨hrest, hall⟩ | ⟨hlength, d', hd', h⟩
      · exact .inl ⟨hrest, List.forall_mem_cons.mpr ⟨hclosed, hall⟩⟩
      · exact .inr ⟨hlength, d', List.mem_cons_of_mem _ hd', h⟩
    · have hmem : d.1 ∈ definitions.foldl addNamed (addNamed members d) :=
        subset_foldl_addNamed _ _ (by simp [hmore])
      refine .inr ⟨?_, d, List.mem_cons_self, hnew, hmem⟩
      have hle : (addNamed members d).length ≤
          (definitions.foldl addNamed (addNamed members d)).length := by
        rcases ih (addNamed members d) with ⟨hrest, -⟩ | ⟨hlength, -⟩
        · exact Nat.le_of_eq (congrArg List.length hrest.symm)
        · exact Nat.le_of_lt hlength
      rw [hmore, List.length_append, List.length_singleton] at hle
      rw [hmore]
      omega

/-- A round adds aliases only. -/
theorem isAlias_of_mem_foldl_addNamed {rules : List (String × List String)}
    (hsub : rules ⊆ definitions) (hmembers : ∀ name ∈ members, IsAlias definitions base name) :
    ∀ name ∈ rules.foldl addNamed members, IsAlias definitions base name := by
  induction rules generalizing members with
  | nil => exact hmembers
  | cons d rules ih =>
    rw [List.cons_subset] at hsub
    refine ih hsub.2 ?_
    rcases addNamed_cases members d with ⟨hsame, -⟩ | ⟨hmore, -, invoked, hinvoked, hmem⟩
    · rwa [hsame]
    · rw [hmore]
      exact List.forall_mem_append.mpr ⟨hmembers,
        List.forall_mem_singleton.mpr (.defined hsub.1 hinvoked (hmembers _ hmem))⟩

/-! ### All rounds -/

/-- The defined commands that a list does not hold. -/
def missing (definitions : List (String × List String)) (members : List String) : List String :=
  (definitions.map (·.1)).filter (· ∉ members)

theorem length_missing_lt {more : List String} (hsub : members ⊆ more)
    {d : String × List String} (hd : d ∈ definitions) (hnew : d.1 ∉ members) (hmem : d.1 ∈ more) :
    (missing definitions more).length < (missing definitions members).length := by
  have hfilter : missing definitions more = (missing definitions members).filter (· ∉ more) := by
    rw [missing, missing, List.filter_filter]
    refine List.filter_congr fun name _ => ?_
    by_cases hname : name ∈ more
    · simp [hname]
    · have hmissing : name ∉ members := fun h => hname (hsub h)
      simp [hname, hmissing]
  have hd' : d.1 ∈ missing definitions members :=
    List.mem_filter.mpr ⟨List.mem_map_of_mem hd, by simpa using hnew⟩
  rw [hfilter, List.length_filter_lt_length_iff_exists]
  exact ⟨d.1, hd', by simpa using hmem⟩

section Rounds

variable {written : List Definition}

/-- Rounds add aliases only. -/
theorem isAlias_of_mem_addAliases
    (hwritten : written.map (fun d => (d.name, d.bodyNames)) = definitions) (rounds : Nat)
    (hmembers : ∀ name ∈ members, IsAlias definitions base name) :
    ∀ name ∈ addAliases written rounds members, IsAlias definitions base name := by
  induction rounds generalizing members with
  | zero => exact hmembers
  | succ rounds ih =>
    have hmore := isAlias_of_mem_foldl_addNamed (List.Subset.refl definitions) hmembers
    rw [addAliases, foldl_addAlias_eq, hwritten]
    split
    · exact hmore
    · exact ih hmore

/-- Rounds take nothing out, and where there are more of them than commands to add, the list is
closed under the definitions in the end. -/
theorem closedUnder_addAliases
    (hwritten : written.map (fun d => (d.name, d.bodyNames)) = definitions) (rounds : Nat)
    (hrounds : (missing definitions members).length < rounds) :
    members ⊆ addAliases written rounds members ∧
      ClosedUnder definitions (addAliases written rounds members) := by
  induction rounds generalizing members with
  | zero => omega
  | succ rounds ih =>
    rw [addAliases, foldl_addAlias_eq, hwritten]
    have hsub := subset_foldl_addNamed definitions members
    rcases foldl_addNamed_cases definitions members with
      ⟨hsame, hclosed⟩ | ⟨hlength, d, hd, hnew, hmem⟩
    · rw [hsame, if_pos rfl]
      exact ⟨List.Subset.refl members, hclosed⟩
    · rw [if_neg (by omega)]
      have hfewer := length_missing_lt hsub hd hnew hmem
      obtain ⟨hrest, hclosed⟩ := ih (Nat.lt_of_lt_of_le hfewer (Nat.le_of_lt_succ hrounds))
      exact ⟨fun name hname => hrest (hsub hname), hclosed⟩

end Rounds

/-- A list that holds the base commands and is closed under the definitions holds all aliases. -/
theorem ClosedUnder.mem_of_isAlias (h : ClosedUnder definitions members) (hbase : base ⊆ members)
    {name : String} (halias : IsAlias definitions base name) : name ∈ members := by
  induction halias with
  | base hname => exact hbase hname
  | defined hd hinvoked _ ih => exact h _ hd ⟨_, hinvoked, ih⟩

/-- The closure of a base set in a manuscript consists of the commands that behave like the base
commands. -/
theorem Manuscript.mem_closure_iff {m : Manuscript} {name : String} :
    name ∈ m.closure base ↔ IsAlias m.definitionList base name := by
  have hwritten : (m.definitions.map (·.value)).map (fun d => (d.name, d.bodyNames)) =
      m.definitionList := by
    rw [List.map_map]
    rfl
  rw [closure, aliasClosure]
  constructor
  · exact isAlias_of_mem_addAliases hwritten _ (fun _ hname => .base (mem_distinct.mp hname)) name
  · have hrounds : (missing m.definitionList (distinct base)).length <
        (m.definitions.map (·.value)).length + 1 := by
      have hle : (missing m.definitionList (distinct base)).length ≤
          (m.definitionList.map (·.1)).length := List.length_filter_le ..
      rw [List.length_map, definitionList, List.length_map] at hle
      rw [List.length_map]
      exact Nat.lt_succ_of_le hle
    obtain ⟨hsub, hclosed⟩ := closedUnder_addAliases hwritten _ hrounds
    exact hclosed.mem_of_isAlias fun b hb => hsub (mem_distinct.mpr hb)

end TexLint
