import TexLint.Proofs.Check.AliasClosure
import TexLint.Proofs.Manuscript.Fingerprint
import Mathlib.Data.List.Induction

/-!
# Aliases that are brought up to date

A cache of aliases may be asked to bring the closures of several base sets up to date, for one
manuscript after another. It keeps one closure for all base sets with the same first command and
makes it anew when the definitions have changed, not when the base set has.

## The model

* An `AliasUpdate` asks for the closure of a base set in a manuscript; `AliasCache.run` is a cache
  after a sequence of updates.
* `AliasUpdate.kept` is the update whose closure is kept under a first command: the first one since
  the definitions last changed.

## What is proved

* `AliasCache.Keeps.update`, `AliasCache.keeps_run`: the closure of that update is what a cache
  keeps, whatever has been asked for in between.
* `AliasCache.isAlias_run_iff`: which commands are known to behave like those of a base set right
  after an update. They are the right ones where base sets with the same first command are the same.
* `AliasCache.isAlias_run_other_base`: a base set whose closure is not made because another one
  begins with the same command.
-/

namespace TexLint

/-- A request for the closure of a base set in a manuscript. -/
structure AliasUpdate where
  /-- The base set. -/
  base : List String
  /-- The manuscript. -/
  manuscript : Manuscript

namespace AliasUpdate

/-- The update whose closure is kept under a first command when another update follows: a closure is
made anew only if the definitions are not those of the one that is kept. -/
def keep (key : String) (kept : Option AliasUpdate) (u : AliasUpdate) : Option AliasUpdate :=
  if u.base.head? = some key then
    match kept with
    | some k =>
      if k.manuscript.definitionList = u.manuscript.definitionList then some k else some u
    | none => some u
  else kept

/-- The update whose closure is kept under a first command after some updates. -/
def kept (key : String) (updates : List AliasUpdate) : Option AliasUpdate :=
  updates.foldl (keep key) none

variable {key : String} {updates : List AliasUpdate} {u k : AliasUpdate}

theorem kept_append_singleton (key : String) (updates : List AliasUpdate) (u : AliasUpdate) :
    kept key (updates ++ [u]) = keep key (kept key updates) u := by
  rw [kept, List.foldl_append]
  rfl

/-- An update with another first command leaves the closure that is kept alone. One with this first
command makes it anew, unless the definitions are still those it was made from. -/
theorem keep_cases (key : String) (kept : Option AliasUpdate) (u : AliasUpdate) :
    u.base.head? ≠ some key ∧ keep key kept u = kept ∨
      u.base.head? = some key ∧
        ((∀ k ∈ kept, k.manuscript.definitionList ≠ u.manuscript.definitionList) ∧
            keep key kept u = some u ∨
          ∃ k, kept = some k ∧ k.manuscript.definitionList = u.manuscript.definitionList ∧
            keep key kept u = some k) := by
  by_cases hkey : u.base.head? = some key
  · refine .inr ⟨hkey, ?_⟩
    cases kept with
    | none => exact .inl ⟨by simp, if_pos hkey⟩
    | some k =>
      by_cases hlist : k.manuscript.definitionList = u.manuscript.definitionList
      · exact .inr ⟨k, rfl, hlist, by rw [keep.eq_def, if_pos hkey]; exact if_pos hlist⟩
      · exact .inl ⟨by simpa using hlist, by rw [keep.eq_def, if_pos hkey]; exact if_neg hlist⟩
  · exact .inl ⟨hkey, if_neg hkey⟩

/-- The update whose closure is kept under a first command is one of those that have been made, and
its base set begins with that command. -/
theorem mem_of_kept (h : kept key updates = some k) : k ∈ updates ∧ k.base.head? = some key := by
  induction updates using List.reverseRecOn generalizing k with
  | nil => cases h
  | append_singleton updates u ih =>
    rw [kept_append_singleton] at h
    rcases keep_cases key (kept key updates) u with
      ⟨-, hkept⟩ | ⟨hkey, ⟨-, hkept⟩ | ⟨k', hk', -, hkept⟩⟩
    · rw [hkept] at h
      exact (ih h).imp_left (List.mem_append_left _)
    · obtain rfl : u = k := Option.some.inj (hkept.symm.trans h)
      exact ⟨by simp, hkey⟩
    · obtain rfl : k' = k := Option.some.inj (hkept.symm.trans h)
      exact (ih hk').imp_left (List.mem_append_left _)

/-- Right after an update, a closure is kept under its first command that was made from the same
definitions. -/
theorem exists_kept (hkey : u.base.head? = some key) : ∃ k, kept key (updates ++ [u]) = some k ∧
    k.manuscript.definitionList = u.manuscript.definitionList := by
  rw [kept_append_singleton]
  rcases keep_cases key (kept key updates) u with ⟨hne, -⟩ | ⟨-, ⟨-, hkept⟩ | ⟨k, -, hlist, hkept⟩⟩
  · exact absurd hkey hne
  · exact ⟨u, hkept, rfl⟩
  · exact ⟨k, hkept, hlist⟩

end AliasUpdate

namespace AliasCache

open AliasUpdate

/-- The cache after some updates. -/
def run (c : AliasCache) (updates : List AliasUpdate) : AliasCache :=
  updates.foldl (fun c u => (c.update u.base u.manuscript).2) c

/-- What a cache keeps under a first command is the closure of the given update. -/
def Keeps (c : AliasCache) (key : String) (kept : Option AliasUpdate) : Prop :=
  c.sets.get? key =
    kept.map fun u => ⟨u.manuscript.currentFingerprint, u.manuscript.closure u.base⟩

variable {c : AliasCache} {key : String} {kept : Option AliasUpdate} {u : AliasUpdate}

/-- An update of a base set that begins with another command does not touch the closure. -/
theorem get?_update_of_ne (c : AliasCache) {base : List String} (hkey : base.head? ≠ some key)
    (m : Manuscript) : (c.update base m).2.sets.get? key = c.sets.get? key := by
  cases base with
  | nil => rfl
  | cons key' rest =>
    have hne : (key == key') = false := by
      rw [beq_eq_false_iff_ne]
      rintro rfl
      exact hkey rfl
    rw [AliasCache.update]
    dsimp only
    split
    · rw [OrderedMap.get?_insert, hne]
      rfl
    · rfl

/-- A closure is out of date if it was made from definitions with another fingerprint. -/
theorem Keeps.isStale_iff (h : c.Keeps key kept) (hkey : u.base.head? = some key)
    (hcurrent : u.manuscript.IsCurrent) : c.isStale u.base u.manuscript = true ↔
      ∀ k ∈ kept, k.manuscript.currentFingerprint ≠ u.manuscript.currentFingerprint := by
  obtain ⟨rest, hbase⟩ := List.head?_eq_some_iff.mp hkey
  rw [hbase, isStale, h, hcurrent.definitionFingerprint_eq]
  cases kept with
  | none => simp
  | some k => simp

/-- Which closure a cache keeps after an update, if fingerprints tell the definition lists apart. -/
theorem Keeps.update {P : Manuscript → Prop} (h : c.Keeps key kept)
    (hkept : ∀ k ∈ kept, P k.manuscript) (hu : P u.manuscript) (hcurrent : u.manuscript.IsCurrent)
    (hdistinct : Distinguished P) :
    (c.update u.base u.manuscript).2.Keeps key (keep key kept u) := by
  rcases keep_cases key kept u with ⟨hne, hkeep⟩ | ⟨hkey, ⟨hlist, hkeep⟩ | ⟨k, hk, hlist, hkeep⟩⟩
  · rw [Keeps, get?_update_of_ne c hne, hkeep]
    exact h
  · have hstale : c.isStale u.base u.manuscript = true :=
      (h.isStale_iff hkey hcurrent).mpr fun k hk =>
        hdistinct _ (hkept k hk) _ hu (hlist k hk)
    obtain ⟨rest, hbase⟩ := List.head?_eq_some_iff.mp hkey
    rw [hbase] at hstale
    rw [Keeps, hkeep, Option.map_some, hbase, AliasCache.update]
    dsimp only
    rw [if_pos hstale, OrderedMap.get?_insert, beq_self_eq_true, if_pos rfl,
      hcurrent.definitionFingerprint_eq]
    rfl
  · have hfresh : ¬ c.isStale u.base u.manuscript = true := by
      rw [h.isStale_iff hkey hcurrent]
      exact fun hne => hne k hk (by
        rw [Manuscript.currentFingerprint, hlist, Manuscript.currentFingerprint])
    obtain ⟨rest, hbase⟩ := List.head?_eq_some_iff.mp hkey
    rw [hbase] at hfresh
    rw [hkeep, hbase, AliasCache.update, ← hk]
    dsimp only
    rw [if_neg hfresh]
    exact h

/-- Which closure a cache keeps after a run of updates. -/
theorem keeps_run {updates : List AliasUpdate} (key : String)
    (hreached : ∀ u ∈ updates, u.manuscript.Reached)
    (hdistinct : Distinguished (· ∈ updates.map (·.manuscript))) :
    (empty.run updates).Keeps key (AliasUpdate.kept key updates) := by
  have hrun (before : List AliasUpdate) (hbefore : before ⊆ updates) :
      (empty.run before).Keeps key (AliasUpdate.kept key before) := by
    induction before using List.reverseRecOn with
    | nil => rfl
    | append_singleton before u ih =>
      rw [List.append_subset, List.cons_subset] at hbefore
      rw [kept_append_singleton, run, List.foldl_append]
      exact (ih hbefore.1).update
        (fun k hk => List.mem_map_of_mem (hbefore.1 (mem_of_kept hk).1))
        (List.mem_map_of_mem hbefore.2.1) (hreached u hbefore.2.1).isCurrent hdistinct
  exact hrun updates (List.Subset.refl updates)

/-- Right after an update, a command is known to behave like those of the base set if it is one of
them or behaves like those of the base set whose closure is kept: the first one with the same first
command since the definitions last changed. If all base sets with that first command are the same,
these are the commands that behave like those of the base set, and no others. -/
theorem isAlias_run_iff {updates : List AliasUpdate} {key : String} {rest : List String}
    {m : Manuscript} (hreached : ∀ u ∈ updates ++ [⟨key :: rest, m⟩], u.manuscript.Reached)
    (hdistinct : Distinguished
      (· ∈ (updates ++ [⟨key :: rest, m⟩] : List AliasUpdate).map (·.manuscript))) :
    (∃ k, AliasUpdate.kept key (updates ++ [⟨key :: rest, m⟩]) = some k ∧
      ∀ name, (empty.run (updates ++ [⟨key :: rest, m⟩])).isAlias (key :: rest) name = true ↔
        name ∈ key :: rest ∨ IsAlias m.definitionList k.base name) ∧
    ((∀ u ∈ updates, u.base.head? = some key → ∀ b, b ∈ u.base ↔ b ∈ key :: rest) →
      ∀ name, (empty.run (updates ++ [⟨key :: rest, m⟩])).isAlias (key :: rest) name = true ↔
        IsAlias m.definitionList (key :: rest) name) := by
  obtain ⟨k, hk, hlist⟩ : ∃ k, AliasUpdate.kept key (updates ++ [⟨key :: rest, m⟩]) = some k ∧
      k.manuscript.definitionList = m.definitionList := exists_kept rfl
  have hkeeps := keeps_run key hreached hdistinct
  rw [hk] at hkeeps
  have hiff (name : String) :
      (empty.run (updates ++ [⟨key :: rest, m⟩])).isAlias (key :: rest) name = true ↔
        name ∈ key :: rest ∨ IsAlias m.definitionList k.base name := by
    rw [isAlias, hkeeps, ← hlist, ← Manuscript.mem_closure_iff]
    simp
  refine ⟨⟨k, hk, hiff⟩, fun hsame name => ?_⟩
  have hbase (b : String) : b ∈ k.base ↔ b ∈ key :: rest := by
    obtain ⟨hmem, hhead⟩ := mem_of_kept hk
    rcases List.mem_append.mp hmem with hmem | hmem
    · exact hsame k hmem hhead b
    · rw [List.mem_singleton.mp hmem]
  rw [hiff]
  constructor
  · rintro (hname | halias)
    · exact .base hname
    · exact halias.of_base fun b hb => .base ((hbase b).mp hb)
  · exact fun halias => .inr (halias.of_base fun b hb => .base ((hbase b).mpr hb))

/-- A command that stood for a base command no longer does so when its definition has changed,
although another base set has been asked for in between. -/
theorem isAlias_run_redefined :
    let before := Manuscript.ofDocuments [.read "a.tex" "\\def\\see\x7b\\eqref\x7d".toList]
    let after := before.replace 0 (.read "a.tex" "\\def\\see\x7b\\url\x7d".toList)
    let base := ["\\ref", "\\eqref"]
    let updates : List AliasUpdate := [⟨base, before⟩, ⟨["\\cite"], before⟩]
    let all := updates ++ [⟨base, after⟩]
    (∀ u ∈ all, u.manuscript.Reached) ∧ Distinguished (· ∈ all.map (·.manuscript)) ∧
      (∀ u ∈ updates, u.base.head? = some "\\ref" → ∀ b, b ∈ u.base ↔ b ∈ base) ∧
      (empty.run updates).isAlias base "\\see" = true ∧
      (empty.run all).isAlias base "\\see" = false ∧
      ¬ IsAlias after.definitionList base "\\see" := by
  intro before after base updates all
  have hbefore : before.Reached := .ofDocuments _
  have hreached : ∀ u ∈ all, u.manuscript.Reached := by
    simp only [all, updates, List.cons_append, List.nil_append, List.forall_mem_cons]
    exact ⟨hbefore, hbefore, .replace 0 _ hbefore, by simp⟩
  have hdistinct : Distinguished (· ∈ all.map (·.manuscript)) := by decide +kernel
  have hsame : ∀ u ∈ updates, u.base.head? = some "\\ref" → ∀ b, b ∈ u.base ↔ b ∈ base := by
    simp [updates, base]
  have hfalse : (empty.run all).isAlias base "\\see" = false := by decide +kernel
  refine ⟨hreached, hdistinct, hsame, by decide +kernel, hfalse, fun halias => ?_⟩
  have htrue := ((isAlias_run_iff hreached hdistinct).2 hsame "\\see").mpr halias
  rw [hfalse] at htrue
  cases htrue

/-- The closure of a base set is not made where that of another one is kept that begins with the
same command: of two base sets, the one that comes second misses the aliases of its other commands,
or is left with those of the other base set. -/
theorem isAlias_run_other_base :
    let m := Manuscript.ofDocuments
      [.read "main.tex" "\\newcommand\x7b\\myeq\x7d[1]\x7b\\eqref\x7b#1\x7d\x7d".toList]
    let small := ["\\ref"]
    let large := ["\\ref", "\\eqref"]
    m.Reached ∧ Distinguished (· ∈ [m, m]) ∧
      (IsAlias m.definitionList large "\\myeq" ∧
        (empty.run [⟨small, m⟩, ⟨large, m⟩]).isAlias large "\\myeq" = false) ∧
      ¬ IsAlias m.definitionList small "\\myeq" ∧
        (empty.run [⟨large, m⟩, ⟨small, m⟩]).isAlias small "\\myeq" = true := by
  intro m small large
  refine ⟨.ofDocuments _, by decide +kernel, ⟨?_, by decide +kernel⟩, ?_, by decide +kernel⟩
  · rw [← Manuscript.mem_closure_iff]
    decide +kernel
  · rw [← Manuscript.mem_closure_iff]
    decide +kernel

end AliasCache

end TexLint
