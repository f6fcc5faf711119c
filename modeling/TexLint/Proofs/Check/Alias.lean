import TexLint.Check.Alias

/-!
# What aliases depend on

The commands that are known to behave like a label command depend on the definitions of the
manuscript only, and of these on the names in them.

## The model

* `Manuscript.closure` is the closure of a base set in a manuscript.
* `Manuscript.IsCurrent` says that the fingerprint a manuscript keeps is that of its definitions,
  `Distinguished` that fingerprints tell definition lists apart.
* `AliasCache.Sound` says that a closure that is kept is the one of some manuscript of a kind,
  whose fingerprint stands beside it.

## What is proved

* `Manuscript.closure_congr`: manuscripts with the same definition list have the same closures.
* `Manuscript.IsCurrent.push`, `Manuscript.IsCurrent.replace`: a change of the documents does not
  leave a fingerprint behind that is out of date.
* `AliasCache.Sound.get?_update`: an update leaves the closure of the manuscript in the cache, if
  fingerprints tell definition lists apart.
-/

namespace TexLint

/-! ### Closures -/

/-- Adds the command of a definition, of which only the names are known. -/
def addNamed (members : List String) (d : String × List String) : List String :=
  if d.2.any (fun name => members.contains (unstarred name)) then addNew members d.1 else members

theorem addAlias_eq (members : List String) (d : Definition) :
    addAlias members d = addNamed members (d.name, d.bodyNames) := by
  rw [addAlias, addNamed, Definition.bodyNames, List.any_map]
  rfl

theorem foldl_addAlias_eq (definitions : List Definition) (members : List String) :
    definitions.foldl addAlias members =
      (definitions.map fun d => (d.name, d.bodyNames)).foldl addNamed members := by
  simp only [List.foldl_map, ← addAlias_eq]

theorem addAliases_congr {definitions definitions' : List Definition}
    (h : definitions.map (fun d => (d.name, d.bodyNames)) =
      definitions'.map fun d => (d.name, d.bodyNames)) (rounds : Nat) (members : List String) :
    addAliases definitions rounds members = addAliases definitions' rounds members := by
  induction rounds generalizing members with
  | zero => rfl
  | succ rounds ih => simp only [addAliases, foldl_addAlias_eq, h, ih]

namespace Manuscript

variable {m m' : Manuscript}

/-- The closure of a base set in a manuscript. -/
def closure (m : Manuscript) (base : List String) : List String :=
  aliasClosure (m.definitions.map (·.value)) base

/-- Closures depend on the names in the definitions only. -/
theorem closure_congr (h : m.definitionList = m'.definitionList) (base : List String) :
    m.closure base = m'.closure base := by
  have hlist : (m.definitions.map (·.value)).map (fun d => (d.name, d.bodyNames)) =
      (m'.definitions.map (·.value)).map fun d => (d.name, d.bodyNames) := by
    rw [List.map_map, List.map_map]
    exact h
  have hlength : (m.definitions.map (·.value)).length = (m'.definitions.map (·.value)).length := by
    simpa using congrArg List.length hlist
  rw [closure, closure, aliasClosure, aliasClosure, hlength, addAliases_congr hlist]

/-! ### Fingerprints that are kept -/

/-- The definitions are those of the documents. -/
theorem definitions_congr (h : m.documents = m'.documents) : m.definitions = m'.definitions := by
  rw [definitions, definitions, collect, collect, h]

theorem definitionList_congr (h : m.documents = m'.documents) :
    m.definitionList = m'.definitionList := by
  rw [definitionList, definitionList, definitions_congr h]

theorem definedCommands_congr (h : m.documents = m'.documents) :
    m.definedCommands = m'.definedCommands := by
  rw [definedCommands, definedCommands, definitions_congr h]

theorem currentFingerprint_congr (h : m.documents = m'.documents) :
    m.currentFingerprint = m'.currentFingerprint := by
  rw [currentFingerprint, currentFingerprint, definitionList_congr h]

/-- A fingerprint that is kept is that of the definitions. -/
def IsCurrent (m : Manuscript) : Prop := ∀ f ∈ m.fingerprint, f = m.currentFingerprint

theorem IsCurrent.definitionFingerprint_eq (h : m.IsCurrent) :
    m.definitionFingerprint = m.currentFingerprint := by
  rw [definitionFingerprint]
  cases hkept : m.fingerprint with
  | none => rfl
  | some f => exact h f hkept

theorem isCurrent_of_none (h : m.fingerprint = none) : m.IsCurrent := by
  intro f hf
  rw [h] at hf
  cases hf

theorem isCurrent_ofDocuments (documents : List Document) : (ofDocuments documents).IsCurrent :=
  isCurrent_of_none rfl

/-- Adding a document drops the fingerprint. -/
theorem isCurrent_push (m : Manuscript) (d : Document) : (m.push d).IsCurrent :=
  isCurrent_of_none rfl

/-- Putting a document in the place of another one drops the fingerprint, and where there is no
other one, it is still good. -/
theorem IsCurrent.replace (h : m.IsCurrent) (position : Nat) (d : Document) :
    (m.replace position d).IsCurrent := by
  by_cases hposition : position < m.documents.length
  · refine isCurrent_of_none ?_
    rw [Manuscript.replace, if_pos hposition]
  · have hsame : (m.replace position d).documents = m.documents :=
      List.set_eq_of_length_le (Nat.le_of_not_lt hposition)
    have hkept : (m.replace position d).fingerprint = m.fingerprint := by
      rw [Manuscript.replace, if_neg hposition]
    intro f hf
    rw [hkept] at hf
    rw [h f hf, currentFingerprint_congr hsame]

theorem IsCurrent.setIndexing (h : m.IsCurrent) (indexing : Bool) :
    (m.setIndexing indexing).IsCurrent := h

theorem IsCurrent.keepFingerprint (h : m.IsCurrent) : m.keepFingerprint.IsCurrent := by
  intro f hf
  obtain rfl : m.definitionFingerprint = f := by simpa [Manuscript.keepFingerprint] using hf
  exact h.definitionFingerprint_eq

end Manuscript

/-- Fingerprints tell the definition lists of the manuscripts of a kind apart. -/
def Distinguished (P : Manuscript → Prop) : Prop :=
  ∀ m, P m → ∀ m', P m' → m.definitionList ≠ m'.definitionList →
    m.currentFingerprint ≠ m'.currentFingerprint

instance (manuscripts : List Manuscript) : Decidable (Distinguished (· ∈ manuscripts)) :=
  inferInstanceAs (Decidable (∀ m ∈ manuscripts, ∀ m' ∈ manuscripts,
    m.definitionList ≠ m'.definitionList → m.currentFingerprint ≠ m'.currentFingerprint))

/-! ### Closures that are kept -/

namespace AliasCache

variable {c : AliasCache} {P : Manuscript → Prop} {m : Manuscript} {key : String}
  {rest : List String}

/-- The closure that is kept for a base set is the one in some manuscript of a kind, whose
fingerprint is kept with it. -/
def Sound (c : AliasCache) (P : Manuscript → Prop) (base : List String) : Prop :=
  ∀ key ∈ base.head?, ∀ set ∈ c.sets.get? key, ∃ m, P m ∧
    set.fingerprint = m.currentFingerprint ∧ set.members = m.closure base

theorem sound_empty (P : Manuscript → Prop) (base : List String) : empty.Sound P base := by
  intro key _ set hset
  cases hset

/-- An update leaves the closure of the manuscript in the cache. -/
theorem Sound.get?_update (h : c.Sound P (key :: rest)) (hm : P m) (hcurrent : m.IsCurrent)
    (hdistinct : Distinguished P) :
    (c.update (key :: rest) m).2.sets.get? key =
      some ⟨m.currentFingerprint, m.closure (key :: rest)⟩ := by
  rw [update]
  simp only []
  split
  · rw [OrderedMap.get?_insert, hcurrent.definitionFingerprint_eq]
    simp [Manuscript.closure]
  · next hfresh =>
    simp only [isStale, Bool.not_eq_true', Bool.not_eq_false, Option.any_eq_true, beq_iff_eq,
      hcurrent.definitionFingerprint_eq] at hfresh
    obtain ⟨⟨fingerprint, members⟩, hset, hfingerprint⟩ := hfresh
    obtain ⟨m', hm', hfingerprint', hmembers⟩ := h key rfl _ hset
    have hlist : m.definitionList = m'.definitionList :=
      Decidable.byContradiction fun hne =>
        hdistinct m hm m' hm' hne (hfingerprint.symm.trans hfingerprint')
    rw [hset, ← hfingerprint, Manuscript.closure_congr hlist, ← hmembers]

/-- An update of the empty cache leaves the closure of the manuscript in it. -/
theorem get?_update_empty (hcurrent : m.IsCurrent) :
    (empty.update (key :: rest) m).2.sets.get? key =
      some ⟨m.currentFingerprint, m.closure (key :: rest)⟩ := by
  refine (sound_empty (· = m) _).get?_update rfl hcurrent ?_
  rintro _ rfl _ rfl hne
  exact absurd rfl hne

theorem Sound.update (h : c.Sound P (key :: rest)) (hm : P m) (hcurrent : m.IsCurrent)
    (hdistinct : Distinguished P) :
    (c.update (key :: rest) m).2.Sound P (key :: rest) := by
  intro key' hkey set hset
  obtain rfl : key = key' := by simpa using hkey
  rw [h.get?_update hm hcurrent hdistinct] at hset
  cases hset
  exact ⟨m, hm, rfl, rfl⟩

/-- The manuscript that an update leaves has the documents it had. -/
theorem documents_update (c : AliasCache) (base : List String) (m : Manuscript) :
    (c.update base m).1.documents = m.documents := by
  cases base with
  | nil => rfl
  | cons key rest =>
    rw [AliasCache.update]
    simp only []
    split <;> rfl

theorem isCurrent_update (c : AliasCache) (base : List String) (h : m.IsCurrent) :
    (c.update base m).1.IsCurrent := by
  cases base with
  | nil => exact h
  | cons key rest =>
    rw [AliasCache.update]
    simp only []
    split
    · exact h.keepFingerprint
    · exact h.keepFingerprint

/-- Whether a command is an alias depends on the closure that is kept for the base set only. -/
theorem isAlias_congr {c' : AliasCache} (h : c.sets.get? key = c'.sets.get? key) (name : String) :
    c.isAlias (key :: rest) name = c'.isAlias (key :: rest) name := by
  simp only [isAlias, h]

end AliasCache

end TexLint
