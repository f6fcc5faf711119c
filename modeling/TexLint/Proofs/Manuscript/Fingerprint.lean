import TexLint.Proofs.Check.Alias
import Mathlib.Data.List.Basic

/-!
# What the fingerprint of the definitions tells apart

The fingerprint lists the names in the definitions one after the other, each defined command before
the commands it invokes. It does not say where one definition ends and the next begins, so it tells
definition lists apart only where something else says that.

## The model

* `Manuscript.Reached` are the manuscripts that can come of adding and replacing documents and of
  asking for fingerprints in between.
* `Manuscript.bodySizes` says how many commands each definition invokes, and
  `Manuscript.invokedCommands` which ones.

## What is proved

* `eq_of_flatMap_eq`, `eq_of_flatMap_eq_of_heads`: a list of names is divided into definitions in
  one way only if the sizes are known, or if no name stands both before a body and in one.
* `Manuscript.definitionFingerprint_ne`: when different definitions have different fingerprints.
* `Manuscript.definitionFingerprint_regrouped`: two manuscripts that define different commands and
  have the same fingerprint.
-/

namespace TexLint

/-! ### Dividing a list of names -/

/-- The names in some definitions can be divided in one way only into definitions of given
sizes. -/
theorem eq_of_flatMap_eq {l l' : List (String × List String)}
    (h : l.flatMap (fun d => d.1 :: d.2) = l'.flatMap fun d => d.1 :: d.2)
    (hsizes : l.map (·.2.length) = l'.map (·.2.length)) : l = l' := by
  have hlength (l : List (String × List String)) :
      (l.map fun d => d.1 :: d.2).map List.length = (l.map (·.2.length)).map (· + 1) := by
    simp
  have hparts : l.map (fun d => d.1 :: d.2) = l'.map fun d => d.1 :: d.2 := by
    rw [List.eq_iff_flatten_eq, ← List.flatMap_def, ← List.flatMap_def, hlength, hlength, hsizes]
    exact ⟨h, rfl⟩
  refine List.map_injective_iff.mpr (fun d d' hd => ?_) hparts
  obtain ⟨hname, hbody⟩ := List.cons.inj hd
  exact Prod.ext hname hbody

/-- A body ends where the next name is that of a definition. -/
theorem takeWhile_body {heads body : List String} {l : List (String × List String)}
    (hbody : ∀ name ∈ body, name ∉ heads) (hl : ∀ d ∈ l, d.1 ∈ heads) :
    (body ++ l.flatMap fun d => d.1 :: d.2).takeWhile (· ∉ heads) = body := by
  rw [List.takeWhile_append_of_pos (by simpa using hbody)]
  cases l with
  | nil => simp
  | cons d l => simp [hl d List.mem_cons_self]

/-- The names in some definitions can be divided in one way only if no name stands both before a
body and in one. -/
theorem eq_of_flatMap_eq_of_heads {heads : List String} {l l' : List (String × List String)}
    (hl : ∀ d ∈ l, d.1 ∈ heads ∧ ∀ name ∈ d.2, name ∉ heads)
    (hl' : ∀ d ∈ l', d.1 ∈ heads ∧ ∀ name ∈ d.2, name ∉ heads)
    (h : l.flatMap (fun d => d.1 :: d.2) = l'.flatMap fun d => d.1 :: d.2) : l = l' := by
  induction l generalizing l' with
  | nil =>
    cases l' with
    | nil => rfl
    | cons d' l' => simp at h
  | cons d l ih =>
    cases l' with
    | nil => simp at h
    | cons d' l' =>
      rw [List.forall_mem_cons] at hl hl'
      rw [List.flatMap_cons, List.flatMap_cons, List.cons_append, List.cons_append] at h
      obtain ⟨hname, hrest⟩ := List.cons.inj h
      have hbody : d.2 = d'.2 := by
        rw [← takeWhile_body hl.1.2 fun e he => (hl.2 e he).1, hrest,
          takeWhile_body hl'.1.2 fun e he => (hl'.2 e he).1]
      rw [hbody] at hrest
      rw [Prod.ext hname hbody, ih hl.2 hl'.2 (List.append_cancel_left hrest)]

namespace Manuscript

/-! ### Manuscripts and their fingerprints -/

/-- The manuscripts that come of documents by changes and questions. -/
inductive Reached : Manuscript → Prop where
  /-- A manuscript of some documents. -/
  | ofDocuments (documents : List Document) : Reached (ofDocuments documents)
  /-- A document may be added. -/
  | push {m : Manuscript} (d : Document) : Reached m → Reached (m.push d)
  /-- A document may be put in the place of another one. -/
  | replace {m : Manuscript} (position : Nat) (d : Document) : Reached m →
      Reached (m.replace position d)
  /-- The collection of the documents may begin or end. -/
  | setIndexing {m : Manuscript} (indexing : Bool) : Reached m → Reached (m.setIndexing indexing)
  /-- The fingerprint may be asked for. -/
  | keepFingerprint {m : Manuscript} : Reached m → Reached m.keepFingerprint

variable {m m' : Manuscript}

/-- Whatever has been asked before, a manuscript keeps no fingerprint that is out of date. -/
theorem Reached.isCurrent (h : m.Reached) : m.IsCurrent := by
  induction h with
  | ofDocuments documents => exact isCurrent_ofDocuments documents
  | push d _ _ => exact isCurrent_push _ d
  | replace position d _ ih => exact ih.replace position d
  | setIndexing indexing _ ih => exact ih.setIndexing indexing
  | keepFingerprint _ ih => exact ih.keepFingerprint

/-- How many commands each definition invokes. -/
def bodySizes (m : Manuscript) : List Nat := m.definitionList.map (·.2.length)

/-- The commands that the definitions invoke. -/
def invokedCommands (m : Manuscript) : List String := m.definitionList.flatMap (·.2)

theorem mem_definedCommands {d : String × List String} (h : d ∈ m.definitionList) :
    d.1 ∈ m.definedCommands := by
  rw [definitionList, List.mem_map] at h
  obtain ⟨located, hlocated, rfl⟩ := h
  exact List.mem_map_of_mem (f := fun d : Located Definition => d.value.name) hlocated

/-- Two manuscripts with different definitions have different fingerprints if their definitions
invoke equally many commands one by one, or if none of them invokes a command that one of the
manuscripts defines: then the fingerprint shows where a definition ends. -/
theorem definitionFingerprint_ne (hm : m.Reached) (hm' : m'.Reached)
    (hne : m.definitionList ≠ m'.definitionList)
    (hends : m.bodySizes = m'.bodySizes ∨
      ∀ name ∈ m.invokedCommands ++ m'.invokedCommands,
        name ∉ m.definedCommands ++ m'.definedCommands) :
    m.definitionFingerprint ≠ m'.definitionFingerprint := by
  rw [hm.isCurrent.definitionFingerprint_eq, hm'.isCurrent.definitionFingerprint_eq]
  intro h
  refine hne ?_
  rcases hends with hsizes | hnone
  · exact eq_of_flatMap_eq h hsizes
  · have hinvoked (d : String × List String) (hd : d ∈ m.definitionList ++ m'.definitionList)
        (name : String) (hname : name ∈ d.2) :
        name ∉ m.definedCommands ++ m'.definedCommands := by
      refine hnone name ?_
      rw [invokedCommands, invokedCommands, ← List.flatMap_append]
      exact List.mem_flatMap.mpr ⟨d, hd, hname⟩
    exact eq_of_flatMap_eq_of_heads
      (fun d hd => ⟨List.mem_append_left _ (mem_definedCommands hd),
        hinvoked d (List.mem_append_left _ hd)⟩)
      (fun d hd => ⟨List.mem_append_right _ (mem_definedCommands hd),
        hinvoked d (List.mem_append_right _ hd)⟩) h

/-- A definition whose body comes to invoke another command is noticed, although the fingerprint has
been asked for before. -/
theorem definitionFingerprint_ne_cite :
    let before := ofDocuments
      [.read "main.tex" "\\newcommand\x7b\\x\x7d\x7b\\ref\x7ba\x7d\x7d".toList]
    let after := before.keepFingerprint.replace 0
      (.read "main.tex" "\\newcommand\x7b\\x\x7d\x7b\\cite\x7ba\x7d\x7d".toList)
    before.Reached ∧ after.Reached ∧ before.definitionList ≠ after.definitionList ∧
      before.bodySizes = after.bodySizes ∧
      before.definitionFingerprint ≠ after.definitionFingerprint := by
  intro before after
  have hbefore : before.Reached := .ofDocuments _
  have hafter : after.Reached := .replace 0 _ hbefore.keepFingerprint
  have hne : before.definitionList ≠ after.definitionList := by decide +kernel
  have hsizes : before.bodySizes = after.bodySizes := by decide +kernel
  exact ⟨hbefore, hafter, hne, hsizes, definitionFingerprint_ne hbefore hafter hne (.inl hsizes)⟩

/-- The last command of a body may become a command that is defined by itself: the names are the
same, one after the other, and so is the fingerprint. -/
theorem definitionFingerprint_regrouped :
    let before := ofDocuments
      [.read "main.tex" "\\newcommand\x7b\\a\x7d\x7b\\b\\c\x7d".toList]
    let after := before.replace 0
      (.read "main.tex" "\\newcommand\x7b\\a\x7d\x7b\\b\x7d\\newcommand\x7b\\c\x7d\x7b\x7d".toList)
    before.Reached ∧ after.Reached ∧
      before.definitionList = [("\\a", ["\\b", "\\c"])] ∧
      after.definitionList = [("\\a", ["\\b"]), ("\\c", [])] ∧
      before.definitionFingerprint = after.definitionFingerprint := by
  intro before after
  have hbefore : before.Reached := .ofDocuments _
  refine ⟨hbefore, .replace 0 _ hbefore, ?_, ?_, ?_⟩
  · decide +kernel
  · decide +kernel
  · decide +kernel

end Manuscript

end TexLint
