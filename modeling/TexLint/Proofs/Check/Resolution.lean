import TexLint.Check.Reference
import TexLint.Proofs.Check.Alias

/-!
# Resolving with what is kept

A host keeps the aliases it has found from one question to the next, and each of its manuscripts
keeps the fingerprint of its definitions. Neither changes an answer, whatever has been asked and
changed before.

## The model

* A `Host` has manuscripts and one cache of aliases. `Host.step` is what an `Event` does to it: a
  manuscript comes in or changes, or a command is resolved.
* `Host.met` are the manuscripts as they are met in a run, `Host.Sound` says that what a host keeps
  is good.

## What is proved

* `resolve_found_congr`: what a command refers to depends on the documents of the manuscript and on
  the closure that is kept for the label commands.
* `Host.Sound.step`: what a host keeps is sound after a step if it was so before.
* `Host.resolve_run`: in every run, a command is resolved as it is with nothing kept.
-/

namespace TexLint

/-- What a host does with its manuscripts, each of which it knows by its position. -/
inductive Event where
  /-- A new manuscript comes in. -/
  | load (documents : List Document)
  /-- A document is added to a manuscript. -/
  | push (position : Nat) (d : Document)
  /-- A document of a manuscript is put in the place of another one. -/
  | replace (position document : Nat) (d : Document)
  /-- The collection of the documents of a manuscript begins or ends. -/
  | setIndexing (position : Nat) (indexing : Bool)
  /-- The fingerprint of a manuscript is asked for. -/
  | fingerprint (position : Nat)
  /-- A command is resolved against a manuscript. -/
  | resolve (position : Nat) (catalogue : Catalogue) (u : CommandUsage)

/-- The manuscripts of a host and the aliases it keeps. -/
structure Host where
  /-- The manuscripts. -/
  manuscripts : List Manuscript
  /-- The aliases. -/
  aliases : AliasCache

namespace Host

/-- A host that has no manuscript and keeps nothing. -/
def start : Host := ⟨[], .empty⟩

/-- Changes a manuscript of a host. -/
def change (h : Host) (position : Nat) (f : Manuscript → Manuscript) : Host :=
  match h.manuscripts[position]? with
  | some m => { h with manuscripts := h.manuscripts.set position (f m) }
  | none => h

/-- The host after an event. -/
def step (h : Host) : Event → Host
  | .load documents => { h with manuscripts := h.manuscripts ++ [.ofDocuments documents] }
  | .push position d => h.change position (·.push d)
  | .replace position document d => h.change position (·.replace document d)
  | .setIndexing position indexing => h.change position (·.setIndexing indexing)
  | .fingerprint position => h.change position (·.keepFingerprint)
  | .resolve position catalogue u =>
    match h.manuscripts[position]? with
    | none => h
    | some m =>
      match TexLint.resolve catalogue m h.aliases u with
      | .error _ => h
      | .ok r => ⟨h.manuscripts.set position r.manuscript, r.aliases⟩

/-- The host after a sequence of events. -/
def run (h : Host) (events : List Event) : Host := events.foldl step h

/-- The manuscripts that are met in a run, as they are before an event or at the end. -/
def met (h : Host) : List Event → List Manuscript
  | [] => h.manuscripts
  | e :: events => h.manuscripts ++ (h.step e).met events

end Host

/-! ### What a command refers to -/

/-- What a command refers to depends on the aliases of the label commands only. -/
theorem references_congr {aliases aliases' : AliasCache}
    (h : ∀ name, aliases.isAlias Vocabulary.labelReferences name =
      aliases'.isAlias Vocabulary.labelReferences name)
    (catalogue : Catalogue) (defined : List String) (u : CommandUsage) :
    references catalogue defined aliases u = references catalogue defined aliases' u := by
  simp only [references, h]

/-- The closure of the label commands is kept under the first of them. -/
theorem exists_labelReferences_eq_cons : ∃ key rest, Vocabulary.labelReferences = key :: rest :=
  ⟨_, _, rfl⟩

theorem resolve_eq (catalogue : Catalogue) (m : Manuscript) (aliases : AliasCache)
    (u : CommandUsage) : resolve catalogue m aliases u =
      if m.indexing then .error .notReady
      else
        let kept := aliases.update Vocabulary.labelReferences m
        .ok ⟨references catalogue m.definedCommands kept.2 u, kept.1, kept.2⟩ := by
  have hdefined : (aliases.update Vocabulary.labelReferences m).1.definedCommands =
      m.definedCommands := Manuscript.definedCommands_congr (AliasCache.documents_update ..)
  rw [← hdefined]
  cases hindexing : m.indexing with
  | true => simp [resolve, Manuscript.ensureReady, hindexing, bind, Except.bind]
  | false => simp [resolve, Manuscript.ensureReady, hindexing, bind, Except.bind, pure, Except.pure]

/-- What a command refers to depends on the documents of the manuscript and on the closure that is
kept for the label commands. -/
theorem resolve_found_congr {m m' : Manuscript} {aliases aliases' : AliasCache}
    {key : String} {rest : List String} (hkey : Vocabulary.labelReferences = key :: rest)
    (hdocuments : m.documents = m'.documents) (hindexing : m.indexing = m'.indexing)
    (h : (aliases.update Vocabulary.labelReferences m).2.sets.get? key =
      (aliases'.update Vocabulary.labelReferences m').2.sets.get? key)
    (catalogue : Catalogue) (u : CommandUsage) :
    (resolve catalogue m aliases u).map (·.found) =
      (resolve catalogue m' aliases' u).map (·.found) := by
  have hreferences : references catalogue m.definedCommands
      (aliases.update Vocabulary.labelReferences m).2 u =
        references catalogue m'.definedCommands
          (aliases'.update Vocabulary.labelReferences m').2 u := by
    rw [Manuscript.definedCommands_congr hdocuments]
    refine references_congr (fun name => ?_) ..
    rw [hkey] at h ⊢
    exact AliasCache.isAlias_congr h name
  rw [resolve_eq, resolve_eq, hindexing]
  cases m'.indexing with
  | true => rfl
  | false => exact congrArg Except.ok hreferences

/-! ### What a host keeps -/

namespace Host

variable {h : Host} {P : Manuscript → Prop}

/-- What a host keeps is good: the fingerprints of its manuscripts are those of their definitions,
and the closure of the label commands is the one in some manuscript that has been met. -/
structure Sound (P : Manuscript → Prop) (h : Host) : Prop where
  /-- The fingerprints. -/
  current : ∀ m ∈ h.manuscripts, m.IsCurrent
  /-- The closure. -/
  aliases : h.aliases.Sound P Vocabulary.labelReferences

theorem sound_start (P : Manuscript → Prop) : start.Sound P where
  current := by simp [start]
  aliases := AliasCache.sound_empty P _

theorem Sound.change (hsound : h.Sound P) (position : Nat) {f : Manuscript → Manuscript}
    (hf : ∀ m, m.IsCurrent → (f m).IsCurrent) : (h.change position f).Sound P := by
  rw [Host.change]
  split
  · next m hm =>
    refine ⟨fun m' hm' => ?_, hsound.aliases⟩
    rcases List.mem_or_eq_of_mem_set hm' with hm' | rfl
    · exact hsound.current m' hm'
    · exact hf m (hsound.current m (List.mem_of_getElem? hm))
  · exact hsound

/-- What a host keeps is good after an event if it was so before and if fingerprints tell the
definition lists of the manuscripts apart that have been met. -/
theorem Sound.step (hsound : h.Sound P) (hmet : ∀ m ∈ h.manuscripts, P m)
    (hdistinct : Distinguished P) (e : Event) : (h.step e).Sound P := by
  cases e with
  | load documents =>
    refine ⟨fun m hm => ?_, hsound.aliases⟩
    rcases List.mem_append.mp hm with hm | hm
    · exact hsound.current m hm
    · rw [List.mem_singleton.mp hm]
      exact Manuscript.isCurrent_ofDocuments documents
  | push position d => exact hsound.change position fun m _ => m.isCurrent_push d
  | replace position document d => exact hsound.change position fun m hm => hm.replace document d
  | setIndexing position indexing =>
    exact hsound.change position fun m hm => hm.setIndexing indexing
  | fingerprint position => exact hsound.change position fun m hm => hm.keepFingerprint
  | resolve position catalogue u =>
    rw [Host.step]
    split
    · exact hsound
    · next m hm =>
      have hmem := List.mem_of_getElem? hm
      have hcurrent := hsound.current m hmem
      rw [resolve_eq]
      cases m.indexing with
      | true => exact hsound
      | false =>
        refine ⟨fun m' hm' => ?_, hsound.aliases.update (hmet m hmem) hcurrent hdistinct⟩
        rcases List.mem_or_eq_of_mem_set hm' with hm' | rfl
        · exact hsound.current m' hm'
        · exact AliasCache.isCurrent_update _ _ hcurrent

/-- What a host keeps is good after a run. -/
theorem Sound.run {events : List Event} (hsound : h.Sound P) (hmet : ∀ m ∈ h.met events, P m)
    (hdistinct : Distinguished P) : (h.run events).Sound P := by
  induction events generalizing h with
  | nil => exact hsound
  | cons e events ih =>
    have hbefore : ∀ m ∈ h.manuscripts, P m := fun m hm => hmet m (List.mem_append_left _ hm)
    exact ih (hsound.step hbefore hdistinct e) fun m hm => hmet m (List.mem_append_right _ hm)

/-- The manuscripts at the end of a run have been met. -/
theorem mem_met_of_mem_run {events : List Event} {m : Manuscript}
    (hm : m ∈ (h.run events).manuscripts) : m ∈ h.met events := by
  induction events generalizing h with
  | nil => exact hm
  | cons e events ih => exact List.mem_append_right _ (ih hm)

/-- Whatever has come in, changed and been resolved before, a command is resolved as it is with an
empty cache, and as it is when the manuscript keeps no fingerprint either. -/
theorem resolve_run {events : List Event} (hdistinct : Distinguished (· ∈ start.met events))
    {position : Nat} {m : Manuscript} (hm : (start.run events).manuscripts[position]? = some m)
    (catalogue : Catalogue) (u : CommandUsage) :
    (resolve catalogue m (start.run events).aliases u).map (·.found) =
        (resolve catalogue m .empty u).map (·.found) ∧
      (resolve catalogue m .empty u).map (·.found) =
        (resolve catalogue { m with fingerprint := none } .empty u).map (·.found) := by
  obtain ⟨key, rest, hkey⟩ := exists_labelReferences_eq_cons
  have hsound := (sound_start (· ∈ start.met events)).run (fun _ => id) hdistinct
  have hmem := List.mem_of_getElem? hm
  have hmet : m ∈ start.met events := mem_met_of_mem_run hmem
  have hcurrent : m.IsCurrent := hsound.current m hmem
  have haliases : (start.run events).aliases.Sound (· ∈ start.met events) (key :: rest) := by
    rw [← hkey]
    exact hsound.aliases
  have hempty : (AliasCache.empty.update Vocabulary.labelReferences m).2.sets.get? key =
      some ⟨m.currentFingerprint, m.closure Vocabulary.labelReferences⟩ := by
    rw [hkey]
    exact AliasCache.get?_update_empty hcurrent
  constructor
  · refine resolve_found_congr hkey rfl rfl ?_ catalogue u
    rw [hempty, hkey]
    exact haliases.get?_update hmet hcurrent hdistinct
  · let m' : Manuscript := { m with fingerprint := none }
    have hdocuments : m.documents = m'.documents := rfl
    have hindexing : m.indexing = m'.indexing := rfl
    have hcurrent' : m'.IsCurrent := Manuscript.isCurrent_of_none rfl
    refine resolve_found_congr hkey hdocuments hindexing ?_ catalogue u
    rw [hempty, hkey, AliasCache.get?_update_empty hcurrent',
      Manuscript.currentFingerprint_congr hdocuments,
      Manuscript.closure_congr (Manuscript.definitionList_congr hdocuments)]

/-- A command that stood for a label command and stands for another one now is resolved as what it
is, although it is kept among the aliases. -/
theorem resolve_run_redefined :
    let before := Document.read "a.tex" "\\def\\see\x7b\\ref\x7d".toList
    let after := Document.read "a.tex" "\\def\\see\x7b\\url\x7d".toList
    let argument : Parameter := ⟨.required, 4, "\x7ba\x7d".toList, [.text ['a']]⟩
    let u : CommandUsage := ⟨"\\see", ⟨0, 7⟩, [argument], 0⟩
    let events : List Event := [.load [before], .resolve 0 .empty u, .replace 0 0 after]
    Distinguished (· ∈ start.met events) ∧
      (start.run events).aliases.isAlias Vocabulary.labelReferences "\\see" = true ∧
      ∃ m, (start.run events).manuscripts[0]? = some m ∧
        (resolve .empty m (start.run events).aliases u).map (·.found) =
          .ok [.definition "\\see"] := by
  intro before after argument u events
  have hdistinct : Distinguished (· ∈ start.met events) := by decide +kernel
  have hkept : (start.run events).aliases.isAlias Vocabulary.labelReferences "\\see" = true := by
    decide +kernel
  have hafter : (start.run events).manuscripts[0]? = some (.ofDocuments [after]) := by
    decide +kernel
  have hfresh : references .empty (Manuscript.ofDocuments [after]).definedCommands
      (AliasCache.empty.update Vocabulary.labelReferences (.ofDocuments [after])).2 u =
        [.definition "\\see"] := by decide +kernel
  refine ⟨hdistinct, hkept, _, hafter, (resolve_run hdistinct hafter .empty u).1.trans ?_⟩
  rw [resolve_eq]
  exact congrArg Except.ok hfresh

end Host

end TexLint
