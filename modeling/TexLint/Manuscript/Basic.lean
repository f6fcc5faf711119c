import TexLint.Document.Definition
import TexLint.Ordered

/-!
# Manuscripts

A manuscript is the documents of one project. The first one is the root, from which the
others are included.

The fingerprint of its definitions is kept once it has been asked for, until a document is
added or another one takes its place.
-/

namespace TexLint

/-- Why a question about a manuscript has no answer yet. -/
inductive ManuscriptError where
  /-- The host is still collecting the documents. -/
  | notReady
  /-- There is no root. -/
  | noRoot
  deriving DecidableEq, Repr

/-- The wording of an error. -/
def ManuscriptError.message : ManuscriptError → String
  | notReady => "the project index is still being built, try again later"
  | noRoot => "Main file not found"

/-- The documents of a project. -/
structure Manuscript where
  /-- The documents; a document is known by its position. -/
  documents : List Document
  /-- Whether the host is still collecting the documents. -/
  indexing : Bool
  /-- The fingerprint of the definitions, if it has been asked for since they may have changed. -/
  fingerprint : Option (List String)
  deriving DecidableEq, Repr

/-- Something in one document of a manuscript. -/
structure Located (α : Type) where
  /-- The position of the document. -/
  document : Nat
  /-- What is found there. -/
  value : α
  deriving DecidableEq, Repr

namespace Manuscript

/-- The manuscript of the given documents. -/
def ofDocuments (documents : List Document) : Manuscript := ⟨documents, false, none⟩

/-- Adds a document at the end. -/
def push (m : Manuscript) (d : Document) : Manuscript :=
  { m with documents := m.documents ++ [d], fingerprint := none }

/-- Puts a document in the place of another one. Where there is none, nothing changes. -/
def replace (m : Manuscript) (position : Nat) (d : Document) : Manuscript :=
  { m with
    documents := m.documents.set position d
    fingerprint := if position < m.documents.length then none else m.fingerprint }

/-- Says whether the host is still collecting the documents. -/
def setIndexing (m : Manuscript) (indexing : Bool) : Manuscript := { m with indexing }

/-- The root document. -/
def root (m : Manuscript) : Except ManuscriptError Document :=
  match m.documents with
  | [] => .error .noRoot
  | d :: _ => .ok d

/-- Succeeds once the documents have been collected. -/
def ensureReady (m : Manuscript) : Except ManuscriptError Unit :=
  if m.indexing then .error .notReady else .ok ()

/-- What a function finds in the documents, in order. -/
def collect {α : Type} (m : Manuscript) (f : Document → List α) : List (Located α) :=
  (m.documents.mapIdx fun position d => (f d).map (⟨position, ·⟩)).flatten

/-- All commands. -/
def commands (m : Manuscript) : List (Located CommandUsage) := m.collect (·.commands)

/-- All environments. -/
def environments (m : Manuscript) : List (Located EnvironmentUsage) := m.collect (·.environments)

/-- All definitions of commands. -/
def definitions (m : Manuscript) : List (Located Definition) := m.collect (·.definitions)

/-- The definitions of one command. -/
def definitionsOf (m : Manuscript) (name : String) : List (Located Definition) :=
  m.definitions.filter (·.value.name == name)

/-- The commands that are defined, as often as they are. -/
def definedCommands (m : Manuscript) : List String := m.definitions.map (·.value.name)

/-- Of each definition the defined command and the commands it invokes. -/
def definitionList (m : Manuscript) : List (String × List String) :=
  m.definitions.map fun d => (d.value.name, d.value.bodyNames)

/-- The names by which a change of the definitions is noticed: those of the definitions, one
after the other. -/
def currentFingerprint (m : Manuscript) : List String :=
  m.definitionList.flatMap fun (name, body) => name :: body

/-- The fingerprint of the definitions, which is made only if none is kept. -/
def definitionFingerprint (m : Manuscript) : List String :=
  m.fingerprint.getD m.currentFingerprint

/-- Keeps the fingerprint of the definitions. -/
def keepFingerprint (m : Manuscript) : Manuscript :=
  { m with fingerprint := some m.definitionFingerprint }

/-- The environments that the manuscript defines itself. -/
def definedEnvironments (m : Manuscript) : List String :=
  distinct <| (m.commands.filter (Vocabulary.definesEnvironment ·.value.name)).filterMap fun u =>
    u.value.firstRequired.bind fun group =>
      let name := trim group.interior
      if name.isEmpty then none else some (String.ofList name)

end Manuscript

end TexLint
