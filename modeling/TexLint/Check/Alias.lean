import TexLint.Manuscript.Basic

/-!
# Aliases of commands

A command that a manuscript defines through a known command behaves like the known one:
with `\newcommand{\see}[1]{\ref{#1}}` in it, `\see` refers to labels as `\ref` does.

## The model

* `aliasClosure` adds to a base set the defined commands that invoke a member, as long
  as there are any.
* `AliasCache` keeps closures between questions. A closure is kept under the first
  command of its base set and is taken to be good while the definitions have the same
  fingerprint.
-/

namespace TexLint

/-- Adds the command of a definition whose body invokes a member, whatever star the
invocation has. -/
def addAlias (members : List String) (d : Definition) : List String :=
  if d.body.any (fun u => members.contains u.baseName) then addNew members d.name else members

/-- Goes through the definitions until nothing is added, at most `rounds` times. -/
def addAliases (definitions : List Definition) : (rounds : Nat) → List String → List String
  | 0, members => members
  | rounds + 1, members =>
    let more := definitions.foldl addAlias members
    if more.length = members.length then more else addAliases definitions rounds more

/-- The base commands and all commands defined through them. Every round but the last
adds the command of some definition, so there are enough rounds. -/
def aliasClosure (definitions : List Definition) (base : List String) : List String :=
  addAliases definitions (definitions.length + 1) (distinct base)

/-- A closure that is kept. -/
structure AliasSet where
  /-- The fingerprint of the definitions it was made from. -/
  fingerprint : List String
  /-- The commands in it. -/
  members : List String
  deriving DecidableEq, Repr

/-- The closures that are kept, by the first command of the base set. -/
structure AliasCache where
  /-- The closures. -/
  sets : OrderedMap String AliasSet
  deriving DecidableEq, Repr

namespace AliasCache

/-- The cache that keeps nothing. -/
def empty : AliasCache := ⟨.empty⟩

/-- The commands that are known to behave like the given one, itself among them. -/
def aliases (c : AliasCache) (base : String) : List String :=
  match c.sets.entries.find? (·.2.members.contains base) with
  | some (_, set) => set.members
  | none => [base]

/-- Whether a command is in a base set or is known to behave like its first command. -/
def isAlias (c : AliasCache) (base : List String) (name : String) : Bool :=
  base.contains name ||
    match base with
    | [] => false
    | key :: _ => (c.sets.get? key).any (·.members.contains name)

/-- Whether the closure kept for a base set is out of date. There is none for the empty
set. -/
def isStale (c : AliasCache) (base : List String) (m : Manuscript) : Bool :=
  match base with
  | [] => false
  | key :: _ => !(c.sets.get? key).any (·.fingerprint == m.definitionFingerprint)

/-- Makes the closure of a base set anew if the one that is kept is out of date. The
manuscript keeps the fingerprint that this asks for. -/
def update (c : AliasCache) (base : List String) (m : Manuscript) : Manuscript × AliasCache :=
  match base with
  | [] => (m, c)
  | key :: _ =>
    let kept := m.keepFingerprint
    if c.isStale base m then
      let members := aliasClosure (m.definitions.map (·.value)) base
      (kept, ⟨c.sets.insert key ⟨m.definitionFingerprint, members⟩⟩)
    else (kept, c)

end AliasCache

end TexLint
