import TexLint.Knowledge.PackageIndex
import TexLint.Reach

/-!
# Which packages load which

Importing a package also imports the packages it loads, and those that they load. Some
packages exclude each other.

## The model

* A `LoadGraph` holds direct loads, their closure, and groups of packages of which at most
  one can be used.
* `rebuiltClosure` follows the direct loads of every loader as far as they go. A package is
  no load of its own, even where the loads go in a circle.
* A direct load that is new rebuilds the closure (`insertLoad`). What is imported with a
  package, and with which packages it is imported, is read off the closure.
-/

namespace TexLint

/-- Loads and conflicts between packages. -/
structure LoadGraph where
  /-- The packages that each package loads directly. -/
  loads : OrderedMap String (List String)
  /-- The packages that are imported with each loader, but for the loader itself. -/
  closure : OrderedMap String (List String)
  /-- The groups of packages that exclude each other. -/
  conflicts : List (List String)
  deriving DecidableEq, Repr

/-- Lists of loads and conflicts, from which a graph is filled and to which it is written. -/
structure LoadEntries where
  /-- The packages that each package loads directly. -/
  loads : OrderedMap String (List String)
  /-- The groups of packages that exclude each other. -/
  conflicts : List (List String)
  deriving DecidableEq, Repr

namespace LoadGraph

/-- The graph without loads and conflicts. -/
def empty : LoadGraph := ⟨.empty, .empty, []⟩

/-- The packages that a package loads directly. -/
def directLoads (g : LoadGraph) (loader : String) : List String :=
  (g.loads.get? loader).getD []

/-- All packages that some package loads directly. -/
def loaded (g : LoadGraph) : List String := distinct (g.loads.entries.flatMap Prod.snd)

/-- What the direct loads of each loader lead to. -/
def rebuiltClosure (g : LoadGraph) : OrderedMap String (List String) :=
  let bound := g.loaded
  .ofList (g.loads.keys.map fun loader => (loader, reachable bound g.directLoads loader))

/-- Finds the closure anew. -/
def rebuildClosure (g : LoadGraph) : LoadGraph := { g with closure := g.rebuiltClosure }

/-- The packages that are imported with a package, but for the package itself. -/
def transitiveLoads (g : LoadGraph) (loader : String) : List String :=
  (g.closure.get? loader).getD []

/-- The packages with which a package is imported, but for the package itself. -/
def loadersOf (g : LoadGraph) (package : String) : List String :=
  (g.closure.entries.filter (·.2.contains package)).map Prod.fst

/-- Whether one of the included packages imports a package. -/
def isLoadedByAny (g : LoadGraph) (package : String) (included : List String) : Bool :=
  (g.loadersOf package).any included.contains

/-- The first included package that excludes a package. -/
def conflictingPackage (g : LoadGraph) (package : String) (included : List String) :
    Option String :=
  ((g.conflicts.filter (·.contains package)).flatten.filter (· != package)).find?
    included.contains

/-- Whether a direct load is known. -/
def hasLoad (g : LoadGraph) (loader loaded : String) : Bool :=
  (g.directLoads loader).contains loaded

/-- Adds a direct load, and says whether it is new. One that is new rebuilds the closure. -/
def insertLoad (g : LoadGraph) (loader loaded : String) : LoadGraph × Bool :=
  let inserted := !g.hasLoad loader loaded
  let g := { g with loads := g.loads.insert loader (addNew (g.directLoads loader) loaded) }
  (if inserted then g.rebuildClosure else g, inserted)

/-- The graph with a direct load added to it. -/
def addLoad (g : LoadGraph) (loader loaded : String) : LoadGraph := (g.insertLoad loader loaded).1

@[simp] theorem addLoad_loads (g : LoadGraph) (loader loaded : String) :
    (g.addLoad loader loaded).loads =
      g.loads.insert loader (addNew (g.directLoads loader) loaded) := by
  simp only [addLoad, insertLoad, rebuildClosure]
  split <;> rfl

@[simp] theorem addLoad_conflicts (g : LoadGraph) (loader loaded : String) :
    (g.addLoad loader loaded).conflicts = g.conflicts := by
  simp only [addLoad, insertLoad, rebuildClosure]
  split <;> rfl

/-- Whether two lists without repeats have the same elements. -/
def sameMembers (a b : List String) : Bool := a.length == b.length && a.all b.contains

/-- Adds a group of packages that exclude each other. A group of fewer than two, or one
that is known in whatever order, adds nothing. -/
def addConflict (g : LoadGraph) (group : List String) : LoadGraph :=
  let group := distinct group
  if 1 < group.length && !g.conflicts.any (sameMembers group) then
    { g with conflicts := g.conflicts ++ [group] }
  else g

@[simp] theorem addConflict_loads (g : LoadGraph) (group : List String) :
    (g.addConflict group).loads = g.loads := by
  simp only [addConflict]
  split <;> rfl

/-- Adds the direct loads of one package. -/
def addLoads (g : LoadGraph) (entry : String × List String) : LoadGraph :=
  entry.2.foldl (fun g loaded => g.addLoad entry.1 loaded) g

/-- Adds entries: the loads, then the conflicts. -/
def merge (g : LoadGraph) (entries : LoadEntries) : LoadGraph :=
  entries.conflicts.foldl addConflict (entries.loads.entries.foldl addLoads g)

/-- Adds the loads that the index of installed packages lists. -/
def extendFromIndex (g : LoadGraph) (index : PackageIndex) : LoadGraph :=
  index.packages.entries.foldl
    (fun g entry => g.addLoads (entry.1, entry.2.requires.filter (· != entry.1))) g

/-- All loads and conflicts in order. -/
def toEntries (g : LoadGraph) : LoadEntries := ⟨g.loads, g.conflicts⟩

end LoadGraph

end TexLint
