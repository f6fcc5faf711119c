import TexLint.Check.Reference
import TexLint.Files.Tree

/-!
# Loading a manuscript

A manuscript is read from files: the root, then the files that it includes, and those
that they include, in the order in which they are first mentioned.

## The model

* A comment near the start of a file may name the root of its manuscript (`magicRoot?`).
* Paths of included files are read from the directory of the root, whatever file
  mentions them; a path without an extension gets the one that its command prescribes.
* `LoadContext.step?` reads the next file that waits, `LoadContext.run` all that wait. A
  path that has been seen does not wait again, and every path that comes to wait is one
  that some file of the tree may include (`LoadContext.bound`), so the run ends.
* A path without an extension for which an unfit one is prescribed ends a run early.
-/

namespace TexLint

/-- The rest of a text behind the given character at its start. -/
def afterChar? (c : Char) : Text → Option Text
  | [] => none
  | d :: rest => if d = c then some rest else none

/-- The root that a line names in a comment such as `%!TEX root = main.tex`. -/
def magicRootOfLine? (line : Text) : Option String := do
  let comment ← afterChar? '%' (trimStart line)
  let content ← afterChar? '!' (trimStart comment)
  let content := trimStart content
  if !"tex root".toList.isPrefixOf (content.map Char.toLower) then none
  let value ← afterChar? '=' (content.dropWhile (· != '='))
  let value := trim value
  if value.isEmpty then none else some (String.ofList value)

/-- The root that one of the first five lines of a file names. -/
def magicRoot? (text : Text) : Option String :=
  ((splitOnChar '\n' text).take 5).findSome? magicRootOfLine?

/-- What the files of a manuscript are loaded with. -/
structure LoadContext where
  /-- The files that can be seen. -/
  files : FileTree
  /-- What is known of the commands that include files. -/
  catalogue : Catalogue
  /-- The directory of the root. -/
  base : String

namespace LoadContext

/-- The path of an included file that a reference of a command names, unless the extension
that the command prescribes is unfit. -/
def pathOf? (c : LoadContext) (text : Text) (u : CommandUsage) (r : Reference) :
    Option (Except Path.UnfitExtension String) :=
  match r with
  | .file _ argument =>
    (r.target? u text).map fun target =>
      Path.withDefaultExtension (Path.join c.base (String.ofList (trim target)))
        argument.defaultExtension
  | _ => none

/-- The commands of a document that include files. -/
def includeCommands (d : Document) : List CommandUsage :=
  d.commands.filter (Vocabulary.includes.contains ·.name)

/-- The paths that a text would include if no command in it were an alias. -/
def possibleIncludes (c : LoadContext) (text : Text) : List String :=
  (includeCommands (.read "" text)).flatMap fun u =>
    (filesOf c.catalogue u).filterMap fun r => (c.pathOf? text u r).bind Except.toOption

/-- The paths of the files that the last document of a manuscript includes, as far as
there are such files, with the aliases brought up to date if there is a question. -/
def includes (c : LoadContext) (m : Manuscript) (d : Document) (aliases : AliasCache) :
    Except Path.UnfitExtension (Resolved (List String)) :=
  match includeCommands d with
  | [] => .ok ⟨[], m, aliases⟩
  | commands =>
    let (m, aliases) := aliases.update Vocabulary.labelReferences m
    let defined := m.definedCommands
    let paths := commands.flatMap fun u =>
      (references c.catalogue defined aliases u).filterMap (c.pathOf? d.text u)
    (paths.mapM id).map fun paths => ⟨paths.filter c.files.isFile, m, aliases⟩

/-- All paths that a file of the tree may include, by their components. -/
def bound (c : LoadContext) : List (List String) :=
  c.files.entries.entries.flatMap fun e =>
    match e.2 with
    | .directory => []
    | .file content => ((Bytes.text? content).elim [] c.possibleIncludes).map Path.components

/-- Every file among the references of a command is among the files it names. -/
theorem mem_filesOf_of_mem_references {catalogue : Catalogue} {defined : List String}
    {aliases : AliasCache} {u : CommandUsage} {s : Span} {a : FileArgument}
    (h : Reference.file s a ∈ references catalogue defined aliases u) :
    Reference.file s a ∈ filesOf catalogue u := by
  have none (l : List String) : Reference.file s a ∉ definitionReference l u := by
    unfold definitionReference
    split <;> simp
  unfold references at h
  split at h
  · exact absurd h (none _)
  · split at h
    · simp at h
    · dsimp only at h
      split at h
      · exact h
      · split at h
        · simp at h
        · exact absurd h (none _)

/-- A list of answers has all its values only if none of them is an error. -/
theorem mapM_id_eq_ok_iff {ε α : Type} {answers : List (Except ε α)} {values : List α} :
    answers.mapM id = .ok values ↔ answers = values.map .ok := by
  induction answers generalizing values with
  | nil => cases values <;> simp [pure, Except.pure]
  | cons answer answers ih =>
    rw [List.mapM_cons]
    cases answer with
    | error e => cases values <;> simp [bind, Except.bind]
    | ok value =>
      cases values with
      | nil => cases h : answers.mapM id <;> simp [bind, Except.bind, pure, Except.pure]
      | cons head tail =>
        rw [List.map_cons, List.cons.injEq, ← ih]
        cases h : answers.mapM id <;> simp [bind, Except.bind, pure, Except.pure]

theorem exists_of_map_eq_ok {ε α β : Type} {f : α → β} {x : Except ε α} {b : β}
    (h : x.map f = .ok b) : ∃ a, x = .ok a ∧ f a = b := by
  cases x with
  | error e => cases h
  | ok a => exact ⟨a, rfl, Except.ok.inj h⟩

/-- What a document includes is among what its text may include. -/
theorem mem_possibleIncludes {c : LoadContext} {m : Manuscript} {path p : String} {text : Text}
    {aliases : AliasCache} {r : Resolved (List String)}
    (h : c.includes m (.read path text) aliases = .ok r) (hp : p ∈ r.found) :
    p ∈ c.possibleIncludes text := by
  unfold includes at h
  split at h
  · cases h
    cases hp
  · obtain ⟨paths, hpaths, rfl⟩ := exists_of_map_eq_ok h
    obtain ⟨hp, -⟩ := List.mem_filter.1 hp
    have hanswer := mapM_id_eq_ok_iff.1 hpaths ▸ List.mem_map_of_mem (f := Except.ok) hp
    simp only [List.mem_flatMap, List.mem_filterMap] at hanswer
    obtain ⟨u, hu, reference, hreference, hpath⟩ := hanswer
    have hpossible : (c.pathOf? text u reference).bind Except.toOption = some p :=
      Option.bind_eq_some_iff.2 ⟨_, hpath, rfl⟩
    refine List.mem_flatMap.2 ⟨u, hu, List.mem_filterMap.2 ⟨reference, ?_, hpossible⟩⟩
    cases reference with
    | file s a => exact mem_filesOf_of_mem_references hreference
    | label | url | definition => cases hpath

/-- What a file that can be read may include is within the bound. -/
theorem components_mem_bound {c : LoadContext} {path p : String} {text : Text}
    (hread : c.files.readText path = .ok text) (hp : p ∈ c.possibleIncludes text) :
    Path.components p ∈ c.bound := by
  obtain ⟨place, content, hmem, htext⟩ := FileTree.exists_mem_of_readText hread
  refine List.mem_flatMap.2 ⟨_, hmem, ?_⟩
  simp only [htext, Option.elim_some]
  exact List.mem_map_of_mem hp

end LoadContext

/-- The paths that wait to be read, and the components of those that have been seen. -/
structure Waiting where
  /-- The paths to be read, the next one first. -/
  queue : List String
  /-- The components of the paths that have waited. -/
  seen : List (List String)

namespace Waiting

/-- Lets a path wait unless it has been seen. -/
def add (w : Waiting) (path : String) : Waiting :=
  if w.seen.contains (Path.components path) then w
  else ⟨w.queue ++ [path], Path.components path :: w.seen⟩

/-- How many more rounds a run can take if only paths within a bound can come to wait. -/
def rounds (bound : List (List String)) (w : Waiting) : Nat :=
  w.queue.length + bound.countP fun k => !w.seen.contains k

/-- Counting fewer elements, one of them at least, gives less. -/
theorem countP_lt_countP {α : Type} {p q : α → Bool} {l : List α} {a : α}
    (hpq : ∀ x, p x = true → q x = true) (hl : a ∈ l) (hp : p a = false) (hq : q a = true) :
    l.countP p < l.countP q := by
  induction l with
  | nil => simp at hl
  | cons x l ih =>
    have le : l.countP p ≤ l.countP q := List.countP_mono_left fun y _ => hpq y
    simp only [List.countP_cons]
    rcases List.mem_cons.1 hl with rfl | hl
    · simp only [hp, hq, Bool.false_eq_true, ↓reduceIte]
      omega
    · have lt := ih hl
      cases hx : p x with
      | false =>
        simp only [Bool.false_eq_true, ↓reduceIte]
        split <;> omega
      | true =>
        simp only [hpq x hx, ↓reduceIte]
        omega

theorem rounds_add_le {bound : List (List String)} {w : Waiting} {path : String}
    (h : Path.components path ∈ bound) : (w.add path).rounds bound ≤ w.rounds bound := by
  unfold add
  split
  · exact Nat.le_refl _
  · next hseen =>
    have lt := countP_lt_countP
      (p := fun k => !(Path.components path :: w.seen).contains k)
      (q := fun k => !w.seen.contains k) (fun k hk => by simp_all) h (by simp)
      (by simpa using hseen)
    simp only [rounds, List.length_append, List.length_singleton]
    omega

theorem rounds_foldl_add_le {bound : List (List String)} {w : Waiting} {paths : List String}
    (h : ∀ p ∈ paths, Path.components p ∈ bound) :
    (paths.foldl add w).rounds bound ≤ w.rounds bound := by
  induction paths generalizing w with
  | nil => exact Nat.le_refl _
  | cons p paths ih =>
    exact Nat.le_trans (ih fun q hq => h q (List.mem_cons_of_mem _ hq))
      (rounds_add_le (h p List.mem_cons_self))

end Waiting

/-- How far a manuscript has been loaded. -/
structure Loading where
  /-- What waits to be read. -/
  waiting : Waiting
  /-- The documents that have been read. -/
  manuscript : Manuscript
  /-- The aliases, as they are kept from one document to the next. -/
  aliases : AliasCache

/-- Nothing but the root waits, and nothing has been read. -/
def Loading.start (root : String) : Loading :=
  ⟨⟨[root], [Path.components root]⟩, .ofDocuments [], .empty⟩

namespace LoadContext

/-- Reads the next file that waits. A file that cannot be read is passed over. -/
def step? (c : LoadContext) (s : Loading) : Option (Except Path.UnfitExtension Loading) :=
  match s.waiting.queue with
  | [] => none
  | path :: rest =>
    let waiting := { s.waiting with queue := rest }
    match c.files.readText path with
    | .error _ => some (.ok { s with waiting })
    | .ok text =>
      let d := Document.read path text
      some <| (c.includes (s.manuscript.push d) d s.aliases).map fun included =>
        ⟨included.found.foldl Waiting.add waiting, included.manuscript, included.aliases⟩

/-- A step passes over the next path or reads the document there, behind which the files that
it includes come to wait. -/
theorem step?_cases {c : LoadContext} {s s' : Loading} (h : c.step? s = some (.ok s')) :
    ∃ path rest, s.waiting.queue = path :: rest ∧
      ((∃ e, c.files.readText path = .error e ∧
          s' = { s with waiting := { s.waiting with queue := rest } }) ∨
        ∃ text included, c.files.readText path = .ok text ∧
          c.includes (s.manuscript.push (.read path text)) (.read path text) s.aliases =
            .ok included ∧
          s' = ⟨included.found.foldl Waiting.add { s.waiting with queue := rest },
            included.manuscript, included.aliases⟩) := by
  unfold step? at h
  split at h
  · cases h
  · next path rest hqueue =>
    refine ⟨path, rest, hqueue, ?_⟩
    split at h
    · next e hread =>
      cases h
      exact .inl ⟨e, hread, rfl⟩
    · next text hread =>
      obtain ⟨included, hincludes, rfl⟩ := exists_of_map_eq_ok (Option.some.inj h)
      exact .inr ⟨text, included, hread, hincludes, rfl⟩

/-- Every step brings the end nearer. -/
theorem rounds_lt_of_step? {c : LoadContext} {s s' : Loading} (h : c.step? s = some (.ok s')) :
    s'.waiting.rounds c.bound < s.waiting.rounds c.bound := by
  obtain ⟨path, rest, hqueue, ⟨_, -, rfl⟩ | ⟨text, included, hread, hincludes, rfl⟩⟩ :=
    step?_cases h
  · simp [Waiting.rounds, hqueue]
  · refine Nat.lt_of_le_of_lt (Waiting.rounds_foldl_add_le fun p hp => ?_) ?_
    · exact components_mem_bound hread (mem_possibleIncludes hincludes hp)
    · simp [Waiting.rounds, hqueue]

/-- Reads the files that wait and those that come to wait. -/
def run (c : LoadContext) (s : Loading) : Except Path.UnfitExtension Manuscript :=
  match _h : c.step? s with
  | none => .ok s.manuscript
  | some (.error e) => .error e
  | some (.ok next) => c.run next
termination_by s.waiting.rounds c.bound
decreasing_by exact rounds_lt_of_step? _h

end LoadContext

/-- Why a manuscript cannot be loaded. -/
inductive LoadError where
  /-- A file cannot be read. -/
  | unreadable (path : String)
  /-- An unfit extension is prescribed for a path that has none. -/
  | unfitExtension (extension : String)
  deriving DecidableEq, Repr

namespace Manuscript

/-- The root of the manuscript that a file belongs to: the one that the file names, if
there is such a file, or the file itself. -/
def rootPath (files : FileTree) (path : String) : Except LoadError String :=
  match files.readText path with
  | .error _ => .error (.unreadable path)
  | .ok text =>
    match magicRoot? text with
    | none => .ok path
    | some named =>
      let root := Path.join ((Path.parent? path).getD "") named
      .ok (if files.isFile root then root else path)

/-- What the manuscript with the given root is loaded with. -/
def loadContext (files : FileTree) (catalogue : Catalogue) (root : String) : LoadContext :=
  ⟨files, catalogue, (Path.parent? root).getD ""⟩

/-- The manuscript that a file belongs to. -/
def load (files : FileTree) (catalogue : Catalogue) (path : String) :
    Except LoadError Manuscript := do
  let root ← rootPath files path
  match files.readText root with
  | .error _ => .error (.unreadable root)
  | .ok _ =>
    match (loadContext files catalogue root).run (.start root) with
    | .error e => .error (.unfitExtension e.extension)
    | .ok m => .ok m

end Manuscript

end TexLint
