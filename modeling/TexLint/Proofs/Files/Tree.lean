import TexLint.Files.Tree
import TexLint.Proofs.Text.Utf8

/-!
# Walks in a file tree

Where a path leads, and what a file holds after it has been written.

## The model

* A walk takes one step for each piece of the path. The tree decides only whether it gets
  through: each place that it leaves must be a directory.
* `Path.place` is where the components of a path lead if it leads anywhere.

## What is proved

* `FileTree.walk_eq_ok_iff`: a walk ends where its steps lead, if it leaves directories only
  and meets no name that is too long.
* `FileTree.readBytes_writeFile`, `FileTree.readText_writeFile`: what has been written is read.
* `FileTree.place_of_find`: a path that leads anywhere leads where its components lead.
* `Path.components_eq_of_place_eq`: two paths lead to one place only if they have the same
  components, one of them leads upwards, or only one of them begins with a dot.
* `FileTree.readText_of_components`: two paths with the same components that both lead to
  files lead to the same file.
-/

namespace TexLint

namespace FileTree

variable {t t' : FileTree} {path : String} {content : Bytes} {place start : Place}
  {pieces : List String}

/-! ### Walks -/

/-- The places that a walk leaves, with the pieces that it leaves them by. -/
def departures (place : Place) : List String → List (Place × String)
  | [] => []
  | piece :: pieces => (place, piece) :: departures (stepPlace place piece) pieces

/-- A walk leaves directories by names that are not too long, and ends where its steps lead. -/
theorem walk_eq_ok_iff :
    t.walk start pieces = .ok place ↔
      (∀ d ∈ departures start pieces,
        t.entry? d.1 = some .directory ∧ Path.isTooLongName d.2 = false) ∧
      pieces.foldl stepPlace start = place := by
  induction pieces generalizing start with
  | nil => simp [walk, departures]
  | cons piece pieces ih =>
    rw [walk, departures, List.forall_mem_cons, List.foldl_cons, and_assoc, ← ih]
    cases t.entry? start with
    | none => simp
    | some entry =>
      cases entry with
      | file => simp
      | directory => cases Path.isTooLongName piece <;> simp

theorem departures_append (before after : List String) :
    departures start (before ++ after) =
      departures start before ++ departures (before.foldl stepPlace start) after := by
  induction before generalizing start with
  | nil => rfl
  | cons piece before ih => rw [List.cons_append, departures, departures, ih]; rfl

/-- A path that leads anywhere leads where its steps lead. -/
theorem find_eq_ok {entry : Entry} (h : t.find path = .ok (place, entry)) :
    refusal? path = none ∧ t.walk (startOf path).1 (startOf path).2 = .ok place ∧
      t.entry? place = some entry := by
  unfold find at h
  split at h
  · cases h
  · next hrefusal =>
    dsimp only at h
    split at h
    · cases h
    · next hwalk =>
      split at h
      · cases h
      · next hentry =>
        cases h
        exact ⟨hrefusal, hwalk, hentry⟩

theorem find_of_walk {entry : Entry} (hrefusal : refusal? path = none)
    (hwalk : t.walk (startOf path).1 (startOf path).2 = .ok place)
    (hentry : t.entry? place = some entry) : t.find path = .ok (place, entry) := by
  simp only [find, hrefusal, hwalk, hentry]

/-! ### Writing -/

theorem entry?_insert_of_ne {p : Place} {entry : Entry} (h : p ≠ place) :
    entry? ⟨t.entries.insert place entry⟩ p = t.entry? p := by
  unfold entry?
  simp [h]

/-- A place that is not a directory can be given any entry. -/
theorem entry?_insert_self {entry : Entry} (h : t.entry? place ≠ some .directory) :
    entry? ⟨t.entries.insert place entry⟩ place = some entry := by
  unfold entry? at h ⊢
  split at h
  · exact absurd rfl h
  · next hgiven => simp [hgiven]

/-- A file is written at a place in a directory that is not one itself. -/
theorem writeFile_cases (h : t.writeFile path content = some t') :
    ∃ directory before name, (startOf path).2 = before ++ [name] ∧ refusal? path = none ∧
      Path.isTooLongName name = false ∧ t.walk (startOf path).1 before = .ok directory ∧
      t.entry? directory = some .directory ∧
      t.entry? (stepPlace directory name) ≠ some .directory ∧
      t' = ⟨t.entries.insert (stepPlace directory name) (.file content)⟩ := by
  unfold writeFile at h
  dsimp only at h
  split at h
  · cases h
  · next name before hpieces =>
    split at h
    · cases h
    · next hfit =>
      simp only [Bool.or_eq_true, not_or, Bool.not_eq_true, Option.isSome_eq_false_iff,
        Option.isNone_iff_eq_none] at hfit
      obtain ⟨⟨⟨hrefusal, -⟩, -⟩, hname⟩ := hfit
      split at h
      · cases h
      · next directory hwalk =>
        have hpieces : (startOf path).2 = before.reverse ++ [name] := by
          rw [← List.reverse_reverse (startOf path).2, hpieces, List.reverse_cons]
        split at h
        · cases h
        · next hdirectory hplace =>
          exact ⟨directory, _, name, hpieces, hrefusal, hname, hwalk, hdirectory, hplace,
            (Option.some.inj h).symm⟩
        · cases h

/-- What has been written is read. -/
theorem readBytes_writeFile (h : t.writeFile path content = some t') :
    t'.readBytes path = .ok content := by
  obtain ⟨directory, before, name, hpieces, hrefusal, hname, hwalk, hdirectory, hplace, rfl⟩ :=
    writeFile_cases h
  obtain ⟨hdepartures, hfold⟩ := walk_eq_ok_iff.mp hwalk
  -- All places that the walk leaves are directories, so the file is not written at one of them.
  have hkept (p : Place) (hp : t.entry? p = some .directory) :
      entry? ⟨t.entries.insert (stepPlace directory name) (.file content)⟩ p =
        some .directory := by
    have hne : p ≠ stepPlace directory name := by
      rintro rfl
      exact hplace hp
    rw [entry?_insert_of_ne hne, hp]
  have hwalk' : walk ⟨t.entries.insert (stepPlace directory name) (.file content)⟩
      (startOf path).1 (startOf path).2 = .ok (stepPlace directory name) := by
    rw [walk_eq_ok_iff, hpieces, departures_append, List.foldl_append, hfold]
    refine ⟨fun d hd => ?_, rfl⟩
    rcases List.mem_append.mp hd with hd | hd
    · exact ⟨hkept _ (hdepartures d hd).1, (hdepartures d hd).2⟩
    · rw [departures, departures, List.mem_singleton] at hd
      subst hd
      exact ⟨hkept _ hdirectory, hname⟩
  rw [readBytes, find_of_walk hrefusal hwalk' (entry?_insert_self hplace)]

/-- A text that has been written is read. -/
theorem readText_writeFile {text : Text} (h : t.writeFile path (.ofText text) = some t') :
    t'.readText path = .ok text := by
  simp only [readText, readBytes_writeFile h, Bytes.text?_ofText]

end FileTree

/-! ### Spellings -/

namespace Path

variable {path : String}

/-- Where the components of a path lead. -/
def place (path : String) : Place := (components path).foldl FileTree.stepPlace []

/-- The piece in front of the first slash of an absolute path is empty. -/
theorem exists_pieces (path : String) :
    ∃ first rest, pieces path = first :: rest ∧ (isAbsolute path = true → first = "") := by
  unfold pieces isAbsolute
  cases hpath : path.toList with
  | nil => exact ⟨"", [], rfl, fun _ => rfl⟩
  | cons c text =>
    rw [splitOnChar]
    split
    · exact ⟨"", _, rfl, fun _ => rfl⟩
    · next hc =>
      have hrelative : ¬ (c :: text).head? == some '/' := by simpa using hc
      cases splitOnChar '/' text <;> exact ⟨_, _, rfl, fun h => absurd h hrelative⟩

theorem foldl_stepPlace_filter (pieces : List String) (start : Place) :
    (pieces.filter (!isIdle ·)).foldl FileTree.stepPlace start =
      pieces.foldl FileTree.stepPlace start := by
  induction pieces generalizing start with
  | nil => rfl
  | cons piece pieces ih =>
    cases hidle : isIdle piece with
    | true => rw [List.filter_cons_of_neg (by simp [hidle]), List.foldl_cons, ih,
        FileTree.stepPlace, if_pos hidle]
    | false => rw [List.filter_cons_of_pos (by simp [hidle]), List.foldl_cons, List.foldl_cons, ih]

/-- The pieces of a path lead where its components lead. -/
theorem foldl_startOf (path : String) :
    (FileTree.startOf path).2.foldl FileTree.stepPlace (FileTree.startOf path).1 =
      place path := by
  obtain ⟨first, rest, hpieces, habsolute⟩ := exists_pieces path
  unfold FileTree.startOf place components
  rw [hpieces]
  by_cases hfirst : first = ""
  · subst hfirst
    cases isAbsolute path with
    | true => exact (foldl_stepPlace_filter rest [top]).symm
    | false => exact (foldl_stepPlace_filter rest []).symm
  · have hrelative : isAbsolute path = false := Bool.eq_false_iff.mpr (mt habsolute hfirst)
    simp [hrelative, hfirst, foldl_stepPlace_filter]

/-- Steps that do not lead upwards are put to the place. -/
theorem foldl_stepPlace_eq_append {pieces : List String} (h : above ∉ pieces) (start : Place) :
    pieces.foldl FileTree.stepPlace start = start ++ pieces.filter (!isIdle ·) := by
  induction pieces generalizing start with
  | nil => simp
  | cons piece pieces ih =>
    simp only [List.mem_cons, not_or] at h
    rw [List.foldl_cons, ih h.2, FileTree.stepPlace]
    cases hidle : isIdle piece with
    | true => simp [hidle]
    | false => simp [hidle, Ne.symm h.1]

/-- Only the first component can mean nothing, and then it is a dot. -/
theorem components_eq (path : String) :
    components path = (if here ∈ components path then [here] else []) ++
      (components path).filter (!isIdle ·) := by
  have hrest (rest : List String) : here ∉ rest.filter (!isIdle ·) := by simp [isIdle]
  unfold components
  split
  · rfl
  · next first rest _ =>
    dsimp only
    split
    · next hfirst =>
      by_cases hhere : first = here
      · subst hhere
        simp [isIdle]
      · have hidle : isIdle first = false := by simpa [isIdle, hhere] using hfirst
        simp [hrest, Ne.symm hhere, hidle]
    · split
      · have hidle : isIdle top = false := by decide
        have hne : here ≠ top := by decide
        simp [hrest, hne, hidle]
      · simp [hrest]

/-- Two paths that do not lead upwards lead to different places, if they mean different things
and not only one of them begins with a dot. -/
theorem components_eq_of_place_eq {other : String} (hpath : above ∉ components path)
    (hother : above ∉ components other)
    (hhere : here ∈ components path ↔ here ∈ components other) (h : place path = place other) :
    components path = components other := by
  unfold place at h
  rw [foldl_stepPlace_eq_append hpath, foldl_stepPlace_eq_append hother, List.nil_append,
    List.nil_append] at h
  rw [components_eq path, components_eq other, h]
  simp only [hhere]

end Path

namespace FileTree

variable {t : FileTree} {path other : String} {place : Place}

/-- A path that leads anywhere leads where its components lead. -/
theorem place_of_find {entry : Entry} (h : t.find path = .ok (place, entry)) :
    place = Path.place path := by
  rw [← Path.foldl_startOf]
  exact (walk_eq_ok_iff.mp (find_eq_ok h).2.1).2.symm

/-- What is read at a path stands where its components lead. -/
theorem find_of_readBytes {content : Bytes} (h : t.readBytes path = .ok content) :
    t.find path = .ok (Path.place path, .file content) := by
  unfold readBytes at h
  split at h
  · cases h
  · cases h
  · next hfind =>
    cases h
    rw [hfind, place_of_find hfind]

/-- Two paths with the same components that lead to files lead to the same file. -/
theorem readBytes_of_components {content : Bytes}
    (h : Path.components path = Path.components other) (hpath : t.readBytes path = .ok content)
    (hother : t.isFile other = true) : t.readBytes other = .ok content := by
  cases hread : t.readBytes other with
  | error e => simp [isFile, hread, Except.toBool] at hother
  | ok content' =>
    have hentry := (find_eq_ok (find_of_readBytes hpath)).2.2
    rw [Path.place, h, ← Path.place, (find_eq_ok (find_of_readBytes hread)).2.2] at hentry
    cases hentry
    rfl

theorem readText_eq_ok_iff {text : Text} :
    t.readText path = .ok text ↔
      ∃ content, t.readBytes path = .ok content ∧ Bytes.text? content = some text := by
  unfold readText
  cases t.readBytes path with
  | error e => simp
  | ok content => cases htext : Bytes.text? content <;> simp [htext]

/-- What holds text is a file. -/
theorem isFile_of_readText {text : Text} (h : t.readText path = .ok text) :
    t.isFile path = true := by
  obtain ⟨content, hread, -⟩ := readText_eq_ok_iff.mp h
  rw [isFile, hread]
  rfl

theorem readText_of_components {text : Text}
    (h : Path.components path = Path.components other) (hpath : t.readText path = .ok text)
    (hother : t.isFile other = true) : t.readText other = .ok text := by
  obtain ⟨content, hread, htext⟩ := readText_eq_ok_iff.mp hpath
  exact readText_eq_ok_iff.mpr ⟨content, readBytes_of_components h hread hother, htext⟩

end FileTree

end TexLint
