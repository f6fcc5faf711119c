import TexLint.Proofs.Manuscript.Loading

/-!
# Documents that are the same file

A path that has been seen is told by its components. Two paths with different components can
lead to the same file all the same.

## The model

* `FileTree.findIn` tells from the top where a path leads, given the place of the working
  directory. There an absolute and a relative path can lead to the same file.

## What is proved

* `Manuscript.load_pairwise_find`: wherever the working directory is, a file is loaded once in
  all spellings that differ in what their components leave out. Only a path that leads upwards,
  a dot in front of one path and not of another one, or an absolute path beside a relative one
  loads a file twice.
-/

namespace TexLint

open TexLint.Path (components)

/-- What a path leads to, and where this is from the top if the working directory is at a place of
its own. -/
def FileTree.findIn (t : FileTree) (directory : Place) (path : String) :
    Except ReadError (Place × Entry) :=
  (t.find path).map fun (place, entry) =>
    (if Path.isAbsolute path then place else place.foldl stepPlace directory, entry)

/-- The place of the working directory stands in front of a relative path that does not lead
upwards. -/
theorem FileTree.findIn_of_find {t : FileTree} {path : String} {entry : Entry}
    (hfind : t.find path = .ok (Path.place path, entry)) (habove : Path.above ∉ components path)
    (directory : Place) : t.findIn directory path =
      .ok ((if Path.isAbsolute path then [] else directory) ++ Path.place path, entry) := by
  have hplace : Path.place path = (components path).filter (!Path.isIdle ·) := by
    rw [Path.place, Path.foldl_stepPlace_eq_append habove, List.nil_append]
  have hfold : (Path.place path).foldl stepPlace directory = directory ++ Path.place path := by
    rw [hplace, Path.foldl_stepPlace_filter, Path.foldl_stepPlace_eq_append habove]
  rw [findIn, hfind]
  show Except.ok (if Path.isAbsolute path then _ else _, entry) = _
  rw [hfold]
  split <;> rfl

/-- In the directory `/doc` a relative and an absolute path lead to the same file. -/
example :
    let files : FileTree := ⟨⟨[(["one.tex"], .file []), (["/", "doc"], .directory),
      (["/", "doc", "one.tex"], .file [])]⟩⟩
    files.findIn ["/", "doc"] "one.tex" = files.findIn ["/", "doc"] "/doc/one.tex" := by
  decide +kernel

namespace Manuscript

variable {files : FileTree} {catalogue : Catalogue} {path : String}

/-- Wherever the working directory is, two documents are the same file only if the path of one of
them leads upwards, the path of only one of them begins with a dot, or only one of the paths is
absolute. -/
theorem load_pairwise_find {m : Manuscript} (h : load files catalogue path = .ok m)
    (directory : Place) : (m.documents.map (·.path)).Pairwise fun p q =>
      Path.above ∉ components p → Path.above ∉ components q →
      (Path.here ∈ components p ↔ Path.here ∈ components q) →
      Path.isAbsolute p = Path.isAbsolute q →
      files.findIn directory p ≠ files.findIn directory q := by
  obtain ⟨root, found, -, hloaded⟩ := loaded_of_load h
  have hplace : ∀ d ∈ m.documents, ∃ entry, files.find d.path = .ok (Path.place d.path, entry) := by
    intro d hd
    obtain ⟨text, hread, -⟩ := hloaded.read d hd
    obtain ⟨content, hread, -⟩ := FileTree.readText_eq_ok_iff.mp hread
    exact ⟨_, FileTree.find_of_readBytes hread⟩
  have hdifferent := List.pairwise_map.mp hloaded.different
  refine List.pairwise_map.mpr (hdifferent.imp_of_mem ?_)
  intro d e hd he hne hdAbove heAbove hhere habsolute hfind
  obtain ⟨dEntry, hdFind⟩ := hplace d hd
  obtain ⟨eEntry, heFind⟩ := hplace e he
  rw [FileTree.findIn_of_find hdFind hdAbove, FileTree.findIn_of_find heFind heAbove,
    habsolute] at hfind
  have hplaces := (Prod.mk.inj (Except.ok.inj hfind)).1
  have hsame := List.append_cancel_left hplaces
  exact hne (Path.components_eq_of_place_eq hdAbove heAbove hhere hsame)

/-- A file that is included in four spellings is loaded once. -/
theorem load_pairwise_find_spellings :
    let files : FileTree := ⟨⟨[(["doc"], .directory), (["doc", "main.tex"], .file (.ofText
      "\\input\x7bone\x7d\\input\x7bone.tex\x7d\\input\x7b./one\x7d\\input\x7b.//one\x7d".toList)),
      (["doc", "one.tex"], .file [])]⟩⟩
    let input : CommandSchema := ⟨"input",
      [.required ⟨"file", some ⟨["tex"], "tex"⟩, false⟩], none⟩
    let catalogue := (Catalogue.empty.merge ⟨[input], []⟩).1
    ∃ m, load files catalogue "doc/main.tex" = .ok m ∧
      m.documents.map (·.path) = ["doc/main.tex", "doc/one.tex"] ∧
      files.findIn ["/", "home"] "doc/main.tex" ≠ files.findIn ["/", "home"] "doc/one.tex" := by
  intro files input catalogue
  have hroot : rootPath files "doc/main.tex" = .ok "doc/main.tex" := by decide +kernel
  obtain ⟨m, hload, hpaths⟩ := exists_load_of_after catalogue 2 ["doc/main.tex", "doc/one.tex"]
    hroot (by decide +kernel) (by decide +kernel)
  have hpairwise := load_pairwise_find hload ["/", "home"]
  rw [hpaths, List.pairwise_pair] at hpairwise
  have hmain : Path.above ∉ components "doc/main.tex" ∧ Path.here ∉ components "doc/main.tex" := by
    decide +kernel
  have hone : Path.above ∉ components "doc/one.tex" ∧ Path.here ∉ components "doc/one.tex" := by
    decide +kernel
  exact ⟨m, hload, hpaths, hpairwise hmain.1 hone.1 (iff_of_false hmain.2 hone.2) rfl⟩

/-- A file that is included once more by way of a directory is loaded twice. -/
theorem load_twice_of_above :
    let files : FileTree := ⟨⟨[(["main.tex"], .file (.ofText
      "\\input\x7bone\x7d\\input\x7bparts/../one\x7d".toList)),
      (["one.tex"], .file []), (["parts"], .directory)]⟩⟩
    let input : CommandSchema := ⟨"input",
      [.required ⟨"file", some ⟨["tex"], "tex"⟩, false⟩], none⟩
    let catalogue := (Catalogue.empty.merge ⟨[input], []⟩).1
    ∃ m, load files catalogue "main.tex" = .ok m ∧
      m.documents.map (·.path) = ["main.tex", "one.tex", "parts/../one.tex"] ∧
      files.find "one.tex" = files.find "parts/../one.tex" := by
  intro files input catalogue
  have hroot : rootPath files "main.tex" = .ok "main.tex" := by decide +kernel
  obtain ⟨m, hload, hpaths⟩ := exists_load_of_after catalogue 3
    ["main.tex", "one.tex", "parts/../one.tex"] hroot (by decide +kernel) (by decide +kernel)
  exact ⟨m, hload, hpaths, by decide +kernel⟩

end Manuscript

end TexLint
