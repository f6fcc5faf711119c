import TexLint.Knowledge.Distribution
import TexLint.Proofs.Files.Tree
import TexLint.Proofs.Knowledge.Format

/-!
# What is saved is loaded again

The index of installed packages goes to a file and comes back from it, and the entries of
catalogues and graphs go to a text and come back.

## The model

* A file is bytes, so what is saved is encoded and what is loaded is decoded.
* In an index each package stands once, which its readers see to.

## What is proved

* `PackageIndex.load?_of_readText`: a file with the text of an index holds that index.
* `PackageIndex.nodup_keys_load?`, `PackageIndex.nodup_keys_ofDirectory?`: in every index that
  is loaded or found each package stands once.
* `json_lossless`: nothing is lost on the way, and the order of packages and names is kept.
-/

namespace TexLint

namespace PackageIndex

variable {i : PackageIndex} {files saved : FileTree} {path : String}

/-- A file with the text of an index holds that index. -/
theorem load?_of_readText (h : i.packages.keys.Nodup)
    (hread : files.readText path = .ok i.fileText) : load? files path = some i := by
  have htext : i.fileText = i.toJson.write .indented := String.toList_ofList
  simp only [load?, hread, htext]
  exact readAs?_write h .indented

/-- What is saved is written to the file. -/
theorem readText_of_save (h : i.save files path = .ok saved) :
    saved.readText path = .ok i.fileText := by
  unfold save at h
  dsimp only at h
  split at h
  · cases h
  · split at h
    · cases h
    · next hwrite =>
      cases h
      exact FileTree.readText_writeFile hwrite

theorem nodup_keys_ofJson? {j : Json} (h : ofJson? j = some i) : i.packages.keys.Nodup := by
  obtain ⟨fields, -, h⟩ := Option.bind_eq_some_iff.mp h
  split at h
  · obtain ⟨packages, hpackages, hi⟩ := Option.bind_eq_some_iff.mp h
    obtain ⟨value, -, hvalue⟩ := Option.bind_eq_some_iff.mp hpackages
    obtain ⟨entries, -, rfl⟩ := Option.map_eq_some_iff.mp hvalue
    cases hi
    exact OrderedMap.nodup_keys_ofList entries
  · cases h

/-- In an index that is loaded each package stands once. -/
theorem nodup_keys_load? (h : load? files path = some i) : i.packages.keys.Nodup := by
  unfold load? at h
  split at h
  · cases h
  · obtain ⟨j, -, hj⟩ := Option.bind_eq_some_iff.mp h
    exact nodup_keys_ofJson? hj

/-- In an index that is found each package stands once. -/
theorem nodup_keys_ofDirectory? (h : ofDirectory? files path = some i) :
    i.packages.keys.Nodup := by
  unfold ofDirectory? at h
  split at h
  · cases h
    exact OrderedMap.nodup_keys_ofList _
  · cases h

end PackageIndex

/-- Nothing is lost on the way to JSON and back. An index in which each package stands once is
loaded from the file that it was saved to as it was, packages and names in the same order. The
entries of a catalogue, and those of a graph in which each package has one entry, are read from
their text, in whatever layout, as they were. -/
theorem json_lossless :
    (∀ (i : PackageIndex) (files saved : FileTree) (path : String), i.packages.keys.Nodup →
      i.save files path = .ok saved → PackageIndex.load? saved path = some i) ∧
    (∀ (e : CatalogueEntries) (l : Json.Layout),
      Json.readAs? CatalogueEntries.ofJson? (e.toJson.write l) = some e) ∧
    ∀ (e : LoadEntries) (l : Json.Layout), e.loads.keys.Nodup →
      Json.readAs? LoadEntries.ofJson? (e.toJson.write l) = some e := by
  refine ⟨?_, ?_, ?_⟩
  · intro i files saved path hkeys hsave
    exact PackageIndex.load?_of_readText hkeys (PackageIndex.readText_of_save hsave)
  · intro e l
    exact e.readAs?_write l
  · intro e l hkeys
    exact LoadEntries.readAs?_write hkeys l

/-- An index whose packages do not stand in the order of the alphabet, with a quote and a letter
beyond ASCII in its names, saved in a directory that is not there yet, and a graph in which a
package loads nothing. -/
theorem json_lossless_index :
    let i : PackageIndex :=
      ⟨⟨[("zref", ⟨["ü", "\""], [], ["auxhook"]⟩), ("array", ⟨[], ["tabular"], []⟩)]⟩⟩
    let saved : FileTree :=
      ⟨⟨[(["cache"], .directory), (["cache", "packages.json"], .file (.ofText i.fileText))]⟩⟩
    let e : LoadEntries := ⟨⟨[("zref", ["auxhook"]), ("array", [])]⟩, [["zref", "array"]]⟩
    i.save .empty "cache/packages.json" = .ok saved ∧
      PackageIndex.load? saved "cache/packages.json" = some i ∧
      Json.readAs? LoadEntries.ofJson? (e.toJson.write .compact) = some e := by
  intro i saved e
  have hkeys : i.packages.keys.Nodup := by decide
  have hsave : i.save .empty "cache/packages.json" = .ok saved := by rfl
  have hloads : e.loads.keys.Nodup := by decide
  refine ⟨hsave, ?_, ?_⟩
  · exact json_lossless.1 i .empty saved "cache/packages.json" hkeys hsave
  · exact json_lossless.2.2 e .compact hloads

end TexLint
