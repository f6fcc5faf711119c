import TexLint.Proofs.Check.ImportLine
import Mathlib.Data.List.TakeWhile

/-!
# What a fix inserts

A fix inserts one line into the root document, and from then on its package is imported: the
text that results is read anew, and the fix finds nothing more to do.

## What is proved

* `Document.exists_insertion`: the edit is made at the start of a line, or it adds a line at
  the end of the text.
* `Package.fix_of_inserted`: the new text is the old one with the line of the import, the
  package is imported then, and the same fix does nothing.
-/

namespace TexLint

/-- An edit inserts a line where the two parts of a text meet. -/
inductive Inserts (line before behind : Text) (edited : Text) : Prop where
  /-- The line goes before the start of another line. -/
  | between : (before = [] ∨ before.getLast? = some '\n') →
      edited = before ++ (line ++ '\n' :: behind) → Inserts line before behind edited
  /-- The line goes behind the end of the text. -/
  | last : behind = [] → edited = before ++ '\n' :: line → Inserts line before behind edited

namespace Inserts

variable {line before behind edited : Text}

theorem hasLine (h : Inserts line before behind edited) : HasLine edited line := by
  cases h with
  | between hbefore heq => exact ⟨before, '\n' :: behind, by simp [heq], hbefore, .inr rfl⟩
  | last _ heq => exact ⟨before ++ ['\n'], [], by simp [heq], .inr (by simp), .inl rfl⟩

/-- The lines that were there stay. -/
theorem hasLine_of_hasLine (h : Inserts line before behind edited) {other : Text}
    (hother : HasLine (before ++ behind) other) (hline : '\n' ∉ other) : HasLine edited other := by
  cases h with
  | between hbefore heq => exact heq ▸ hother.insert hline hbefore line
  | last hbehind heq =>
    rw [hbehind, List.append_nil] at hother
    exact heq ▸ hother.append line

end Inserts

/-- An edit at the end of a part of the text goes behind that part. -/
theorem TextEdit.apply_append (document : Nat) (before new behind : Text) :
    (TextEdit.mk document (byteLength before) new).apply (before ++ behind) =
      before ++ (new ++ behind) := by
  simp [TextEdit.apply]

namespace Document

theorem mem_commands_of_importAnchor? {d : Document} {u : CommandUsage}
    (h : d.importAnchor? = some u) : u ∈ d.commands := by
  rw [importAnchor?] at h
  rcases Option.or_eq_some_iff.mp h with h | ⟨-, h⟩
  · exact List.mem_reverse.mp (List.mem_of_find?_eq_some h)
  · exact List.mem_of_find?_eq_some h

theorem document_importEdit (d : Document) (p : Package) : (d.importEdit p).document = 0 := by
  rw [importEdit]
  simp only []
  split
  · rfl
  · split <;> rfl

/-- Behind the anchor, a line ends at the first line end or at the end of the text. -/
theorem importEdit_of_importAnchor? {path : String} {before behind : Text} {anchor : CommandUsage}
    (h : (read path (before ++ behind)).importAnchor? = some anchor)
    (hstop : anchor.span.stop = byteLength before) (p : Package) :
    (read path (before ++ behind)).importEdit p =
      if (behind.takeWhile (· != '\n')).length < behind.length then
        ⟨0, byteLength before + byteLength (behind.takeWhile (· != '\n')) + 1,
          p.importCommand.toList ++ ['\n']⟩
      else ⟨0, byteLength (before ++ behind), '\n' :: p.importCommand.toList⟩ := by
  have hbehind : (splitFloor (read path (before ++ behind)).text anchor.span.stop).2 = behind := by
    show (splitFloor (before ++ behind) anchor.span.stop).2 = behind
    rw [hstop, splitFloor_byteLength]
  rw [importEdit, h]
  dsimp only
  rw [hbehind, hstop]
  rfl

/-- The edit of a fix is made at the top, behind the line in which the command ends behind which
imports are inserted, or behind the end of the text. -/
theorem importEdit_cases (path : String) (text : Text) (p : Package) :
    let d := read path text
    let edit := d.importEdit p
    let line := p.importCommand.toList
    d.importAnchor? = none ∧ edit.offset = 0 ∧ edit.apply text = line ++ '\n' :: text ∨
      ∃ anchor before between, d.importAnchor? = some anchor ∧
        anchor.span.stop = byteLength before ∧ '\n' ∉ between ∧
          ((∃ behind, text = before ++ between ++ ['\n'] ++ behind ∧
              edit.offset = byteLength (before ++ between ++ ['\n']) ∧
                edit.apply text = before ++ between ++ ['\n'] ++ line ++ '\n' :: behind) ∨
            text = before ++ between ∧ edit.offset = byteLength text ∧
              edit.apply text = text ++ '\n' :: line) := by
  intro d edit line
  cases hanchor : d.importAnchor? with
  | none =>
    have hedit : edit = ⟨0, 0, line ++ ['\n']⟩ := by
      show d.importEdit p = _
      rw [importEdit, hanchor]
    refine .inl ⟨rfl, by rw [hedit], ?_⟩
    rw [hedit]
    simpa using TextEdit.apply_append 0 [] (line ++ ['\n']) text
  | some anchor =>
    obtain ⟨before, behind, rfl, hstop⟩ : ∃ before behind, text = before ++ behind ∧
        anchor.span.stop = byteLength before := by
      obtain ⟨start, written, behind, htext, hspan⟩ :=
        exists_text_of_span (mem_commands_of_importAnchor? hanchor)
      exact ⟨start ++ written, behind, htext, by rw [hspan, byteLength_append]; rfl⟩
    have hedit : edit = _ := importEdit_of_importAnchor? hanchor hstop p
    by_cases hmem : '\n' ∈ behind
    · -- The edit goes behind the line end.
      obtain ⟨between, rest, rfl, hbetween⟩ := List.eq_append_cons_of_mem hmem
      have hall : ∀ c ∈ between, (c != '\n') = true := fun c hc =>
        bne_iff_ne.mpr fun h => hbetween (h ▸ hc)
      have hline : (between ++ '\n' :: rest).takeWhile (· != '\n') = between := by
        rw [List.takeWhile_append_of_pos hall]
        simp
      have hoffset : byteLength before + byteLength between + 1 =
          byteLength (before ++ between ++ ['\n']) := by
        rw [byteLength_append (before ++ between), byteLength_append before]
        rfl
      have htext : before ++ (between ++ '\n' :: rest) = before ++ between ++ ['\n'] ++ rest := by
        simp
      rw [hline, if_pos (by simp), hoffset] at hedit
      refine .inr ⟨anchor, before, between, rfl, hstop, hbetween,
        .inl ⟨rest, htext, by rw [hedit], ?_⟩⟩
      rw [hedit, htext, TextEdit.apply_append]
      simp [line]
    · have hline : behind.takeWhile (· != '\n') = behind :=
        List.takeWhile_eq_self_iff.mpr fun c hc => bne_iff_ne.mpr fun h => hmem (h ▸ hc)
      rw [hline, if_neg (Nat.lt_irrefl _)] at hedit
      refine .inr ⟨anchor, before, behind, rfl, hstop, hmem, .inr ⟨rfl, by rw [hedit], ?_⟩⟩
      rw [hedit]
      simpa using TextEdit.apply_append 0 (before ++ behind) ('\n' :: line) []

/-- The edit of a fix inserts the import as a line of its own. -/
theorem exists_insertion (path : String) (text : Text) (p : Package) : ∃ before behind,
    text = before ++ behind ∧ ((read path text).importEdit p).document = 0 ∧
      ((read path text).importEdit p).offset = byteLength before ∧
      Inserts p.importCommand.toList before behind
        (((read path text).importEdit p).apply text) := by
  have hdocument := document_importEdit (read path text) p
  rcases importEdit_cases path text p with ⟨-, hoffset, happly⟩ | ⟨anchor, before, between, -, -, -,
    ⟨behind, htext, hoffset, happly⟩ | ⟨-, hoffset, happly⟩⟩
  · exact ⟨[], text, rfl, hdocument, hoffset, .between (.inl rfl) happly⟩
  · refine ⟨before ++ between ++ ['\n'], behind, htext, hdocument, hoffset,
      .between (.inr (by simp)) ?_⟩
    rw [happly, List.append_assoc _ p.importCommand.toList]
  · exact ⟨text, [], by simp, hdocument, hoffset, .last rfl happly⟩

end Document

namespace Manuscript

variable {m : Manuscript} {d d' : Document}

theorem root_replace (h : m.root = .ok d) (d' : Document) : (m.replace 0 d').root = .ok d' := by
  obtain ⟨documents, indexing, fingerprint⟩ := m
  cases documents with
  | nil => cases h
  | cons => rfl

theorem mem_documents_of_root (h : m.root = .ok d) : d ∈ m.documents := by
  obtain ⟨documents, indexing, fingerprint⟩ := m
  cases documents with
  | nil => cases h
  | cons =>
    cases h
    exact List.mem_cons_self

end Manuscript

namespace Package

variable {p : Package} {graph : LoadGraph} {m : Manuscript}

theorem newline_not_mem_importCommand (h : p.Plain) : '\n' ∉ p.importCommand.toList := by
  have hname : '\n' ∉ p.name.toList := h.name.not_mem (by decide)
  have hoptions : '\n' ∉ p.optionsText := fun hmem => by
    cases isTextChar_optionsText h _ hmem
  rw [optionsText, String.toList_intercalate] at hoptions
  rw [importCommand]
  split
  · simp [hname]
  · simpa [hname] using hoptions

/-- An imported package is not imported again. -/
theorem fix_of_mem_includedPackages {root : Document} (hroot : m.root = .ok root)
    (h : p.name ∈ m.includedPackages) : p.fix graph m = .ok (.alreadyIncluded, []) := by
  rw [fix, hroot]
  simp [h, bind, Except.bind, pure, Except.pure]

/-- A package that is needed and not imported is inserted, unless an imported one excludes
it. -/
theorem fix_of_not_mem_includedPackages {root : Document} (hroot : m.root = .ok root)
    (hkernel : p.isKernel = false) (h : p.name ∉ m.includedPackages) :
    p.fix graph m = .ok (match graph.conflictingPackage p.name m.includedPackages with
      | some conflicting => (.conflict p.name conflicting, [conflictAdvisory p.name])
      | none => (.inserted (root.importEdit p), [.insertImport (root.importEdit p)])) := by
  rw [fix, hroot]
  simp only [hkernel, h, bind, Except.bind, pure, Except.pure, List.contains_eq_mem,
    decide_false, Bool.or_false, Bool.false_eq_true, if_false]
  cases graph.conflictingPackage p.name m.includedPackages <;> rfl

/-- What a fix does: nothing if the package is there, else it is refused with an advisory, or it
inserts the edit of the root document. -/
theorem fix_cases {outcome : FixOutcome} {actions : List HostAction}
    (h : p.fix graph m = .ok (outcome, actions)) : ∃ root, m.root = .ok root ∧
      ((p.isKernel = true ∨ p.name ∈ m.includedPackages) ∧ outcome = .alreadyIncluded ∧
          actions = [] ∨
        (∃ conflicting,
          graph.conflictingPackage p.name m.includedPackages = some conflicting ∧
            outcome = .conflict p.name conflicting ∧ actions = [conflictAdvisory p.name]) ∨
        p.isKernel = false ∧ graph.conflictingPackage p.name m.includedPackages = none ∧
          outcome = .inserted (root.importEdit p) ∧
            actions = [.insertImport (root.importEdit p)]) := by
  cases hroot : m.root with
  | error e =>
    rw [fix, hroot] at h
    cases h
  | ok root =>
    refine ⟨root, rfl, ?_⟩
    by_cases hincluded : p.name ∈ m.includedPackages
    · rw [fix_of_mem_includedPackages hroot hincluded] at h
      cases h
      exact .inl ⟨.inr hincluded, rfl, rfl⟩
    · cases hkernel : p.isKernel with
      | true =>
        rw [fix, hroot] at h
        simp only [hkernel, bind, Except.bind, pure, Except.pure, Bool.true_or, if_true] at h
        cases h
        exact .inl ⟨.inl rfl, rfl, rfl⟩
      | false =>
        rw [fix_of_not_mem_includedPackages hroot hkernel hincluded] at h
        split at h
        · next conflicting hconflict =>
          cases h
          exact .inr (.inl ⟨conflicting, hconflict, rfl, rfl⟩)
        · next hnone =>
          cases h
          exact .inr (.inr ⟨rfl, hnone, rfl, rfl⟩)

/-- What is inserted is the edit of the root document. -/
theorem eq_importEdit_of_fix {root : Document} (hroot : m.root = .ok root) {edit : TextEdit}
    {actions : List HostAction} (h : p.fix graph m = .ok (.inserted edit, actions)) :
    edit = root.importEdit p := by
  obtain ⟨_, hroot', ⟨-, h, -⟩ | ⟨_, -, h, -⟩ | ⟨-, -, h, -⟩⟩ := fix_cases h
  · cases h
  · cases h
  · cases hroot.symm.trans hroot'
    cases h
    rfl

/-- A fix inserts the import of a plain package as a line of its own into the text of the root
document and changes nothing else in it. When the new text has been read, the package is
imported, and the same fix has nothing to do and asks nothing of the host. -/
theorem fix_of_inserted (hp : p.Plain) {path : String} {text : Text}
    (hroot : m.root = .ok (.read path text)) {edit : TextEdit} {actions : List HostAction}
    (h : p.fix graph m = .ok (.inserted edit, actions)) :
    let m' := m.replace edit.document (.read path (edit.apply text))
    (∃ before behind, text = before ++ behind ∧ edit.document = 0 ∧
      edit.offset = byteLength before ∧
      Inserts p.importCommand.toList before behind (edit.apply text)) ∧
    HasLine (edit.apply text) p.importCommand.toList ∧
    m'.root = .ok (.read path (edit.apply text)) ∧
    p.name ∈ m'.includedPackages ∧
    p.fix graph m' = .ok (.alreadyIncluded, []) := by
  intro m'
  have hedit := eq_importEdit_of_fix hroot h
  obtain ⟨before, behind, htext, hdocument, hoffset, hinserts⟩ :=
    Document.exists_insertion path text p
  rw [← hedit] at hdocument hoffset hinserts
  have hroot' : m'.root = .ok (.read path (edit.apply text)) := by
    show (m.replace edit.document _).root = _
    rw [hdocument]
    exact Manuscript.root_replace hroot _
  have hincluded : p.name ∈ m'.includedPackages :=
    Manuscript.mem_includedPackages_of_hasLine (Manuscript.mem_documents_of_root hroot') hp
      hinserts.hasLine
  exact ⟨⟨before, behind, htext, hdocument, hoffset, hinserts⟩, hinserts.hasLine, hroot',
    hincluded, fix_of_mem_includedPackages hroot' hincluded⟩

/-- An import goes behind the document class, before an open group and an open bracket. -/
theorem fix_of_inserted_class :
    let p : Package := ⟨"graphicx", ["final"]⟩
    let text := "\\documentclass\x7barticle\x7d\n\x7b\\a[".toList
    let m := Manuscript.ofDocuments [.read "a.tex" text]
    let edit : TextEdit := ⟨0, 24, "\\usepackage[final]\x7bgraphicx\x7d\n".toList⟩
    p.fix .empty m = .ok (.inserted edit, [.insertImport edit]) ∧
      "graphicx" ∈ (m.replace 0 (.read "a.tex" (edit.apply text))).includedPackages ∧
      p.fix .empty (m.replace 0 (.read "a.tex" (edit.apply text))) =
        .ok (.alreadyIncluded, []) := by
  intro p text m edit
  have hp : p.Plain := by decide +kernel
  have hfix : p.fix .empty m = .ok (.inserted edit, [.insertImport edit]) := by decide +kernel
  obtain ⟨-, -, -, hincluded, hagain⟩ := fix_of_inserted hp rfl hfix
  exact ⟨hfix, hincluded, hagain⟩

end Package

end TexLint
