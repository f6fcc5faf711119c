import TexLint.Proofs.Source.Acceptance
import TexLint.Proofs.Source.LineEnds
import TexLint.Proofs.Source.Settling

/-!
# One source behind another

A source without defects leaves nothing open that blanks do not close. So when a line end and
another source follow it, the other one is read as if it stood alone.

## The model

* `BlankTokens`: tokens that a line end at their side joins, which are one token of blanks or none.
* `Nest.onto`, `Reading.moved`: a nest, and a reading, of a source that more stands in front of.

## What is proved

* `exists_seam`: at a line end between two texts their blanks become one token, and nothing else
  changes.
* `Nest.settleFrom_of_finishFrom`, `Nest.finishFrom_of_settleFrom`: blanks close a nest without a
  defect if the end of the source does, and the other way round.
* `Reading.next_moved`: a token is read alike wherever the source stands; so is the rest of it.
* `parse_append_newline`: what the tree and the defects of the two sources together are.
-/

namespace TexLint

open SyntaxTree

/-! ### Tokens -/

/-- No token, or one of blanks. -/
def BlankTokens (tokens : List Token) : Prop :=
  tokens = [] ∨ ∃ run, tokens = [⟨.whitespace, run⟩]

/-- The blanks on both sides of a line end, and the line end. -/
def joinedBlanks (left right : List Token) : Token :=
  ⟨.whitespace, tokensText left ++ '\n' :: tokensText right⟩

theorem byteLength_joinedBlanks (left right : List Token) :
    byteLength (joinedBlanks left right).text =
      byteLength (tokensText left) + 1 + byteLength (tokensText right) := by
  have hnewline : '\n'.utf8Size = 1 := by decide
  rw [joinedBlanks, byteLength_append, byteLength_cons, hnewline, Nat.add_assoc]

section Tokens

variable {s t : Text}

/-- A line end behind a text goes into its last blanks, unless a backslash takes it. -/
theorem exists_blank_end (h : ∀ u ∈ (tokenize s).getLast?, u.text ≠ ['\\']) : ∃ a left,
    tokenize s = a ++ left ∧ BlankTokens left ∧
      tokenize (s ++ ['\n']) = a ++ [⟨.whitespace, tokensText left ++ ['\n']⟩] := by
  rcases tokenize_concat_newline s with ⟨a, run, hs, hnewline⟩ | ⟨a, hs, -⟩ | hnewline
  · exact ⟨a, [⟨.whitespace, run⟩], hs, .inr ⟨run, rfl⟩, by simpa [tokensText] using hnewline⟩
  · rw [hs, List.getLast?_concat] at h
    exact absurd rfl (h _ rfl)
  · exact ⟨tokenize s, [], (List.append_nil _).symm, .inl rfl, hnewline⟩

/-- A line end before a text goes into its first blanks. -/
theorem exists_blank_start (t : Text) : ∃ right b,
    tokenize t = right ++ b ∧ BlankTokens right ∧
      tokenize ('\n' :: t) = ⟨.whitespace, '\n' :: tokensText right⟩ :: b := by
  rcases tokenize_cons_newline t with ⟨run, b, ht, hnewline⟩ | hnewline
  · exact ⟨[⟨.whitespace, run⟩], b, ht, .inr ⟨run, rfl⟩, by simpa [tokensText] using hnewline⟩
  · exact ⟨[], tokenize t, rfl, .inl rfl, hnewline⟩

/-- At a line end between two texts their blanks become one token, and nothing else changes. -/
theorem exists_seam (h : ∀ u ∈ (tokenize s).getLast?, u.text ≠ ['\\']) (t : Text) :
    ∃ a left right b, tokenize s = a ++ left ∧ tokenize t = right ++ b ∧ BlankTokens left ∧
      BlankTokens right ∧ tokenize (s ++ '\n' :: t) = a ++ joinedBlanks left right :: b := by
  obtain ⟨a, left, hs, hleft, hend⟩ := exists_blank_end h
  obtain ⟨right, b, ht, hright, hstart⟩ := exists_blank_start t
  refine ⟨a, left, right, b, hs, ht, hleft, hright, ?_⟩
  have hbefore : Lexed (a ++ [⟨.whitespace, tokensText left ++ ['\n']⟩]) :=
    hend ▸ lexed_tokenize (s ++ ['\n'])
  have hbehind : Lexed (⟨.whitespace, '\n' :: tokensText right⟩ :: b) :=
    hstart ▸ lexed_tokenize ('\n' :: t)
  obtain ⟨hblankLeft, -⟩ := hbefore.right.1.of_whitespace rfl
  obtain ⟨hblankRight, hnext⟩ := hbehind.1.of_whitespace rfl
  have hjoined : Lexed (a ++ joinedBlanks left right :: b) := by
    refine hbefore.replace ⟨.whitespace (by simp) ?_ hnext, hbehind.2⟩ ?_
    · intro c hc
      rcases List.mem_append.mp hc with hc | hc
      · exact hblankLeft c (List.mem_append_left _ hc)
      · exact hblankRight c hc
    · rw [joinedBlanks]
      cases tokensText left <;> rfl
  rw [← hjoined.tokenize_tokensText]
  have hsText : s = tokensText a ++ tokensText left := by
    rw [← tokensText_append, ← hs, tokensText_tokenize]
  have htText : t = tokensText right ++ tokensText b := by
    rw [← tokensText_append, ← ht, tokensText_tokenize]
  rw [tokensText_append, tokensText_cons]
  exact congrArg tokenize (by rw [hsText, htText, joinedBlanks]; simp)

end Tokens

/-! ### Blanks that end a source -/

/-- Blanks close a construct without a defect if the end of the source does. -/
theorem Construct.before_whitespace_iff {t : Token} (h : t.kind = .whitespace)
    (construct : Construct) :
    construct.before t = ⟨true, none⟩ ↔ construct.atEnd = none := by
  have hbegin := isBegin_of_ne (t := t) (by simp [h])
  have hend := isEnd_of_ne (t := t) (by simp [h])
  cases construct with
  | group | required => simp [before, atEnd]
  | optional => cases hbreak : t.isParagraphBreak <;> simp [before, atEnd, h, hbegin, hend, hbreak]
  | command | strayEnd => simp [before, atEnd, h]
  | opening bare => cases bare <;> simp [before, atEnd, h]
  | environment ended => cases ended <;> simp [before, atEnd]
  | closing bare => cases bare <;> simp [before, atEnd, h]

namespace Nest

variable {t : Token} {nest : Nest} {finished : List SyntaxTree}

/-- Blanks close a nest that the end of the source closes without a defect. -/
theorem settleFrom_of_finishFrom (ht : t.kind = .whitespace)
    (h : (nest.finishFrom finished).2 = []) :
    nest.settleFrom t finished = (root (nest.treesWith finished).reverse, []) := by
  induction nest generalizing finished with
  | root content => simp [settleFrom, treesWith_root]
  | inside construct content outer ih =>
    have hdefects : construct.atEnd.toList ++
        (outer.finishFrom [close construct (finished ++ content)]).2 = [] := h
    obtain ⟨hend, houter⟩ := List.append_eq_nil_iff.mp hdefects
    have hbefore := (construct.before_whitespace_iff ht).mpr (Option.toList_eq_nil_iff.mp hend)
    rw [settleFrom]
    simp only [hbefore, if_true]
    rw [ih houter, treesWith_inside]
    rfl

/-- The end of the source closes a nest without a defect if blanks do so and leave nothing open. -/
theorem finishFrom_of_settleFrom (ht : t.kind = .whitespace)
    (h : (nest.settleFrom t finished).2 = []) {more : List SyntaxTree}
    (hmore : ((nest.settleFrom t finished).1.finishFrom more).2 = [])
    (finished' : List SyntaxTree) : (nest.finishFrom finished').2 = [] := by
  induction nest generalizing finished finished' with
  | root content => rfl
  | inside construct content outer ih =>
    have hiff := construct.before_whitespace_iff ht
    have hrest (hend : construct.atEnd = none)
        (houter : (outer.finishFrom [close construct (finished' ++ content)]).2 = []) :
        ((inside construct content outer).finishFrom finished').2 = [] := by
      rw [finishFrom, hend]
      exact houter
    rw [settleFrom] at h hmore
    simp only [] at h hmore
    cases hcloses : (construct.before t).closes with
    | true =>
      simp only [hcloses, if_true] at h hmore
      obtain ⟨hdefect, hdefects⟩ := List.append_eq_nil_iff.mp h
      have hbefore : construct.before t = ⟨true, none⟩ := by
        rw [← hcloses, ← Option.toList_eq_nil_iff.mp hdefect]
      exact hrest (hiff.mp hbefore) (ih hdefects hmore _)
    | false =>
      -- A construct that blanks leave open has a defect at the end of the source.
      simp only [hcloses, Bool.false_eq_true, if_false] at hmore
      have hdefects : construct.atEnd.toList ++
        (outer.finishFrom [close construct (more ++ (finished ++ content))]).2 = [] := hmore
      have hend := Option.toList_eq_nil_iff.mp (List.append_eq_nil_iff.mp hdefects).1
      rw [hiff.mpr hend] at hcloses
      cases hcloses

end Nest

namespace Reading

variable {t : Token} {r : Reading}

/-- Nothing is wrong with a source that ends here. -/
def Clean (r : Reading) : Prop := r.errors = [] ∧ (r.nest.finishFrom []).2 = []

/-- Behind a source without defects blanks find nothing open, and are put behind its trees. -/
theorem Clean.next_whitespace (h : r.Clean) (ht : t.kind = .whitespace) :
    r.next t = ⟨r.offset + byteLength t.text, .root (.leaf t :: r.nest.trees.reverse), []⟩ := by
  obtain ⟨offset, nest, errors⟩ := r
  obtain ⟨rfl, hnest⟩ := h
  have hsettle : nest.settle t = (.root nest.trees.reverse, []) :=
    Nest.settleFrom_of_finishFrom ht hnest
  have hread (content : List SyntaxTree) :
      (Nest.root content).read t = (.root (.leaf t :: content), []) := by
    rw [Nest.read, Nest.readElement, ht]
    rfl
  rw [next, hsettle]
  simp only [hread]
  rfl

/-- Blanks at the end of a source without defects may go. -/
theorem Clean.of_next (ht : t.kind = .whitespace) (h : (r.next t).Clean) : r.Clean := by
  obtain ⟨herrors, hfinish⟩ := h
  have hnest : (r.next t).nest = (r.nest.settle t).1.add (.leaf t) := Nest.next_whitespace ht r.nest
  have hadd (nest : Nest) : (nest.add (.leaf t)).finishFrom [] = nest.finishFrom [.leaf t] := by
    cases nest <;> rfl
  rw [hnest, hadd] at hfinish
  simp only [next, List.append_eq_nil_iff, List.reverse_eq_nil_iff, List.map_eq_nil_iff] at herrors
  obtain ⟨⟨hearly, -⟩, herrors⟩ := herrors
  exact ⟨herrors, Nest.finishFrom_of_settleFrom ht hearly hfinish []⟩

theorem Clean.of_blankTokens {tokens : List Token} (ht : BlankTokens tokens)
    (h : (tokens.foldl next r).Clean) : r.Clean := by
  rcases ht with rfl | ⟨run, rfl⟩
  · exact h
  · exact .of_next rfl h

end Reading

/-! ### Sources that more stands in front of -/

theorem Span.ofLength_shift (start length k : Nat) :
    (Span.ofLength start length).shift k = .ofLength (start + k) length := by
  simp [Span.ofLength, Span.shift, Nat.add_right_comm]

/-- A defect, where the given number of bytes stand in front of the source. -/
def SyntaxError.shift (e : SyntaxError) (k : Nat) : SyntaxError := { e with span := e.span.shift k }

namespace Nest

variable (row : List SyntaxTree)

/-- A nest of a source that trees stand in front of, the last one first. -/
def onto (row : List SyntaxTree) : Nest → Nest
  | root content => root (content ++ row)
  | inside construct content outer => inside construct content (outer.onto row)

theorem add_onto (tree : SyntaxTree) (nest : Nest) :
    (nest.onto row).add tree = (nest.add tree).onto row := by
  cases nest <;> rfl

theorem settleFrom_onto (t : Token) (finished : List SyntaxTree) (nest : Nest) :
    (nest.onto row).settleFrom t finished =
      ((nest.settleFrom t finished).1.onto row, (nest.settleFrom t finished).2) := by
  induction nest generalizing finished with
  | root content => simp [onto, settleFrom]
  | inside construct content outer ih =>
    rw [onto, settleFrom, settleFrom]
    simp only [ih]
    split <;> rfl

theorem readElement_onto (t : Token) (nest : Nest) : (nest.onto row).readElement t =
    ((nest.readElement t).1.onto row, (nest.readElement t).2) := by
  rw [readElement, readElement]
  split
  · split
    · rfl
    · split <;> rfl
  · rfl
  · rw [add_onto]
  · rw [add_onto]

theorem read_onto (t : Token) (nest : Nest) :
    (nest.onto row).read t = ((nest.read t).1.onto row, (nest.read t).2) := by
  cases nest with
  | root content => exact readElement_onto row t (root content)
  | inside construct content outer =>
    have helement := readElement_onto row t (inside construct content outer)
    rw [onto] at helement
    rw [onto, read.eq_def, read.eq_def]
    dsimp only
    split
    · rw [add_onto]
    · rw [add_onto]
    · rw [add_onto]
    · rfl
    · rfl
    · rfl
    · rfl
    · rfl
    · rfl
    · rfl
    · split
      · rfl
      · exact helement
    · exact helement

theorem finishFrom_onto (finished : List SyntaxTree) (nest : Nest) :
    (nest.onto row).finishFrom finished =
      (row.reverse ++ (nest.finishFrom finished).1, (nest.finishFrom finished).2) := by
  induction nest generalizing finished with
  | root content => simp [onto, finishFrom]
  | inside construct content outer ih => simp [onto, finishFrom, ih]

end Nest

namespace Reading

variable {k : Nat} {row : List SyntaxTree}

/-- Nothing of a source has been read that starts at the given offset. -/
def startAt (offset : Nat) : Reading := ⟨offset, .root [], []⟩

/-- A reading of a source that trees and the given number of bytes stand in front of. -/
def moved (k : Nat) (row : List SyntaxTree) (r : Reading) : Reading :=
  ⟨r.offset + k, r.nest.onto row, r.errors.map (·.shift k)⟩

/-- A token is read alike wherever the source stands. -/
theorem next_moved (r : Reading) (t : Token) :
    (r.moved k row).next t = (r.next t).moved k row := by
  have hsettle := Nest.settleFrom_onto row t [] r.nest
  rw [next, moved]
  simp only [Nest.settle, hsettle, Nest.read_onto, ← Span.ofLength_shift]
  rw [next, moved]
  simp [Nest.settle, SyntaxError.shift, Span.shift, List.map_reverse, Function.comp_def]

theorem foldl_next_moved (tokens : List Token) (r : Reading) :
    tokens.foldl next (r.moved k row) = (tokens.foldl next r).moved k row := by
  induction tokens generalizing r with
  | nil => rfl
  | cons t tokens ih => rw [List.foldl_cons, next_moved, ih, List.foldl_cons]

end Reading

/-! ### Two sources -/

namespace Reading

variable {r : Reading} {tokens : List Token}

/-- What a source is read into that ends here. -/
def parsed (r : Reading) : Parsed :=
  ⟨.node .root r.nest.trees,
    r.errors.reverse ++ (r.nest.finishFrom []).2.map (⟨·, .ofLength r.offset 0⟩)⟩

theorem parse_eq_parsed (text : Text) : parse text = ((tokenize text).foldl next .start).parsed :=
  rfl

/-- What stands in front of a source comes first among its trees, and its defects are the same. -/
theorem parsed_moved (k : Nat) (row : List SyntaxTree) (r : Reading) : (r.moved k row).parsed =
    ⟨.node .root (row.reverse ++ r.nest.trees), r.parsed.errors.map (·.shift k)⟩ := by
  have htrees : (r.nest.onto row).trees = row.reverse ++ r.nest.trees := by
    rw [Nest.trees, Nest.treesWith, Nest.finishFrom_onto]
    rfl
  simp only [parsed, moved, htrees, Nest.finishFrom_onto, ← Span.ofLength_shift]
  simp [SyntaxError.shift, List.map_reverse, Function.comp_def]

/-- A source without defects leaves nothing open. -/
theorem clean_of_parsed (h : r.parsed.errors = []) : r.Clean := by
  obtain ⟨herrors, hdefects⟩ := List.append_eq_nil_iff.mp h
  exact ⟨List.reverse_eq_nil_iff.mp herrors, List.map_eq_nil_iff.mp hdefects⟩

theorem clean_start : start.Clean := ⟨rfl, rfl⟩

/-- Blanks behind a source without defects are put behind its trees. -/
theorem Clean.trees_foldl_next (h : r.Clean) (ht : BlankTokens tokens) :
    (tokens.foldl next r).nest.trees = r.nest.trees ++ tokens.map .leaf := by
  rcases ht with rfl | ⟨run, rfl⟩
  · exact (List.append_nil _).symm
  · rw [List.foldl_cons, List.foldl_nil, h.next_whitespace rfl]
    simp [Nest.trees, Nest.treesWith_root]

/-- Blanks at the start of a source stand in front of the rest. -/
theorem foldl_next_start (ht : BlankTokens tokens) : tokens.foldl next .start =
    (startAt (byteLength (tokensText tokens))).moved 0 (tokens.map .leaf).reverse := by
  rcases ht with rfl | ⟨run, rfl⟩
  · rfl
  · rw [List.foldl_cons, List.foldl_nil, clean_start.next_whitespace rfl]
    simp [start, startAt, moved, Nest.onto, tokensText, Nest.trees, Nest.treesWith_root]

/-- Behind a source without defects the blanks at a line end stand in front of what follows. -/
theorem Clean.next_joinedBlanks (h : r.Clean) (left right : List Token) :
    r.next (joinedBlanks left right) = (startAt (byteLength (tokensText right))).moved
      (r.offset + byteLength (tokensText left) + 1)
      (.leaf (joinedBlanks left right) :: r.nest.trees.reverse) := by
  have hplace : r.offset + byteLength (joinedBlanks left right).text =
      byteLength (tokensText right) + (r.offset + byteLength (tokensText left) + 1) := by
    rw [byteLength_joinedBlanks]
    omega
  rw [h.next_whitespace rfl, hplace]
  rfl

end Reading

/-- A line end and another source behind one without defects are read as if the other one stood
alone: the trees of both follow each other, but for the blanks between them that become one token,
and the defects are those of the other one. -/
theorem parse_append_newline {s t : Text} (hs : (parse s).errors = [])
    (hlast : ∀ u ∈ (tokenize s).getLast?, u.text ≠ ['\\']) : ∃ row left right rest,
      (parse s).tree = .node .root (row ++ left.map .leaf) ∧
      (parse t).tree = .node .root (right.map .leaf ++ rest) ∧
      (parse (s ++ '\n' :: t)).tree = .node .root (row ++ .leaf (joinedBlanks left right) :: rest) ∧
      (parse (s ++ '\n' :: t)).errors = (parse t).errors.map (·.shift (byteLength s + 1)) := by
  obtain ⟨a, left, right, b, hsTokens, htTokens, hleft, hright, hseam⟩ := exists_seam hlast t
  rw [Reading.parse_eq_parsed, hsTokens, List.foldl_append] at hs
  have hclean : (a.foldl Reading.next .start).Clean :=
    .of_blankTokens hleft (Reading.clean_of_parsed hs)
  have htrees := hclean.trees_foldl_next hleft
  have hlength : (a.foldl Reading.next .start).offset + byteLength (tokensText left) =
      byteLength s := by
    rw [offset_foldl_next, ← tokensText_tokenize s, hsTokens, tokensText_append, byteLength_append]
    exact congrArg (· + _) (Nat.zero_add _)
  generalize hr : a.foldl Reading.next .start = r at hclean htrees hlength
  -- The second text is read on from the blanks at its start, wherever these stand.
  generalize hbehind : b.foldl Reading.next (.startAt (byteLength (tokensText right))) = behind
  have ht : parse t = (behind.moved 0 (right.map .leaf).reverse).parsed := by
    rw [Reading.parse_eq_parsed, htTokens, List.foldl_append, Reading.foldl_next_start hright,
      Reading.foldl_next_moved, hbehind]
  have hboth : parse (s ++ '\n' :: t) = (behind.moved (byteLength s + 1)
      (.leaf (joinedBlanks left right) :: r.nest.trees.reverse)).parsed := by
    rw [Reading.parse_eq_parsed, hseam, List.foldl_append, hr, List.foldl_cons,
      hclean.next_joinedBlanks, hlength, Reading.foldl_next_moved, hbehind]
  refine ⟨r.nest.trees, left, right, behind.nest.trees, ?_, ?_, ?_, ?_⟩
  · rw [Reading.parse_eq_parsed, hsTokens, List.foldl_append, hr, Reading.parsed, htrees]
  · rw [ht, Reading.parsed_moved, List.reverse_reverse]
  · rw [hboth, Reading.parsed_moved]
    simp
  · rw [hboth, ht, Reading.parsed_moved, Reading.parsed_moved, List.map_map]
    rfl

end TexLint
