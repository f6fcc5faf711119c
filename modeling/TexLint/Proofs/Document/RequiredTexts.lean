import TexLint.Document.Usage
import TexLint.Proofs.Document.Delimiters
import TexLint.Proofs.Text.Splitting
import Mathlib.Data.List.TakeWhile

/-!
# Brace groups without their braces

The texts of brace groups are given without the braces at either end. All opening braces at the
start go and all closing ones at the end, whether or not they belong together. This module says
when what is left has all its braces in pairs.

## The model

* `BracesPaired`: each opening brace of a text has a closing one behind it, and conversely.
* `braceDepth` counts the open braces behind a text, as `depthBehind` does behind tokens.
* `withoutBraces` takes off the braces at either end, and `BareEnds` says that there are none.
* `SyntaxTree.PlainTokens`: the braces in a tree are tokens of their own.

## What is proved

* `bracesPaired_iff`: the braces of a text are in pairs if the count goes from none to none.
* `bracesPaired_withoutBraces_iff`: of a text whose braces are in pairs, what is left has them in
  pairs exactly if as many braces go at the start as at the end and those between are in pairs.
* `bracesPaired_requiredTexts`: this holds of the brace groups of a source.
-/

namespace TexLint

open SyntaxTree

/-! ### Braces of a text -/

section Text

variable {text : Text} {depth n : Nat} {c : Char}

/-- The braces of a text are in pairs: there are as many of each kind, and nowhere have more been
closed than opened. -/
def BracesPaired (text : Text) : Prop :=
  text.count '{' = text.count '}' ∧ ∀ before, before <+: text → before.count '}' ≤ before.count '{'

/-- How many braces are open behind a character. -/
def braceStep (depth : Nat) (c : Char) : Option Nat :=
  if c = '{' then some (depth + 1)
  else if c = '}' then if depth = 0 then none else some (depth - 1)
  else some depth

/-- How many braces are open behind a text. -/
def braceDepth (depth : Nat) (text : Text) : Option Nat := text.foldlM braceStep depth

@[simp] theorem braceDepth_nil (depth : Nat) : braceDepth depth [] = some depth := rfl

@[simp] theorem braceDepth_cons (depth : Nat) (c : Char) (text : Text) :
    braceDepth depth (c :: text) = (braceStep depth c).bind (braceDepth · text) :=
  List.foldlM_cons

theorem braceDepth_append (depth : Nat) (a b : Text) :
    braceDepth depth (a ++ b) = (braceDepth depth a).bind (braceDepth · b) :=
  List.foldlM_append

theorem braceStep_of_ne (hl : c ≠ '{') (hr : c ≠ '}') : braceStep depth c = some depth := by
  rw [braceStep, if_neg hl, if_neg hr]

/-- What has no braces in it does not change the count. -/
theorem braceDepth_of_notMem (hl : '{' ∉ text) (hr : '}' ∉ text) :
    braceDepth depth text = some depth := by
  induction text with
  | nil => rfl
  | cons c text ih =>
    rw [List.mem_cons, not_or] at hl hr
    rw [braceDepth_cons, braceStep_of_ne (Ne.symm hl.1) (Ne.symm hr.1), Option.bind_some,
      ih hl.2 hr.2]

/-- Only braces count. -/
theorem braceDepth_filter (depth : Nat) (text : Text) :
    braceDepth depth (text.filter fun c => c == '{' || c == '}') = braceDepth depth text := by
  induction text generalizing depth with
  | nil => rfl
  | cons c text ih =>
    rw [List.filter_cons]
    split
    · rw [braceDepth_cons, braceDepth_cons]
      exact congrArg _ (funext fun d => ih d)
    · next hc =>
      simp only [Bool.or_eq_true, beq_iff_eq, not_or] at hc
      rw [braceDepth_cons, braceStep_of_ne hc.1 hc.2, Option.bind_some, ih]

theorem braceDepth_trim (depth : Nat) (text : Text) :
    braceDepth depth (trim text) = braceDepth depth text := by
  rw [← braceDepth_filter, ← braceDepth_filter depth text, filter_trim]
  intro c hc
  have hidle := isIdle_of_isWhitespace hc
  simp [hidle.2.1, hidle.2.2]

theorem forall_prefix_cons_iff {P : Text → Prop} : (∀ before, before <+: c :: text → P before) ↔
    P [] ∧ ∀ before, before <+: text → P (c :: before) := by
  constructor
  · intro h
    exact ⟨h [] List.nil_prefix, fun before hbefore =>
      h (c :: before) (List.cons_prefix_cons.mpr ⟨rfl, hbefore⟩)⟩
  · rintro ⟨hnil, hcons⟩ before hbefore
    rcases List.prefix_cons_iff.mp hbefore with rfl | ⟨rest, rfl, hrest⟩
    · exact hnil
    · exact hcons rest hrest

/-- The count goes from one number to another if the braces make up the difference and it never
runs out. -/
theorem braceDepth_eq_some_iff : braceDepth depth text = some n ↔
    depth + text.count '{' = n + text.count '}' ∧
      ∀ before, before <+: text → before.count '}' ≤ depth + before.count '{' := by
  induction text generalizing depth with
  | nil => simp
  | cons c text ih =>
    rw [forall_prefix_cons_iff, braceDepth_cons]
    by_cases hl : c = '{'
    · subst hl
      rw [braceStep, if_pos rfl, Option.bind_some, ih]
      simp only [List.count_cons_self, List.count_cons_of_ne (show '{' ≠ '}' by decide),
        List.count_nil, Nat.zero_le, true_and, Nat.add_assoc, Nat.add_comm 1]
    · by_cases hr : c = '}'
      · subst hr
        simp only [List.count_cons_self, List.count_cons_of_ne hl, List.count_nil, Nat.zero_le,
          true_and]
        cases depth with
        | zero =>
          -- The brace closes nothing.
          refine iff_of_false nofun fun h => ?_
          have hclosed := h.2 [] List.nil_prefix
          simp at hclosed
        | succ depth =>
          have hstep : braceStep (depth + 1) '}' = some depth := rfl
          rw [hstep, Option.bind_some, ih]
          refine and_congr (by omega) (forall₂_congr fun before _ => by omega)
      · rw [braceStep_of_ne hl hr, Option.bind_some, ih]
        simp only [List.count_cons_of_ne hl, List.count_cons_of_ne hr, List.count_nil, Nat.zero_le,
          true_and]

/-- The braces of a text are in pairs if the count goes from none to none. -/
theorem bracesPaired_iff : BracesPaired text ↔ braceDepth 0 text = some 0 := by
  rw [braceDepth_eq_some_iff, BracesPaired]
  simp only [Nat.zero_add]

instance : DecidablePred BracesPaired := fun _ => decidable_of_iff _ bracesPaired_iff.symm

theorem bracesPaired_trim_iff : BracesPaired (trim text) ↔ BracesPaired text := by
  rw [bracesPaired_iff, bracesPaired_iff, braceDepth_trim]

/-! ### Braces at the ends -/

/-- What is left of a text without the opening braces at its start and the closing ones at its
end. -/
def withoutBraces (text : Text) : Text := dropEndWhile (· == '}') (text.dropWhile (· == '{'))

/-- A text has no opening brace at its start and no closing one at its end. -/
def BareEnds (text : Text) : Prop := text.head? ≠ some '{' ∧ text.getLast? ≠ some '}'

instance : DecidablePred BareEnds := fun text =>
  inferInstanceAs (Decidable (text.head? ≠ some '{' ∧ text.getLast? ≠ some '}'))

theorem requiredTexts_eq (parameters : List Parameter) : requiredTexts parameters =
    (parameters.filter (·.isRequired)).map fun p => trim (withoutBraces p.text) := rfl

theorem exists_replicate_dropWhile (c : Char) (text : Text) :
    ∃ n, text = List.replicate n c ++ text.dropWhile (· == c) := by
  refine ⟨(text.takeWhile (· == c)).length, ?_⟩
  have htaken : text.takeWhile (· == c) = List.replicate (text.takeWhile (· == c)).length c :=
    List.eq_replicate_of_mem fun d hd =>
      beq_iff_eq.mp (List.mem_takeWhile_imp (p := (· == c)) hd)
  rw [← htaken, List.takeWhile_append_dropWhile]

theorem head?_dropWhile_ne (c : Char) (text : Text) :
    (text.dropWhile (· == c)).head? ≠ some c := by
  intro h
  have hnot := List.head?_dropWhile_not (· == c) text
  rw [h] at hnot
  simp at hnot

theorem dropWhile_replicate_append (h : text.head? ≠ some c) :
    (List.replicate n c ++ text).dropWhile (· == c) = text := by
  induction n with
  | zero =>
    cases text with
    | nil => rfl
    | cons d text =>
      have hd : ¬ (d == c) = true := fun hd => h (congrArg some (beq_iff_eq.mp hd))
      exact List.dropWhile_cons_of_neg hd
  | succ n ih =>
    rw [List.replicate_succ, List.cons_append,
      List.dropWhile_cons_of_pos (p := (· == c)) (beq_self_eq_true c), ih]

/-- Some braces go at either end. -/
theorem exists_replicate_withoutBraces (text : Text) : ∃ m n,
    text = List.replicate m '{' ++ withoutBraces text ++ List.replicate n '}' := by
  obtain ⟨m, hm⟩ := exists_replicate_dropWhile '{' text
  obtain ⟨n, hn⟩ := exists_replicate_dropWhile '}' (text.dropWhile (· == '{')).reverse
  refine ⟨m, n, ?_⟩
  have hrest := congrArg List.reverse hn
  rw [List.reverse_reverse, List.reverse_append, List.reverse_replicate] at hrest
  rw [List.append_assoc, withoutBraces, dropEndWhile, ← hrest, ← hm]

theorem withoutBraces_prefix (text : Text) : withoutBraces text <+: text.dropWhile (· == '{') := by
  have hsuffix := List.dropWhile_suffix (l := (text.dropWhile (· == '{')).reverse) (· == '}')
  have hprefix := List.reverse_prefix.mpr hsuffix
  rwa [List.reverse_reverse] at hprefix

theorem bareEnds_withoutBraces (text : Text) : BareEnds (withoutBraces text) := by
  constructor
  · intro hhead
    obtain ⟨rest, hrest⟩ := withoutBraces_prefix text
    refine head?_dropWhile_ne '{' text ?_
    rw [← hrest, List.head?_append, hhead]
    rfl
  · rw [withoutBraces, dropEndWhile, List.getLast?_reverse]
    exact head?_dropWhile_ne '}' _

/-- Braces at the ends of a text are taken off, and no others. -/
theorem withoutBraces_replicate_append {inner : Text} (h : BareEnds inner) (m n : Nat) :
    withoutBraces (List.replicate m '{' ++ inner ++ List.replicate n '}') = inner := by
  have hhead : (inner ++ List.replicate n '}').head? ≠ some '{' := by
    cases inner with
    | nil => cases n <;> simp [List.replicate_succ]
    | cons c inner => exact h.1
  have hlast : inner.reverse.head? ≠ some '}' := by
    rw [List.head?_reverse]
    exact h.2
  rw [withoutBraces, List.append_assoc, dropWhile_replicate_append hhead, dropEndWhile,
    List.reverse_append, List.reverse_replicate, dropWhile_replicate_append hlast,
    List.reverse_reverse]

/-- Where braces are in pairs, as many are taken off at both ends as long as those between them are
in pairs too. -/
theorem eq_of_bracesPaired {m n : Nat} {inner : Text} (hinner : BracesPaired inner)
    (h : BracesPaired (List.replicate m '{' ++ inner ++ List.replicate n '}')) : m = n := by
  have hcount := h.1
  simp only [List.count_append, List.count_replicate_self, hinner.1,
    List.count_replicate, beq_iff_eq, Char.reduceEq, if_false] at hcount
  omega

/-- What is left of a text whose braces are in pairs has them in pairs if each brace that is taken
off at one end has its partner at the other one: as many go at both ends, and those between them
are in pairs. -/
theorem bracesPaired_withoutBraces_iff (h : BracesPaired text) :
    BracesPaired (withoutBraces text) ↔ ∃ n inner,
      text = List.replicate n '{' ++ inner ++ List.replicate n '}' ∧ BareEnds inner ∧
        BracesPaired inner := by
  constructor
  · intro hinner
    obtain ⟨m, n, htext⟩ := exists_replicate_withoutBraces text
    obtain rfl : m = n := eq_of_bracesPaired hinner (htext ▸ h)
    exact ⟨m, _, htext, bareEnds_withoutBraces text, hinner⟩
  · rintro ⟨n, inner, rfl, hends, hinner⟩
    rwa [withoutBraces_replicate_append hends]

end Text

/-! ### Braces of a source -/

namespace SyntaxTree

/-- A tree has no comments in it and no escaped braces. -/
structure PlainTokens (tree : SyntaxTree) : Prop where
  /-- No token is a comment. -/
  comments : ∀ t ∈ tree.tokens, t.kind ≠ .comment
  /-- No token is a brace behind a backslash. -/
  escapes : ∀ t ∈ tree.tokens, t.text ≠ ['\\', '{'] ∧ t.text ≠ ['\\', '}']

instance : DecidablePred PlainTokens := fun tree =>
  decidable_of_iff ((∀ t ∈ tree.tokens, t.kind ≠ .comment) ∧
    ∀ t ∈ tree.tokens, t.text ≠ ['\\', '{'] ∧ t.text ≠ ['\\', '}'])
    ⟨fun h => ⟨h.1, h.2⟩, fun h => ⟨h.1, h.2⟩⟩

end SyntaxTree

section Source

variable {depth : Nat} {t : Token} {next : Option Char} {children : List SyntaxTree}
  {tokens behind : List Token}

/-- A run of characters without a meaning to braces. -/
theorem braceDepth_of_isIdle {run : Text} (h : ∀ c ∈ run, IsIdle c) :
    braceDepth depth run = some depth :=
  braceDepth_of_notMem (fun hl => (h _ hl).2.1 rfl) fun hr => (h _ hr).2.2 rfl

theorem braceDepth_word {letters : Text} (h : ∀ c ∈ letters, isCommandLetter c = true) :
    braceDepth depth ('\\' :: letters) = some depth := by
  have hbackslash : braceStep depth '\\' = some depth := rfl
  rw [braceDepth_cons, hbackslash, Option.bind_some]
  exact braceDepth_of_isIdle fun c hc => isIdle_of_isCommandLetter (h c hc)

/-- The braces of a token count as the token does. -/
theorem braceDepth_token (h : Lexeme next t) (hcomment : t.kind ≠ .comment)
    (hescape : t.text ≠ ['\\', '{'] ∧ t.text ≠ ['\\', '}']) :
    braceDepth depth t.text = t.depthBehind? depth := by
  cases h with
  | single hc =>
    rcases Shape.start_eq_single hc with ⟨rfl, rfl⟩ | ⟨rfl, rfl⟩ | ⟨rfl, rfl⟩ | ⟨rfl, rfl⟩ |
      ⟨rfl, rfl⟩
    · rfl
    · cases depth <;> rfl
    · rfl
    · rfl
    · rfl
  | comment => exact absurd rfl hcomment
  | whitespace _ hrun => exact braceDepth_of_isIdle fun c hc => isIdle_of_isWhitespace (hrun c hc)
  | text _ hrun => exact braceDepth_of_isIdle fun c hc => isIdle_of_isTextChar (hrun c hc)
  | word _ hletters => exact braceDepth_word hletters
  | starred _ hletters =>
    show braceDepth depth (('\\' :: _) ++ ['*']) = _
    rw [braceDepth_append, braceDepth_word hletters]
    rfl
  | @symbol c hc =>
    have hl : c ≠ '{' := fun hl => hescape.1 (by rw [hl])
    have hr : c ≠ '}' := fun hr => hescape.2 (by rw [hr])
    exact braceDepth_of_notMem (by simp [Ne.symm hl]) (by simp [Ne.symm hr])
  | backslash => rfl

/-- The braces of a text count as its tokens do, if each of them is a token. -/
theorem braceDepth_tokensText (hlexed : Lexed tokens) (hcomments : ∀ t ∈ tokens, t.kind ≠ .comment)
    (hescapes : ∀ t ∈ tokens, t.text ≠ ['\\', '{'] ∧ t.text ≠ ['\\', '}']) :
    braceDepth depth (tokensText tokens) = depthBehind depth tokens := by
  induction tokens generalizing depth with
  | nil => rfl
  | cons t tokens ih =>
    obtain ⟨hcomment, hcomments⟩ := List.forall_mem_cons.mp hcomments
    obtain ⟨hescape, hescapes⟩ := List.forall_mem_cons.mp hescapes
    rw [tokensText_cons, braceDepth_append, braceDepth_token hlexed.1 hcomment hescape,
      depthBehind_cons]
    exact congrArg _ (funext fun d => ih hlexed.2 hcomments hescapes)

/-- A closed parameter closes all groups that it opens. -/
theorem opens_of_isClosed (h : Form .required children behind)
    (hchildren : AllWellFormed behind children)
    (hclosed : (node .required children).isClosed = true)
    (hstray : (node .required children).NoStrayBrace) : Opens 0 (tokensOfAll children) := by
  obtain ⟨l, content, ending, rfl, hl, hbraces, hend⟩ := h.braced (.inr rfl)
  obtain ⟨n, hn, hzero⟩ := (allWellFormed_append.mp hchildren.2).1.opens fun c hc _ hwell =>
    hwell.opens (hbraces c hc) (hstray.of_mem (by simp [hc]))
  rcases hend with ⟨r, rfl, hr⟩ | ⟨rfl, rfl⟩
  · -- The closing brace stands behind the content, which therefore leaves nothing open.
    obtain rfl := hzero (by simp)
    simpa using Opens.braces hl hn hr
  · rw [List.append_nil, isClosed_cons hl hbraces] at hclosed
    cases hclosed

/-- The braces of a closed parameter are in pairs, if each of them is a token and none is stray. -/
theorem bracesPaired_of_isClosed (h : Form .required children behind)
    (hchildren : AllWellFormed behind children) (hlexed : Lexed (tokensOfAll children))
    (hclosed : (node .required children).isClosed = true)
    (hplain : (node .required children).PlainTokens)
    (hstray : (node .required children).NoStrayBrace) : BracesPaired (textOfAll children) := by
  have hopens := opens_of_isClosed h hchildren hclosed hstray
  obtain ⟨hcomments, hescapes⟩ := hplain
  rw [tokens_node] at hcomments hescapes
  rw [bracesPaired_iff, textOfAll, braceDepth_tokensText hlexed hcomments hescapes]
  exact hopens 0

end Source

/-- The braces of a closed required parameter without comments, escaped braces and stray ones are in
pairs. Without the braces at its ends they are in pairs exactly if the groups at the start of the
parameter end where it does: then as many braces go at both ends, and what stands between them is
left. -/
theorem bracesPaired_requiredTexts (text : Text) :
    ∀ v ∈ (parse text).tree.preorder 0 0, ∀ p ∈ v.tree.toParameter? v.offset, p.kind = .required →
      v.tree.isClosed = true → v.tree.PlainTokens → v.tree.NoStrayBrace →
      BracesPaired p.text ∧ ∃ t, requiredTexts [p] = [t] ∧ (BracesPaired t ↔ ∃ n inner,
        p.text = List.replicate n '{' ++ inner ++ List.replicate n '}' ∧ BareEnds inner ∧
          BracesPaired inner ∧ t = trim inner) := by
  intro v hv p hp hkind hclosed hplain hstray
  obtain ⟨hlexed, behind, hwell⟩ := wellFormed_of_subtree (subtree_of_mem_preorder hv)
  obtain ⟨children, htext, ⟨htree, -⟩ | ⟨-, hoptional⟩⟩ := cases_of_toParameter? hp
  · rw [htree] at hlexed hwell hclosed hplain hstray
    rw [tokens_node] at hlexed
    have hpaired : BracesPaired p.text :=
      htext ▸ bracesPaired_of_isClosed hwell.1 hwell.2 hlexed hclosed hplain hstray
    have hrequired : p.isRequired = true := beq_iff_eq.mpr hkind
    refine ⟨hpaired, trim (withoutBraces p.text), ?_, ?_⟩
    · rw [requiredTexts_eq, List.filter_cons_of_pos hrequired]
      rfl
    · rw [bracesPaired_trim_iff, bracesPaired_withoutBraces_iff hpaired]
      refine exists₂_congr fun n inner => ?_
      constructor
      · rintro ⟨hinner, hends, hpairs⟩
        exact ⟨hinner, hends, hpairs, by rw [hinner, withoutBraces_replicate_append hends]⟩
      · rintro ⟨hinner, hends, hpairs, -⟩
        exact ⟨hinner, hends, hpairs⟩
  · rw [hkind] at hoptional
    cases hoptional

/-- The text of the group in `\cmd{{ {a}b{c} }}` is given without two pairs of braces. -/
theorem bracesPaired_requiredTexts_nested :
    ∃ v ∈ (parse "\\cmd\x7b\x7b \x7ba\x7db\x7bc\x7d \x7d\x7d".toList).tree.preorder 0 0,
      ∃ p ∈ v.tree.toParameter? v.offset, p.kind = .required ∧ v.tree.isClosed = true ∧
        v.tree.PlainTokens ∧ v.tree.NoStrayBrace ∧
        requiredTexts [p] = ["\x7ba\x7db\x7bc\x7d".toList] ∧
        BracesPaired "\x7ba\x7db\x7bc\x7d".toList := by
  obtain ⟨v, hv, p, hp, hkind, hclosed, hplain, hstray, htext, hrequired⟩ :
      ∃ v ∈ (parse "\\cmd\x7b\x7b \x7ba\x7db\x7bc\x7d \x7d\x7d".toList).tree.preorder 0 0,
        ∃ p ∈ v.tree.toParameter? v.offset, p.kind = .required ∧ v.tree.isClosed = true ∧
          v.tree.PlainTokens ∧ v.tree.NoStrayBrace ∧
          p.text = List.replicate 2 '{' ++ " \x7ba\x7db\x7bc\x7d ".toList ++ List.replicate 2 '}' ∧
          requiredTexts [p] = ["\x7ba\x7db\x7bc\x7d".toList] := by
    decide +kernel
  obtain ⟨-, t, ht, hiff⟩ := bracesPaired_requiredTexts _ v hv p hp hkind hclosed hplain hstray
  obtain rfl : t = "\x7ba\x7db\x7bc\x7d".toList := by
    rw [hrequired] at ht
    exact (List.cons.inj ht).1.symm
  exact ⟨v, hv, p, hp, hkind, hclosed, hplain, hstray, hrequired,
    hiff.mpr ⟨2, _, htext, by decide, by decide, by decide +kernel⟩⟩

/-- The text of the group in `\cmd{{a}b}` loses the brace that opens the inner group and keeps the
one that closes it. -/
theorem not_bracesPaired_requiredTexts :
    ∃ v ∈ (parse "\\cmd\x7b\x7ba\x7db\x7d".toList).tree.preorder 0 0,
      ∃ p ∈ v.tree.toParameter? v.offset, p.kind = .required ∧ v.tree.isClosed = true ∧
        v.tree.PlainTokens ∧ v.tree.NoStrayBrace ∧ requiredTexts [p] = ["a\x7db".toList] ∧
        ¬ BracesPaired "a\x7db".toList := by
  decide +kernel

end TexLint
