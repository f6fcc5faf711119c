import TexLint.Document.Usage
import TexLint.Proofs.Source.Braces
import TexLint.Proofs.Source.Lexemes

/-!
# The delimiters of a parameter

The tree knows where a parameter ends. The views of a document take its text only and look there
for a delimiter at the end. This module says when the two agree.

## The model

* `SyntaxTree.isClosed`: the node of a parameter ends with its closing token.
* `SyntaxTree.delimitedText` is the text between the delimiters that the node has.
* `SyntaxTree.PlainBraces`: all braces in a tree are those of its groups. A brace in a comment is
  none, and neither is one that closes nothing.

## What is proved

* `endsBraceGroup_tokens`: the scan of a text follows the depth of its tokens, if no comment in it
  holds a brace.
* `stripGroup_required`: taking the braces off a text agrees with the tree if its braces are plain.
* `stripGroup_optional_iff`, `name_of_ofTree?`: brackets, and the braces around the name of an
  environment, are taken off by the last character. By `dropLast_eq_iff` this agrees with the tree
  unless the group is cut off behind a character that looks like its end.
* `delimiters_parse`: what this means for the parameters and environments of a source.
-/

namespace TexLint

open SyntaxTree

/-! ### The scan of a text -/

section Scan

variable {depth : Nat} {c : Char} {run rest : Text}

@[simp] theorem endsBraceGroup_escape :
    endsBraceGroup depth ('\\' :: c :: rest) = endsBraceGroup depth rest := by
  simp [endsBraceGroup]

@[simp] theorem endsBraceGroup_lbrace :
    endsBraceGroup depth ('{' :: rest) = endsBraceGroup (depth + 1) rest := by
  cases rest <;> simp [endsBraceGroup]

@[simp] theorem endsBraceGroup_rbrace :
    endsBraceGroup (depth + 1) ('}' :: rest) = endsBraceGroup depth rest := by
  cases rest <;> simp [endsBraceGroup]

/-- A character has no meaning to the scan. -/
def IsIdle (c : Char) : Prop := c ≠ '\\' ∧ c ≠ '{' ∧ c ≠ '}'

instance : DecidablePred IsIdle := fun c =>
  inferInstanceAs (Decidable (c ≠ '\\' ∧ c ≠ '{' ∧ c ≠ '}'))

theorem endsBraceGroup_idle (h : IsIdle c) :
    endsBraceGroup depth (c :: rest) = endsBraceGroup depth rest := by
  obtain ⟨hescape, hl, hr⟩ := h
  cases rest <;> simp [endsBraceGroup, hescape, hl, hr]

theorem endsBraceGroup_run (h : ∀ c ∈ run, IsIdle c) :
    endsBraceGroup depth (run ++ rest) = endsBraceGroup depth rest := by
  induction run with
  | nil => rfl
  | cons c run ih =>
    rw [List.cons_append, endsBraceGroup_idle (h c List.mem_cons_self)]
    exact ih fun d hd => h d (List.mem_cons_of_mem _ hd)

/-- Where no brace stands, backslashes do no harm either: the last one may take the meaning of the
next character, so long as that has none. -/
theorem endsBraceGroup_noBraces (hrest : ∀ c ∈ rest.head?, IsIdle c)
    (hl : '{' ∉ run) (hr : '}' ∉ run) :
    endsBraceGroup depth (run ++ rest) = endsBraceGroup depth rest ∧
      endsBraceGroup depth ('\\' :: run ++ rest) = endsBraceGroup depth rest := by
  induction run with
  | nil =>
    refine ⟨rfl, ?_⟩
    cases rest with
    | nil => simp [endsBraceGroup]
    | cons c rest =>
      rw [endsBraceGroup_idle (hrest c rfl)]
      exact endsBraceGroup_escape
  | cons c run ih =>
    rw [List.mem_cons, not_or] at hl hr
    obtain ⟨hplain, hescaped⟩ := ih hl.2 hr.2
    constructor
    · by_cases hescape : c = '\\'
      · exact hescape ▸ hescaped
      · have hidle : IsIdle c := ⟨hescape, Ne.symm hl.1, Ne.symm hr.1⟩
        rw [List.cons_append, endsBraceGroup_idle hidle, hplain]
    · exact endsBraceGroup_escape.trans hplain

theorem isIdle_of_isTextChar (h : isTextChar c = true) : IsIdle c := by
  grind [isTextChar, IsIdle]

theorem isIdle_of_isWhitespace (h : isWhitespace c = true) : IsIdle c := by
  refine ⟨?_, ?_, ?_⟩ <;> rintro rfl <;> exact absurd h (by decide)

theorem isIdle_of_isCommandLetter (h : isCommandLetter c = true) : IsIdle c := by
  refine ⟨?_, ?_, ?_⟩ <;> rintro rfl <;> exact absurd h (by decide +kernel)

/-- A control word takes its first letter as the scan does, and the others have no meaning. -/
theorem endsBraceGroup_word {letters : Text} (hne : letters ≠ [])
    (hletters : ∀ c ∈ letters, isCommandLetter c = true) :
    endsBraceGroup depth ('\\' :: letters ++ rest) = endsBraceGroup depth rest := by
  obtain ⟨c, letters, rfl⟩ := List.exists_cons_of_ne_nil hne
  rw [List.cons_append, List.cons_append, endsBraceGroup_escape]
  exact endsBraceGroup_run fun d hd =>
    isIdle_of_isCommandLetter (hletters d (List.mem_cons_of_mem _ hd))

/-- The scan goes over a token as the count of groups does. -/
theorem endsBraceGroup_token {t : Token} {depth' : Nat} (h : Lexeme rest.head? t)
    (hcomment : t.kind = .comment → '{' ∉ t.text ∧ '}' ∉ t.text)
    (hdepth : t.depthBehind? depth = some depth') :
    endsBraceGroup depth (t.text ++ rest) = endsBraceGroup depth' rest := by
  cases h with
  | @single kind c hc =>
    have hidle (hkind : kind ≠ .lbrace ∧ kind ≠ .rbrace) (hidle : IsIdle c) :
        endsBraceGroup depth ([c] ++ rest) = endsBraceGroup depth' rest := by
      rw [Token.depthBehind?_of_not_isBrace (not_or.mpr hkind)] at hdepth
      exact Option.some.inj hdepth ▸ endsBraceGroup_idle hidle
    rcases Shape.start_eq_single hc with ⟨rfl, rfl⟩ | ⟨rfl, rfl⟩ | ⟨rfl, rfl⟩ | ⟨rfl, rfl⟩ |
      ⟨rfl, rfl⟩
    · exact Option.some.inj hdepth ▸ endsBraceGroup_lbrace
    · cases depth with
      | zero => cases hdepth
      | succ depth => exact Option.some.inj hdepth ▸ endsBraceGroup_rbrace
    · exact hidle (by decide) (by decide)
    · exact hidle (by decide) (by decide)
    · exact hidle (by decide) (by decide)
  | comment hbody hnext =>
    obtain rfl := Option.some.inj hdepth
    obtain ⟨hl, hr⟩ := hcomment rfl
    refine (endsBraceGroup_noBraces (fun c hc => ?_) hl hr).1
    rcases hnext c hc with rfl | rfl <;> decide
  | whitespace hne hrun =>
    obtain rfl := Option.some.inj hdepth
    exact endsBraceGroup_run fun c hc => isIdle_of_isWhitespace (hrun c hc)
  | text hne hrun =>
    obtain rfl := Option.some.inj hdepth
    exact endsBraceGroup_run fun c hc => isIdle_of_isTextChar (hrun c hc)
  | word hne hletters =>
    obtain rfl := Option.some.inj hdepth
    exact endsBraceGroup_word hne hletters
  | starred hne hletters =>
    obtain rfl := Option.some.inj hdepth
    rw [List.append_assoc, endsBraceGroup_word hne hletters]
    exact endsBraceGroup_idle (by decide)
  | symbol =>
    obtain rfl := Option.some.inj hdepth
    exact endsBraceGroup_escape
  | backslash hnext =>
    obtain rfl := Option.some.inj hdepth
    obtain rfl := List.head?_eq_none_iff.mp hnext
    simp [endsBraceGroup]

/-- The scan of a text follows the depth of its tokens, if no comment in it holds a brace. -/
theorem endsBraceGroup_tokens {a b : List Token} {depth' : Nat} (h : Lexed (a ++ b))
    (hcomments : ∀ t ∈ a, t.kind = .comment → '{' ∉ t.text ∧ '}' ∉ t.text)
    (hdepth : depthBehind depth a = some depth') :
    endsBraceGroup depth (tokensText (a ++ b)) = endsBraceGroup depth' (tokensText b) := by
  induction a generalizing depth with
  | nil =>
    obtain rfl := Option.some.inj hdepth
    rfl
  | cons t a ih =>
    rw [depthBehind_cons] at hdepth
    obtain ⟨middle, hmiddle, hdepth⟩ := Option.bind_eq_some_iff.mp hdepth
    have htoken := endsBraceGroup_token h.1 (hcomments t List.mem_cons_self) hmiddle
    exact htoken.trans (ih h.2 (fun u hu => hcomments u (List.mem_cons_of_mem _ hu)) hdepth)

end Scan

/-! ### Nodes of parameters -/

namespace SyntaxTree

/-- Whether the node of a parameter ends with its closing token. -/
def isClosed : SyntaxTree → Bool
  | node .required children => children.getLast?.any (·.isToken .rbrace)
  | node .optional children => children.getLast?.any (·.isToken .rbracket)
  | _ => false

/-- The text between the delimiters that the node of a parameter has. -/
def delimitedText (tree : SyntaxTree) : Text :=
  if tree.isClosed then tree.text.tail.dropLast else tree.text.tail

/-- All braces in a tree are those of its groups. -/
structure PlainBraces (tree : SyntaxTree) : Prop where
  /-- No comment holds a brace. -/
  comments : ∀ t ∈ tree.tokens, t.kind = .comment → '{' ∉ t.text ∧ '}' ∉ t.text
  /-- No closing brace stands where no group is open. -/
  groups : tree.NoStrayBrace

instance : DecidablePred PlainBraces := fun tree =>
  decidable_of_iff ((∀ t ∈ tree.tokens, t.kind = .comment → '{' ∉ t.text ∧ '}' ∉ t.text) ∧
    tree.NoStrayBrace) ⟨fun h => ⟨h.1, h.2⟩, fun h => ⟨h.1, h.2⟩⟩

/-- The brace group that names an environment: the first one of its beginning. -/
def nameGroup? (tree : SyntaxTree) : Option SyntaxTree :=
  (tree.children.find? (·.isNode .opening)).bind (·.children.find? (·.isNode .required))

/-- A node that starts with a token of one character is written with it in front. -/
theorem textOfAll_of_leaf {kind : TokenKind} {c : Char} {l : Token} {rest : List SyntaxTree}
    (hlexed : Lexed (tokensOfAll (leaf l :: rest))) (hc : Shape.start c = .single kind)
    (hl : l.kind = kind) : textOfAll (leaf l :: rest) = c :: textOfAll rest := by
  rw [tokensOfAll_cons, tokens_leaf, List.singleton_append] at hlexed
  rw [textOfAll_cons, text_leaf, hlexed.1.text_eq_singleton hc hl]
  rfl

/-- What a text ends with does not depend on another character at its start. -/
theorem getLast?_cons_of_ne {o c : Char} {inner : Text} (hne : o ≠ c) :
    (o :: inner).getLast? = some c ↔ inner.getLast? = some c := by
  cases inner with
  | nil => simpa using hne
  | cons d inner => rw [List.getLast?_cons_cons]

/-- A node that ends with a token of one character is written with it at the end. -/
theorem getLast?_textOfAll {kind : TokenKind} {c : Char} {children : List SyntaxTree}
    (hlexed : Lexed (tokensOfAll children)) (hc : Shape.start c = .single kind)
    (hlast : children.getLast?.any (·.isToken kind) = true) :
    (textOfAll children).getLast? = some c := by
  rcases children.eq_nil_or_concat' with rfl | ⟨init, last, rfl⟩
  · cases hlast
  · rw [List.getLast?_concat, Option.any_some] at hlast
    cases last with
    | node kind children => cases hlast
    | leaf r =>
      rw [tokensOfAll_append] at hlexed
      have htext := hlexed.right
      rw [tokensOfAll_cons, tokens_leaf, List.singleton_append] at htext
      simp [textOfAll_append, htext.1.text_eq_singleton hc (beq_iff_eq.mp hlast)]

end SyntaxTree

section Parameters

variable {children : List SyntaxTree} {behind : List Token}

/-- The brackets of an optional parameter are where the tree has them. -/
theorem text_of_optional (h : Form .optional children behind)
    (hlexed : Lexed (tokensOfAll children)) :
    ∃ inner, textOfAll children = '[' :: inner ∧
      ((node .optional children).isClosed = true → inner.getLast? = some ']') := by
  obtain ⟨l, rest, rfl, hl⟩ := h.exists_of_optional
  have htext := textOfAll_of_leaf hlexed (c := '[') (by decide) hl
  refine ⟨_, htext, fun hclosed => ?_⟩
  have hlast := getLast?_textOfAll hlexed (c := ']') (by decide) hclosed
  rwa [htext, getLast?_cons_of_ne (by decide)] at hlast

/-- The braces of a group are where the tree has them. -/
theorem text_of_braced {kind : NodeKind} (h : Form kind children behind)
    (hkind : kind = .group ∨ kind = .required) (hlexed : Lexed (tokensOfAll children)) :
    ∃ inner, textOfAll children = '{' :: inner ∧
      (children.getLast?.any (·.isToken .rbrace) = true → inner.getLast? = some '}') := by
  obtain ⟨l, content, ending, rfl, hl, -⟩ := h.braced hkind
  have htext := textOfAll_of_leaf hlexed (c := '{') (by decide) hl
  refine ⟨_, htext, fun hclosed => ?_⟩
  have hlast := getLast?_textOfAll hlexed (c := '}') (by decide) hclosed
  rwa [htext, getLast?_cons_of_ne (by decide)] at hlast

/-- The braces of a required parameter are where the tree has them. -/
theorem text_of_required (h : Form .required children behind)
    (hlexed : Lexed (tokensOfAll children)) :
    ∃ inner, textOfAll children = '{' :: inner ∧
      ((node .required children).isClosed = true → inner.getLast? = some '}') :=
  text_of_braced h (.inr rfl) hlexed

theorem isClosed_append {content : List SyntaxTree} {r : Token} (hr : r.kind = .rbrace) :
    (node .required (content ++ [leaf r])).isClosed = true := by
  rw [isClosed, List.getLast?_concat]
  exact beq_iff_eq.mpr hr

theorem isClosed_cons {content : List SyntaxTree} {l : Token} (hl : l.kind = .lbrace)
    (hcontent : ∀ c ∈ content, c.NoBrace) :
    (node .required (leaf l :: content)).isClosed = false := by
  have hlast : ∀ c ∈ leaf l :: content, c.isToken .rbrace = false := by
    rintro c (_ | ⟨_, hc⟩)
    · simp [isToken, hl]
    · exact (hcontent c hc).isToken_rbrace
  rw [isClosed]
  cases hget : (leaf l :: content).getLast? with
  | none => rfl
  | some last => exact hlast last (List.mem_of_getLast? hget)

/-- The scan decides as the tree does whether a required parameter is closed, if its braces are
plain. -/
theorem isClosed_eq_endsBraceGroup (h : Form .required children behind)
    (hchildren : AllWellFormed behind children) (hlexed : Lexed (tokensOfAll children))
    (hplain : (node .required children).PlainBraces) :
    (node .required children).isClosed = endsBraceGroup 0 (textOfAll children).tail := by
  obtain ⟨l, content, ending, rfl, hl, hbraces, hend⟩ := h.braced (.inr rfl)
  obtain ⟨n, hn, hzero⟩ := (allWellFormed_append.mp hchildren.2).1.opens fun c hc _ hwell =>
    hwell.opens (hbraces c hc) (hplain.groups.of_mem (by simp [hc]))
  rw [textOfAll_of_leaf hlexed (c := '{') (by decide) hl, List.tail_cons]
  rw [tokensOfAll_cons, tokens_leaf, List.singleton_append, tokensOfAll_append] at hlexed
  have hscan : endsBraceGroup 0 (textOfAll (content ++ ending)) =
      endsBraceGroup n (textOfAll ending) := by
    rw [textOfAll, tokensOfAll_append]
    have hcomments : ∀ t ∈ tokensOfAll content, t.kind = .comment → '{' ∉ t.text ∧ '}' ∉ t.text :=
      fun t ht => hplain.comments t (by simp [ht])
    rw [endsBraceGroup_tokens hlexed.2 hcomments (hn 0), Nat.zero_add]
    rfl
  rcases hend with ⟨r, rfl, hr⟩ | ⟨rfl, rfl⟩
  · -- The closing brace stands behind the content, which therefore leaves nothing open.
    obtain rfl := hzero (by simp)
    have htext : textOfAll [leaf r] = ['}'] := textOfAll_of_leaf hlexed.2.right (by decide) hr
    rw [hscan, htext, ← List.cons_append, isClosed_append hr]
    rfl
  · rw [hscan, List.append_nil, isClosed_cons hl hbraces]
    rfl

/-- Taking the braces off the text of a parameter agrees with the tree if its braces are plain. -/
theorem stripGroup_required (h : Form .required children behind)
    (hchildren : AllWellFormed behind children) (hlexed : Lexed (tokensOfAll children))
    (hplain : (node .required children).PlainBraces) :
    stripGroup (textOfAll children) = (node .required children).delimitedText := by
  have hclosed := isClosed_eq_endsBraceGroup h hchildren hlexed hplain
  obtain ⟨inner, htext, -⟩ := text_of_required h hlexed
  rw [delimitedText, hclosed, text_node, htext]
  rfl

/-- Taking the last character of a text off if it is the closing delimiter agrees with the tree,
unless the text ends with that character and the node with something else. -/
theorem dropLast_eq_iff {o c : Char} {inner : Text} {closed : Bool} (hne : o ≠ c)
    (hclosed : closed = true → inner.getLast? = some c) :
    (if inner.getLast? = some c then inner.dropLast else inner) =
        (if closed = true then inner.dropLast else inner) ↔
      closed = true ∨ (o :: inner).getLast? ≠ some c := by
  rw [ne_eq, getLast?_cons_of_ne hne]
  cases closed with
  | true => simp [hclosed rfl]
  | false =>
    by_cases hlast : inner.getLast? = some c
    · obtain ⟨init, rfl⟩ := List.getLast?_eq_some_iff.mp hlast
      simp
    · simp [hlast]

/-- Taking the brackets off the text of a parameter agrees with the tree unless the parameter is cut
off behind a character that looks like its end. -/
theorem stripGroup_optional_iff (h : Form .optional children behind)
    (hlexed : Lexed (tokensOfAll children)) :
    stripGroup (textOfAll children) = (node .optional children).delimitedText ↔
      (node .optional children).isClosed = true ∨ (textOfAll children).getLast? ≠ some ']' := by
  obtain ⟨inner, htext, hclosed⟩ := text_of_optional h hlexed
  rw [delimitedText, text_node, htext]
  simpa [stripGroup] using dropLast_eq_iff (by decide) hclosed

end Parameters

/-! ### Names of environments -/

namespace SyntaxTree

/-- Finding a tree does not depend on where it stands. -/
theorem find?_withOffsets (p : SyntaxTree → Bool) (offset : Nat) (trees : List SyntaxTree) :
    ((withOffsets offset trees).find? (p ·.2)).map (·.2) = trees.find? p := by
  induction trees generalizing offset with
  | nil => rfl
  | cons tree trees ih =>
    rw [withOffsets_cons, List.find?_cons, List.find?_cons]
    cases p tree with
    | true => rfl
    | false => exact ih _

/-- The required parameters are the brace groups. -/
theorem any_isRequired_toParameter? (offset : Nat) (tree : SyntaxTree) :
    (tree.toParameter? offset).any (·.isRequired) = tree.isNode .required := by
  cases tree with
  | leaf t => rfl
  | node kind children => cases kind <;> rfl

/-- The parameter that a brace group is. -/
theorem toParameter?_of_required (offset : Nat) {tree : SyntaxTree}
    (h : tree.isNode .required = true) :
    tree.toParameter? offset = some ⟨.required, offset, tree.text, contentsOf tree.children⟩ := by
  obtain ⟨children, rfl⟩ := exists_of_isNode h
  rw [text_node]
  rfl

/-- The first required parameter of a node is its first brace group. -/
theorem find?_isRequired_parameters (offset : Nat) (tree : SyntaxTree) :
    (tree.parameters offset).find? (·.isRequired) =
      ((withOffsets offset tree.children).find? (·.2.isNode .required)).bind
        fun group => group.2.toParameter? group.1 := by
  rw [parameters, List.find?_filterMap]
  simp only [any_isRequired_toParameter?]

/-- The text of the first required parameter is that of the first brace group. -/
theorem find?_parameters (offset : Nat) (tree : SyntaxTree) :
    ((tree.parameters offset).find? (·.isRequired)).map (·.text) =
      (tree.children.find? (·.isNode .required)).map (·.text) := by
  rw [find?_isRequired_parameters, ← find?_withOffsets _ offset, Option.map_map, Option.map_bind]
  cases hfind : (withOffsets offset tree.children).find? (·.2.isNode .required) with
  | none => rfl
  | some group =>
    have hrequired : group.2.isNode .required = true := by simpa using List.find?_some hfind
    simp [toParameter?_of_required _ hrequired]

end SyntaxTree

/-- An environment is named by the first brace group of its beginning. -/
theorem name_of_ofTree? {offset : Nat} {tree : SyntaxTree} {e : Environment}
    (h : Environment.ofTree? offset tree = some e) :
    e.name.map Prod.fst = tree.nameGroup?.map fun group =>
      if group.text.tail.getLast? = some '}' then group.text.tail.dropLast
      else group.text.tail := by
  rw [Environment.ofTree?] at h
  split at h
  · obtain ⟨⟨start, opening⟩, hfind, rfl⟩ := Option.map_eq_some_iff.mp h
    have hopening := find?_withOffsets (·.isNode .opening) offset tree.children
    rw [show (withOffsets offset tree.children).find? (·.2.isNode .opening) = _ from hfind,
      Option.map_some] at hopening
    have htext := congrArg (Option.map fun text : Text =>
      if text.tail.getLast? = some '}' then text.tail.dropLast else text.tail)
      (find?_parameters start opening)
    rw [Option.map_map, Option.map_map] at htext
    rw [nameGroup?, ← hopening, Option.bind_some, Environment.nameOf, Option.map_map]
    simpa only [Function.comp_def, List.drop_one] using htext
  · cases h

/-! ### Sources -/

/-- A parameter is a node of one of two kinds. -/
theorem cases_of_toParameter? {offset : Nat} {tree : SyntaxTree} {p : Parameter}
    (h : tree.toParameter? offset = some p) : ∃ children, p.text = textOfAll children ∧
      (tree = .node .required children ∧ p.kind = .required ∨
        tree = .node .optional children ∧ p.kind = .optional) := by
  cases tree with
  | leaf t => cases h
  | node kind children =>
    refine ⟨children, ?_⟩
    cases kind with
    | required => cases h; exact ⟨rfl, .inl ⟨rfl, rfl⟩⟩
    | optional => cases h; exact ⟨rfl, .inr ⟨rfl, rfl⟩⟩
    | root | group | command | environment | opening | closing | error => cases h

theorem subtree_of_nameGroup? {tree group : SyntaxTree} (h : tree.nameGroup? = some group) :
    Subtree group tree ∧ group.isNode .required = true := by
  obtain ⟨opening, hopening, hgroup⟩ := Option.bind_eq_some_iff.mp h
  refine ⟨?_, by simpa using List.find?_some hgroup⟩
  exact (subtree_of_mem_children (List.mem_of_find?_eq_some hgroup)).trans
    (subtree_of_mem_children (List.mem_of_find?_eq_some hopening))

/-- A part of the tree of a source has its form, and its tokens are as long as they can be. -/
theorem wellFormed_of_subtree {text : Text} {t : SyntaxTree} (h : Subtree t (parse text).tree) :
    Lexed t.tokens ∧ ∃ behind, t.WellFormed behind := by
  obtain ⟨v, hv, rfl⟩ := h.exists_mem_preorder 0 0
  obtain ⟨before, behind, htokens, -, hwell⟩ := (wellFormed_parse text).of_mem_preorder hv
  refine ⟨?_, behind, hwell⟩
  have hlexed := lexed_tokenize text
  rw [← tokens_parse, ← List.append_nil (parse text).tree.tokens, htokens] at hlexed
  exact hlexed.left.right

/-- The text between the delimiters of a parameter is what the tree has there: of a required
parameter, if its braces are plain; of an optional one, unless it is cut off behind a closing
bracket that belongs to something in it. The name of an environment is what its brace group holds,
unless the group is cut off behind a closing brace that belongs to something in it. -/
theorem delimiters_parse (text : Text) :
    (∀ v ∈ (parse text).tree.preorder 0 0, ∀ p ∈ v.tree.toParameter? v.offset,
      (p.kind = .required → v.tree.PlainBraces → p.interior = v.tree.delimitedText) ∧
      (p.kind = .optional → (p.interior = v.tree.delimitedText ↔
        v.tree.isClosed = true ∨ p.text.getLast? ≠ some ']'))) ∧
    ∀ v ∈ (parse text).tree.preorder 0 0, ∀ e ∈ Environment.ofTree? v.offset v.tree,
      (e.name.map Prod.fst = v.tree.nameGroup?.map delimitedText ↔
        ∀ g ∈ v.tree.nameGroup?, g.isClosed = true ∨ g.text.getLast? ≠ some '}') := by
  constructor
  · intro v hv p hp
    obtain ⟨hlexed, behind, hwell⟩ := wellFormed_of_subtree (subtree_of_mem_preorder hv)
    obtain ⟨children, htext, ⟨htree, hkind⟩ | ⟨htree, hkind⟩⟩ := cases_of_toParameter? hp
    · rw [htree] at hlexed hwell ⊢
      rw [tokens_node] at hlexed
      refine ⟨fun _ hplain => ?_, fun h => by simp [hkind] at h⟩
      rw [Parameter.interior, htext]
      exact stripGroup_required hwell.1 hwell.2 hlexed hplain
    · rw [htree] at hlexed hwell ⊢
      rw [tokens_node] at hlexed
      refine ⟨fun h => by simp [hkind] at h, fun _ => ?_⟩
      rw [Parameter.interior, htext]
      exact stripGroup_optional_iff hwell.1 hlexed
  · intro v hv e he
    rw [name_of_ofTree? he]
    cases hgroup : v.tree.nameGroup? with
    | none => simp
    | some g =>
      obtain ⟨hsub, hnode⟩ := subtree_of_nameGroup? hgroup
      obtain ⟨hlexed, behind, hwell⟩ :=
        wellFormed_of_subtree (hsub.trans (subtree_of_mem_preorder hv))
      obtain ⟨children, rfl⟩ := exists_of_isNode hnode
      rw [tokens_node] at hlexed
      obtain ⟨inner, htext, hclosed⟩ := text_of_required hwell.1 hlexed
      simpa [delimitedText, htext] using dropLast_eq_iff (by decide) hclosed

/-- An escaped brace at the end of a group does not close it. -/
theorem delimiters_parse_escaped : ∃ v ∈ (parse "\\cmd\x7ba\\\x7d".toList).tree.preorder 0 0,
    ∃ p ∈ v.tree.toParameter? v.offset, p.kind = .required ∧ v.tree.PlainBraces ∧
      p.interior = "a\\\x7d".toList ∧ v.tree.delimitedText = "a\\\x7d".toList := by
  obtain ⟨v, hv, p, hp, hkind, hplain, hinterior⟩ :
      ∃ v ∈ (parse "\\cmd\x7ba\\\x7d".toList).tree.preorder 0 0,
        ∃ p ∈ v.tree.toParameter? v.offset, p.kind = .required ∧ v.tree.PlainBraces ∧
          p.interior = "a\\\x7d".toList := by
    decide +kernel
  have hagrees := ((delimiters_parse "\\cmd\x7ba\\\x7d".toList).1 v hv p hp).1 hkind hplain
  exact ⟨v, hv, p, hp, hkind, hplain, hinterior, hagrees.symm.trans hinterior⟩

/-- An escaped bracket or brace at the end of a group that is cut off is taken for its end where
only the last character counts, and a brace in a comment hides the end of a group that has one. -/
theorem delimiters_parse_mistaken :
    (¬ ∀ v ∈ (parse "\\cmd[a\\]".toList).tree.preorder 0 0, ∀ p ∈ v.tree.toParameter? v.offset,
      p.interior = v.tree.delimitedText) ∧
    (¬ ∀ v ∈ (parse "\\begin\x7ba\\\x7d".toList).tree.preorder 0 0,
      ∀ e ∈ Environment.ofTree? v.offset v.tree,
        e.name.map Prod.fst = v.tree.nameGroup?.map delimitedText) ∧
    ¬ ∀ v ∈ (parse "\\cmd\x7ba%\x7d\n\x7d".toList).tree.preorder 0 0,
      ∀ p ∈ v.tree.toParameter? v.offset, p.interior = v.tree.delimitedText := by
  decide +kernel

end TexLint
