import TexLint.Proofs.Source.Lengthened
import TexLint.Proofs.Source.Lexing
import TexLint.Proofs.Source.Settling
import TexLint.Proofs.Text.Coverage
import TexLint.Document.Definition

/-!
# A document in which a command is starred

The star of a starred definition is part of its control word. Writing it changes nothing else that
is read: every command and every environment stays what it is, up to the byte that the star takes.

## The model

* `starrable`: the commands that define a command and are known with and without a star.
* `CommandUsage.Starred`, `EnvironmentUsage.Starred`, `Document.Starred`: the usages of a document,
  and what has become of them when the command at a place is starred.

## What is proved

* `tokenize_starred`: the star goes into the token.
* `exchanged_starred`: the token is read as before.
* `Document.read_starred`: so the usages correspond to each other.
-/

namespace TexLint

open SyntaxTree

/-- The commands that define a command and that are known with and without a star. -/
def starrable : List String := ["\\newcommand", "\\renewcommand", "\\providecommand"]

/-- The starred form of a control word. -/
@[irreducible]
def starredName (name : String) : String := String.ofList (name.toList ++ ['*'])

/-- The token of a control word. -/
def wordToken (name : String) : Token := ⟨.command, name.toList⟩

/-! ### The token -/

section Token

variable {name : String}

theorem byteLength_starredName (name : String) : byteLength (wordToken (starredName name)).text =
    byteLength (wordToken name).text + 1 := by
  show byteLength (starredName name).toList = byteLength name.toList + 1
  rw [starredName, String.toList_ofList, byteLength_append]
  rfl

theorem eight_le_byteLength (h : name ∈ starrable) : 8 ≤ byteLength name.toList := by
  revert name
  decide

/-- With and without the star, the command is an ordinary one that may have options. -/
theorem wordToken_spec (h : name ∈ starrable) :
    ((wordToken name).isBegin = false ∧ (wordToken name).isEnd = false ∧
      delimiterCommands.contains (wordToken name).text = false) ∧
    (wordToken (starredName name)).isBegin = false ∧ (wordToken (starredName name)).isEnd = false ∧
      delimiterCommands.contains (wordToken (starredName name)).text = false := by
  revert name
  decide +kernel

/-- The starred command is read as the command is. -/
theorem exchanged_starred (h : name ∈ starrable) (nest : Nest) :
    Nest.Exchanged [.leaf (wordToken name)] [.leaf (wordToken (starredName name))]
      (nest.next (wordToken name)) (nest.next (wordToken (starredName name))) := by
  obtain ⟨⟨hbegin, hend, hdelimiter⟩, hbegin', hend', hdelimiter'⟩ := wordToken_spec h
  have hsettle : (nest.settle (wordToken name)).1 =
      (nest.settle (wordToken (starredName name))).1 :=
    Nest.settleFrom_congr (Construct.closes_ordinary rfl hbegin hend rfl hbegin' hend') [] nest
  rw [Nest.next_command rfl hbegin hend, Nest.next_command rfl hbegin' hend', hdelimiter,
    hdelimiter', hsettle]
  exact .content _ _ (.here [])

theorem lexeme_starred (h : name ∈ starrable) (next : Option Char) :
    Lexeme next (wordToken (starredName name)) := by
  have hword : ∃ letters, letters ≠ [] ∧ letters.all isCommandLetter = true ∧
      name.toList = '\\' :: letters := by
    refine ⟨name.toList.tail, ?_⟩
    revert name
    decide +kernel
  obtain ⟨letters, hne, hletters, hname⟩ := hword
  rw [wordToken, starredName, String.toList_ofList, hname]
  exact .starred hne (List.all_eq_true.mp hletters)

end Token

/-! ### Usages -/

namespace Span

/-- Two ranges have nothing in common. -/
def Apart (s r : Span) : Prop := s.stop ≤ r.start ∨ r.stop ≤ s.start

instance (s r : Span) : Decidable (s.Apart r) := inferInstanceAs (Decidable (_ ∨ _))

theorem Apart.contains_eq_false {s r : Span} (h : s.Apart r) (hr : r.start < r.stop) :
    s.contains r = false := by
  rw [← Bool.not_eq_true, contains_iff]
  unfold Apart at h
  omega

end Span

/-- A command, and what has become of it when the command at a place is starred. -/
structure CommandUsage.Starred (place : Span) (name : String) (u u' : CommandUsage) : Prop where
  /-- As many commands start before it. -/
  index : u'.index = u.index
  /-- The range moves or grows. -/
  span : KeptSpan place u.span u'.span
  /-- The name is the same, unless it is the command at the place. -/
  name : u'.name = u.name ∨
    u.span.start = place.start ∧ place.stop ≤ u.span.stop ∧ u.name = name ∧
      u'.name = starredName name
  /-- Its first brace group moves or grows. -/
  firstRequired : Option.Rel (Parameter.Moved place) u.firstRequired u'.firstRequired

/-- An environment, and what has become of it when the command at a place is starred. -/
structure EnvironmentUsage.Starred (place : Span) (e e' : EnvironmentUsage) : Prop where
  /-- Its start moves. -/
  start : Kept place e.span.start e'.span.start
  /-- The name is the same, unless the place is part of it. -/
  name : e'.name = e.name ∨ ¬ e.nameSpan.Apart place

/-- The usages of a document, and what has become of them when the command at a place is
starred. -/
structure Document.Starred (place : Span) (name : String) (d d' : Document) : Prop where
  /-- The commands correspond to each other. -/
  commands : List.Forall₂ (CommandUsage.Starred place name) d.commands d'.commands
  /-- The environments do. -/
  environments : List.Forall₂ (EnvironmentUsage.Starred place) d.environments d'.environments

section Visits

variable {name : String} {start : Nat} {v v' : Visit}

theorem isNode_of_moved {t t' : Token} {o o' : Nat} {tree tree' : SyntaxTree}
    (h : Moved t t' start o tree o' tree') (kind : NodeKind) :
    tree.isNode kind = tree'.isNode kind := by
  cases h <;> rfl

/-- A node starts with the same control sequence, unless it is the command that is starred. -/
theorem commandName?_of_moved {o o' : Nat} {tree tree' : SyntaxTree}
    (h : Moved (wordToken name) (wordToken (starredName name)) start o tree o' tree') :
    tree'.commandName? = tree.commandName? ∨
      o = start ∧ start + byteLength name.toList ≤ o + tree.length ∧
        tree.commandName? = some name.toList ∧
        tree'.commandName? = some (starredName name).toList := by
  cases h with
  | before | behind => exact .inl rfl
  | token => exact .inl rfl
  | node kind hrow ho =>
    have hle := (hrow.length (byteLength_starredName name)).1
    cases hrow with
    | here rest =>
      rw [Nat.zero_add] at hle
      rw [Nat.add_zero] at ho
      refine .inr ⟨ho, ?_, rfl, rfl⟩
      rw [length_node, ho]
      exact Nat.add_le_add_left hle start
    | behind tree _ => exact .inl (by cases tree <;> rfl)
    | within => exact .inl rfl

theorem rel_firstRequired {o o' : Nat} {tree tree' : SyntaxTree}
    (h : Moved (wordToken name) (wordToken (starredName name)) start o tree o' tree') :
    Option.Rel (Parameter.Moved (.ofLength start (byteLength name.toList)))
      ((tree.parameters o).find? (·.isRequired)) ((tree'.parameters o').find? (·.isRequired)) :=
  rel_find? (fun _ _ hp => (congrArg (· == ParameterKind.required) hp.kind).symm)
    (h.parameters (byteLength_starredName name))

/-- A visited part is the same command, or the one that is starred. -/
theorem rel_command? (h : v.Moved (wordToken name) (wordToken (starredName name)) start v') :
    Option.Rel (fun usage usage' => ∀ index, CommandUsage.Starred
      (.ofLength start (byteLength name.toList)) name (usage index) (usage' index))
      v.command? v'.command? := by
  have hlength := byteLength_starredName name
  have hspan : KeptSpan (.ofLength start (byteLength name.toList)) v.span v'.span :=
    Moved.span h hlength
  have hfirst := rel_firstRequired h
  rw [Visit.command?, Visit.command?, ← isNode_of_moved h .command]
  split
  · rcases commandName?_of_moved h with hname | ⟨hstart, hstop, hname, hname'⟩
    · rw [hname]
      cases v.tree.commandName? with
      | none => exact .none
      | some found => exact .some fun index => ⟨rfl, hspan, .inl rfl, hfirst⟩
    · rw [hname, hname']
      refine .some fun index => ⟨rfl, hspan, .inr ⟨hstart, hstop, ?_, ?_⟩, hfirst⟩
      · exact String.ofList_toList
      · exact String.ofList_toList
  · exact .none

theorem rel_mapIdx {α β α' β' : Type} {R : α → β → Prop} {S : α' → β' → Prop}
    {f : Nat → α → α'} {g : Nat → β → β'} (hfg : ∀ i a b, R a b → S (f i a) (g i b))
    {l : List α} {l' : List β} (h : List.Forall₂ R l l') :
    List.Forall₂ S (l.mapIdx f) (l'.mapIdx g) := by
  induction h generalizing f g with
  | nil => exact .nil
  | cons hab _ ih =>
    rw [List.mapIdx_cons, List.mapIdx_cons]
    exact .cons (hfg 0 _ _ hab) (ih fun i => hfg (i + 1))

/-! ### Environments -/

/-- The name that a brace group gives to an environment, and where it stands. -/
def groupName (p : Parameter) : Text × Span :=
  let inner := p.text.drop 1
  let name := if inner.getLast? = some '}' then inner.dropLast else inner
  (name, .ofLength (p.offset + 1) (byteLength name))

theorem nameOf_eq (parameters : List Parameter) : Environment.nameOf parameters =
    (parameters.find? (·.isRequired)).map groupName := rfl

/-- All of a group but its first and its last character is the name. -/
theorem byteLength_le_groupName (p : Parameter) :
    byteLength p.text ≤ byteLength (groupName p).1 + 5 := by
  rw [groupName]
  cases p.text with
  | nil => exact Nat.zero_le _
  | cons c inner =>
    have hc := c.utf8Size_le_four
    rw [List.drop_succ_cons, List.drop_zero, byteLength_cons]
    dsimp only
    split
    · next hlast =>
      have hinner := List.dropLast_append_getLast? '}' hlast
      have hlength := congrArg byteLength hinner
      rw [byteLength_append] at hlength
      have hbrace : byteLength ['}'] = 1 := rfl
      omega
    · omega

/-- The name in a group is the same when a place grows that it does not touch. -/
theorem groupName_of_moved {place : Span} (hplace : place.start + 8 ≤ place.stop)
    {p p' : Parameter} (h : p.Moved place p') :
    (groupName p').1 = (groupName p).1 ∨ ¬ (groupName p).2.Apart place := by
  rcases h.text with htext | hcontains
  · refine .inl ?_
    rw [groupName, groupName, htext]
  · -- The group has no room for the place beside its name.
    have hle := byteLength_le_groupName p
    obtain ⟨hstart, hstop⟩ := Span.contains_iff.mp hcontains
    have hstart : p.offset ≤ place.start := hstart
    have hstop : place.stop ≤ p.offset + byteLength p.text := hstop
    refine .inr fun hapart => ?_
    rcases hapart with hbefore | hbehind
    · have hbefore : p.offset + 1 + byteLength (groupName p).1 ≤ place.start := hbefore
      omega
    · have hbehind : place.stop ≤ p.offset + 1 := hbehind
      omega

/-- The usage that a beginning is, if it has a name. -/
def beginningUsage? (part : Nat × SyntaxTree) : Option EnvironmentUsage :=
  ((part.2.parameters part.1).find? (·.isRequired)).map fun p =>
    ⟨String.ofList (groupName p).1, .ofLength part.1 part.2.length, (groupName p).2⟩

theorem environment?_eq (o : Nat) (tree : SyntaxTree) :
    (Environment.ofTree? o tree).bind (·.toUsage?) =
      if tree.isNode .environment then
        ((withOffsets o tree.children).find? (·.2.isNode .opening)).bind beginningUsage?
      else none := by
  rw [Environment.ofTree?]
  split
  · simp only [Option.bind_map]
    refine congrArg _ (funext fun part => ?_)
    simp only [Function.comp_apply, Environment.toUsage?, nameOf_eq, Option.map_map,
      beginningUsage?]
    rfl
  · rfl

/-- A beginning is the same usage, or one in whose name the command is starred. -/
theorem rel_beginningUsage? (hname : name ∈ starrable) {part part' : Nat × SyntaxTree}
    (h : MovedPart (wordToken name) (wordToken (starredName name)) start part part') :
    Option.Rel (EnvironmentUsage.Starred (.ofLength start (byteLength name.toList)))
      (beginningUsage? part) (beginningUsage? part') := by
  have hplace : start + 8 ≤ start + byteLength name.toList :=
    Nat.add_le_add_left (eight_le_byteLength hname) start
  have hstart := (Moved.span h (byteLength_starredName name)).start
  have hfirst := rel_firstRequired h
  rw [beginningUsage?, beginningUsage?]
  generalize (part.2.parameters part.1).find? (·.isRequired) = p at hfirst ⊢
  generalize (part'.2.parameters part'.1).find? (·.isRequired) = p' at hfirst ⊢
  cases hfirst with
  | none => exact .none
  | some hp =>
    refine .some ⟨hstart, (groupName_of_moved hplace hp).imp_left fun hgroup => ?_⟩
    exact congrArg String.ofList hgroup

/-- A visited part is the same environment, or one in whose name the command is starred. -/
theorem rel_environment? (hname : name ∈ starrable)
    (h : v.Moved (wordToken name) (wordToken (starredName name)) start v') :
    Option.Rel (EnvironmentUsage.Starred (.ofLength start (byteLength name.toList)))
      ((Environment.ofTree? v.offset v.tree).bind (·.toUsage?))
      ((Environment.ofTree? v'.offset v'.tree).bind (·.toUsage?)) := by
  have hopening := rel_find? (f := (·.2.isNode .opening)) (g := (·.2.isNode .opening))
    (fun p p' (hp : MovedPart _ _ _ p p') => isNode_of_moved hp .opening)
    (Moved.parts h (byteLength_starredName name))
  rw [environment?_eq, environment?_eq, ← isNode_of_moved h .environment]
  split
  · generalize (withOffsets v.offset v.tree.children).find? (·.2.isNode .opening) = part
      at hopening ⊢
    generalize (withOffsets v'.offset v'.tree.children).find? (·.2.isNode .opening) = part'
      at hopening ⊢
    cases hopening with
    | none => exact .none
    | some hpart => exact rel_beginningUsage? hname hpart
  · exact .none

end Visits

/-! ### Documents -/

/-- A command stands among the tokens of a document. -/
theorem exists_wordToken_of_command {path : String} {text : Text} {u : CommandUsage}
    (h : u ∈ (Document.read path text).commands) : ∃ before behind,
      tokenize text = before ++ wordToken u.name :: behind ∧
        byteLength (tokensText before) = u.span.start := by
  obtain ⟨before, t, parameters, behind, htokens, ht, hname, hspan⟩ :=
    Document.exists_tokens_of_command h
  obtain ⟨kind, word⟩ := t
  obtain rfl : kind = .command := ht
  refine ⟨before, parameters ++ behind, ?_, by rw [hspan]; rfl⟩
  rw [htokens, hname, wordToken, String.toList_ofList, List.append_assoc]
  rfl

/-- The star goes into the token of the command. -/
theorem tokenize_starred {name : String} (hname : name ∈ starrable) {before behind : List Token}
    {text : Text} (h : tokenize text = before ++ wordToken name :: behind) :
    text = tokensText before ++ name.toList ++ tokensText behind ∧
      tokenize (tokensText before ++ name.toList ++ '*' :: tokensText behind) =
        before ++ wordToken (starredName name) :: behind := by
  have hlexed : Lexed (before ++ wordToken name :: behind) := h ▸ lexed_tokenize text
  have hhead : (wordToken (starredName name)).text.head? = (wordToken name).text.head? := by
    have hne : name.toList ≠ [] := hlexed.right.1.text_ne_nil
    show (starredName name).toList.head? = name.toList.head?
    rw [starredName, String.toList_ofList, List.head?_append_of_ne_nil _ hne]
  have hreplaced :=
    (hlexed.replace ⟨lexeme_starred hname _, hlexed.right.2⟩ hhead).tokenize_tokensText
  constructor
  · rw [← tokensText_tokenize text, h, tokensText_append, List.append_assoc]
    rfl
  · rw [← hreplaced, tokensText_append]
    simp [tokensText, wordToken, starredName]

namespace Document

/-- When a definition is starred, all usages of the document correspond to what they have been. -/
theorem read_starred {name : String} (hname : name ∈ starrable) (path : String)
    {before behind : Text} {u : CommandUsage}
    (hu : u ∈ (read path (before ++ name.toList ++ behind)).commands) (hu' : u.name = name)
    (hstart : u.span.start = byteLength before) :
    Starred (.ofLength (byteLength before) (byteLength name.toList)) name
      (read path (before ++ name.toList ++ behind))
      (read path (before ++ name.toList ++ '*' :: behind)) := by
  obtain ⟨a, b, htokens, hplace⟩ := exists_wordToken_of_command hu
  rw [hu'] at htokens
  obtain ⟨htext, htokens'⟩ := tokenize_starred hname htokens
  rw [List.append_assoc, List.append_assoc] at htext
  obtain ⟨rfl, hbehind⟩ := append_inj_of_byteLength htext (hstart.symm.trans hplace.symm)
  obtain rfl := List.append_cancel_left hbehind
  have hne : wordToken name ≠ wordToken (starredName name) := by
    intro h
    have hlength := byteLength_starredName name
    rw [← h] at hlength
    exact Nat.succ_ne_self _ hlength.symm
  obtain ⟨row, row', htree, htree', hrow⟩ :=
    exchanged_parse hne (exchanged_starred hname) htokens htokens'
  have hvisits : List.Forall₂
      (Visit.Moved (wordToken name) (wordToken (starredName name)) (byteLength (tokensText a)))
      ((parse (tokensText a ++ name.toList ++ tokensText b)).tree.preorder 0 0)
      ((parse (tokensText a ++ name.toList ++ '*' :: tokensText b)).tree.preorder 0 0) := by
    have hroot := forall₂_preorderOfAll (.within .root [] hrow) (byteLength_starredName name) 0
      (Nat.zero_add _)
    rw [htree, htree']
    simpa only [preorderOfAll_cons, preorderOfAll_nil, List.append_nil] using hroot
  constructor
  · exact rel_mapIdx (fun i f g hfg => hfg i)
      (List.rel_filterMap (fun v v' hv => rel_command? hv) hvisits)
  · show List.Forall₂ _ (environmentUsages _) (environmentUsages _)
    rw [environmentUsages, environmentUsages, TexLint.environments, TexLint.environments,
      List.filterMap_filterMap, List.filterMap_filterMap]
    exact List.rel_filterMap (fun v v' hv => rel_environment? hname hv) hvisits

end Document

end TexLint
