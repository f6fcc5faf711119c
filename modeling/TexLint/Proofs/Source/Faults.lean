import TexLint.Proofs.Source.Braces

/-!
# One report for each fault of a tree

What is wrong with a source can be seen from its tree: a group lacks its closing brace, an end
closes nothing. Reading reports each of these faults once, and nothing else.

## The model

* `Fault` lists what can be wrong with a node. `fault?` reads it off the children of the node and
  the kind of the node around it, `SyntaxTree.faults` gathers the faults of a whole tree.
* `Defect.fault` says which fault a report is about. Two reports may be about the same fault, in
  the root and in an environment, or at different tokens.
* `Nest.openFaults` are the faults that the end of the source would still report.
* `Nest.Tracked` is the invariant that says which faults have been reported: a beginning that is
  bare has no parameter yet, an end that closes something stands in an environment.

## What is proved

* `Nest.count_faults_treesWith`: what one more tree changes.
* `Nest.count_openFaults_settle`, `Nest.count_faults_read`: one token reports the faults that it
  shows, no more and no fewer.
* `perm_faults_parse`: the reports are the faults of the tree.
-/

namespace TexLint

open SyntaxTree

/-! ### Faults -/

/-- What can be wrong with a node of a tree. -/
inductive Fault where
  /-- A closing brace has no place where it stands. -/
  | strayBrace
  /-- A brace group lacks its closing brace. -/
  | openBraces
  /-- A bracket group lacks its closing bracket. -/
  | openBrackets
  /-- An end does not stand at the end of an environment. -/
  | strayEnd
  /-- No brace group follows the control sequence of a beginning. -/
  | namelessBegin
  /-- No brace group follows the control sequence of an end. -/
  | namelessEnd
  /-- An environment lacks its end. -/
  | openEnvironment
  deriving DecidableEq, Repr

/-- The fault that a report is about. -/
def Defect.fault : Defect → Fault
  | unmatchedBrace | unmatchedBraceInEnvironment => .strayBrace
  | unclosedGroup => .openBraces
  | unclosedOptional | unclosedOptionalAtParagraph => .openBrackets
  | unmatchedEnd => .strayEnd
  | missingBeginName => .namelessBegin
  | missingEndName => .namelessEnd
  | unclosedEnvironment => .openEnvironment

/-- A tree completes a node of the given kind when it stands at its end. -/
def SyntaxTree.completes : NodeKind → SyntaxTree → Bool
  | .group, tree | .required, tree => tree.isToken .rbrace
  | .optional, tree => tree.isToken .rbracket
  | .environment, tree => tree.isNode .closing
  | _, _ => false

/-- What is wrong with a node, given the kind of the node around it. -/
def fault? (around kind : NodeKind) (children : List SyntaxTree) : Option Fault :=
  match kind with
  | .root | .command => none
  | .group | .required =>
    if children.getLast?.any (completes kind) then none else some .openBraces
  | .optional => if children.getLast?.any (completes kind) then none else some .openBrackets
  | .environment => if children.getLast?.any (completes kind) then none else some .openEnvironment
  | .opening => if children[1]?.any (isNode .required) then none else some .namelessBegin
  | .closing =>
    if around ≠ .environment then some .strayEnd
    else if children[1]?.any (isNode .required) then none
    else some .namelessEnd
  | .error => some .strayBrace

namespace SyntaxTree

mutual

/-- The faults of a tree that stands in a node of the given kind. -/
def faults (around : NodeKind) : SyntaxTree → List Fault
  | leaf _ => []
  | node kind children => (fault? around kind children).toList ++ faultsOfAll kind children

/-- The faults of trees that stand in a node of the given kind. -/
def faultsOfAll (around : NodeKind) : List SyntaxTree → List Fault
  | [] => []
  | tree :: trees => tree.faults around ++ faultsOfAll around trees

end

variable {around kind : NodeKind} {held a b : List SyntaxTree} {tree : SyntaxTree} {f : Fault}

theorem faultsOfAll_append (around : NodeKind) (a b : List SyntaxTree) :
    faultsOfAll around (a ++ b) = faultsOfAll around a ++ faultsOfAll around b := by
  induction a with
  | nil => simp [faultsOfAll]
  | cons tree a ih => simp [faultsOfAll, ih]

theorem count_faultsOfAll_concat : (faultsOfAll around (held ++ [tree])).count f =
    (faultsOfAll around held).count f + (tree.faults around).count f := by
  simp [faultsOfAll_append, faultsOfAll]

theorem count_faults_node : ((node kind held).faults around).count f =
    (fault? around kind held).toList.count f + (faultsOfAll kind held).count f := by
  rw [faults, List.count_append]

/-- What is wrong with a node does not depend on what the node at its end holds. -/
theorem fault?_change {k : NodeKind} : fault? around kind (held ++ [node k a]) =
    fault? around kind (held ++ [node k b]) := by
  have hlast : (held ++ [node k a]).getLast?.any (completes kind) =
      (held ++ [node k b]).getLast?.any (completes kind) := by
    simp only [List.getLast?_concat, Option.any_some]
    cases kind <;> rfl
  have hsecond : (held ++ [node k a])[1]?.any (isNode .required) =
      (held ++ [node k b])[1]?.any (isNode .required) := by
    rcases held with _ | ⟨first, _ | ⟨second, held⟩⟩ <;> rfl
  cases kind <;> simp only [fault?, hlast, hsecond]

end SyntaxTree

/-! ### What one more tree changes -/

namespace Nest

/-- What is wrong with the innermost construct when it ends with the given trees. -/
def ownFault? (finished : List SyntaxTree) : Nest → Option Fault
  | root _ => none
  | inside construct content outer =>
    fault? outer.place construct.kind (finished ++ content).reverse

/-- The faults of a source that ends here, when the given trees have been put behind what the
innermost construct holds. -/
def faultsWith (finished : List SyntaxTree) (nest : Nest) : List Fault :=
  faultsOfAll .root (nest.treesWith finished)

theorem faultsWith_add (tree : SyntaxTree) (nest : Nest) :
    (nest.add tree).faultsWith [] = nest.faultsWith [tree] := by
  rw [faultsWith, treesWith_add, List.nil_append, faultsWith]

variable {f : Fault}

/-- The node at the open end of a nest may be exchanged for another one of its kind. -/
theorem count_faultsWith_change (nest : Nest) (kind : NodeKind) (a b : List SyntaxTree) :
    (nest.faultsWith [.node kind a]).count f + ((node kind b).faults nest.place).count f =
      (nest.faultsWith [.node kind b]).count f + ((node kind a).faults nest.place).count f := by
  induction nest generalizing kind a b with
  | root content =>
    simp only [faultsWith, treesWith_root, List.singleton_append, List.reverse_cons,
      count_faultsOfAll_concat, place]
    omega
  | inside construct content outer ih =>
    have h := ih construct.kind (content.reverse ++ [.node kind a])
      (content.reverse ++ [.node kind b])
    simp only [count_faults_node, count_faultsOfAll_concat,
      fault?_change (a := a) (b := b) (k := kind)] at h
    simp only [faultsWith, treesWith_inside, close, List.singleton_append, List.reverse_cons, place,
      count_faults_node] at h ⊢
    omega

/-- One more tree brings its own faults and may change what is wrong with the construct. -/
theorem count_faultsWith_inside (construct : Construct) (content : List SyntaxTree) (outer : Nest)
    (tree : SyntaxTree) : ((inside construct content outer).faultsWith [tree]).count f +
        (fault? outer.place construct.kind content.reverse).toList.count f =
      ((inside construct content outer).faultsWith []).count f +
        (fault? outer.place construct.kind (content.reverse ++ [tree])).toList.count f +
        (tree.faults construct.kind).count f := by
  have h := count_faultsWith_change (f := f) outer construct.kind content.reverse
    (content.reverse ++ [tree])
  simp only [count_faults_node, count_faultsOfAll_concat] at h
  simp only [faultsWith, treesWith_inside, close, List.singleton_append, List.reverse_cons,
    List.nil_append] at h ⊢
  omega

theorem count_faultsWith_singleton (nest : Nest) (tree : SyntaxTree) :
    (nest.faultsWith [tree]).count f + (nest.ownFault? []).toList.count f =
      (nest.faultsWith []).count f + (nest.ownFault? [tree]).toList.count f +
        (tree.faults nest.place).count f := by
  cases nest with
  | root content =>
    simp only [faultsWith, treesWith_root, List.singleton_append, List.reverse_cons,
      List.nil_append, count_faultsOfAll_concat, place, ownFault?]
    omega
  | inside construct content outer =>
    have h := count_faultsWith_inside (f := f) construct content outer tree
    simpa only [ownFault?, place, List.singleton_append, List.reverse_cons, List.nil_append] using h

/-! ### Faults that are still to be reported -/

/-- The faults that the end of the source reports. -/
def openFaults : Nest → List Fault
  | root _ => []
  | inside construct _ outer => (construct.atEnd.map Defect.fault).toList ++ outer.openFaults

theorem openFaults_add (tree : SyntaxTree) (nest : Nest) :
    (nest.add tree).openFaults = nest.openFaults := by
  cases nest <;> rfl

/-- The end of the source reports the faults of the open constructs. -/
theorem map_fault_finishFrom (finished : List SyntaxTree) (nest : Nest) :
    (nest.finishFrom finished).2.map Defect.fault = nest.openFaults := by
  induction nest generalizing finished with
  | root content => rfl
  | inside construct content outer ih =>
    show (construct.atEnd.toList ++ (outer.finishFrom _).2).map Defect.fault = _
    rw [List.map_append, ih, openFaults]
    cases construct.atEnd <;> rfl

/-- What a token shows to be wrong with the innermost construct. -/
def shown (t : Token) : Nest → Option Defect
  | root _ => none
  | inside construct _ _ => (construct.before t).defect

end Nest

/-- A token that ends a construct reports what the end of the source would. -/
theorem Construct.fault_of_closes {construct : Construct} {t : Token}
    (h : (construct.before t).closes = true) :
    (construct.before t).defect.map Defect.fault = construct.atEnd.map Defect.fault := by
  cases construct with
  | group | required => cases h
  | optional =>
    simp only [before] at h ⊢
    split_ifs at h ⊢ <;> rfl
  | command takesOptional | strayEnd => rfl
  | opening bare =>
    have hkind : t.kind ≠ .lbrace := fun hkind => by simp [before, hkind] at h
    cases bare <;> simp [before, atEnd, hkind]
  | environment ended =>
    obtain rfl : ended = true := h
    rfl
  | closing bare =>
    cases bare with
    | false => rfl
    | true =>
      simp only [before] at h ⊢
      split_ifs at h ⊢
      rfl

namespace Nest

variable {f : Fault}

/-- The reports of the constructs that a token ends are the faults that are no longer open. -/
theorem count_openFaults_settleFrom (t : Token) (finished : List SyntaxTree) (nest : Nest) :
    ((nest.settleFrom t finished).2.map Defect.fault).count f +
        (nest.settleFrom t finished).1.openFaults.count f =
      nest.openFaults.count f +
        (((nest.settleFrom t finished).1.shown t).map Defect.fault).toList.count f := by
  induction nest generalizing finished with
  | root content => rfl
  | inside construct content outer ih =>
    rw [settleFrom]
    simp only []
    split
    · next hcloses =>
      have h := ih [close construct (finished ++ content)]
      have hfault := Construct.fault_of_closes hcloses
      simp only [List.map_append, List.count_append, openFaults, ← hfault, Option.toList_map] at h ⊢
      omega
    · simp only [openFaults, shown, List.count_append, Option.toList_map]
      omega

end Nest

/-! ### The invariant of reading -/

/-- What is known of an open construct from how many trees it holds and where it stands: a
beginning is bare until it has a parameter, and only what stands in an environment can end it. -/
def Construct.Tracks (around : NodeKind) (size : Nat) : Construct → Prop
  | opening true => size = 1
  | opening false => 2 ≤ size
  | closing _ => around = .environment
  | strayEnd => around ≠ .environment
  | _ => True

namespace Nest

/-- The innermost construct is tracked, and when it is closed, those around it are. -/
inductive Tracked : Nest → Prop where
  /-- The source itself. -/
  | source (content : List SyntaxTree) : Tracked (root content)
  /-- An open construct. -/
  | within {construct : Construct} {content : List SyntaxTree} {outer : Nest} :
      construct.Tracks outer.place content.length →
      (∀ tree, tree.isNode construct.kind = true → Tracked (outer.add tree)) →
      Tracked (inside construct content outer)

variable {nest outer : Nest} {construct construct' inner : Construct} {content : List SyntaxTree}
  {t : Token}

theorem Tracked.tracks (h : (inside construct content outer).Tracked) :
    construct.Tracks outer.place content.length := by
  cases h with
  | within htracks => exact htracks

theorem Tracked.closed (h : (inside construct content outer).Tracked) (content' : List SyntaxTree) :
    (outer.add (close construct content')).Tracked := by
  cases h with
  | within _ houter => exact houter _ (by simp [close, isNode])

/-- Closing what a token ends keeps track. -/
theorem Tracked.settle (h : nest.Tracked) : (nest.settle t).1.Tracked := by
  induction h with
  | source content => exact .source content
  | @within construct content outer htracks houter ih =>
    rw [Nest.settle, settleFrom]
    simp only []
    split
    · rw [settleFrom_singleton]
      exact ih _ (by simp [close, isNode])
    · exact .within htracks houter

/-- An element may be put into what takes elements. -/
theorem Tracked.add_element (h : nest.Tracked) (helements : ∀ construct content outer,
    nest = inside construct content outer → construct.TakesElements) (tree : SyntaxTree) :
    (nest.add tree).Tracked := by
  cases h with
  | source content => exact .source _
  | @within construct content outer htracks houter =>
    refine .within ?_ houter
    cases helements construct content outer rfl <;> trivial

/-- A token that is read as an element keeps track. -/
theorem Tracked.readElement (h : nest.Tracked) (helements : ∀ construct content outer,
      nest = inside construct content outer → construct.TakesElements)
    (hend : nest.place = .environment → t.isEnd = false) : (nest.readElement t).1.Tracked := by
  have hadd := h.add_element helements
  rw [Nest.readElement]
  split
  · split
    · refine .within (by exact rfl) fun opening _ => .within trivial fun tree _ => hadd tree
    · split
      · next hisEnd =>
        refine .within (fun hplace => ?_) fun tree _ => hadd tree
        simp [hend hplace] at hisEnd
      · exact .within trivial fun tree _ => hadd tree
  · exact .within trivial fun tree _ => hadd tree
  · exact hadd _
  · exact hadd _

/-- A token that opens a part of a construct keeps track. -/
theorem Tracked.enter (h : (inside construct content outer).Tracked)
    (hcontent : content ≠ []) (henters : construct.Enters t construct' inner) :
    ((inside construct' content outer).enter inner t).Tracked := by
  have hpositive : 0 < content.length := List.length_pos_iff.mpr hcontent
  have htracks := h.tracks
  cases h with
  | within _ houter =>
    have hinside {c : Construct} {trees : List SyntaxTree} (hkind : c.kind = construct.kind)
        (hc : c.Tracks outer.place trees.length) : (inside c trees outer).Tracked :=
      .within hc fun tree htree => houter tree (hkind ▸ htree)
    cases henters with
    | commandRequired | commandOptional =>
      exact .within trivial fun tree _ => hinside rfl trivial
    | openingRequired | openingOptional =>
      refine .within trivial fun tree _ => hinside rfl ?_
      show 2 ≤ (tree :: content).length
      rw [List.length_cons]
      omega
    | closingRequired => exact .within trivial fun tree _ => hinside rfl htracks
    | strayEndRequired => exact .within trivial fun tree _ => hinside rfl htracks
    | ending => exact .within rfl fun tree _ => hinside rfl trivial

/-! ### One token -/

variable {held : List SyntaxTree} {around : NodeKind} {tree : SyntaxTree} {f : Fault}

/-- What is wrong with a construct that takes elements is what the end of the source reports, as
long as no token has completed it. -/
theorem fault?_of_getLast? (hkind : construct.TakesElements)
    (h : held.getLast?.any (completes construct.kind) = false) :
    fault? around construct.kind held = construct.atEnd.map Defect.fault := by
  cases hkind <;> simp only [Construct.kind] at h ⊢ <;>
    simp [fault?, h, Construct.atEnd, Defect.fault]

theorem fault?_concat (hkind : construct.TakesElements)
    (h : tree.completes construct.kind = false) :
    fault? around construct.kind (held ++ [tree]) = construct.atEnd.map Defect.fault :=
  fault?_of_getLast? hkind (by simpa using h)

/-- Nothing that a construct takes while it is open completes it. -/
theorem completes_of_mem (h : PartialForm construct held) (hkind : construct.TakesElements) :
    ∀ c ∈ held, c.completes construct.kind = false := by
  cases hkind with
  | group =>
    cases h with
    | group hl hcontent =>
      exact List.forall_mem_cons.mpr ⟨beq_eq_false_iff_ne.mpr (hl ▸ by decide),
        fun c hc => (hcontent c hc).noBrace.isToken_rbrace⟩
  | required =>
    cases h with
    | required hl hcontent =>
      exact List.forall_mem_cons.mpr ⟨beq_eq_false_iff_ne.mpr (hl ▸ by decide),
        fun c hc => (hcontent c hc).noBrace.isToken_rbrace⟩
  | optional =>
    cases h with
    | brackets hl hcontent =>
      refine List.forall_mem_cons.mpr ⟨beq_eq_false_iff_ne.mpr (hl ▸ by decide), fun c hc => ?_⟩
      have hplace := hcontent c hc
      cases c with
      | leaf t => exact beq_eq_false_iff_ne.mpr (hplace.2 rfl).1
      | node kind children => rfl
  | environment =>
    cases h with
    | environment hb hcontent =>
      obtain ⟨parts, rfl⟩ := exists_of_isNode hb
      refine List.forall_mem_cons.mpr ⟨rfl, fun c hc => ?_⟩
      have hplace := hcontent c hc
      cases c with
      | leaf t => rfl
      | node kind children =>
        by_cases hkind : kind = .closing
        · subst hkind
          exact absurd rfl hplace.2
        · exact beq_eq_false_iff_ne.mpr hkind

theorem fault?_of_partialForm (h : PartialForm construct held) (hkind : construct.TakesElements) :
    fault? around construct.kind held = construct.atEnd.map Defect.fault := by
  refine fault?_of_getLast? hkind ?_
  rw [Option.any_eq_false]
  intro c hc
  simp [completes_of_mem h hkind c (List.mem_of_getLast? hc)]

/-- A token that is read as an element reports the faults of its tree that the end of the source
does not. -/
theorem count_faults_readElement (nest : Nest) (t : Token) (f : Fault)
    (hown : ∀ tree, tree.completes nest.place = false → nest.ownFault? [tree] = nest.ownFault? [])
    (hend : nest.place = .environment → t.isEnd = false)
    (hbracket : nest.place = .optional → t.kind ≠ .rbracket) :
    ((nest.readElement t).1.faultsWith []).count f + nest.openFaults.count f =
      (nest.faultsWith []).count f + ((nest.readElement t).2.map Defect.fault).count f +
        (nest.readElement t).1.openFaults.count f := by
  have hstep (tree : SyntaxTree) (h : tree.completes nest.place = false) :
      (nest.faultsWith [tree]).count f =
        (nest.faultsWith []).count f + (tree.faults nest.place).count f := by
    have h := hown tree h ▸ count_faultsWith_singleton (f := f) nest tree
    omega
  have hnode {kind : NodeKind} (hkind : kind ≠ .closing) (children : List SyntaxTree) :
      (SyntaxTree.node kind children).completes nest.place = false := by
    cases nest.place <;> simp [completes, isToken, isNode, hkind]
  rw [readElement]
  split
  · split
    · have h := hstep (.node .environment [.node .opening [.leaf t]]) (hnode (by decide) _)
      have hfaults : (SyntaxTree.node .environment [.node .opening [.leaf t]]).faults nest.place =
          [.openEnvironment] ++ [.namelessBegin] := rfl
      show (nest.faultsWith [.node .environment [.node .opening [.leaf t]]]).count f + _ =
        _ + (([] : List Defect).map Defect.fault).count f +
          ([Fault.namelessBegin] ++ ([Fault.openEnvironment] ++ nest.openFaults)).count f
      simp only [hfaults, List.count_append, List.map_nil, List.count_nil] at h ⊢
      omega
    · split
      · next hisEnd =>
        have hplace : nest.place ≠ .environment := fun hplace => by simp [hend hplace] at hisEnd
        have hcompletes : (SyntaxTree.node .closing [.leaf t]).completes nest.place = false := by
          cases h : nest.place <;> first | rfl | exact absurd h hplace
        have h := hstep _ hcompletes
        have hfaults : (SyntaxTree.node .closing [.leaf t]).faults nest.place = [.strayEnd] := by
          simp [faults, faultsOfAll, fault?, hplace]
        rw [hfaults] at h
        show (nest.faultsWith [.node .closing [.leaf t]]).count f + _ =
          _ + [Fault.strayEnd].count f + nest.openFaults.count f
        omega
      · have h := hstep (.node .command [.leaf t]) (hnode (by decide) _)
        have hfaults : (SyntaxTree.node .command [.leaf t]).faults nest.place = [] := rfl
        rw [hfaults, List.count_nil] at h
        show (nest.faultsWith [.node .command [.leaf t]]).count f + _ =
          _ + ([] : List Fault).count f + nest.openFaults.count f
        rw [List.count_nil]
        omega
  · next hkind =>
    have h := hstep (.node .group [.leaf t]) (hnode (by decide) _)
    have hfaults : (SyntaxTree.node .group [.leaf t]).faults nest.place = [.openBraces] := by
      simp [faults, faultsOfAll, fault?, completes, isToken, hkind]
    rw [hfaults] at h
    show (nest.faultsWith [.node .group [.leaf t]]).count f + _ =
      _ + ([] : List Fault).count f + ([Fault.openBraces] ++ nest.openFaults).count f
    rw [List.count_append, List.count_nil]
    omega
  · have h := hstep (.node .error [.leaf t]) (hnode (by decide) _)
    have hfaults : (SyntaxTree.node .error [.leaf t]).faults nest.place = [.strayBrace] := rfl
    rw [hfaults] at h
    rw [faultsWith_add, openFaults_add]
    show _ = _ + [Fault.strayBrace].count f + _
    omega
  · next hcommand hlbrace hrbrace =>
    have hcompletes : (SyntaxTree.leaf t).completes nest.place = false := by
      have hrbrace : (t.kind == .rbrace) = false := beq_eq_false_iff_ne.mpr hrbrace
      cases hplace : nest.place <;>
        first | rfl | exact hrbrace | exact beq_eq_false_iff_ne.mpr (hbracket hplace)
    have h := hstep _ hcompletes
    have hfaults : (SyntaxTree.leaf t).faults nest.place = [] := rfl
    rw [hfaults, List.count_nil] at h
    rw [faultsWith_add, openFaults_add, List.map_nil, List.count_nil]
    omega

/-- What is wrong with a part that a token has just opened is what the end of the source
reports. -/
theorem fault?_of_enters (henters : construct.Enters t construct' inner) :
    fault? construct.kind inner.kind [.leaf t] = inner.atEnd.map Defect.fault := by
  cases henters with
  | commandRequired ht | openingRequired ht | closingRequired ht | strayEndRequired ht =>
    simp [fault?, Construct.kind, completes, isToken, ht, Construct.atEnd, Defect.fault]
  | commandOptional ht | openingOptional ht =>
    simp [fault?, Construct.kind, completes, isToken, ht, Construct.atEnd, Defect.fault]
  | ending => rfl

/-- A token that opens a part of a construct reports what the end of the source no longer reports
of the construct, unless it has been mended. -/
theorem count_fault?_concat (henters : construct.Enters t construct' inner)
    (hform : PartialForm construct held) (htracks : construct.Tracks around held.length) :
    (fault? around construct.kind (held ++ [.node inner.kind [.leaf t]])).toList.count f +
        (construct.atEnd.map Defect.fault).toList.count f =
      (fault? around construct.kind held).toList.count f +
        ((construct.before t).defect.map Defect.fault).toList.count f +
        (construct'.atEnd.map Defect.fault).toList.count f := by
  -- Behind its first parameter nothing changes what is wrong with a beginning.
  have hopening (hsize : 2 ≤ held.length) (tree : SyntaxTree) :
      fault? around .opening (held ++ [tree]) = fault? around .opening held := by
    simp only [fault?]
    rw [List.getElem?_append_left (by omega)]
  cases henters with
  | commandRequired | commandOptional => rfl
  | @openingRequired bare ht =>
    cases bare with
    | false =>
      have h := hopening htracks (.node .required [.leaf t])
      simp [Construct.kind, h, Construct.before]
    | true =>
      obtain ⟨b, rfl⟩ := List.length_eq_one_iff.mp htracks
      simp [fault?, isNode, Construct.kind, Construct.atEnd, Construct.before, ht, Defect.fault]
  | @openingOptional bare ht =>
    cases bare with
    | false =>
      have h := hopening htracks (.node .optional [.leaf t])
      simp [Construct.kind, h, Construct.before]
    | true =>
      obtain ⟨b, rfl⟩ := List.length_eq_one_iff.mp htracks
      simp [fault?, isNode, Construct.kind, Construct.atEnd, Construct.before, ht, Defect.fault]
  | closingRequired ht =>
    obtain rfl : around = .environment := htracks
    cases hform with
    | bareEnd =>
      simp [fault?, isNode, Construct.kind, Construct.atEnd, Construct.before, ht, Defect.fault]
  | strayEndRequired =>
    have haround : around ≠ .environment := htracks
    simp [fault?, haround, Construct.kind, Construct.atEnd, Construct.before]
  | ending =>
    rw [fault?_of_partialForm hform .environment]
    simp [fault?, completes, isNode, Construct.kind, Construct.atEnd, Construct.before]

/-- A token reports the faults that it makes and that the end of the source does not report. -/
theorem count_faults_read (h : nest.Tracked) (hform : ∀ construct content outer,
      nest = inside construct content outer →
        PartialForm construct content.reverse ∧ (construct.before t).closes = false) :
    ((nest.read t).1.faultsWith []).count f + nest.openFaults.count f =
      (nest.faultsWith []).count f + ((nest.shown t).map Defect.fault).toList.count f +
        ((nest.read t).2.map Defect.fault).count f + (nest.read t).1.openFaults.count f := by
  cases nest with
  | root content =>
    have hread := count_faults_readElement (root content) t f (fun _ _ => rfl) (by simp [place])
      (by simp [place])
    rw [read, shown, Option.map_none, Option.toList_none, List.count_nil]
    omega
  | inside construct content outer =>
    obtain ⟨hpartial, hcloses⟩ := hform construct content outer rfl
    have htracks := h.tracks
    have hread : ReadsInside t construct content outer _ := readsInside_read hcloses
    generalize (inside construct content outer).read t = result at hread ⊢
    have hshown (hkind : construct.TakesElements) : (construct.before t).defect = none := by
      cases hkind with
      | group | required | environment => rfl
      | optional =>
        simp only [Construct.before] at hcloses ⊢
        split_ifs at hcloses ⊢
        rfl
    have hstep := count_faultsWith_inside (f := f) construct content outer
    rw [shown]
    cases hread with
    | close hclosed =>
      have hkind : construct.TakesElements := by cases hclosed <;> constructor
      have hended : fault? outer.place construct.kind (content.reverse ++ [.leaf t]) = none := by
        cases hclosed with
        | group ht | required ht | optional ht =>
          simp [fault?, Construct.kind, completes, isToken, ht]
      have h := hstep (.leaf t)
      rw [hended, fault?_of_partialForm hpartial hkind, faults] at h
      rw [faultsWith_add, openFaults_add, hshown hkind]
      show ((inside construct content outer).faultsWith [.leaf t]).count f + _ = _
      simp only [openFaults, List.count_append, Option.map_none, Option.toList_none, List.map_nil,
        List.count_nil] at h ⊢
      omega
    | @enter construct' inner henters =>
      have h := hstep (.node inner.kind [.leaf t])
      have hfault := count_fault?_concat (f := f) henters hpartial (by simpa using htracks)
      have htree : ((inside construct' content outer).enter inner t).faultsWith [] =
          (inside construct content outer).faultsWith [.node inner.kind [.leaf t]] := by
        simp only [faultsWith, Nest.enter, treesWith_inside, Nest.close, henters.kind_eq,
          List.nil_append, List.reverse_singleton]
      rw [faults, fault?_of_enters henters] at h
      rw [htree]
      simp only [Nest.enter, openFaults, faultsOfAll, faults, List.count_append, List.map_nil,
        List.count_nil] at h ⊢
      omega
    | misplaced hconstruct hkind =>
      subst hconstruct
      have h := hstep (.node .error [.leaf t])
      rw [fault?_of_partialForm hpartial .environment, fault?_concat .environment rfl] at h
      have hfaults : (SyntaxTree.node .error [.leaf t]).faults .environment = [.strayBrace] := rfl
      rw [Construct.kind, hfaults] at h
      rw [faultsWith_add, openFaults_add, hshown .environment]
      show _ = _ + ([] : List Fault).count f + [Fault.strayBrace].count f + _
      rw [List.count_nil]
      omega
    | element helements hclosed henvironment =>
      have hread := count_faults_readElement (inside construct content outer) t f
        (fun tree htree => ?_) (fun hplace => ?_) (fun hplace => ?_)
      · rw [hshown helements, Option.map_none, Option.toList_none, List.count_nil]
        omega
      · simp only [ownFault?, List.singleton_append, List.reverse_cons, List.nil_append]
        rw [fault?_of_partialForm hpartial helements, fault?_concat helements htree]
      · cases helements with
        | environment => exact (henvironment rfl).1
        | group | required | optional => cases hplace
      · cases helements with
        | optional => exact fun ht => hclosed (.optional ht)
        | group | required | environment => cases hplace

/-- Reading a token keeps track. -/
theorem Tracked.read (h : nest.Tracked) (hform : ∀ construct content outer,
      nest = inside construct content outer →
        PartialForm construct content.reverse ∧ (construct.before t).closes = false) :
    (nest.read t).1.Tracked := by
  cases nest with
  | root content => exact h.readElement (by simp) (by simp [place])
  | inside construct content outer =>
    obtain ⟨hpartial, hcloses⟩ := hform construct content outer rfl
    have hread : ReadsInside t construct content outer _ := readsInside_read hcloses
    generalize (inside construct content outer).read t = result at hread ⊢
    cases hread with
    | close => exact h.closed _
    | enter henters =>
      refine h.enter (fun hnil => ?_) henters
      subst hnil
      cases hpartial
    | misplaced hconstruct =>
      subst hconstruct
      refine h.add_element (fun construct content outer hnest => ?_) _
      cases hnest
      exact .environment
    | element helements _ henvironment =>
      refine h.readElement (fun construct content outer hnest => ?_) fun hplace => ?_
      · cases hnest
        exact helements
      · cases helements with
        | environment => exact (henvironment rfl).1
        | group | required | optional => cases hplace

end Nest

/-! ### The whole source -/

namespace Reading

/-- What has been reported so far and what the end of the source would report are the faults of
the trees. -/
def Balanced (r : Reading) : Prop :=
  ∀ f, (r.nest.faultsWith []).count f =
    (r.errors.map (·.defect.fault)).count f + r.nest.openFaults.count f

/-- Reading a token keeps the balance. -/
theorem Balanced.next {r : Reading} {t : Token} {behind : List Token} (h : r.Balanced)
    (hwell : r.nest.WellFormed (t :: behind)) (htracked : r.nest.Tracked) :
    (r.next t).Balanced ∧ (r.next t).nest.Tracked := by
  have hform (construct : Construct) (content : List SyntaxTree) (outer : Nest)
      (hnest : (r.nest.settle t).1 = .inside construct content outer) :
      PartialForm construct content.reverse ∧ (construct.before t).closes = false :=
    ⟨(hnest ▸ hwell.settle).partialForm, Nest.closes_of_settleFrom hnest⟩
  refine ⟨fun f => ?_, htracked.settle.read hform⟩
  have hsettle : ((r.nest.settle t).2.map Defect.fault).count f +
        (r.nest.settle t).1.openFaults.count f =
      r.nest.openFaults.count f +
        (((r.nest.settle t).1.shown t).map Defect.fault).toList.count f :=
    Nest.count_openFaults_settleFrom t [] r.nest
  have hread := Nest.count_faults_read (f := f) htracked.settle hform
  have htrees : (r.nest.settle t).1.faultsWith [] = r.nest.faultsWith [] := by
    rw [Nest.faultsWith, Nest.faultsWith]
    exact congrArg _ (Nest.trees_settleFrom t [] r.nest)
  have hreports : ((r.next t).errors.map (·.defect.fault)).count f =
      ((r.nest.settle t).2.map Defect.fault).count f +
        (((r.nest.settle t).1.read t).2.map Defect.fault).count f +
          (r.errors.map (·.defect.fault)).count f := by
    simp only [Reading.next, List.map_append, List.map_reverse, List.map_map, Function.comp_def,
      List.count_append, List.count_reverse]
  have hbalanced := h f
  show (((r.nest.settle t).1.read t).1.faultsWith []).count f =
    ((r.next t).errors.map (·.defect.fault)).count f +
      ((r.nest.settle t).1.read t).1.openFaults.count f
  rw [hreports]
  rw [htrees] at hread
  omega

theorem Balanced.foldl_next {r : Reading} {tokens : List Token} (h : r.Balanced)
    (hwell : r.nest.WellFormed tokens) (htracked : r.nest.Tracked) :
    (tokens.foldl Reading.next r).Balanced := by
  induction tokens generalizing r with
  | nil => exact h
  | cons t tokens ih =>
    obtain ⟨hnext, htracked⟩ := h.next hwell htracked
    refine ih hnext ?_ htracked
    exact hwell.settle.read fun _ _ _ hnest => Nest.closes_of_settleFrom hnest

end Reading

/-- The reports about a source are the faults of its tree, each of them once. -/
theorem perm_faults_parse (text : Text) :
    ((parse text).errors.map (·.defect.fault)).Perm ((parse text).tree.faults .root) := by
  have hstart : (Nest.root []).WellFormed (tokenize text) :=
    .source (by simp) (by simp [AllWellFormed])
  have hbalanced : ((tokenize text).foldl Reading.next .start).Balanced :=
    Reading.Balanced.foldl_next (fun _ => rfl) hstart (.source [])
  have hreports : (parse text).errors.map (·.defect.fault) =
      (((tokenize text).foldl Reading.next .start).errors.map (·.defect.fault)).reverse ++
        ((tokenize text).foldl Reading.next .start).nest.openFaults := by
    rw [← Nest.map_fault_finishFrom []]
    simp [parse, parseTokens, Function.comp_def]
  have hfaults : (parse text).tree.faults .root =
      ((tokenize text).foldl Reading.next .start).nest.faultsWith [] := rfl
  rw [List.perm_iff_count]
  intro f
  rw [hreports, hfaults, List.count_append, List.count_reverse, hbalanced f]

end TexLint
