import TexLint.Document.Definition
import TexLint.Proofs.Document.Ranges

/-!
# How the commands of a document are nested

A command is its control sequence with its parameters behind it, and other commands stand in these
parameters. The commands of a document are listed one after the other, and the body of a definition
is read off that list. This module says how the list tells what stands in what.

## The model

* `Adjoining`: parameters follow each other without a gap.
* `CommandUsage.holds`: another command stands in a parameter of this one.
* `Document.IsNested` says of a document how its commands are written, how two of them stand to each
  other, and what the bodies of its definitions are.

## What is proved

* `SyntaxTree.adjoining_parameters`: what follows a control sequence is made of parameters.
* `Document.pairwise_nesting`: of two commands the later one stands in a parameter of the other or
  behind it.
* `Document.inside_eq_filter`: the commands that follow a container up to the first that is not in
  its range are those in its parameters.
* `Document.isNested_read`: the commands of a document that has been read are nested.
-/

namespace TexLint

open SyntaxTree

/-! ### The parameters of a command -/

/-- Parameters follow each other without a gap, from the first offset to the last. -/
def Adjoining (start : Nat) : List Parameter → Nat → Prop
  | [], stop => start = stop
  | p :: parameters, stop => p.offset = start ∧ Adjoining p.span.stop parameters stop

theorem Adjoining.le_offset {start stop : Nat} {parameters : List Parameter} {p : Parameter}
    (h : Adjoining start parameters stop) (hp : p ∈ parameters) : start ≤ p.offset := by
  induction parameters generalizing start with
  | nil => cases hp
  | cons q parameters ih =>
    obtain ⟨hq, hrest⟩ := h
    rcases List.mem_cons.mp hp with rfl | hp
    · exact Nat.le_of_eq hq.symm
    · have hstop : q.offset ≤ q.span.stop := Nat.le_add_right _ _
      exact hq ▸ Nat.le_trans hstop (ih hrest hp)

namespace SyntaxTree

variable {takesOptional : Bool} {depth offset : Nat} {trees : List SyntaxTree}

theorem IsParameter.exists_toParameter? {tree : SyntaxTree} (h : tree.IsParameter takesOptional)
    (offset : Nat) : ∃ p, tree.toParameter? offset = some p := by
  rcases h with h | ⟨-, h⟩ <;> obtain ⟨children, rfl⟩ := exists_of_isNode h <;> exact ⟨_, rfl⟩

/-- What follows a control sequence is made of parameters, which leave nothing out. -/
theorem adjoining_parameters (h : ∀ c ∈ trees, c.IsParameter takesOptional) (offset : Nat) :
    let parameters := (withOffsets offset trees).filterMap fun x => x.2.toParameter? x.1
    Adjoining offset parameters (offset + byteLength (textOfAll trees)) ∧
      parameters.flatMap (·.text) = textOfAll trees := by
  induction trees generalizing offset with
  | nil => simp [Adjoining]
  | cons tree trees ih =>
    intro parameters
    obtain ⟨p, hp⟩ := (h tree List.mem_cons_self).exists_toParameter? offset
    obtain ⟨hoffset, htext⟩ := place_of_toParameter? hp
    have hstop : p.span.stop = offset + tree.length := by
      rw [length_eq, ← hoffset, ← htext]
      rfl
    obtain ⟨hrest, hrestText⟩ := ih (fun c hc => h c (List.mem_cons_of_mem _ hc)) p.span.stop
    have hparameters : parameters = p :: (withOffsets p.span.stop trees).filterMap
        fun x => x.2.toParameter? x.1 := by
      simp only [parameters, withOffsets_cons, List.filterMap_cons, hp, hstop]
    rw [hparameters]
    refine ⟨⟨hoffset, ?_⟩, ?_⟩
    · rw [textOfAll_cons, byteLength_append, ← length_eq, ← Nat.add_assoc, ← hstop]
      exact hrest
    · rw [List.flatMap_cons, hrestText, htext, textOfAll_cons]

/-- What is visited in a sequence is visited in one of its trees. -/
theorem mem_preorderOfAll_iff_withOffsets {v : Visit} : v ∈ preorderOfAll depth offset trees ↔
    ∃ x ∈ withOffsets offset trees, v ∈ x.2.preorder depth x.1 := by
  induction trees generalizing offset with
  | nil => simp
  | cons tree trees ih => simp [ih]

/-- A node that stands in a command stands in one of its parameters. -/
theorem Visit.Around.exists_parameter {v w : Visit} {t : Token} {rest : List SyntaxTree}
    {kind : NodeKind} (h : v.Around w) (hv : v.tree = .node .command (.leaf t :: rest))
    (hrest : ∀ c ∈ rest, c.IsParameter takesOptional) (hw : w.tree.isNode kind = true) :
    ∃ p ∈ v.tree.parameters v.offset, p.span.contains w.span = true := by
  obtain ⟨depth, hmem⟩ := h
  obtain ⟨x, hx, hwx⟩ := mem_preorderOfAll_iff_withOffsets.mp hmem
  have hparameter : x.2.IsParameter takesOptional := by
    rw [hv, children, withOffsets_cons, List.mem_cons] at hx
    rcases hx with rfl | hx
    · rw [preorder_leaf, List.mem_singleton] at hwx
      subst hwx
      cases hw
    · obtain ⟨before, behind, hrest', -⟩ := exists_of_mem_withOffsets hx
      exact hrest _ (by simp [hrest'])
  obtain ⟨p, hp⟩ := hparameter.exists_toParameter? x.1
  obtain ⟨hoffset, htext⟩ := place_of_toParameter? hp
  refine ⟨p, List.mem_filterMap.mpr ⟨x, hx, hp⟩, Span.contains_iff.mpr ?_⟩
  have hle := le_offset_of_mem_preorder hwx
  rwa [length_eq x.2, ← hoffset, ← htext] at hle

end SyntaxTree

/-- Another command stands in a parameter of this one. -/
def CommandUsage.holds (u w : CommandUsage) : Bool := u.parameters.any (·.span.contains w.span)

namespace Document

/-- The commands of a document are nested. -/
structure IsNested (d : Document) : Prop where
  /-- A command is written as its name and its parameters, without a gap. -/
  written : ∀ u ∈ d.commands,
    slice? d.text u.span = some (u.name.toList ++ u.parameters.flatMap (·.text)) ∧
      Adjoining u.nameSpan.stop u.parameters u.span.stop
  /-- Of two commands the later one starts later, and it stands in exactly one parameter of the
  other or behind it. -/
  nested : d.commands.Pairwise fun u w => u.span.start < w.span.start ∧
    ((∃! p, p ∈ u.parameters ∧ p.span.contains w.span = true) ∨ u.span.stop ≤ w.span.start)
  /-- The body of a definition in braces is all commands in the other parameters of the defining
  command. -/
  braced : ∀ u ∈ d.commands, ∀ group ∈ u.firstRequired, ∀ definition ∈ d.definition? u,
    definition.body =
      d.commands.filter fun w => u.parameters.any fun p => p != group && p.span.contains w.span
  /-- The body of a definition without braces is all commands in the parameters of the command that
  is glued to the defining one. -/
  glued : ∀ u ∈ d.commands, u.firstRequired = none → ∀ definition ∈ d.definition? u,
    ∃ target, d.commands[u.index + 1]? = some target ∧ target.span.start = u.span.stop ∧
      definition.name = target.name ∧ definition.nameSpan = target.span ∧
      definition.body = d.commands.filter fun w => target.parameters.any (·.span.contains w.span)

variable {path : String} {text : Text} {u w : CommandUsage} {p q : Parameter}

/-! ### How a command is written -/

/-- A command is a control sequence with its parameters. -/
theorem exists_parameters_of_visit {v : Visit} (hv : v ∈ (parse text).tree.preorder 0 0)
    {usage : Nat → CommandUsage} (h : v.command? = some usage) : ∃ t rest,
      v.tree = .node .command (.leaf t :: rest) ∧
        (∀ c ∈ rest, c.IsParameter t.takesOptional) ∧
          usage = fun index =>
            ⟨String.ofList t.text, v.span, v.tree.parameters v.offset, index⟩ := by
  obtain ⟨t, rest, htree, -, rfl⟩ := command?_eq_some_iff.mp h
  obtain ⟨-, behind, hwell⟩ := wellFormed_of_subtree (subtree_of_mem_preorder hv)
  rw [htree] at hwell
  obtain ⟨_, _, heq, -, hparameters, -⟩ := hwell.1.exists_of_command
  cases heq
  exact ⟨t, rest, htree, hparameters, rfl⟩

/-- A command is written as its name and its parameters, without a gap. -/
theorem written_of_command (hu : u ∈ (read path text).commands) :
    slice? text u.span = some (u.name.toList ++ u.parameters.flatMap (·.text)) ∧
      Adjoining u.nameSpan.stop u.parameters u.span.stop := by
  obtain ⟨j, hj⟩ := List.mem_iff_getElem?.mp hu
  obtain ⟨v, hv, t, rest, htree, hkind, rfl⟩ := exists_visit_of_command hj
  obtain ⟨_, _, heq, hrest, -⟩ :=
    exists_parameters_of_visit hv (command?_eq_some_iff.mpr ⟨t, rest, htree, hkind, rfl⟩)
  cases htree.symm.trans heq
  obtain ⟨hadjoining, htext⟩ := adjoining_parameters hrest (v.offset + byteLength t.text)
  have hparameters : v.tree.parameters v.offset =
      (withOffsets (v.offset + byteLength t.text) rest).filterMap
        fun x => x.2.toParameter? x.1 := by
    rw [htree, parameters, children, withOffsets_cons, length_eq, text_leaf]
    rfl
  have hwritten : v.tree.text = t.text ++ textOfAll rest := by
    rw [htree, text_node, textOfAll_cons, text_leaf]
  constructor
  · show slice? text v.span = _
    rw [Visit.span, (PartOf.of_mem_preorder hv).slice?_span, hparameters, htext, hwritten,
      String.toList_ofList]
  · show Adjoining (v.offset + byteLength (String.ofList t.text).toList) _
      (v.offset + v.tree.length)
    rw [hparameters, String.toList_ofList, length_eq, hwritten, byteLength_append, ← Nat.add_assoc]
    exact hadjoining

/-- The parameters of a command stand behind its start. -/
theorem start_lt_offset (hu : u ∈ (read path text).commands) (hp : p ∈ u.parameters) :
    u.span.start < p.offset := by
  obtain ⟨j, hj⟩ := List.mem_iff_getElem?.mp hu
  obtain ⟨-, -, -, -, name, hname⟩ := exists_text_of_command hj
  have hpos : 0 < byteLength u.name.toList := byteLength_pos (by simp [hname])
  have hle : u.span.start + byteLength u.name.toList ≤ p.offset :=
    (written_of_command hu).2.le_offset hp
  omega

/-! ### Two commands -/

/-- No command stands in two parameters. -/
theorem eq_of_contains (hu : u ∈ (read path text).commands) (hw : w ∈ (read path text).commands)
    (hp : p ∈ u.parameters) (hq : q ∈ u.parameters) (hpw : p.span.contains w.span = true)
    (hqw : q.span.contains w.span = true) : p = q := by
  have hlt := start_lt_stop hw
  have happart : u.parameters.Pairwise fun p q =>
      p.span.contains w.span = true → q.span.contains w.span = true → p = q := by
    refine (pairwise_of_command hu).imp ?_
    intro p q hpq hpw hqw
    have hle : p.span.stop ≤ q.span.start := hpq
    have hstop := (Span.contains_iff.mp hpw).2
    have hstart := (Span.contains_iff.mp hqw).1
    omega
  exact List.Pairwise.forall_of_forall_of_flip (fun _ _ _ _ => rfl) happart
    (happart.imp fun h hq hp => (h hp hq).symm) hp hq hpw hqw

/-- What stands in a parameter of a command stands in the command. -/
theorem contains_of_holds (hu : u ∈ (read path text).commands) (h : u.holds w = true) :
    u.span.contains w.span = true := by
  obtain ⟨p, hp, hpw⟩ := List.any_eq_true.mp h
  obtain ⟨hstart, hstop⟩ := Span.contains_iff.mp hpw
  obtain ⟨-, hpstart, hpstop⟩ := standsIn_of_parameter hu hp
  exact Span.contains_iff.mpr ⟨Nat.le_trans hpstart hstart, Nat.le_trans hstop hpstop⟩

/-- No parameter of a command holds what starts with the command or before it. -/
theorem holds_eq_false_of_le (hu : u ∈ (read path text).commands)
    (h : w.span.start ≤ u.span.start) : u.holds w = false := by
  refine List.any_eq_false.mpr fun p hp hpw => ?_
  have hstart : p.offset ≤ w.span.start := (Span.contains_iff.mp hpw).1
  have hlt := start_lt_offset hu hp
  omega

/-- Of two commands the later one stands in a parameter of the other or behind it. -/
theorem pairwise_nesting : (read path text).commands.Pairwise fun u w =>
    u.holds w = true ∨ u.span.stop ≤ w.span.start := by
  refine pairwise_commands_of_visits
    (List.Pairwise.and_mem.mp (pairwise_nested (parse text).tree 0 0)) ?_
  intro v w f g hf hg ⟨hv, hw, hnested⟩ i j
  obtain ⟨t, rest, htree, hrest, rfl⟩ := exists_parameters_of_visit hv hf
  obtain ⟨t', rest', htree', -, rfl⟩ := exists_parameters_of_visit hw hg
  rcases hnested with haround | hbehind
  · exact .inl (List.any_eq_true.mpr
      (haround.exists_parameter htree hrest (by rw [htree']; rfl : w.tree.isNode .command = true)))
  · exact .inr hbehind

/-! ### The body of a definition -/

theorem takeWhile_eq_filter {α : Type} {f : α → Bool} {l : List α}
    (h : l.Pairwise fun a b => f b = true → f a = true) : l.takeWhile f = l.filter f := by
  induction l with
  | nil => rfl
  | cons a l ih =>
    obtain ⟨ha, hl⟩ := List.pairwise_cons.mp h
    by_cases hfa : f a = true
    · rw [List.takeWhile_cons_of_pos hfa, List.filter_cons_of_pos hfa, ih hl]
    · have hnone : l.filter f = [] :=
        List.filter_eq_nil_iff.mpr fun b hb hfb => hfa (ha b hb hfb)
      rw [List.takeWhile_cons_of_neg hfa, List.filter_cons_of_neg hfa, hnone]

/-- A command that stands in a parameter of another one or behind that one stands in its range in
the first case only. -/
theorem contains_eq_holds (hu : u ∈ (read path text).commands)
    (hw : w ∈ (read path text).commands)
    (h : u.holds w = true ∨ u.span.stop ≤ w.span.start) :
    u.span.contains w.span = u.holds w := by
  refine Bool.eq_iff_iff.mpr ⟨fun hcontains => ?_, contains_of_holds hu⟩
  refine h.resolve_right fun hbehind => ?_
  have hstop := (Span.contains_iff.mp hcontains).2
  have hlt := start_lt_stop hw
  omega

/-- A scan of commands that stand behind the start of a container may stop at the first that is not
in its range, since all that follow start later still. -/
theorem takeWhile_contains_eq_filter {behind : List CommandUsage}
    (hu : u ∈ (read path text).commands) (hmem : behind ⊆ (read path text).commands)
    (hnesting : ∀ w ∈ behind, u.holds w = true ∨ u.span.stop ≤ w.span.start)
    (hordered : behind.Pairwise (·.span.start < ·.span.start)) :
    behind.takeWhile (u.span.contains ·.span) = behind.filter u.holds := by
  have hclosed : behind.Pairwise fun a b =>
      u.span.contains b.span = true → u.span.contains a.span = true := by
    refine (List.Pairwise.and_mem.mp hordered).imp ?_
    intro a b ⟨ha, hb, hab⟩ hcontains
    rw [contains_eq_holds hu (hmem ha) (hnesting a ha)]
    refine (hnesting a ha).resolve_right fun hbehind => ?_
    have hstop := (Span.contains_iff.mp hcontains).2
    have hlt := start_lt_stop (hmem hb)
    omega
  rw [takeWhile_eq_filter hclosed]
  exact List.filter_congr fun w hw => contains_eq_holds hu (hmem hw) (hnesting w hw)

/-- The commands that follow a container, up to the first that is not in its range, are all commands
in its parameters. -/
theorem inside_eq_filter {i : Nat} (hi : (read path text).commands[i]? = some u) :
    (read path text).inside u = (read path text).commands.filter u.holds := by
  have hu := List.mem_of_getElem? hi
  have hnesting := @pairwise_nesting path text
  have hordered := @pairwise_commands path text
  obtain ⟨before, behind, hsplit, hdrop⟩ : ∃ before behind,
      (read path text).commands = before ++ u :: behind ∧
        (read path text).commands.drop (i + 1) = behind := by
    obtain ⟨hlt, rfl⟩ := List.getElem?_eq_some_iff.mp hi
    refine ⟨(read path text).commands.take i, _, ?_, rfl⟩
    rw [List.getElem_cons_drop, List.take_append_drop]
  rw [hsplit, List.pairwise_append, List.pairwise_cons] at hnesting hordered
  obtain ⟨-, ⟨hnesting, -⟩, -⟩ := hnesting
  obtain ⟨-, ⟨-, hordered⟩, hbefore⟩ := hordered
  have hmem : behind ⊆ (read path text).commands := by
    rw [hsplit]
    exact fun w hw => List.mem_append_right _ (List.mem_cons_of_mem _ hw)
  have hnone : before.filter u.holds = [] := List.filter_eq_nil_iff.mpr fun w hw => by
    simp [holds_eq_false_of_le hu (hbefore w hw u List.mem_cons_self).le]
  calc (read path text).inside u
      = behind.takeWhile (u.span.contains ·.span) := by
        rw [inside, index_of_command hi, hdrop]
    _ = behind.filter u.holds := takeWhile_contains_eq_filter hu hmem hnesting hordered
    _ = (before ++ u :: behind).filter u.holds := by
        rw [List.filter_append, hnone, List.nil_append,
          List.filter_cons_of_neg (by simp [holds_eq_false_of_le hu])]
    _ = (read path text).commands.filter u.holds := by rw [← hsplit]

/-- The body of a definition in braces is all commands in the other parameters. -/
theorem body_of_braced (hu : u ∈ (read path text).commands) {group : Parameter}
    (hgroup : u.firstRequired = some group) {definition : Definition}
    (h : (read path text).definition? u = some definition) :
    definition.body = (read path text).commands.filter fun w =>
      u.parameters.any fun p => p != group && p.span.contains w.span := by
  obtain ⟨i, hi⟩ := List.mem_iff_getElem?.mp hu
  have hmem : group ∈ u.parameters := List.mem_of_find?_eq_some hgroup
  have hbody : definition.body =
      ((read path text).inside u).filter (!group.span.contains ·.span) := by
    rw [definition?, hgroup] at h
    split at h
    · simp only [bracedDefinition?] at h
      split at h <;> cases h
      rfl
    · cases h
  rw [hbody, inside_eq_filter hi, List.filter_filter]
  refine List.filter_congr fun w hw => Bool.eq_iff_iff.mpr ?_
  simp only [CommandUsage.holds, Bool.and_eq_true, Bool.not_eq_true', List.any_eq_true,
    bne_iff_ne]
  constructor
  · rintro ⟨hout, p, hp, hpw⟩
    refine ⟨p, hp, ?_, hpw⟩
    rintro rfl
    cases hout.symm.trans hpw
  · rintro ⟨p, hp, hne, hpw⟩
    refine ⟨Bool.eq_false_iff.mpr fun hgw => hne ?_, p, hp, hpw⟩
    exact eq_of_contains hu hw hp hmem hpw hgw

/-- The body of a definition without braces is all commands in the parameters of the command that is
glued to the defining one. -/
theorem body_of_glued (hnone : u.firstRequired = none) {definition : Definition}
    (h : (read path text).definition? u = some definition) :
    ∃ target, (read path text).commands[u.index + 1]? = some target ∧
      target.span.start = u.span.stop ∧ definition.name = target.name ∧
        definition.nameSpan = target.span ∧
          definition.body = (read path text).commands.filter target.holds := by
  rw [definition?, hnone] at h
  split at h
  · obtain ⟨target, htarget, h⟩ := Option.bind_eq_some_iff.mp h
    split at h
    · next hglued =>
      cases h
      exact ⟨target, htarget, hglued, rfl, rfl, inside_eq_filter htarget⟩
    · cases h
  · cases h

/-! ### The commands of a document -/

/-- The commands of a document that has been read are nested. -/
theorem isNested_read (path : String) (text : Text) : (read path text).IsNested where
  written u hu := written_of_command hu
  nested := by
    refine (List.Pairwise.and_mem.mp (pairwise_nesting.and pairwise_commands)).imp ?_
    intro u w ⟨hu, hw, hnesting, hlt⟩
    refine ⟨hlt, hnesting.imp_left fun hholds => ?_⟩
    obtain ⟨p, hp, hpw⟩ := List.any_eq_true.mp hholds
    exact ⟨p, ⟨hp, hpw⟩, fun q ⟨hq, hqw⟩ => eq_of_contains hu hw hq hp hqw hpw⟩
  braced u hu group hgroup definition hdefinition := body_of_braced hu hgroup hdefinition
  glued u _ hnone definition hdefinition := body_of_glued hnone hdefinition

/-- A bracket group belongs to the body of a definition in braces. To the body of one without braces
belongs also what the source leaves open. -/
theorem isNested_read_bodies :
    let d := read "main.tex" "\\newcommand\x7b\\f\x7d[\\x]\x7b\\a\x7d\\def\\g\x7b\\b\x7b\\c".toList
    (∃ u ∈ d.commands, ∃ group ∈ u.firstRequired, ∃ definition ∈ d.definition? u,
      definition.bodyNames = ["\\x", "\\a"] ∧
        definition.body = d.commands.filter fun w =>
          u.parameters.any fun p => p != group && p.span.contains w.span) ∧
    ∃ u ∈ d.commands, u.firstRequired = none ∧ ∃ definition ∈ d.definition? u,
      definition.bodyNames = ["\\b", "\\c"] ∧ ∃ target ∈ d.commands[u.index + 1]?,
        definition.name = target.name ∧
          definition.body = d.commands.filter fun w =>
            target.parameters.any (·.span.contains w.span) := by
  intro d
  have hnested : d.IsNested := isNested_read _ _
  obtain ⟨u, hu, group, hgroup, definition, hdefinition, hnames⟩ :
      ∃ u ∈ d.commands, ∃ group ∈ u.firstRequired, ∃ definition ∈ d.definition? u,
        definition.bodyNames = ["\\x", "\\a"] := by decide +kernel
  obtain ⟨v, hv, hnone, definition', hdefinition', hnames'⟩ :
      ∃ v ∈ d.commands, v.firstRequired = none ∧ ∃ definition ∈ d.definition? v,
        definition.bodyNames = ["\\b", "\\c"] := by decide +kernel
  obtain ⟨target, htarget, -, hname, -, hbody⟩ :=
    hnested.glued v hv hnone definition' hdefinition'
  exact ⟨⟨u, hu, group, hgroup, definition, hdefinition, hnames,
    hnested.braced u hu group hgroup definition hdefinition⟩,
    v, hv, hnone, definition', hdefinition', hnames', target, htarget, hname, hbody⟩

end Document

end TexLint
