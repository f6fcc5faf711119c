import TexLint.Proofs.Text.Protection
import TexLint.Proofs.Text.Splitting

/-!
# Names between commas

The names in a brace group are what stands between its unprotected commas. So a line that is put
into the group changes only the name that it is put into, and makes it a name that no package has.

## The model

* `commaFields` are the stretches of a text between its unprotected commas.
* `endsGroup` is the search for the end of a brace group, behind what protects the next character.

## What is proved

* `map_trim_joinCuts`, `namesIn_eq`: trimmed, the pieces of a text are its fields, so the names in
  it are those of its fields.
* `mem_namesIn_of_append`, `mem_namesIn_of_insert`: the names without a backslash, in a text into
  which a line has been put, were there before.
* `mem_namesIn_stripGroup`: and so it is with the names in a brace group.
-/

namespace TexLint

/-! ### Fields -/

/-- The stretches of a text between its unprotected commas. The first one has begun already. -/
def commaFields (p : Protection) (begun : Text) : Text → List Text
  | [] => [begun]
  | c :: rest =>
    if c = ',' ∧ p.protects c = false then begun :: commaFields (p.next c) [] rest
    else commaFields (p.next c) (begun ++ [c]) rest

/-- The name that a field gives, if it gives one. -/
def fieldName? (field : Text) : Option String :=
  if (trim field).isEmpty then none else some (String.ofList (trim field))

section Fields

variable {p : Protection} {begun : Text}

/-- Characters other than commas go on with the field. -/
theorem commaFields_run {run : Text} (h : ',' ∉ run) (p : Protection) (begun rest : Text) :
    commaFields p begun (run ++ rest) = commaFields (p.after run) (begun ++ run) rest := by
  induction run generalizing p begun with
  | nil => simp
  | cons c run ih =>
    rw [List.mem_cons, not_or] at h
    rw [List.cons_append, commaFields, if_neg fun hc => h.1 hc.1.symm, ih h.2,
      Protection.after_cons, List.append_assoc]
    rfl

/-- What a text begins with fixes the fields in it but for the last one, which goes on. -/
theorem exists_commaFields_append (p : Protection) (begun a : Text) : ∃ init last, ∀ rest,
    commaFields p begun (a ++ rest) = init ++ commaFields (p.after a) last rest := by
  induction a generalizing p begun with
  | nil => exact ⟨[], begun, fun _ => rfl⟩
  | cons c a ih =>
    by_cases hc : c = ',' ∧ p.protects c = false
    · obtain ⟨init, last, h⟩ := ih (p.next c) []
      refine ⟨begun :: init, last, fun rest => ?_⟩
      rw [List.cons_append, commaFields, if_pos hc, h]
      rfl
    · obtain ⟨init, last, h⟩ := ih (p.next c) (begun ++ [c])
      refine ⟨init, last, fun rest => ?_⟩
      rw [List.cons_append, commaFields, if_neg hc, h]
      rfl

/-- What has begun goes into the first field only. -/
theorem exists_commaFields_eq (p : Protection) (text : Text) : ∃ more fields, ∀ begun,
    commaFields p begun text = (begun ++ more) :: fields := by
  induction text generalizing p with
  | nil => exact ⟨[], [], fun _ => by simp [commaFields]⟩
  | cons c text ih =>
    by_cases hc : c = ',' ∧ p.protects c = false
    · exact ⟨[], commaFields (p.next c) [] text, fun begun => by
        rw [commaFields, if_pos hc, List.append_nil]⟩
    · obtain ⟨more, fields, h⟩ := ih (p.next c)
      refine ⟨c :: more, fields, fun begun => ?_⟩
      rw [commaFields, if_neg hc, h, List.append_assoc]
      rfl

end Fields

/-! ### Blanks -/

theorem Protection.touches_append (p : Protection) (a b : Text) :
    p.touches (a ++ b) = (p.touches a || (p.after a).touches b) := by
  induction a generalizing p with
  | nil => rfl
  | cons c a ih => rw [List.cons_append, touches, touches, ih, after_cons, Bool.or_assoc]

section Blanks

variable {blanks : Text} (h : ∀ c ∈ blanks, isWhitespace c = true)
include h

theorem comma_not_mem_blanks : ',' ∉ blanks := fun hmem => by
  cases h _ hmem

theorem trimStart_blanks_append (text : Text) : trimStart (blanks ++ text) = trimStart text :=
  List.dropWhile_append_of_pos h

theorem trim_blanks_append (text : Text) : trim (blanks ++ text) = trim text := by
  rw [trim, trim, trimStart_blanks_append h]

theorem trim_append_blanks (text : Text) : trim (text ++ blanks) = trim text := by
  have hall : blanks.reverse.dropWhile isWhitespace = [] :=
    List.dropWhile_eq_nil_iff.mpr fun c hc => h c (List.mem_reverse.mp hc)
  rw [trim, trim, trimStart, trimStart, List.dropWhile_append]
  split
  · next hempty =>
    rw [List.isEmpty_iff.mp hempty, List.dropWhile_eq_nil_iff.mpr h]
  · rw [trimEnd, dropEndWhile, List.reverse_append, List.dropWhile_append, hall]
    rfl

/-- Blanks at the start of what has begun are trimmed. -/
theorem map_trim_commaFields_blanks (p : Protection) (begun text : Text) :
    (commaFields p (blanks ++ begun) text).map trim = (commaFields p begun text).map trim := by
  obtain ⟨more, fields, hfields⟩ := exists_commaFields_eq p text
  rw [hfields, hfields, List.append_assoc, List.map_cons, List.map_cons, trim_blanks_append h]

omit h in
theorem ne_of_isWhitespace {c : Char} (hc : isWhitespace c = true) :
    c ≠ '\\' ∧ c ≠ '{' ∧ c ≠ '}' := by
  refine ⟨?_, ?_, ?_⟩ <;> rintro rfl <;> cases hc

theorem depth_after_blanks (p : Protection) : (p.after blanks).depth = p.depth := by
  induction blanks generalizing p with
  | nil => rfl
  | cons c blanks ih =>
    obtain ⟨hc, hblanks⟩ := List.forall_mem_cons.mp h
    obtain ⟨hbackslash, hopening, hclosing⟩ := ne_of_isWhitespace hc
    rw [Protection.after_cons, ih hblanks, Protection.next_char hbackslash hopening hclosing]

/-- Outside of groups, blanks are not protected. -/
theorem touches_blanks {p : Protection} (hp : p.depth = 0) : p.touches blanks = false := by
  induction blanks generalizing p with
  | nil => rfl
  | cons c blanks ih =>
    obtain ⟨hc, hblanks⟩ := List.forall_mem_cons.mp h
    obtain ⟨hbackslash, hopening, hclosing⟩ := ne_of_isWhitespace hc
    have hnext := Protection.next_char hbackslash hopening hclosing p
    rw [Protection.touches, Protection.protects, hnext, ih hblanks (p := ⟨p.depth, false⟩) hp, hp,
      hc]
    simp

/-- A separator is protected if its comma is. -/
theorem touches_separator {blanks' : Text} (h' : ∀ c ∈ blanks', isWhitespace c = true)
    (p : Protection) :
    p.touches (blanks ++ ',' :: blanks') = (p.after blanks).protects ',' := by
  have hnext (p : Protection) : p.next ',' = ⟨p.depth, false⟩ :=
    Protection.next_char (by decide) (by decide) (by decide) p
  rw [Protection.touches_append, Protection.touches]
  by_cases hp : p.depth = 0
  · have hdepth : (p.after blanks).depth = 0 := (depth_after_blanks h p).trans hp
    rw [touches_blanks h hp, touches_blanks h' (by rw [hnext, hdepth]), Bool.false_or,
      Bool.or_false]
  · have hdepth : 0 < (p.after blanks).depth := by
      rw [depth_after_blanks h]
      exact Nat.pos_of_ne_zero hp
    have hprotects : (p.after blanks).protects ',' = true := by
      rw [Protection.protects, hnext]
      simp [hdepth]
    rw [hprotects, Bool.true_or, Bool.or_true]

end Blanks

/-! ### The names in a text -/

theorem ne_comma_of_parameter {c : Char} {rest : Text}
    (h : Separator.parameter (c :: rest) = 0) : c ≠ ',' := by
  rintro rfl
  simp [Separator.parameter, Separator.padded, isWhitespace] at h

/-- The characters of a separator are left out. -/
theorem cutsFrom_append (sep : Separator) (before run rest : Text) :
    sep.cutsFrom before run.length (run ++ rest) = sep.cutsFrom before 0 rest := by
  induction run with
  | nil => rfl
  | cons c run ih => exact ih

/-- A text starts with a character that is no comma and goes on, or with a separator. -/
theorem cutsFrom_cases (before : Text) (c : Char) (rest : Text) :
    (c ≠ ',' ∧ Separator.parameter.cutsFrom before 0 (c :: rest) =
      Separator.parameter.cutsFrom (c :: before) 0 rest) ∨
    ∃ blanks blanks' behind, c :: rest = blanks ++ ',' :: blanks' ++ behind ∧
      (∀ c ∈ blanks, isWhitespace c = true) ∧ (∀ c ∈ blanks', isWhitespace c = true) ∧
      Separator.parameter.cutsFrom before 0 (c :: rest) =
        (⟨before.reverse, blanks ++ ',' :: blanks'⟩ ::
          (Separator.parameter.cutsFrom [] 0 behind).1,
          (Separator.parameter.cutsFrom [] 0 behind).2) := by
  rw [Separator.cutsFrom]
  split
  · next hsep => exact .inl ⟨ne_comma_of_parameter hsep, rfl⟩
  · next k hsep =>
    obtain ⟨blanks, blanks', behind, htext, hblanks, hblanks', hk⟩ := exists_of_parameter hsep
    have hseparator : (c :: rest).take (k + 1) = blanks ++ ',' :: blanks' := by
      rw [htext, List.take_left']
      rw [List.length_append, List.length_cons, hk, Nat.add_assoc]
    have hrest : rest = (blanks ++ ',' :: blanks').tail ++ behind := by
      rw [← List.tail_append_of_ne_nil (by simp), ← htext, List.tail_cons]
    have hlength : (blanks ++ ',' :: blanks').tail.length = k := by
      rw [List.length_tail, List.length_append, List.length_cons, hk]
      omega
    refine .inr ⟨blanks, blanks', behind, htext, hblanks, hblanks', ?_⟩
    rw [hseparator]
    have hcuts : Separator.parameter.cutsFrom [] k rest =
        Separator.parameter.cutsFrom [] 0 behind := by
      rw [hrest, ← hlength, cutsFrom_append]
    rw [hcuts]

/-- Trimmed, the pieces of a text are its fields. -/
theorem map_trim_joinCuts (p : Protection) (offset : Nat) (begun before text : Text) :
    (joinCuts p offset begun (Separator.parameter.cutsFrom before 0 text).1
        (Separator.parameter.cutsFrom before 0 text).2).map (trim ·.text) =
      (commaFields (p.after before.reverse) (begun ++ before.reverse) text).map trim := by
  induction hn : text.length using Nat.strongRecOn generalizing p offset begun before text with
  | ind n ih =>
    subst hn
    cases text with
    | nil => rfl
    | cons c rest =>
      rcases cutsFrom_cases before c rest with ⟨hc, hcuts⟩ |
        ⟨blanks, blanks', behind, htext, hblanks, hblanks', hcuts⟩
      · rw [hcuts, ih rest.length (Nat.lt_succ_self _) p offset begun (c :: before) rest rfl,
          commaFields, if_neg fun h => hc h.1]
        simp [Protection.after_append]
      · have hlt : behind.length < (c :: rest).length := by
          rw [htext]
          simp
          omega
        have hbehind (p : Protection) (offset : Nat) (begun : Text) :=
          ih behind.length hlt p offset begun [] behind rfl
        simp only [List.reverse_nil, Protection.after_nil, List.append_nil] at hbehind
        rw [hcuts, htext, List.append_assoc, commaFields_run (comma_not_mem_blanks hblanks),
          List.cons_append, commaFields, joinCuts]
        simp only [touches_separator hblanks hblanks', Protection.after_append,
          Protection.after_cons]
        split
        · next hprotected =>
          rw [hbehind, if_neg (by simp [hprotected]),
            commaFields_run (comma_not_mem_blanks hblanks')]
          simp
        · next hfree =>
          rw [if_pos ⟨trivial, Bool.not_eq_true _ ▸ hfree⟩, List.map_cons, List.map_cons, hbehind,
            commaFields_run (comma_not_mem_blanks hblanks'), trim_append_blanks hblanks,
            List.nil_append, ← List.append_nil blanks', map_trim_commaFields_blanks hblanks',
            List.append_nil]

/-- Fields that are the same when they are trimmed give the same names. -/
theorem filterMap_fieldName?_congr {fields fields' : List Text}
    (h : fields.map trim = fields'.map trim) :
    fields.filterMap fieldName? = fields'.filterMap fieldName? := by
  have htrim (fields : List Text) : fields.filterMap fieldName? = (fields.map trim).filterMap
      fun name => if name.isEmpty then none else some (String.ofList name) := by
    rw [List.filterMap_map]
    rfl
  rw [htrim, htrim, h]

/-- The names in a text are those of its fields. -/
theorem namesIn_eq (text : Text) :
    namesIn text = (commaFields .start [] text).filterMap fieldName? := by
  have hnames : namesIn text = ((split .parameter text).map Piece.text).filterMap fieldName? := by
    rw [List.filterMap_map]
    rfl
  rw [hnames, split]
  split
  · next hempty =>
    obtain rfl := List.isEmpty_iff.mp hempty
    rfl
  · refine filterMap_fieldName?_congr ?_
    rw [List.map_map]
    exact map_trim_joinCuts .start 0 [] [] text

theorem mem_namesIn_iff {text : Text} {name : String} :
    name ∈ namesIn text ↔ ∃ field ∈ commaFields .start [] text, fieldName? field = some name := by
  rw [namesIn_eq, List.mem_filterMap]

/-! ### Lines that are put into a group -/

/-- A field with a backslash in it gives a name with a backslash in it. -/
theorem backslash_mem_of_fieldName? {field : Text} {name : String} (h : '\\' ∈ field)
    (hname : fieldName? field = some name) : '\\' ∈ name.toList := by
  rw [fieldName?] at hname
  split at hname
  · cases hname
  · cases hname
    have hfilter := filter_trim (q := (· == '\\')) (fun c hc => by
      simpa using (ne_of_isWhitespace hc).1) field
    have hmem : '\\' ∈ (trim field).filter (· == '\\') := by
      rw [hfilter]
      exact List.mem_filter.mpr ⟨h, rfl⟩
    rw [String.toList_ofList]
    exact List.mem_of_mem_filter hmem

/-- Names do not depend on the state that a line end leads to. -/
theorem next_newline (p : Protection) : p.next '\n' = ⟨p.depth, false⟩ :=
  Protection.next_char (by decide) (by decide) (by decide) p

section Insert

variable {a line behind : Text} {name : String} (hbackslash : '\\' ∈ line) (hcomma : ',' ∉ line)
  (hname : '\\' ∉ name.toList)
include hbackslash hcomma hname

/-- A text with a backslash and without commas that follows adds no names without backslashes. -/
theorem mem_namesIn_of_append (h : name ∈ namesIn (a ++ line)) : name ∈ namesIn a := by
  obtain ⟨init, last, hfields⟩ := exists_commaFields_append .start [] a
  have hbefore := hfields []
  rw [List.append_nil] at hbefore
  have hafter := commaFields_run hcomma (Protection.start.after a) last []
  rw [List.append_nil] at hafter
  obtain ⟨field, hfield, hgives⟩ := mem_namesIn_iff.mp h
  rw [hfields, hafter, commaFields, List.mem_append, List.mem_singleton] at hfield
  rw [mem_namesIn_iff, hbefore]
  rcases hfield with hfield | rfl
  · exact ⟨field, List.mem_append_left _ hfield, hgives⟩
  · exact absurd (backslash_mem_of_fieldName? (List.mem_append_right _ hbackslash) hgives) hname

/-- Neither does such a text on a line of its own, if its braces are balanced. -/
theorem mem_namesIn_of_insert (hbalanced : Balanced line)
    (h : name ∈ namesIn (a ++ '\n' :: line ++ '\n' :: behind)) :
    name ∈ namesIn (a ++ '\n' :: behind) := by
  obtain ⟨init, last, hfields⟩ := exists_commaFields_append .start [] a
  generalize hp : Protection.start.after a = p at hfields
  -- The state behind both line ends is the same.
  obtain ⟨more, fields, hmore⟩ := exists_commaFields_eq ⟨p.depth, false⟩ behind
  have hrun (p : Protection) (begun : Text) :
      commaFields p begun ('\n' :: behind) = commaFields (p.next '\n') (begun ++ ['\n']) behind :=
    @commaFields_run ['\n'] (by decide) p begun behind
  have hafter : p.after ('\n' :: line) = ⟨p.depth, false⟩ := by
    rw [Protection.after_cons, next_newline, Protection.after_of_balanced hbalanced]
  obtain ⟨field, hfield, hgives⟩ := mem_namesIn_iff.mp h
  rw [List.append_assoc, hfields, commaFields_run (by simp [hcomma]), hafter, hrun, next_newline,
    hmore, List.mem_append, List.mem_cons] at hfield
  rw [mem_namesIn_iff, hfields, hrun, next_newline, hmore]
  rcases hfield with hfield | rfl | hfield
  · exact ⟨field, List.mem_append_left _ hfield, hgives⟩
  · exact absurd (backslash_mem_of_fieldName? (by simp [hbackslash]) hgives) hname
  · exact ⟨field, by simp [hfield], hgives⟩

end Insert

/-! ### Brace groups -/

/-- Whether the last character of a text closes the brace group that is open outermost, given what
protects the next character. -/
def endsGroup (p : Protection) (text : Text) : Bool :=
  if p.escaped then
    match text with
    | [] => false
    | _ :: rest => endsBraceGroup p.depth rest
  else endsBraceGroup p.depth text

section EndsGroup

variable {p : Protection} {a text text' : Text}

/-- One character on, unless it closes the group. -/
theorem endsGroup_cons (p : Protection) (c : Char) (rest : Text) : endsGroup p (c :: rest) =
    if p.escaped = false ∧ c = '}' ∧ p.depth = 0 then rest.isEmpty
    else endsGroup (p.next c) rest := by
  obtain ⟨d, escaped⟩ := p
  cases escaped with
  | true => rfl
  | false =>
    show endsBraceGroup d (c :: rest) = _
    by_cases hbackslash : c = '\\'
    · subst hbackslash
      cases rest <;> simp [endsBraceGroup, endsGroup]
    · by_cases hopening : c = '{'
      · subst hopening
        cases rest <;> simp [endsBraceGroup, endsGroup]
      · by_cases hclosing : c = '}'
        · subst hclosing
          cases d <;> cases rest <;> simp [endsBraceGroup, endsGroup]
        · rw [Protection.next_char hbackslash hopening hclosing, if_neg (by simp [hclosing]),
            endsBraceGroup.eq_def]
          simp [hbackslash, hopening, hclosing, endsGroup]

/-- A balanced text closes no group. -/
theorem endsGroup_balanced {inner : Text} (h : Balanced inner) (d : Nat) (rest : Text) :
    endsGroup ⟨d, false⟩ (inner ++ rest) = endsGroup ⟨d, false⟩ rest := by
  induction h generalizing d rest with
  | nil => rfl
  | char hbackslash hopening hclosing _ ih =>
    rw [List.cons_append, endsGroup_cons, if_neg (by simp [hclosing]),
      Protection.next_char hbackslash hopening hclosing, ih]
  | escape _ ih =>
    rw [List.cons_append, List.cons_append, endsGroup_cons, if_neg (by simp), endsGroup_cons,
      if_neg (by simp)]
    exact ih d rest
  | group _ _ ihInner ihRest =>
    rw [List.cons_append, List.append_assoc, endsGroup_cons, if_neg (by simp),
      Protection.next_opening, ihInner, List.cons_append, endsGroup_cons, if_neg (by simp),
      Protection.next_closing, Nat.add_sub_cancel, ihRest]

/-- What follows decides, if it decides in the same way in all states. -/
theorem endsGroup_congr (htext : text ≠ []) (htext' : text' ≠ [])
    (h : ∀ p, endsGroup p text = endsGroup p text') (p : Protection) :
    endsGroup p (a ++ text) = endsGroup p (a ++ text') := by
  induction a generalizing p with
  | nil => exact h p
  | cons c a ih =>
    rw [List.cons_append, List.cons_append, endsGroup_cons, endsGroup_cons, ih]
    split
    · rw [List.isEmpty_eq_false_iff.mpr (by simp [htext]),
        List.isEmpty_eq_false_iff.mpr (by simp [htext'])]
    · rfl

theorem endsGroup_append_eq_false (htext : text ≠ []) (h : ∀ p, endsGroup p text = false)
    (p : Protection) : endsGroup p (a ++ text) = false := by
  induction a generalizing p with
  | nil => exact h p
  | cons c a ih =>
    rw [List.cons_append, endsGroup_cons, ih]
    split
    · exact List.isEmpty_eq_false_iff.mpr (by simp [htext])
    · rfl

theorem getLast?_of_endsGroup (h : endsGroup p a = true) : a.getLast? = some '}' := by
  induction a generalizing p with
  | nil =>
    obtain ⟨d, escaped⟩ := p
    cases escaped <;> cases h
  | cons c a ih =>
    rw [endsGroup_cons] at h
    split at h
    · next hclosing =>
      obtain rfl := List.isEmpty_iff.mp h
      rw [hclosing.2.1]
      rfl
    · have hlast := ih h
      rw [List.getLast?_cons, hlast]
      rfl

theorem stripGroup_eq (x : Text) :
    stripGroup ('{' :: x) = if endsGroup .start x then x.dropLast else x := rfl

end EndsGroup

/-- Putting a line into a brace group adds no names without a backslash. The line goes to the end of
the group, or before another line. -/
theorem mem_namesIn_stripGroup {a line behind : Text} {name : String} (hbalanced : Balanced line)
    (hbackslash : '\\' ∈ line) (hcomma : ',' ∉ line)
    (hbehind : behind = [] ∨ behind.head? = some '\n') (hname : '\\' ∉ name.toList)
    (h : name ∈ namesIn (stripGroup ('{' :: a ++ '\n' :: line ++ behind))) :
    name ∈ namesIn (stripGroup ('{' :: a ++ behind)) := by
  have hline (p : Protection) (rest : Text) :
      endsGroup p ('\n' :: line ++ rest) = endsGroup ⟨p.depth, false⟩ rest := by
    rw [List.cons_append, endsGroup_cons, if_neg (by simp), next_newline,
      endsGroup_balanced hbalanced]
  rw [List.append_assoc, List.cons_append, stripGroup_eq] at h
  rw [List.cons_append, stripGroup_eq]
  rcases hbehind with rfl | hbehind
  · -- Behind the line the group is open, whether or not it has been so before.
    have hopen : endsGroup .start (a ++ ('\n' :: line ++ [])) = false :=
      endsGroup_append_eq_false (by simp) (hline · []) .start
    rw [hopen, if_neg Bool.false_ne_true, List.append_nil] at h
    rw [List.append_nil]
    split
    · next hclosed =>
      obtain ⟨inner, rfl⟩ := List.getLast?_eq_some_iff.mp (getLast?_of_endsGroup hclosed)
      rw [List.append_assoc] at h
      rw [List.dropLast_concat]
      exact mem_namesIn_of_append (by simp [hbackslash]) (by simp [hcomma]) hname h
    · exact mem_namesIn_of_append (by simp [hbackslash]) (by simp [hcomma]) hname h
  · obtain ⟨rest, rfl⟩ := List.head?_eq_some_iff.mp hbehind
    have hsame : endsGroup .start (a ++ ('\n' :: line ++ '\n' :: rest)) =
        endsGroup .start (a ++ '\n' :: rest) := by
      refine endsGroup_congr (by simp) (by simp) (fun p => ?_) .start
      rw [hline, endsGroup_cons, endsGroup_cons, if_neg (by simp), if_neg (by simp), next_newline,
        next_newline]
    have hdrop (x : Text) : (x ++ '\n' :: rest).dropLast = x ++ ('\n' :: rest).dropLast :=
      List.dropLast_append_of_ne_nil (by simp)
    rw [hsame, ← List.append_assoc] at h
    split at h
    · next hclosed =>
      rw [hdrop] at h
      rw [if_pos hclosed, hdrop]
      cases rest with
      | nil =>
        rw [List.dropLast_singleton, List.append_nil] at h ⊢
        exact mem_namesIn_of_append (by simp [hbackslash]) (by simp [hcomma]) hname h
      | cons c rest =>
        rw [List.dropLast_cons_cons] at h ⊢
        exact mem_namesIn_of_insert hbackslash hcomma hname hbalanced h
    · next hopen =>
      rw [if_neg hopen]
      exact mem_namesIn_of_insert hbackslash hcomma hname hbalanced h

end TexLint
