import TexLint.Proofs.Text.Pieces

/-!
# Sizes of a machine

A machine counts bytes in words of 32 bits, and it stops where an operation has no answer: at a size
that does not fit, a difference below zero, a range that ends before it starts, a slice inside a
character. This module has the operations, and the functions on texts that use them.

## The model

* A function whose name ends in a question mark has an answer only if all of its operations have.
* `size?`, `difference?`, `range?`, `rangeAt?`, `shift?` are those on sizes. Texts are sliced by
  `slice?` and `dropBytes?`.
* `stripGroup?`, `split?` and `parameterSpans?` work on texts as a machine does: with the depth of
  groups in a word, and with one bit for each byte that no separator may cover.

## What is proved

* `stripGroup?_eq`, `split?_eq`, `parameterSpans?_eq`: on texts that fit, these functions have an
  answer, and it is that of `stripGroup`, `split` and `parameterPieces`.
-/

namespace TexLint

namespace Machine

/-! ### Sizes -/

/-- The first number that does not fit in a word. -/
def limit : Nat := UInt32.size

/-- A size that fits. -/
def size? (n : Nat) : Option Nat := if n < limit then some n else none

/-- A difference that is not below zero. -/
def difference? (a b : Nat) : Option Nat := if b ≤ a then some (a - b) else none

/-- A range between two sizes in order. -/
def range? (start stop : Nat) : Option Span :=
  if start ≤ stop then do return ⟨← size? start, ← size? stop⟩ else none

/-- The range of a length. -/
def rangeAt? (start length : Nat) : Option Span := do
  let length ← size? length
  let stop ← size? (start + length)
  range? start stop

/-- A range moved forward. -/
def shift? (s : Span) (n : Nat) : Option Span := do
  let start ← size? (s.start + n)
  let stop ← size? (s.stop + n)
  range? start stop

section Sizes

variable {n start stop length : Nat} {s : Span}

theorem size?_eq (h : n < limit) : size? n = some n := if_pos h

theorem difference?_eq {a b : Nat} (h : b ≤ a) : difference? a b = some (a - b) := if_pos h

theorem range?_eq (hle : start ≤ stop) (h : stop < limit) :
    range? start stop = some ⟨start, stop⟩ := by
  rw [range?, if_pos hle, size?_eq (by omega), size?_eq h]
  rfl

theorem rangeAt?_eq (h : start + length < limit) :
    rangeAt? start length = some (.ofLength start length) := by
  rw [rangeAt?, size?_eq (by omega)]
  show (size? (start + length)).bind _ = _
  rw [size?_eq h]
  exact range?_eq (Nat.le_add_right _ _) h

theorem shift?_eq (hle : s.start ≤ s.stop) (h : s.stop + n < limit) :
    shift? s n = some (s.shift n) := by
  rw [shift?, size?_eq (by omega), size?_eq h]
  exact range?_eq (by omega) h

end Sizes

/-! ### Lists -/

section Lists

variable {α β : Type} {l : List α}

/-- A list is gone through to its end if each of its members has an answer. -/
theorem mapM_eq {f : α → Option β} {g : α → β} (h : ∀ a ∈ l, f a = some (g a)) :
    l.mapM f = some (l.map g) := by
  induction l with
  | nil => rfl
  | cons a l ih =>
    rw [List.mapM_cons, h a List.mem_cons_self, ih fun b hb => h b (List.mem_cons_of_mem _ hb)]
    rfl

theorem filterMapM_map_eq {γ : Type} {k : α → γ} {f : γ → Option (Option β)} {g : α → Option β}
    (h : ∀ a ∈ l, f (k a) = some (g a)) : (l.map k).filterMapM f = some (l.filterMap g) := by
  induction l with
  | nil => rfl
  | cons a l ih =>
    have hl := ih fun b hb => h b (List.mem_cons_of_mem _ hb)
    rw [List.map_cons, List.filterMapM_cons, h a List.mem_cons_self, hl]
    cases hga : g a <;> simp [hga]

theorem filterMapM_eq {f : α → Option (Option β)} {g : α → Option β}
    (h : ∀ a ∈ l, f a = some (g a)) : l.filterMapM f = some (l.filterMap g) := by
  simpa using filterMapM_map_eq (k := id) h

end Lists

/-! ### Groups -/

/-- The worker of `closes?`: `i` is the offset of the rest of the text, whose length is `length`,
and `depth` counts the groups that are open. -/
def closesFrom? (length i depth : Nat) (escaped : Bool) : Text → Option Bool
  | [] => some false
  | c :: rest =>
    let next := i + c.utf8Size
    if escaped then closesFrom? length next depth false rest
    else if c = '\\' then closesFrom? length next depth true rest
    else if c = '{' then do
      let depth ← size? (depth + 1)
      closesFrom? length next depth false rest
    else if c = '}' then do
      let depth ← difference? depth 1
      if depth = 0 then return i + 1 == length
      closesFrom? length next depth false rest
    else closesFrom? length next depth false rest

/-- Whether a text ends with the delimiter that closes what the given one opens before it. -/
def closes? (opening : Char) (text : Text) : Option Bool :=
  if opening = '{' then closesFrom? (byteLength text) 0 1 false text
  else return opening == '[' && text.getLast? == some ']'

/-- A group without its delimiters. -/
def stripGroup? : Text → Option Text
  | [] => some []
  | c :: rest => do
    if ← closes? c rest then slice? rest ⟨0, ← difference? (byteLength rest) 1⟩ else return rest

theorem closesFrom?_eq {text : Text} {i depth length : Nat} (hlength : length = i + byteLength text)
    (h : depth + 1 + byteLength text < limit) :
    closesFrom? length i (depth + 1) false text = some (endsBraceGroup depth text) := by
  fun_induction endsBraceGroup depth text generalizing i with
  | case1 => rfl
  | case2 depth => rfl
  | case3 depth d rest ih =>
    simp only [byteLength_cons] at hlength h
    rw [closesFrom?, closesFrom?]
    exact ih (by omega) (by omega)
  | case4 depth rest _ ih =>
    simp only [byteLength_cons] at hlength h
    have hbrace : ('{').utf8Size = 1 := rfl
    rw [closesFrom?]
    show (size? (depth + 1 + 1)).bind _ = _
    rw [size?_eq (by omega)]
    exact ih (by omega) (by omega)
  | case5 rest =>
    have hbrace : ('}').utf8Size = 1 := rfl
    rw [byteLength_cons] at hlength
    show some (i + 1 == length) = some rest.isEmpty
    cases rest with
    | nil => simp [hlength, hbrace]
    | cons d rest =>
      have hpos := d.utf8Size_pos
      rw [byteLength_cons] at hlength
      have hne : i + 1 ≠ length := by omega
      simp [hne]
  | case6 rest depth _ _ ih =>
    simp only [byteLength_cons] at hlength h
    have hdepth : difference? (depth.succ + 1) 1 = some (depth + 1) :=
      difference?_eq (Nat.le_add_left _ _)
    rw [closesFrom?]
    simpa [hdepth] using ih (by omega) (by omega)
  | case7 depth c rest hescape hopen hclose ih =>
    simp only [byteLength_cons] at hlength h
    rw [closesFrom?]
    simp only [hescape, hopen, hclose, if_false, Bool.false_eq_true]
    exact ih (by omega) (by omega)

/-- A last character of one byte is cut off. -/
theorem slice?_dropLast {text : Text} {c : Char} (hlast : text.getLast? = some c)
    (hc : c.utf8Size = 1) : slice? text ⟨0, byteLength text - 1⟩ = some text.dropLast := by
  obtain ⟨init, rfl⟩ := List.getLast?_eq_some_iff.mp hlast
  have hlength : byteLength (init ++ [c]) - 1 = byteLength init := by simp [hc]
  have hslice := slice?_append [] init [c]
  rw [hlength, List.dropLast_concat]
  simpa [Span.ofLength] using hslice

/-- The delimiter that closes a group is a character of one byte. -/
theorem closes?_eq {c : Char} {rest : Text} (h : 1 + byteLength rest < limit) :
    ∃ closed, closes? c rest = some closed ∧
      stripGroup (c :: rest) = (if closed then rest.dropLast else rest) ∧
      (closed = true → ∃ d, rest.getLast? = some d ∧ d.utf8Size = 1) := by
  by_cases hc : c = '{'
  · subst hc
    refine ⟨_, closesFrom?_eq (Nat.zero_add _).symm (by omega), rfl, fun hclosed => ?_⟩
    exact ⟨'}', getLast?_of_endsBraceGroup hclosed, rfl⟩
  · refine ⟨_, if_neg hc, by simp [stripGroup, hc], fun hclosed => ?_⟩
    simp only [Bool.and_eq_true, beq_iff_eq] at hclosed
    exact ⟨']', hclosed.2, rfl⟩

theorem stripGroup?_eq {text : Text} (h : byteLength text < limit) :
    stripGroup? text = some (stripGroup text) := by
  cases text with
  | nil => rfl
  | cons c rest =>
    have hpos := c.utf8Size_pos
    rw [byteLength_cons] at h
    obtain ⟨closed, hcloses, hstrip, hlast⟩ :=
      closes?_eq (show 1 + byteLength rest < limit by omega)
    rw [stripGroup?, hcloses, hstrip]
    cases closed with
    | false => rfl
    | true =>
      obtain ⟨d, hd, hsize⟩ := hlast rfl
      have hlength : 1 ≤ byteLength rest := by
        obtain ⟨init, rfl⟩ := List.getLast?_eq_some_iff.mp hd
        simp [hsize]
      show (difference? (byteLength rest) 1).bind _ = _
      rw [difference?_eq hlength]
      exact slice?_dropLast hd hsize

/-! ### Separators -/

/-- The bits of a range are set. -/
def fill? (bits : List Bool) (s : Span) (bit : Bool) : Option (List Bool) :=
  if s.start ≤ s.stop ∧ s.stop ≤ bits.length then
    some (bits.take s.start ++ List.replicate (s.stop - s.start) bit ++ bits.drop s.stop)
  else none

/-- The bits of a range are read. -/
def bits? (bits : List Bool) (s : Span) : Option (List Bool) :=
  if s.start ≤ s.stop ∧ s.stop ≤ bits.length then some ((bits.take s.stop).drop s.start) else none

/-- The worker of `protected?`: `i` is the offset of the rest of the text, and the bits before it
have been set. -/
def protectedFrom? (bits : List Bool) (i : Nat) (p : Protection) : Text → Option (List Bool)
  | [] => some bits
  | c :: rest => do
    let _ ← size? (p.next c).depth
    let bits ← fill? bits ⟨i, i + c.utf8Size⟩ (p.protects c)
    protectedFrom? bits (i + c.utf8Size) (p.next c) rest

/-- One bit for each byte of a text, which says whether it is protected. -/
def protected? (text : Text) : Option (List Bool) :=
  protectedFrom? (List.replicate (byteLength text) false) 0 .start text

/-- Where the separators of a text stand that is given as its cuts, the first of which starts at an
offset. -/
def separatorSpans (offset : Nat) : List Cut → List Span
  | [] => []
  | cut :: cuts =>
    let s : Span := .ofLength (offset + byteLength cut.before) (byteLength cut.separator)
    s :: separatorSpans s.stop cuts

/-- The worker of `split?`: a piece has begun at `start`, and the given separators follow. -/
def splitFrom? (bits : List Bool) (length start : Nat) : List Span → Option (List Span)
  | [] => do return [← range? start length]
  | s :: separators => do
    if (← bits? bits s).any id then splitFrom? bits length start separators
    else return (← range? start s.start) :: (← splitFrom? bits length s.stop separators)

/-- The ranges of the pieces of a text between its unprotected separators. -/
def split? (sep : Separator) (text : Text) : Option (List Span) := do
  if text.isEmpty then return []
  let bits ← protected? text
  splitFrom? bits (byteLength text) 0 (separatorSpans 0 (sep.cuts text).1)

/-- The ranges of the values of a parameter that is written with its delimiters. -/
def parameterSpans? (text : Text) : Option (List Span) := do
  let opening ← size? (byteLength (text.take 1))
  let interior ← stripGroup? text
  (← split? .parameter interior).mapM (shift? · opening)

section Split

/-- For each byte of a text, whether it is protected. -/
def protectedBits (p : Protection) : Text → List Bool
  | [] => []
  | c :: rest => List.replicate c.utf8Size (p.protects c) ++ protectedBits (p.next c) rest

variable {p : Protection} {sep : Separator}

theorem length_protectedBits (p : Protection) (text : Text) :
    (protectedBits p text).length = byteLength text := by
  induction text generalizing p with
  | nil => rfl
  | cons c rest ih => simp [protectedBits, ih]

theorem protectedBits_append (p : Protection) (a b : Text) :
    protectedBits p (a ++ b) = protectedBits p a ++ protectedBits (p.after a) b := by
  induction a generalizing p with
  | nil => rfl
  | cons c a ih => simp [protectedBits, ih, Protection.after]

/-- Some byte is protected if some character is. -/
theorem any_protectedBits (p : Protection) (text : Text) :
    (protectedBits p text).any id = p.touches text := by
  induction text generalizing p with
  | nil => rfl
  | cons c rest ih =>
    have hpos := c.utf8Size_pos
    rw [protectedBits, List.any_append, ih, Protection.touches]
    congr 1
    simp [List.any_replicate]
    omega

theorem depth_next_le (p : Protection) (c : Char) : (p.next c).depth ≤ p.depth + 1 := by
  rw [Protection.next]
  split_ifs <;> grind

theorem protectedFrom?_eq {done : List Bool} {text : Text} (h : p.depth + byteLength text < limit) :
    protectedFrom? (done ++ List.replicate (byteLength text) false) done.length p text =
      some (done ++ protectedBits p text) := by
  induction text generalizing p done with
  | nil => simp [protectedFrom?, protectedBits]
  | cons c rest ih =>
    have hpos := c.utf8Size_pos
    have hdepth := depth_next_le p c
    rw [byteLength_cons] at h
    have hfill : fill? (done ++ List.replicate (byteLength (c :: rest)) false)
        ⟨done.length, done.length + c.utf8Size⟩ (p.protects c) =
          some ((done ++ List.replicate c.utf8Size (p.protects c)) ++
            List.replicate (byteLength rest) false) := by
      rw [fill?, if_pos (by simp)]
      simp
    have hrest : protectedFrom? ((done ++ List.replicate c.utf8Size (p.protects c)) ++
        List.replicate (byteLength rest) false) _ (p.next c) rest = _ := ih (by omega)
    rw [protectedFrom?, size?_eq (by omega), hfill]
    simpa [protectedBits] using hrest

theorem protected?_eq {text : Text} (h : byteLength text < limit) :
    protected? text = some (protectedBits .start text) := by
  show protectedFrom? ([] ++ _) ([] : List Bool).length .start text = _
  exact protectedFrom?_eq (by simpa [Protection.start] using h)

/-- The bits of a range are those of the part of the text that stands there. -/
theorem bits?_append {a b c : List Bool} :
    bits? (a ++ b ++ c) (.ofLength a.length b.length) = some b := by
  rw [bits?, if_pos (by simp [Span.ofLength])]
  simp [Span.ofLength, List.take_append]

/-- The pieces are put together from cuts as `joinCuts` does it: the bits behind `front` are those
of what has been cut, and the piece that has begun ends there. -/
theorem splitFrom?_eq {front : List Bool} {offset length : Nat} {begun last : Text}
    {cuts : List Cut} (hfront : front.length = offset + byteLength begun)
    (hlength : length = front.length + byteLength (joinedText cuts last)) (h : length < limit) :
    splitFrom? (front ++ protectedBits p (joinedText cuts last)) length offset
        (separatorSpans front.length cuts) =
      some ((joinCuts p offset begun cuts last).map (·.span)) := by
  induction cuts generalizing p front offset begun with
  | nil =>
    have hstop : length = offset + byteLength (begun ++ last) := by
      rw [hlength, hfront, byteLength_append, Nat.add_assoc]
      rfl
    rw [separatorSpans, splitFrom?, range?_eq (by omega) h, hstop]
    rfl
  | cons cut cuts ih =>
    generalize hhere : p.after cut.before = here
    let s : Span := .ofLength (front ++ protectedBits p cut.before).length
      (protectedBits here cut.separator).length
    let behind := protectedBits (here.after cut.separator) (joinedText cuts last)
    let front' := front ++ protectedBits p cut.before ++ protectedBits here cut.separator
    have hbits : front ++ protectedBits p (joinedText (cut :: cuts) last) = front' ++ behind := by
      simp [front', behind, joinedText_cons, protectedBits_append, hhere]
    have hspans : separatorSpans front.length (cut :: cuts) =
        s :: separatorSpans front'.length cuts := by
      simp [separatorSpans, s, front', Span.ofLength, length_protectedBits, Nat.add_assoc]
    have hlength' : length = front'.length + byteLength (joinedText cuts last) := by
      rw [hlength, joinedText_cons]
      simp [front', length_protectedBits]
      omega
    have hs : bits? (front' ++ behind) s = some (protectedBits here cut.separator) := bits?_append
    rw [hbits, hspans, splitFrom?, hs, joinCuts, hhere]
    simp only [Option.bind_eq_bind, Option.bind_some, any_protectedBits]
    split
    · -- The separator is protected: the piece goes on.
      refine ih ?_ hlength'
      simp [front', length_protectedBits, hfront]
      omega
    · have hstart : s.start = offset + byteLength (begun ++ cut.before) := by
        simp [s, Span.ofLength, length_protectedBits, hfront, Nat.add_assoc]
      have hstop : s.stop = s.start + byteLength cut.separator := by
        simp [s, Span.ofLength, length_protectedBits]
      have hfront' : s.stop = front'.length := by
        simp [s, front', Span.ofLength]
        omega
      have hrest : splitFrom? (front' ++ behind) length s.stop (separatorSpans front'.length cuts) =
          some ((joinCuts (here.after cut.separator) s.stop [] cuts last).map (·.span)) :=
        ih hfront'.symm hlength'
      rw [hrest, range?_eq (by omega) (by omega), hstop, hstart]
      rfl

theorem split?_eq {text : Text} (h : byteLength text < limit) :
    split? sep text = some ((split sep text).map (·.span)) := by
  by_cases hnil : text = []
  · subst hnil
    rfl
  · have hcuts : joinedText (sep.cuts text).1 (sep.cuts text).2 = text := joinedText_cuts text
    have hpieces : splitFrom? ([] ++ protectedBits .start (joinedText (sep.cuts text).1
        (sep.cuts text).2)) (byteLength text) 0 (separatorSpans 0 (sep.cuts text).1) =
          some ((joinCuts .start 0 [] (sep.cuts text).1 (sep.cuts text).2).map (·.span)) :=
      splitFrom?_eq rfl (by simp [hcuts]) h
    rw [hcuts] at hpieces
    rw [split?, if_neg (by simpa using hnil), protected?_eq h, split_eq_joinCuts hnil]
    exact hpieces

end Split

/-! ### Values of parameters -/

/-- What a group holds is shorter than the group by its first character at least. -/
theorem byteLength_stripGroup_le (text : Text) :
    byteLength (text.take 1) + byteLength (stripGroup text) ≤ byteLength text := by
  cases text with
  | nil => exact Nat.le_refl _
  | cons c rest =>
    obtain ⟨ending, hending⟩ := exists_stripGroup_append c rest
    have hlength := congrArg byteLength hending
    rw [byteLength_append] at hlength
    simp only [List.take_succ_cons, List.take_zero, byteLength_cons, byteLength_nil]
    omega

/-- The values of a parameter end in it. -/
theorem stop_le_of_mem_parameterPieces {text : Text} {v : Piece} (hv : v ∈ parameterPieces text) :
    v.span.stop ≤ byteLength text := by
  obtain ⟨piece, hpiece, rfl⟩ := List.mem_map.mp hv
  have hle : piece.offset + byteLength piece.text ≤ 0 + byteLength (stripGroup text) :=
    (standsIn_split _ _ piece hpiece).le.2
  have hopening := byteLength_stripGroup_le text
  show piece.offset + byteLength (text.take 1) + byteLength piece.text ≤ byteLength text
  omega

theorem parameterSpans?_eq {text : Text} (h : byteLength text < limit) :
    parameterSpans? text = some ((parameterPieces text).map (·.span)) := by
  have hopening := byteLength_stripGroup_le text
  have hshift : ((split .parameter (stripGroup text)).map (·.span)).mapM
      (shift? · (byteLength (text.take 1))) =
        some (((split .parameter (stripGroup text)).map (·.span)).map
          (·.shift (byteLength (text.take 1)))) := by
    refine mapM_eq fun s hs => ?_
    obtain ⟨v, hv, rfl⟩ := List.mem_map.mp hs
    have hle := (standsIn_split _ _ v hv).le.2
    exact shift?_eq (Nat.le_add_right _ _) (by omega)
  rw [parameterSpans?, size?_eq (by omega), stripGroup?_eq h]
  show (split? _ _).bind _ = _
  rw [split?_eq (by omega), parameterPieces]
  refine hshift.trans ?_
  rw [List.map_map, List.map_map]
  refine congrArg some (List.map_congr_left fun v _ => ?_)
  simp [Piece.span, Piece.shift, Span.ofLength, Span.shift]
  omega

end Machine

end TexLint
