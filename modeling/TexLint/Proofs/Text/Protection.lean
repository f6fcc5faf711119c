import TexLint.Text.Split
import Mathlib.Data.List.Induction

/-!
# What braces and backslashes protect

Splitting reads a text once and keeps a depth and a mark. This module says without them which
characters are protected: by the partner of a brace and by the backslashes before a character.

## The model

* `EndsEscaping`: a text ends with a backslash that no other one makes a character of its own.
* `Balanced`: every brace in a text that counts has its partner in it.
* `Interior`: what stands between an opening brace and its partner, or all that follows a brace
  without one.
* `InGroup`, `ProtectedChar`, `ProtectedByte`: what is protected.

## What is proved

* `escaped_after`: the mark of the scan says whether the text before ends with such a backslash.
* `exists_opening`, `le_depth_after`: the depth of the scan counts the braces that are open.
* `ClosesBehind.not_of_prefix`: what a group holds does not close it.
* `protects_iff`, `touches_iff`: the scan protects what is protected.
-/

namespace TexLint

/-! ### The specification -/

/-- How many backslashes stand at the end of a text. -/
def trailingBackslashes (text : Text) : Nat := (text.reverse.takeWhile (· == '\\')).length

/-- A text ends with an unpaired backslash. -/
def EndsEscaping (text : Text) : Prop := trailingBackslashes text % 2 = 1

/-- A text in which every unescaped brace has its partner. -/
inductive Balanced : Text → Prop where
  /-- The empty text. -/
  | nil : Balanced []
  /-- A character without meaning. -/
  | char {c : Char} {rest : Text} (backslash : c ≠ '\\') (opening : c ≠ '{') (closing : c ≠ '}') :
    Balanced rest → Balanced (c :: rest)
  /-- A character behind a backslash. -/
  | escape {c : Char} {rest : Text} : Balanced rest → Balanced ('\\' :: c :: rest)
  /-- A group. -/
  | group {inner rest : Text} : Balanced inner → Balanced rest →
    Balanced ('{' :: (inner ++ '}' :: rest))

/-- The partner of an opening brace stands behind `inner`, where `opened` is what follows the
brace. -/
def ClosesBehind (inner opened : Text) : Prop :=
  Balanced inner ∧ ∃ rest, opened = inner ++ '}' :: rest

/-- What an opening brace encloses when `opened` follows it: the text before its partner, or all
of it if there is no partner. -/
def Interior (inner opened : Text) : Prop :=
  ClosesBehind inner opened ∨ (inner = opened ∧ ∀ inner, ¬ ClosesBehind inner opened)

/-- A character stands strictly inside a group. -/
def InGroup (before : Text) (c : Char) (behind : Text) : Prop :=
  ∃ a y z opened, before = a ++ '{' :: y ∧ ¬ EndsEscaping a ∧ opened = y ++ c :: behind ∧
    Interior (y ++ c :: z) opened

/-- A character is protected: it stands in a group, or it is escaped and no whitespace. -/
def ProtectedChar (before : Text) (c : Char) (behind : Text) : Prop :=
  InGroup before c behind ∨ (EndsEscaping before ∧ isWhitespace c = false)

/-- A byte is protected: it is one of a protected character. -/
def ProtectedByte (text : Text) (o : Nat) : Prop :=
  ∃ before c behind, text = before ++ c :: behind ∧ byteLength before ≤ o ∧
    o < byteLength before + c.utf8Size ∧ ProtectedChar before c behind

/-- A range has no protected byte in it. -/
def Unprotected (text : Text) (s : Span) : Prop :=
  ∀ o < s.stop, s.start ≤ o → ¬ ProtectedByte text o

namespace Protection

/-! ### The mark -/

theorem after_append (p : Protection) (a b : Text) : p.after (a ++ b) = (p.after a).after b :=
  List.foldl_append

@[simp] theorem after_nil (p : Protection) : p.after [] = p := rfl

@[simp] theorem after_cons (p : Protection) (c : Char) (rest : Text) :
    p.after (c :: rest) = (p.next c).after rest := rfl

@[simp] theorem next_escaped (d : Nat) (c : Char) : next ⟨d, true⟩ c = ⟨d, false⟩ := rfl

@[simp] theorem next_backslash (d : Nat) : next ⟨d, false⟩ '\\' = ⟨d, true⟩ := rfl

@[simp] theorem next_opening (d : Nat) : next ⟨d, false⟩ '{' = ⟨d + 1, false⟩ := rfl

@[simp] theorem next_closing (d : Nat) : next ⟨d, false⟩ '}' = ⟨d - 1, false⟩ := rfl

theorem next_char {c : Char} (hbackslash : c ≠ '\\') (hopening : c ≠ '{') (hclosing : c ≠ '}')
    (p : Protection) : p.next c = ⟨p.depth, false⟩ := by
  rw [next, if_neg hbackslash, if_neg hopening, if_neg hclosing, ite_self]

theorem trailingBackslashes_append (text : Text) (c : Char) : trailingBackslashes (text ++ [c]) =
    if c = '\\' then trailingBackslashes text + 1 else 0 := by
  rw [trailingBackslashes, List.reverse_append, List.reverse_singleton, List.singleton_append,
    List.takeWhile_cons]
  by_cases hc : c = '\\'
  · rw [if_pos (by simpa using hc), if_pos hc]
    rfl
  · rw [if_neg (by simpa using hc), if_neg hc]
    rfl

theorem escaped_next (p : Protection) (c : Char) :
    (p.next c).escaped = (!p.escaped && c == '\\') := by
  obtain ⟨d, escaped⟩ := p
  cases escaped with
  | true => rfl
  | false =>
    by_cases hc : c = '\\'
    · subst hc
      rfl
    · rw [next, if_neg Bool.false_ne_true, if_neg hc, beq_eq_false_iff_ne.mpr hc]
      split
      · rfl
      · split <;> rfl

/-- The mark says whether the text before ends with an unpaired backslash. -/
theorem escaped_after (text : Text) : (start.after text).escaped = true ↔ EndsEscaping text := by
  unfold EndsEscaping
  induction text using List.reverseRecOn with
  | nil => exact iff_of_false Bool.false_ne_true (by decide)
  | append_singleton text c ih =>
    rw [after_append, after_cons, after_nil, escaped_next, trailingBackslashes_append,
      Bool.and_eq_true, Bool.not_eq_true', beq_iff_eq]
    by_cases hc : c = '\\'
    · rw [if_pos hc, and_iff_left hc, ← Bool.not_eq_true, ih]
      omega
    · rw [if_neg hc]
      exact ⟨fun h => absurd h.2 hc, fun h => by cases h⟩

theorem escaped_after_eq_false (text : Text) :
    (start.after text).escaped = false ↔ ¬ EndsEscaping text := by
  rw [← escaped_after, Bool.not_eq_true]

/-- Where no backslash is unpaired, the state is given by the depth. -/
theorem after_of_not_endsEscaping {text : Text} (h : ¬ EndsEscaping text) :
    start.after text = ⟨(start.after text).depth, false⟩ := by
  rw [← (escaped_after_eq_false text).mpr h]

/-! ### The depth -/

/-- Where all braces have their partners, the scan ends as it has begun. -/
theorem after_of_balanced {inner : Text} (h : Balanced inner) (d : Nat) :
    after ⟨d, false⟩ inner = ⟨d, false⟩ := by
  induction h generalizing d with
  | nil => rfl
  | char hbackslash hopening hclosing _ ih =>
    rw [after_cons, next_char hbackslash hopening hclosing, ih]
  | escape _ ih => rw [after_cons, next_backslash, after_cons, next_escaped, ih]
  | group _ _ ihinner ihrest =>
    rw [after_cons, next_opening, after_append, ihinner, after_cons, next_closing, ihrest,
      Nat.add_sub_cancel]

theorem prefix_append_cases {a b x : Text} (h : x <+: a ++ b) :
    x <+: a ∨ ∃ y, x = a ++ y ∧ y <+: b := by
  rcases List.prefix_or_prefix_of_prefix h (List.prefix_append a b) with hshort | ⟨y, rfl⟩
  · exact .inl hshort
  · exact .inr ⟨y, rfl, (List.prefix_append_right_inj a).mp h⟩

/-- Before a group is over, the scan does not go below the depth at its start. -/
theorem le_depth_of_balanced {inner : Text} (h : Balanced inner) (d : Nat) {x : Text}
    (hx : x <+: inner) : d ≤ (after ⟨d, false⟩ x).depth := by
  induction h generalizing d x with
  | nil =>
    rw [List.prefix_nil.mp hx]
    exact Nat.le_refl d
  | char hbackslash hopening hclosing _ ih =>
    rcases List.prefix_cons_iff.mp hx with rfl | ⟨y, rfl, hy⟩
    · exact Nat.le_refl d
    · rw [after_cons, next_char hbackslash hopening hclosing]
      exact ih d hy
  | escape _ ih =>
    rcases List.prefix_cons_iff.mp hx with rfl | ⟨y, rfl, hy⟩
    · exact Nat.le_refl d
    · rcases List.prefix_cons_iff.mp hy with rfl | ⟨z, rfl, hz⟩
      · exact Nat.le_refl d
      · rw [after_cons, next_backslash, after_cons, next_escaped]
        exact ih d hz
  | group hinner _ ihinner ihrest =>
    rcases List.prefix_cons_iff.mp hx with rfl | ⟨y, rfl, hy⟩
    · exact Nat.le_refl d
    · rw [after_cons, next_opening]
      rcases prefix_append_cases hy with hshort | ⟨z, rfl, hz⟩
      · exact Nat.le_of_succ_le (ihinner (d + 1) hshort)
      · rw [after_append, after_of_balanced hinner]
        rcases List.prefix_cons_iff.mp hz with rfl | ⟨w, rfl, hw⟩
        · exact Nat.le_succ d
        · rw [after_cons, next_closing, Nat.add_sub_cancel]
          exact ihrest d hw

/-- A depth that is left has been closed by a partner. -/
theorem exists_closesBehind {d : Nat} {y : Text} (h : (after ⟨d, false⟩ y).depth < d) :
    ∃ inner, ClosesBehind inner y := by
  induction hn : y.length using Nat.strongRecOn generalizing y d with
  | ind n ih =>
    match y with
    | [] => exact absurd h (Nat.lt_irrefl d)
    | c :: rest =>
      rw [List.length_cons] at hn
      by_cases hbackslash : c = '\\'
      · subst hbackslash
        match rest with
        | [] => exact absurd h (Nat.lt_irrefl d)
        | c :: rest =>
          rw [List.length_cons] at hn
          rw [after_cons, next_backslash, after_cons, next_escaped] at h
          obtain ⟨inner, hinner, tail, rfl⟩ := ih rest.length (by omega) h rfl
          exact ⟨'\\' :: c :: inner, .escape hinner, tail, rfl⟩
      · by_cases hopening : c = '{'
        · subst hopening
          rw [after_cons, next_opening] at h
          -- The group that opens here is closed, and what follows it goes below the depth too.
          obtain ⟨inner, hinner, tail, rfl⟩ :=
            ih rest.length (by omega) (Nat.lt_succ_of_lt h) rfl
          rw [List.length_append, List.length_cons] at hn
          rw [after_append, after_of_balanced hinner, after_cons, next_closing,
            Nat.add_sub_cancel] at h
          obtain ⟨next, hnext, tail, rfl⟩ := ih tail.length (by omega) h rfl
          exact ⟨'{' :: (inner ++ '}' :: next), .group hinner hnext, tail, by simp⟩
        · by_cases hclosing : c = '}'
          · subst hclosing
            exact ⟨[], .nil, rest, rfl⟩
          · rw [after_cons, next_char hbackslash hopening hclosing] at h
            obtain ⟨inner, hinner, tail, rfl⟩ := ih rest.length (by omega) h rfl
            exact ⟨c :: inner, .char hbackslash hopening hclosing hinner, tail, rfl⟩

/-- A group that is not closed keeps the depth above the one at its start. -/
theorem le_depth_after {d : Nat} {y : Text} (h : ∀ inner, ¬ ClosesBehind inner y) :
    d ≤ (after ⟨d, false⟩ y).depth := by
  by_contra hlt
  obtain ⟨inner, hinner⟩ := exists_closesBehind (Nat.lt_of_not_le hlt)
  exact h inner hinner

/-- A group that is not closed is so by its own closing brace only. -/
theorem not_closesBehind_append {y : Text} {c : Char} (h : ∀ inner, ¬ ClosesBehind inner y)
    (hc : c = '}' → ¬ Balanced y) (inner : Text) : ¬ ClosesBehind inner (y ++ [c]) := by
  rintro ⟨hinner, tail, htail⟩
  rcases List.eq_nil_or_concat tail with rfl | ⟨tail, d, rfl⟩
  · obtain ⟨rfl, hclosing⟩ := List.append_inj' htail rfl
    exact hc (List.head_eq_of_cons_eq hclosing) hinner
  · rw [List.concat_eq_append, ← List.cons_append, ← List.append_assoc] at htail
    exact h inner ⟨hinner, tail, (List.append_inj' htail rfl).1⟩

/-- Below every depth that is reached there is a brace that opened at it and is not closed. -/
theorem exists_opening (text : Text) {k : Nat} (hk : k < (start.after text).depth) :
    ∃ a y, text = a ++ '{' :: y ∧ ¬ EndsEscaping a ∧ (start.after a).depth = k ∧
      ∀ inner, ¬ ClosesBehind inner y := by
  induction text using List.reverseRecOn generalizing k with
  | nil => cases hk
  | append_singleton text c ih =>
    -- A brace that is open before the character is so behind it, unless that closes it.
    have hkeep (hk : k < (start.after text).depth)
        (hclosing : c = '}' → start.after text ≠ ⟨k + 1, false⟩) :
        ∃ a y, text ++ [c] = a ++ '{' :: y ∧ ¬ EndsEscaping a ∧ (start.after a).depth = k ∧
          ∀ inner, ¬ ClosesBehind inner y := by
      obtain ⟨a, y, rfl, ha, hdepth, hopen⟩ := ih hk
      refine ⟨a, y ++ [c], by simp, ha, hdepth, not_closesBehind_append hopen ?_⟩
      intro hc hy
      apply hclosing hc
      rw [after_append, after_of_not_endsEscaping ha, hdepth, after_cons, next_opening,
        after_of_balanced hy]
    rw [after_append, after_cons, after_nil] at hk
    by_cases hescaped : EndsEscaping text
    · rw [next, if_pos ((escaped_after text).mpr hescaped)] at hk
      refine hkeep hk fun _ hafter => ?_
      rw [← escaped_after, hafter] at hescaped
      cases hescaped
    · rw [after_of_not_endsEscaping hescaped] at hk
      by_cases hopening : c = '{'
      · subst hopening
        rw [next_opening] at hk
        rcases Nat.lt_succ_iff_lt_or_eq.mp hk with hlt | rfl
        · exact hkeep hlt fun h => by cases h
        · refine ⟨text, [], rfl, hescaped, rfl, ?_⟩
          rintro inner ⟨-, tail, htail⟩
          cases inner <;> cases htail
      · by_cases hclosing : c = '}'
        · subst hclosing
          rw [next_closing] at hk
          have hlt : k + 1 < (start.after text).depth := Nat.add_lt_of_lt_sub hk
          refine hkeep (Nat.lt_of_succ_lt hlt) fun _ hafter => ?_
          rw [hafter] at hlt
          exact Nat.lt_irrefl _ hlt
        · by_cases hbackslash : c = '\\'
          · subst hbackslash
            exact hkeep hk fun h => absurd h hclosing
          · rw [next_char hbackslash hopening hclosing] at hk
            exact hkeep hk fun h => absurd h hclosing

/-- The scan is inside a group exactly behind an opening brace that is not closed. -/
theorem depth_pos_iff (text : Text) : 0 < (start.after text).depth ↔
    ∃ a y, text = a ++ '{' :: y ∧ ¬ EndsEscaping a ∧ ∀ inner, ¬ ClosesBehind inner y := by
  constructor
  · intro h
    obtain ⟨a, y, htext, ha, -, hopen⟩ := exists_opening text h
    exact ⟨a, y, htext, ha, hopen⟩
  · rintro ⟨a, y, rfl, ha, hopen⟩
    rw [after_append, after_of_not_endsEscaping ha, after_cons, next_opening]
    exact Nat.lt_of_lt_of_le (Nat.succ_pos _) (le_depth_after hopen)

end Protection

/-! ### Groups -/

/-- What a group holds does not close it. -/
theorem ClosesBehind.not_of_prefix {inner opened : Text} (h : Balanced inner)
    (hopened : opened <+: inner) (inner' : Text) : ¬ ClosesBehind inner' opened := by
  rintro ⟨hinner', tail, rfl⟩
  -- Behind the partner the depth would be below the one at the start.
  have hprefix : inner' ++ ['}'] <+: inner := by
    refine List.IsPrefix.trans ⟨tail, ?_⟩ hopened
    rw [List.append_assoc, List.singleton_append]
  have hle := Protection.le_depth_of_balanced h 1 hprefix
  rw [Protection.after_append, Protection.after_of_balanced hinner'] at hle
  exact absurd hle (by decide)

theorem inGroup_iff {before : Text} {c : Char} {behind : Text} : InGroup before c behind ↔
    ∃ a y, before = a ++ '{' :: y ∧ ¬ EndsEscaping a ∧
      ∀ inner, ¬ ClosesBehind inner (y ++ [c]) := by
  constructor
  · rintro ⟨a, y, z, opened, hbefore, ha, rfl, hinterior⟩
    refine ⟨a, y, hbefore, ha, ?_⟩
    rcases hinterior with ⟨hinner, -⟩ | ⟨-, hopen⟩
    · exact ClosesBehind.not_of_prefix hinner ⟨z, by simp⟩
    · rintro inner ⟨hinner, tail, htail⟩
      refine hopen inner ⟨hinner, tail ++ behind, ?_⟩
      rw [← List.singleton_append, ← List.append_assoc, htail, List.append_assoc, List.cons_append]
  · rintro ⟨a, y, hbefore, ha, hopen⟩
    by_cases hclosed : ∃ inner, ClosesBehind inner (y ++ c :: behind)
    · obtain ⟨inner, hinner, tail, htail⟩ := hclosed
      have hprefix : y ++ [c] <+: inner ++ '}' :: tail := ⟨behind, by rw [← htail]; simp⟩
      have hinside : y ++ [c] <+: inner := by
        rcases Protection.prefix_append_cases hprefix with hshort | ⟨w, hw, hwtail⟩
        · exact hshort
        · rcases List.prefix_cons_iff.mp hwtail with rfl | ⟨w, rfl, -⟩
          · exact ⟨[], by rw [hw, List.append_nil, List.append_nil]⟩
          · exact absurd ⟨hinner, w, hw⟩ (hopen inner)
      obtain ⟨z, rfl⟩ := hinside
      have hz : y ++ [c] ++ z = y ++ c :: z := by rw [List.append_assoc, List.singleton_append]
      rw [hz] at hinner htail
      exact ⟨a, y, z, _, hbefore, ha, rfl, .inl ⟨hinner, tail, htail⟩⟩
    · exact ⟨a, y, behind, _, hbefore, ha, rfl, .inr ⟨rfl, not_exists.mp hclosed⟩⟩

namespace Protection

/-- An opening brace stands in a group if one is open before it. -/
theorem inGroup_opening_iff {before behind : Text} :
    InGroup before '{' behind ↔ 0 < (start.after before).depth := by
  rw [inGroup_iff, depth_pos_iff]
  constructor
  · rintro ⟨a, y, hbefore, ha, hopen⟩
    refine ⟨a, y, hbefore, ha, ?_⟩
    rintro inner ⟨hinner, tail, rfl⟩
    exact hopen inner ⟨hinner, tail ++ ['{'], by simp⟩
  · rintro ⟨a, y, hbefore, ha, hopen⟩
    exact ⟨a, y, hbefore, ha, not_closesBehind_append hopen fun h => by cases h⟩

/-- A character that opens no group stands in one if one is open behind it. -/
theorem inGroup_iff_depth {before behind : Text} {c : Char} (hc : c = '{' → EndsEscaping before) :
    InGroup before c behind ↔ 0 < ((start.after before).next c).depth := by
  have hafter : (start.after before).next c = start.after (before ++ [c]) := by
    rw [after_append, after_cons, after_nil]
  rw [inGroup_iff, hafter, depth_pos_iff]
  constructor
  · rintro ⟨a, y, rfl, ha, hopen⟩
    exact ⟨a, y ++ [c], by simp, ha, hopen⟩
  · rintro ⟨a, y, htext, ha, hopen⟩
    rcases List.eq_nil_or_concat y with rfl | ⟨y, d, rfl⟩
    · obtain ⟨rfl, hbrace⟩ := List.append_inj' htext rfl
      exact absurd (hc (List.head_eq_of_cons_eq hbrace)) ha
    · rw [List.concat_eq_append] at htext hopen
      rw [← List.cons_append, ← List.append_assoc] at htext
      obtain ⟨rfl, hcd⟩ := List.append_inj' htext rfl
      obtain rfl := List.head_eq_of_cons_eq hcd
      exact ⟨a, y, rfl, ha, hopen⟩

/-- The scan protects what is protected. -/
theorem protects_iff (before : Text) (c : Char) (behind : Text) :
    (start.after before).protects c = true ↔ ProtectedChar before c behind := by
  unfold ProtectedChar
  by_cases hescaped : EndsEscaping before
  · have hmark := (escaped_after before).mpr hescaped
    rw [inGroup_iff_depth fun _ => hescaped, protects, if_pos hmark, next, if_pos hmark]
    simp [hescaped]
  · have hstate := after_of_not_endsEscaping hescaped
    rw [protects, if_neg (by rw [hstate]; exact Bool.false_ne_true), or_iff_left fun h =>
      hescaped h.1]
    by_cases hopening : c = '{'
    · subst hopening
      rw [inGroup_opening_iff, hstate, next_opening]
      simp
    · rw [inGroup_iff_depth fun h => absurd h hopening]
      simp only [Bool.or_eq_true, Bool.and_eq_true, decide_eq_true_eq, bne_iff_ne, ne_eq]
      constructor
      · rintro (⟨h, -⟩ | h) <;> omega
      · exact fun h => .inl ⟨h, hopening⟩

/-! ### Bytes -/

/-- Whether the scan protects a byte of a text. -/
def protectsByte (p : Protection) : Text → Nat → Bool
  | [], _ => false
  | c :: rest, o =>
    if o < c.utf8Size then p.protects c else (p.next c).protectsByte rest (o - c.utf8Size)

theorem protectsByte_add (p : Protection) (a rest : Text) (o : Nat) :
    p.protectsByte (a ++ rest) (byteLength a + o) = (p.after a).protectsByte rest o := by
  induction a generalizing p with
  | nil => rw [List.nil_append, byteLength_nil, Nat.zero_add, after_nil]
  | cons c a ih =>
    rw [List.cons_append, protectsByte, byteLength_cons, if_neg (by omega), after_cons, ← ih]
    congr 1
    omega

theorem protectsByte_after_iff (before rest : Text) (o : Nat) :
    (start.after before).protectsByte rest o = true ↔ ∃ a c b, rest = a ++ c :: b ∧
      byteLength a ≤ o ∧ o < byteLength a + c.utf8Size ∧ ProtectedChar (before ++ a) c b := by
  induction rest generalizing before o with
  | nil => exact iff_of_false Bool.false_ne_true fun ⟨a, c, b, h, _⟩ => by cases a <;> cases h
  | cons c rest ih =>
    rw [protectsByte]
    by_cases ho : o < c.utf8Size
    · rw [if_pos ho, protects_iff before c rest]
      constructor
      · intro h
        refine ⟨[], c, rest, rfl, Nat.zero_le o, ?_, ?_⟩
        · rwa [byteLength_nil, Nat.zero_add]
        · rwa [List.append_nil]
      · rintro ⟨a, d, b, hrest, ha, -, h⟩
        cases a with
        | nil =>
          obtain ⟨rfl, rfl⟩ := List.cons_eq_cons.mp hrest
          rwa [List.append_nil] at h
        | cons e a =>
          obtain ⟨rfl, -⟩ := List.cons_eq_cons.mp hrest
          rw [byteLength_cons] at ha
          omega
    · have hnext : (start.after before).next c = start.after (before ++ [c]) := by
        rw [after_append, after_cons, after_nil]
      rw [if_neg ho, hnext, ih]
      constructor
      · rintro ⟨a, d, b, rfl, ha, hd, h⟩
        refine ⟨c :: a, d, b, rfl, ?_, ?_, by simpa using h⟩
        · rw [byteLength_cons]
          omega
        · rw [byteLength_cons]
          omega
      · rintro ⟨a, d, b, hrest, ha, hd, h⟩
        cases a with
        | nil =>
          obtain ⟨rfl, -⟩ := List.cons_eq_cons.mp hrest
          rw [byteLength_nil] at hd
          omega
        | cons e a =>
          obtain ⟨rfl, rfl⟩ := List.cons_eq_cons.mp hrest
          rw [byteLength_cons] at ha hd
          exact ⟨a, d, b, rfl, by omega, by omega, by simpa using h⟩

theorem protectsByte_iff {text : Text} {o : Nat} :
    start.protectsByte text o = true ↔ ProtectedByte text o :=
  protectsByte_after_iff [] text o

theorem touches_iff_protectsByte (p : Protection) (x b : Text) :
    p.touches x = true ↔ ∃ o < byteLength x, p.protectsByte (x ++ b) o = true := by
  induction x generalizing p with
  | nil => exact iff_of_false Bool.false_ne_true fun ⟨o, ho, _⟩ => absurd ho (Nat.not_lt_zero o)
  | cons c x ih =>
    have hsize := c.utf8Size_pos
    rw [touches, Bool.or_eq_true, ih, List.cons_append, byteLength_cons]
    constructor
    · rintro (h | ⟨o, ho, h⟩)
      · exact ⟨0, by omega, by rwa [protectsByte, if_pos hsize]⟩
      · refine ⟨c.utf8Size + o, by omega, ?_⟩
        rwa [protectsByte, if_neg (by omega), Nat.add_sub_cancel_left]
    · rintro ⟨o, ho, h⟩
      rw [protectsByte] at h
      by_cases hfirst : o < c.utf8Size
      · exact .inl (by rwa [if_pos hfirst] at h)
      · rw [if_neg hfirst] at h
        exact .inr ⟨o - c.utf8Size, by omega, h⟩

end Protection

instance (text : Text) (o : Nat) : Decidable (ProtectedByte text o) :=
  decidable_of_iff _ Protection.protectsByte_iff

instance (text : Text) (s : Span) : Decidable (Unprotected text s) :=
  inferInstanceAs (Decidable (∀ o < s.stop, s.start ≤ o → ¬ ProtectedByte text o))

/-- The scan touches no part of a text that is unprotected, and every other one. -/
theorem Protection.touches_iff (a x b : Text) : (Protection.start.after a).touches x = true ↔
    ¬ Unprotected (a ++ x ++ b) (.ofLength (byteLength a) (byteLength x)) := by
  rw [touches_iff_protectsByte _ x b]
  constructor
  · rintro ⟨o, ho, h⟩ hfree
    rw [← protectsByte_add, protectsByte_iff, ← List.append_assoc] at h
    exact hfree (byteLength a + o) (Nat.add_lt_add_left ho _) (Nat.le_add_right _ _) h
  · intro hfree
    by_contra hnone
    refine hfree fun o ho (ha : byteLength a ≤ o) h => hnone ⟨o - byteLength a, ?_, ?_⟩
    · exact Nat.sub_lt_left_of_lt_add ha ho
    · rwa [← protectsByte_add, Nat.add_sub_of_le ha, ← List.append_assoc, protectsByte_iff]

end TexLint
