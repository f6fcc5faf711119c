import TexLint.Knowledge.StyleFile
import TexLint.Proofs.Text.Protection
import Mathlib.Data.List.TakeWhile

/-!
# Comments in style files

A style file is scanned without regard to its comments. This module says what stands in comments,
and what it means for a part of the scan that comments do not matter for it.

## The model

* `StyleFile.Context` is what the next character of a style file stands in: code, or code behind an
  unpaired backslash, or a comment.
* `StyleFile.emptyComments` deletes what stands in comments. The comment signs and line ends stay.
* `StyleFile.Skips`, `StyleFile.Finds`: what a function goes over at the beginning of a text, and
  what a pattern finds there, does not depend on what stands in comments.

## What is proved

* `StyleFile.Context.opens_comment_iff`: outside comments one begins at a sign with an even number
  of backslashes before it.
* `StyleFile.run_emptyComments`: a run of characters that ends outside comments ends at the same
  place when they are emptied.
* `StyleFile.Finds.comp`: the same is found behind what the same is gone over.
-/

namespace TexLint

namespace StyleFile

/-! ### Comments -/

/-- What the next character of a style file stands in. -/
inductive Context where
  /-- Code, in which a comment may begin. -/
  | code
  /-- Code behind an unpaired backslash, which takes the meaning of the character. -/
  | escaped
  /-- A comment, which goes on to the end of the line. -/
  | comment
  deriving DecidableEq, Repr

/-- Whether a character ends a line. -/
def endsLine (c : Char) : Bool := c == '\n' || c == '\r'

namespace Context

/-- What the character behind the given one stands in. -/
def next : Context → Char → Context
  | code, c => if c = '\\' then escaped else if c = '%' then comment else code
  | escaped, _ => code
  | comment, c => if endsLine c then code else comment

/-- What the character behind a text stands in. -/
def after (p : Context) (text : Text) : Context := text.foldl next p

@[simp] theorem after_nil (p : Context) : p.after [] = p := rfl

@[simp] theorem after_cons (p : Context) (c : Char) (text : Text) :
    p.after (c :: text) = (p.next c).after text := rfl

theorem after_append (p : Context) (a b : Text) : p.after (a ++ b) = (p.after a).after b :=
  List.foldl_append

/-- A comment begins behind its sign only. -/
theorem next_ne_comment {p : Context} {c : Char} (hp : p ≠ comment) (hc : c ≠ '%') :
    p.next c ≠ comment := by
  cases p with
  | code =>
    rw [next, if_neg hc]
    split <;> exact Context.noConfusion
  | escaped => exact Context.noConfusion
  | comment => exact absurd rfl hp

theorem after_ne_comment {p : Context} {text : Text} (hp : p ≠ comment) (htext : '%' ∉ text) :
    p.after text ≠ comment := by
  induction text generalizing p with
  | nil => exact hp
  | cons c text ih =>
    rw [List.mem_cons, not_or] at htext
    exact ih (next_ne_comment hp (Ne.symm htext.1)) htext.2

/-- Behind a character that is neither a backslash nor a comment sign there is code. -/
theorem next_eq_code {p : Context} {c : Char} (hp : p ≠ comment) (hescape : c ≠ '\\')
    (hsign : c ≠ '%') : p.next c = code := by
  cases p with
  | code => rw [next, if_neg hescape, if_neg hsign]
  | escaped => rfl
  | comment => exact absurd rfl hp

/-- Behind characters that are neither backslashes nor comment signs there is code. -/
theorem after_eq_code {text : Text} (hescape : '\\' ∉ text) (hsign : '%' ∉ text) :
    code.after text = code := by
  induction text with
  | nil => rfl
  | cons c text ih =>
    rw [List.mem_cons, not_or] at hescape hsign
    rw [after_cons, next_eq_code Context.noConfusion (Ne.symm hescape.1) (Ne.symm hsign.1),
      ih hescape.2 hsign.2]

/-- Behind a control word there is code. -/
theorem after_word {p : Context} {name : Text} (hp : p ≠ comment) (hne : name ≠ [])
    (hescape : '\\' ∉ name) (hsign : '%' ∉ name) : p.after ('\\' :: name) = code := by
  cases p with
  | code =>
    cases name with
    | nil => exact absurd rfl hne
    | cons c name =>
      rw [List.mem_cons, not_or] at hescape hsign
      exact @after_eq_code name hescape.2 hsign.2
  | escaped => exact @after_eq_code name hescape hsign
  | comment => exact absurd rfl hp

/-- Outside comments, the character behind an unpaired backslash is escaped. -/
theorem after_eq_escaped_iff {before : Text} (h : code.after before ≠ comment) :
    code.after before = escaped ↔ EndsEscaping before := by
  induction before using List.reverseRecOn with
  | nil => exact iff_of_false Context.noConfusion Nat.zero_ne_one
  | append_singleton before c ih =>
    rw [after_append, after_cons, after_nil] at h ⊢
    rw [EndsEscaping, Protection.trailingBackslashes_append]
    cases hbefore : code.after before with
    | code =>
      rw [hbefore] at ih
      have heven : ¬ trailingBackslashes before % 2 = 1 := (ih Context.noConfusion).not.mp
        Context.noConfusion
      by_cases hc : c = '\\'
      · rw [next, if_pos hc, if_pos hc]
        exact iff_of_true rfl (by omega)
      · rw [next, if_neg hc, if_neg hc]
        exact iff_of_false (by split <;> exact Context.noConfusion) (by decide)
    | escaped =>
      rw [hbefore] at ih
      have hodd : trailingBackslashes before % 2 = 1 := (ih Context.noConfusion).mp rfl
      refine iff_of_false Context.noConfusion ?_
      split
      · omega
      · decide
    | comment =>
      rw [hbefore] at h
      have hc : c ≠ '\\' := by
        rintro rfl
        exact h rfl
      rw [next, if_neg hc]
      refine iff_of_false ?_ (by decide)
      split <;> exact Context.noConfusion

/-- Outside comments, a comment begins at a sign with an even number of backslashes before it. -/
theorem opens_comment_iff {before : Text} (h : code.after before ≠ comment) :
    code.after (before ++ ['%']) = comment ↔ trailingBackslashes before % 2 = 0 := by
  have hescaped := after_eq_escaped_iff h
  rw [after_append, after_cons, after_nil]
  cases hbefore : code.after before with
  | code =>
    rw [hbefore, EndsEscaping] at hescaped
    exact iff_of_true rfl (by have := hescaped.not.mp Context.noConfusion; omega)
  | escaped =>
    rw [hbefore, EndsEscaping] at hescaped
    exact iff_of_false Context.noConfusion (by have := hescaped.mp rfl; omega)
  | comment => exact absurd hbefore h

end Context

/-- The text without what stands in comments. The comment signs and the line ends stay. -/
def emptyComments : Context → Text → Text
  | _, [] => []
  | p, c :: rest =>
    if p = .comment ∧ endsLine c = false then emptyComments p rest
    else c :: emptyComments (p.next c) rest

variable {p : Context} {c : Char} {text rest w : Text} {q : Char → Bool}

@[simp] theorem emptyComments_nil (p : Context) : emptyComments p [] = [] := rfl

/-- Outside comments characters stay. -/
theorem emptyComments_cons (hp : p ≠ .comment) (c : Char) (rest : Text) :
    emptyComments p (c :: rest) = c :: emptyComments (p.next c) rest := by
  rw [emptyComments, if_neg fun h => hp h.1]

theorem emptyComments_append (p : Context) (a b : Text) :
    emptyComments p (a ++ b) = emptyComments p a ++ emptyComments (p.after a) b := by
  induction a generalizing p with
  | nil => rfl
  | cons c a ih =>
    rw [List.cons_append, emptyComments, emptyComments, Context.after_cons]
    split
    · next h =>
      have hnext : p.next c = p := by
        rw [h.1, Context.next, h.2]
        rfl
      rw [ih, hnext]
    · rw [ih, List.cons_append]

theorem emptyComments_sublist (p : Context) (text : Text) :
    (emptyComments p text).Sublist text := by
  induction text generalizing p with
  | nil => exact List.Sublist.slnil
  | cons c text ih =>
    rw [emptyComments]
    split
    · exact (ih p).cons c
    · exact (ih _).cons_cons c

/-- Where no comment begins everything stays. -/
theorem emptyComments_of_notMem (hp : p ≠ .comment) (h : '%' ∉ text) :
    emptyComments p text = text := by
  induction text generalizing p with
  | nil => rfl
  | cons c text ih =>
    rw [List.mem_cons, not_or] at h
    rw [emptyComments_cons hp, ih (Context.next_ne_comment hp (Ne.symm h.1)) h.2]

/-! ### Going over a text -/

theorem notMem_takeWhile (h : q c = false) (w : Text) : c ∉ w.takeWhile q := by
  intro hmem
  cases h.symm.trans (List.mem_takeWhile_imp hmem)

/-- A run of characters ends before a character that is not in it. -/
theorem stop_of_dropWhile (h : w.dropWhile q = c :: rest) : q c = false := by
  have hnot := List.head?_dropWhile_not q w
  rw [h] at hnot
  simpa using hnot

/-- A run of characters that ends outside comments ends at the same place when the comments are
emptied. -/
theorem run_emptyComments (h : w.dropWhile q ≠ [] → p.after (w.takeWhile q) ≠ .comment) :
    (emptyComments p w).takeWhile q = emptyComments p (w.takeWhile q) ∧
      (emptyComments p w).dropWhile q =
        emptyComments (p.after (w.takeWhile q)) (w.dropWhile q) := by
  have hrun : ∀ c ∈ emptyComments p (w.takeWhile q), q c = true := fun c hc =>
    List.mem_takeWhile_imp ((emptyComments_sublist p _).mem hc)
  have hw : emptyComments p w = emptyComments p (w.takeWhile q) ++
      emptyComments (p.after (w.takeWhile q)) (w.dropWhile q) := by
    rw [← emptyComments_append, List.takeWhile_append_dropWhile]
  rw [hw, List.takeWhile_append_of_pos hrun, List.dropWhile_append_of_pos hrun]
  cases hrest : w.dropWhile q with
  | nil => simp
  | cons d rest =>
    rw [hrest] at h
    have hstop : ¬ q d = true := by simp [stop_of_dropWhile hrest]
    rw [emptyComments_cons (h (List.cons_ne_nil _ _)), List.takeWhile_cons_of_neg hstop,
      List.dropWhile_cons_of_neg hstop, List.append_nil]
    exact ⟨rfl, rfl⟩

/-- A run of characters without comment signs stays when the comments are emptied. -/
theorem plainRun_emptyComments (hp : p ≠ .comment) (hq : q '%' = false) :
    (emptyComments p w).takeWhile q = w.takeWhile q ∧
      (emptyComments p w).dropWhile q =
        emptyComments (p.after (w.takeWhile q)) (w.dropWhile q) := by
  have hsign : '%' ∉ w.takeWhile q := notMem_takeWhile hq w
  obtain ⟨htake, hdrop⟩ := run_emptyComments (q := q) (w := w) fun _ =>
    Context.after_ne_comment hp hsign
  exact ⟨htake.trans (emptyComments_of_notMem hp hsign), hdrop⟩

/-- A text goes on as `rest`, in code, behind some of its characters or none. -/
def GoesOn (p : Context) (text rest : Text) : Prop :=
  ∃ taken, text = taken ++ rest ∧ p.after taken = .code

theorem GoesOn.refl (text : Text) : GoesOn .code text text := ⟨[], rfl, rfl⟩

theorem GoesOn.trans {a b c : Text} (hab : GoesOn p a b) (hbc : GoesOn .code b c) :
    GoesOn p a c := by
  obtain ⟨x, rfl, hx⟩ := hab
  obtain ⟨y, rfl, hy⟩ := hbc
  exact ⟨x ++ y, (List.append_assoc ..).symm, by rw [Context.after_append, hx, hy]⟩

/-- A text goes on as `rest`, in code, behind one of its characters at least. -/
def Takes (p : Context) (text rest : Text) : Prop :=
  ∃ c taken, text = c :: (taken ++ rest) ∧ (p.next c).after taken = .code

theorem Takes.goesOn (h : Takes p text rest) : GoesOn p text rest := by
  obtain ⟨c, taken, htext, hafter⟩ := h
  exact ⟨c :: taken, htext, hafter⟩

theorem GoesOn.takes {a b c : Text} (hab : GoesOn p a b) (hbc : Takes .code b c) :
    Takes p a c := by
  obtain ⟨x, rfl, hx⟩ := hab
  obtain ⟨d, y, rfl, hy⟩ := hbc
  cases x with
  | nil =>
    cases hx
    exact ⟨d, y, rfl, hy⟩
  | cons e x =>
    refine ⟨e, x ++ d :: y, by simp, ?_⟩
    rw [Context.after_cons] at hx
    rw [Context.after_append, hx, Context.after_cons, hy]

/-- A run of characters between two others is taken. -/
theorem takes_run {d : Char} (hrest : w.dropWhile q = d :: rest)
    (hcode : ((p.next c).after (w.takeWhile q)).next d = .code) : Takes p (c :: w) rest := by
  refine ⟨c, w.takeWhile q ++ [d], ?_, ?_⟩
  · rw [List.append_assoc, List.singleton_append, ← hrest, List.takeWhile_append_dropWhile]
  · rw [Context.after_append, Context.after_cons, Context.after_nil, hcode]

/-- A function that goes over the beginning of a text goes over the same when the comments are
emptied. -/
structure Skips (f : Text → Text) (w : Text) : Prop where
  /-- It comes to the same text. -/
  emptied : f (emptyComments .code w) = emptyComments .code (f w)
  /-- It goes over a piece of the text and ends in code. -/
  goesOn : GoesOn .code w (f w)

/-- A pattern finds the same at the beginning of a text when the comments are emptied. -/
structure Finds (p : Context) (pattern : Pattern) (w : Text) : Prop where
  /-- It names the same and comes to the same text. -/
  emptied : pattern (emptyComments p w) =
    (pattern w).map fun found => (found.1, emptyComments .code found.2)
  /-- It takes a piece of the text and ends in code. -/
  takes : ∀ found ∈ pattern w, Takes p w found.2

/-- A function may take nothing. -/
theorem Skips.of_stays {f : Text → Text} (h : f w = w)
    (hemptied : f (emptyComments .code w) = emptyComments .code w) : Skips f w where
  emptied := by rw [h, hemptied]
  goesOn := by
    rw [h]
    exact .refl w

theorem Skips.comp {f g : Text → Text} (hf : Skips f w) (hg : Skips g (f w)) :
    Skips (fun w => g (f w)) w where
  emptied := by rw [hf.emptied, hg.emptied]
  goesOn := hf.goesOn.trans hg.goesOn

namespace Finds

variable {pattern : Pattern} {name : Text}

/-- A pattern may find nothing. -/
theorem of_none (h : pattern w = none) (hemptied : pattern (emptyComments p w) = none) :
    Finds p pattern w where
  emptied := by rw [h, hemptied, Option.map_none]
  takes := fun found hfound => by
    rw [h] at hfound
    cases hfound

theorem of_some (h : pattern w = some (name, rest))
    (hemptied : pattern (emptyComments p w) = some (name, emptyComments .code rest))
    (hrest : Takes p w rest) : Finds p pattern w where
  emptied := by rw [h, hemptied, Option.map_some]
  takes := fun found hfound => by
    rw [h] at hfound
    cases hfound
    exact hrest

theorem comp {f : Text → Text} (hf : Skips f w) (hpattern : Finds .code pattern (f w)) :
    Finds .code (fun w => pattern (f w)) w where
  emptied := by rw [hf.emptied, hpattern.emptied]
  takes := fun found hfound => hf.goesOn.takes (hpattern.takes found hfound)

theorem filter (h : Finds p pattern w) (keep : Text → Bool) :
    Finds p (fun w => (pattern w).filter (keep ·.1)) w where
  emptied := by
    rw [h.emptied]
    cases pattern w with
    | none => rfl
    | some found => cases hkeep : keep found.1 <;> simp [Option.filter, hkeep]
  takes := fun found hfound => h.takes found (Option.mem_filter_iff.mp hfound).1

end Finds

end StyleFile

end TexLint
