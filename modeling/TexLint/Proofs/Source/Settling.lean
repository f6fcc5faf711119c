import TexLint.Proofs.Source.Building

/-!
# Blanks between constructs

Before a token is read, it ends some of the open constructs. Blanks end the same ones as a command
does, unless they end a paragraph, and they can be read in parts.

## The model

* `Nest.addAll` puts finished trees into the innermost construct.

## What is proved

* `Nest.settleFrom_congr`: tokens that end the same constructs settle a nest alike.
* `Nest.settleFrom_settleFrom`, `Nest.settleFrom_of_settled`: a token that ends more goes on from
  what has been settled, and one that ends no more leaves it as it is.
* `Nest.next_whitespace`: blanks are put into what they leave open.
-/

namespace TexLint

open SyntaxTree

namespace Construct

variable {t t' : Token}

theorem isParagraphBreak_of_ne (h : t.kind ≠ .whitespace) : t.isParagraphBreak = false := by
  rw [Token.isParagraphBreak, beq_eq_false_iff_ne.mpr h]
  rfl

theorem isBegin_of_ne (h : t.kind ≠ .command) : t.isBegin = false := by
  rw [Token.isBegin, beq_eq_false_iff_ne.mpr h]
  rfl

theorem isEnd_of_ne (h : t.kind ≠ .command) : t.isEnd = false := by
  rw [Token.isEnd, beq_eq_false_iff_ne.mpr h]
  rfl

/-- Blanks that are no paragraph break end the same constructs as a command does. -/
theorem closes_command (hkind : t.kind = .command) (hbegin : t.isBegin = false)
    (hend : t.isEnd = false) (hkind' : t'.kind = .whitespace) (hbreak : t'.isParagraphBreak = false)
    (construct : Construct) : (construct.before t).closes = (construct.before t').closes := by
  have hbreak' := isParagraphBreak_of_ne (t := t) (by simp [hkind])
  have hbegin' := isBegin_of_ne (t := t') (by simp [hkind'])
  have hend' := isEnd_of_ne (t := t') (by simp [hkind'])
  cases construct with
  | closing bare => cases bare <;> simp [before, hkind, hkind']
  | command | opening | strayEnd =>
    simp only [before, hkind, hkind']
    rfl
  | group | required | optional | environment =>
    simp [before, hkind, hkind', hbegin, hend, hbegin', hend', hbreak, hbreak']

/-- Control sequences that begin and end no environment end the same constructs. -/
theorem closes_ordinary (hkind : t.kind = .command) (hbegin : t.isBegin = false)
    (hend : t.isEnd = false) (hkind' : t'.kind = .command) (hbegin' : t'.isBegin = false)
    (hend' : t'.isEnd = false) (construct : Construct) :
    (construct.before t).closes = (construct.before t').closes := by
  have hblank : (Token.mk .whitespace []).isParagraphBreak = false := rfl
  rw [closes_command hkind hbegin hend rfl hblank, closes_command hkind' hbegin' hend' rfl hblank]

/-- Blanks end the same constructs if they end a paragraph or not. -/
theorem closes_whitespace (hkind : t.kind = .whitespace) (hkind' : t'.kind = .whitespace)
    (hbreak : t.isParagraphBreak = t'.isParagraphBreak) (construct : Construct) :
    (construct.before t).closes = (construct.before t').closes := by
  have hbegin := isBegin_of_ne (t := t) (by simp [hkind])
  have hend := isEnd_of_ne (t := t) (by simp [hkind])
  have hbegin' := isBegin_of_ne (t := t') (by simp [hkind'])
  have hend' := isEnd_of_ne (t := t') (by simp [hkind'])
  cases construct with
  | closing bare => cases bare <;> simp [before, hkind, hkind']
  | group | required | optional | command | opening | environment | strayEnd =>
    simp [before, hkind, hkind', hbegin, hend, hbegin', hend', hbreak]

/-- Blanks that end a paragraph end more than others. -/
theorem closes_of_whitespace (hkind : t.kind = .whitespace) (hkind' : t'.kind = .whitespace)
    (hbreak : t.isParagraphBreak = false) {construct : Construct}
    (h : (construct.before t).closes = true) : (construct.before t').closes = true := by
  cases hbreak' : t'.isParagraphBreak with
  | false => rwa [← closes_whitespace hkind hkind' (hbreak.trans hbreak'.symm)]
  | true =>
    cases construct with
    | closing bare => cases bare <;> simp [before, hkind'] at h ⊢
    | group | required => cases h
    | environment ended => exact h
    | optional =>
      simp [before, hkind', hbreak', isBegin_of_ne, isEnd_of_ne]
    | command | opening | strayEnd => simp [before, hkind']

/-- Longer blanks end more. -/
theorem closes_of_append {x y : Text} {construct : Construct}
    (h : (construct.before ⟨.whitespace, x⟩).closes = true) :
    (construct.before ⟨.whitespace, x ++ y⟩).closes = true := by
  cases hbreak : (Token.mk .whitespace x).isParagraphBreak with
  | false => exact closes_of_whitespace rfl rfl hbreak h
  | true =>
    have hbreak' : (Token.mk .whitespace (x ++ y)).isParagraphBreak = true := by
      simp only [Token.isParagraphBreak, Bool.and_eq_true, decide_eq_true_eq] at hbreak ⊢
      rw [List.count_append]
      exact ⟨rfl, Nat.le_add_right_of_le hbreak.2⟩
    rwa [← closes_whitespace (t := ⟨.whitespace, x⟩) rfl rfl (hbreak.trans hbreak'.symm)]

end Construct

namespace Nest

variable {t t' : Token} {nest : Nest} {finished more : List SyntaxTree}

/-- Puts finished trees into the innermost construct, the last one first. -/
def addAll (trees : List SyntaxTree) : Nest → Nest
  | root content => root (trees ++ content)
  | inside construct content outer => inside construct (trees ++ content) outer

theorem add_addAll (tree : SyntaxTree) (trees : List SyntaxTree) (nest : Nest) :
    (nest.addAll trees).add tree = nest.addAll (tree :: trees) := by
  cases nest <;> rfl

theorem add_eq_addAll (tree : SyntaxTree) (nest : Nest) : nest.add tree = nest.addAll [tree] := by
  cases nest <;> rfl

theorem treesWith_addAll (trees : List SyntaxTree) (nest : Nest) :
    (nest.addAll trees).treesWith finished = nest.treesWith (finished ++ trees) := by
  cases nest <;> simp [addAll, treesWith_root, treesWith_inside]

theorem settleFrom_addAll (t : Token) (trees : List SyntaxTree) (nest : Nest) :
    (nest.addAll trees).settleFrom t finished = nest.settleFrom t (finished ++ trees) := by
  cases nest <;> simp [addAll, settleFrom]

/-- Tokens that end the same constructs settle a nest alike. -/
theorem settleFrom_congr (h : ∀ construct : Construct,
    (construct.before t).closes = (construct.before t').closes) (finished : List SyntaxTree)
    (nest : Nest) : (nest.settleFrom t finished).1 = (nest.settleFrom t' finished).1 := by
  induction nest generalizing finished with
  | root content => rfl
  | inside construct content outer ih =>
    rw [settleFrom, settleFrom]
    simp only [h construct]
    split
    · exact ih _
    · rfl

/-- A token that ends more goes on from what has been settled. -/
theorem settleFrom_settleFrom (h : ∀ construct : Construct,
    (construct.before t).closes = true → (construct.before t').closes = true)
    (finished : List SyntaxTree) (nest : Nest) :
    ((nest.settleFrom t finished).1.settleFrom t' []).1 = (nest.settleFrom t' finished).1 := by
  induction nest generalizing finished with
  | root content => rfl
  | inside construct content outer ih =>
    cases hcloses : (construct.before t).closes with
    | true =>
      rw [settleFrom, settleFrom]
      simp only [hcloses, h construct hcloses, if_true]
      exact ih _
    | false =>
      rw [settleFrom]
      simp only [hcloses, Bool.false_eq_true, if_false]
      rw [settleFrom, settleFrom]
      rfl

/-- A token that ends no more finds nothing to end in what has been settled. -/
theorem settleFrom_of_settled (h : ∀ construct : Construct,
    (construct.before t').closes = true → (construct.before t).closes = true)
    (finished more : List SyntaxTree) (nest : Nest) :
    ((nest.settleFrom t finished).1.settleFrom t' more).1 =
      (nest.settleFrom t finished).1.addAll more := by
  induction nest generalizing finished with
  | root content => rfl
  | inside construct content outer ih =>
    cases hcloses : (construct.before t).closes with
    | true =>
      rw [settleFrom]
      simp only [hcloses, if_true]
      exact ih _
    | false =>
      have hcloses' : (construct.before t').closes = false := by
        rw [← Bool.not_eq_true]
        exact fun hcloses' => Bool.eq_false_iff.mp hcloses (h construct hcloses')
      rw [settleFrom]
      simp only [hcloses, Bool.false_eq_true, if_false]
      rw [settleFrom]
      simp only [hcloses', Bool.false_eq_true, if_false]
      rfl

/-- Blanks are put into what they leave open. -/
theorem next_whitespace (hkind : t.kind = .whitespace) (nest : Nest) :
    nest.next t = (nest.settle t).1.add (.leaf t) := by
  have helement (nest : Nest) : (nest.readElement t).1 = nest.add (.leaf t) := by
    rw [readElement, hkind]
  rw [next, settle]
  cases hnest : (nest.settleFrom t []).1 with
  | root content => exact helement _
  | inside construct content outer =>
    have hopen := closes_of_settleFrom hnest
    cases construct with
    | group | required | optional | environment => simp [read, hkind, helement]
    | command _ | opening _ | strayEnd => simp [Construct.before, hkind] at hopen
    | closing bare => cases bare <;> simp [Construct.before, hkind] at hopen

end Nest

end TexLint
