import TexLint.Reach
import Mathlib.Logic.Relation

/-!
# What a depth-first search meets

A search meets exactly the elements that paths of steps lead to, its start left out, and
meets none of them twice.

## What is proved

* `mem_reachable_iff`: an element is reachable if and only if it is not the start and a path
  of one or more steps within the bound leads to it. Cycles and steps back to the start
  do no harm.
* `nodup_reachable`: nothing is listed twice.

Both follow from what one round keeps: `Search.Inv` says what the two lists and the stack of
a search have to do with paths, `Search.Fresh` that an element moves from one list to the
other once.
-/

namespace TexLint

open Relation

namespace Search

variable {α : Type} [BEq α] [LawfulBEq α]

/-! ### Meeting elements -/

theorem mem_unmet_of_mem_unmet_meet {s : Search α} {x y : α} (h : y ∈ (s.meet x).unmet) :
    y ∈ s.unmet := by
  unfold meet at h
  split at h
  · exact List.mem_of_mem_erase h
  · exact h

theorem mem_unmet_of_mem_unmet_foldl_meet {s : Search α} {xs : List α} {y : α}
    (h : y ∈ (xs.foldl meet s).unmet) : y ∈ s.unmet := by
  induction xs generalizing s with
  | nil => exact h
  | cons x xs ih => exact mem_unmet_of_mem_unmet_meet (ih h)

/-- An element that has not been met stays unmet unless it is one of those to meet. -/
theorem mem_unmet_foldl_meet_or {s : Search α} {xs : List α} {y : α} (h : y ∈ s.unmet) :
    y ∈ (xs.foldl meet s).unmet ∨ y ∈ xs := by
  induction xs generalizing s with
  | nil => exact .inl h
  | cons x xs ih =>
    by_cases hx : y = x
    · exact .inr (hx ▸ List.mem_cons_self)
    have hmeet : y ∈ (s.meet x).unmet := by
      unfold meet
      split
      · exact (List.mem_erase_of_ne hx).mpr h
      · exact h
    rcases ih hmeet with h' | h'
    · exact .inl h'
    · exact .inr (List.mem_cons_of_mem _ h')

/-- Those of some elements that are new are put behind what has been met, and wait to be
followed before all that waits already. -/
theorem exists_foldl_meet (s : Search α) (xs : List α) : ∃ new,
    (xs.foldl meet s).met = s.met ++ new ∧ (xs.foldl meet s).stack = new.reverse ++ s.stack ∧
      ∀ y, y ∈ new ↔ y ∈ xs ∧ y ∈ s.unmet := by
  induction xs generalizing s with
  | nil => exact ⟨[], by simp⟩
  | cons x xs ih =>
    obtain ⟨new, hmet, hstack, hnew⟩ := ih (s.meet x)
    rw [List.foldl_cons, hmet, hstack]
    by_cases hx : x ∈ s.unmet
    · refine ⟨x :: new, by simp [meet, hx], by simp [meet, hx], fun y => ?_⟩
      by_cases hy : y = x
      · simp [hy, hx]
      · simp [hnew, hy, meet, hx, List.mem_erase_of_ne hy]
    · refine ⟨new, by simp [meet, hx], by simp [meet, hx], fun y => ?_⟩
      rw [hnew, List.mem_cons, meet, if_neg hx]
      constructor
      · exact fun ⟨h, h'⟩ => ⟨.inr h, h'⟩
      · rintro ⟨rfl | h, h'⟩
        · exact absurd h' hx
        · exact ⟨h, h'⟩

theorem mem_met_foldl_meet {s : Search α} {xs : List α} {y : α} :
    y ∈ (xs.foldl meet s).met ↔ y ∈ s.met ∨ y ∈ xs ∧ y ∈ s.unmet := by
  obtain ⟨new, hmet, -, hnew⟩ := exists_foldl_meet s xs
  rw [hmet, List.mem_append, hnew]

theorem mem_stack_foldl_meet {s : Search α} {xs : List α} {y : α} :
    y ∈ (xs.foldl meet s).stack ↔ y ∈ s.stack ∨ y ∈ xs ∧ y ∈ s.unmet := by
  obtain ⟨new, -, hstack, hnew⟩ := exists_foldl_meet s xs
  rw [hstack, List.mem_append, List.mem_reverse, hnew, or_comm]

/-! ### What one round keeps -/

/-- A step of a search: it leads to an element of the bound. -/
def Step (bound : List α) (next : α → List α) (x y : α) : Prop := y ∈ next x ∧ y ∈ bound

/-- What holds of a search from `start` after every round. -/
structure Inv (bound : List α) (next : α → List α) (start : α) (s : Search α) : Prop where
  /-- A path leads to whatever has been met. -/
  sound : ∀ y ∈ s.met, y ≠ start ∧ TransGen (Step bound next) start y
  /-- Only what has been met waits to be followed. -/
  waiting : ∀ y ∈ s.stack, y = start ∨ y ∈ s.met
  /-- What has not been met may be met. -/
  unmet : ∀ y ∈ s.unmet, y ∈ bound ∧ y ≠ start
  /-- Nothing gets lost. -/
  covers : ∀ y ∈ bound, y = start ∨ y ∈ s.unmet ∨ y ∈ s.met
  /-- The steps from what has been met lead to what has been met, or wait to be followed. -/
  closed : ∀ x, x = start ∨ x ∈ s.met → x ∈ s.stack ∨
    ∀ y, Step bound next x y → y = start ∨ y ∈ s.met

variable {bound : List α} {next : α → List α} {start : α}

theorem Inv.init : Inv bound next start ⟨bound.filter (· != start), [], [start]⟩ where
  sound := by simp
  waiting := by simp
  unmet := by simp
  covers := by
    intro y hy
    by_cases h : y = start
    · exact .inl h
    · exact .inr (.inl (by simp [hy, h]))
  closed := by simp

/-- One round: the steps of the first element that waits are followed. -/
theorem Inv.follow {s : Search α} {x : α} {rest : List α} (h : Inv bound next start s)
    (hx : s.stack = x :: rest) :
    Inv bound next start ((next x).foldl meet { s with stack := rest }) where
  sound := by
    intro y hy
    rcases mem_met_foldl_meet.mp hy with hy | ⟨hnext, hy⟩
    · exact h.sound y hy
    · obtain ⟨hbound, hne⟩ := h.unmet y hy
      refine ⟨hne, ?_⟩
      rcases h.waiting x (hx ▸ List.mem_cons_self) with rfl | hmet
      · exact .single ⟨hnext, hbound⟩
      · exact (h.sound x hmet).2.tail ⟨hnext, hbound⟩
  waiting := by
    intro y hy
    rcases mem_stack_foldl_meet.mp hy with hy | ⟨hnext, hy⟩
    · rcases h.waiting y (hx ▸ List.mem_cons_of_mem _ hy) with rfl | hmet
      · exact .inl rfl
      · exact .inr (mem_met_foldl_meet.mpr (.inl hmet))
    · exact .inr (mem_met_foldl_meet.mpr (.inr ⟨hnext, hy⟩))
  unmet := fun y hy =>
    h.unmet y (mem_unmet_of_mem_unmet_foldl_meet (s := { s with stack := rest }) hy)
  covers := by
    intro y hy
    rcases h.covers y hy with rfl | hunmet | hmet
    · exact .inl rfl
    · rcases mem_unmet_foldl_meet_or (s := { s with stack := rest }) hunmet with h' | h'
      · exact .inr (.inl h')
      · exact .inr (.inr (mem_met_foldl_meet.mpr (.inr ⟨h', hunmet⟩)))
    · exact .inr (.inr (mem_met_foldl_meet.mpr (.inl hmet)))
  closed := by
    intro z hz
    -- An element is new, or the one that is followed now, or was there before.
    have hz' : z ∈ next x ∧ z ∈ s.unmet ∨ z = start ∨ z ∈ s.met := by
      rcases hz with rfl | hz
      · exact .inr (.inl rfl)
      · rcases mem_met_foldl_meet.mp hz with hz | hz
        · exact .inr (.inr hz)
        · exact .inl hz
    rcases hz' with hnew | hold
    · exact .inl (mem_stack_foldl_meet.mpr (.inr hnew))
    by_cases hzx : z = x
    · subst hzx
      refine .inr fun y hy => ?_
      rcases h.covers y hy.2 with rfl | hunmet | hmet
      · exact .inl rfl
      · exact .inr (mem_met_foldl_meet.mpr (.inr ⟨hy.1, hunmet⟩))
      · exact .inr (mem_met_foldl_meet.mpr (.inl hmet))
    · rcases h.closed z hold with hstack | hsteps
      · rw [hx] at hstack
        exact .inl (mem_stack_foldl_meet.mpr (.inl (List.mem_of_ne_of_mem hzx hstack)))
      · refine .inr fun y hy => ?_
        rcases hsteps y hy with rfl | hmet
        · exact .inl rfl
        · exact .inr (mem_met_foldl_meet.mpr (.inl hmet))

omit [BEq α] [LawfulBEq α] in
/-- A search that has followed everything has met what paths lead to. -/
theorem Inv.mem_met_iff {s : Search α} (h : Inv bound next start s) (hstack : s.stack = [])
    {y : α} : y ∈ s.met ↔ y ≠ start ∧ TransGen (Step bound next) start y := by
  refine ⟨h.sound y, ?_⟩
  rintro ⟨hne, hpath⟩
  have hclosed {x z : α} (hx : x = start ∨ x ∈ s.met) (hz : Step bound next x z) :
      z = start ∨ z ∈ s.met := by
    rcases h.closed x hx with hmem | hsteps
    · simp [hstack] at hmem
    · exact hsteps z hz
  have hmet : y = start ∨ y ∈ s.met := by
    clear hne
    induction hpath with
    | single hz => exact hclosed (.inl rfl) hz
    | tail _ hz ih => exact hclosed ih hz
  exact hmet.resolve_left hne

/-- By induction over the rounds, the run of a search meets what paths lead to. -/
theorem Inv.mem_run_iff {s : Search α} (h : Inv bound next start s) {y : α} :
    y ∈ run next s ↔ y ≠ start ∧ TransGen (Step bound next) start y := by
  induction s using run.induct next with
  | case1 s hstack =>
    rw [run]
    split
    · exact h.mem_met_iff hstack
    · next heq => simp [hstack] at heq
  | case2 s x rest hstack ih =>
    rw [run]
    split
    · next heq => simp [hstack] at heq
    · next x' rest' heq =>
      obtain ⟨rfl, rfl⟩ := List.cons.inj (hstack.symm.trans heq)
      exact ih (h.follow hstack)

/-! ### No element is met twice -/

/-- An element is either met or unmet, and listed once. -/
structure Fresh (s : Search α) : Prop where
  /-- The unmet elements are listed once. -/
  unmet : s.unmet.Nodup
  /-- The elements that have been met are listed once. -/
  met : s.met.Nodup
  /-- No element is both. -/
  disjoint : ∀ y ∈ s.met, y ∉ s.unmet

theorem Fresh.meet {s : Search α} (h : Fresh s) (x : α) : Fresh (s.meet x) := by
  unfold Search.meet
  split
  · next hx =>
    refine ⟨h.unmet.erase x, ?_, ?_⟩
    · refine List.nodup_append.mpr ⟨h.met, by simp, ?_⟩
      intro a ha b hb hab
      rw [List.mem_singleton.mp hb] at hab
      exact h.disjoint a ha (hab ▸ hx)
    · intro y hy hmem
      rcases List.mem_append.mp hy with hy | hy
      · exact h.disjoint y hy (List.mem_of_mem_erase hmem)
      · rw [List.mem_singleton.mp hy] at hmem
        exact h.unmet.not_mem_erase hmem
  · exact h

theorem Fresh.foldl_meet {s : Search α} (h : Fresh s) (xs : List α) :
    Fresh (xs.foldl Search.meet s) := by
  induction xs generalizing s with
  | nil => exact h
  | cons x xs ih => exact ih (h.meet x)

theorem Fresh.nodup_run {s : Search α} (h : Fresh s) : (run next s).Nodup := by
  induction s using run.induct next with
  | case1 s hstack =>
    rw [run]
    split
    · exact h.met
    · next heq => simp [hstack] at heq
  | case2 s x rest hstack ih =>
    rw [run]
    split
    · next heq => simp [hstack] at heq
    · next x' rest' heq =>
      obtain ⟨rfl, rfl⟩ := List.cons.inj (hstack.symm.trans heq)
      exact ih (Fresh.foldl_meet (s := { s with stack := rest }) ⟨h.unmet, h.met, h.disjoint⟩ _)

end Search

/-! ### Reachable elements -/

variable {α : Type} [BEq α] [LawfulBEq α] {bound : List α} {next : α → List α} {start : α}

/-- What is reachable is what paths of one or more steps lead to, but for the start. -/
theorem mem_reachable_iff {y : α} : y ∈ reachable bound next start ↔
    y ≠ start ∧ TransGen (Search.Step bound next) start y :=
  Search.Inv.init.mem_run_iff

/-- Nothing reachable is listed twice. -/
theorem nodup_reachable (h : bound.Nodup) : (reachable bound next start).Nodup :=
  Search.Fresh.nodup_run ⟨h.filter _, List.nodup_nil, by simp⟩

end TexLint
