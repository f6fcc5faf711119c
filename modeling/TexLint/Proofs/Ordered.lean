import Mathlib.Data.List.Basic
import Mathlib.Data.List.Induction
import TexLint.Ordered

/-!
# Bindings in order

How a map changes when keys are bound, place by place: a bound key keeps its place, a new one
comes last.

## What is proved

* `prefix_addNew`: what is in a set keeps its place when an element is added.
* `distinct_of_nodup`: a list without repeats is the set of its elements.
* `foldl_of_fixed`, `foldl_kept`: steps that change nothing, or nothing of a part, change nothing
  together.
* `OrderedMap.ext_of_get?`: a map is known by its keys in order and their values.
* `OrderedMap.insert_of_notMem`, `OrderedMap.insert_of_get?`: binding a new key, and binding
  a key to the value it has.
* `OrderedMap.get?_ite_insert`: binding a key that may be bound already.
* `OrderedMap.ofList_entries`: a map is made again out of its bindings.
* `OrderedMap.nodup_keys_ofList`: in a map that bindings make each key stands once.
* `OrderedMap.get?_ofList_map`: a map that is made by a function of the key.
* `OrderedMap.insert_insert`, `OrderedMap.insert_comm`: two bindings one after the other.
* `OrderedMap.extend_extend`: bindings that are made a second time change nothing, whatever
  keys are repeated among them.
* `OrderedMap.ofList_append`: bindings that come behind others are made on top of them.
-/

namespace TexLint

theorem prefix_addNew {α : Type} [BEq α] (xs : List α) (x : α) : xs <+: addNew xs x := by
  unfold addNew
  split
  · exact List.prefix_rfl
  · exact List.prefix_append _ _

theorem addNew_of_mem {α : Type} [BEq α] [LawfulBEq α] {xs : List α} {x : α} (h : x ∈ xs) :
    addNew xs x = xs := if_pos (List.contains_iff_mem.mpr h)

theorem foldl_addNew_of_subset {α : Type} [BEq α] [LawfulBEq α] {xs acc : List α}
    (h : xs ⊆ acc) : xs.foldl addNew acc = acc := by
  induction xs with
  | nil => rfl
  | cons x xs ih =>
    obtain ⟨hx, hxs⟩ := List.cons_subset.mp h
    rw [List.foldl_cons, addNew_of_mem hx, ih hxs]

theorem foldl_addNew_sublist {α : Type} [BEq α] (xs acc : List α) :
    (xs.foldl addNew acc).Sublist (acc ++ xs) := by
  induction xs generalizing acc with
  | nil => rw [List.foldl_nil, List.append_nil]
  | cons x xs ih =>
    have hnew : (addNew acc x).Sublist (acc ++ [x]) := by
      unfold addNew
      split
      · exact List.sublist_append_left _ _
      · exact List.Sublist.refl _
    rw [List.foldl_cons, List.append_cons]
    exact (ih _).trans (hnew.append_right xs)

/-- A list is the set of its elements if the set is as long as the list. -/
theorem distinct_eq_of_length {α : Type} [BEq α] {xs : List α}
    (h : (distinct xs).length = xs.length) : distinct xs = xs :=
  (foldl_addNew_sublist xs []).eq_of_length h

theorem foldl_addNew_of_nodup {α : Type} [BEq α] [LawfulBEq α] {xs acc : List α}
    (h : (acc ++ xs).Nodup) : xs.foldl addNew acc = acc ++ xs := by
  induction xs generalizing acc with
  | nil => rw [List.foldl_nil, List.append_nil]
  | cons x xs ih =>
    have hx : x ∉ acc := by
      intro hmem
      exact (List.nodup_append.mp h).2.2 x hmem x List.mem_cons_self rfl
    have hnew : addNew acc x = acc ++ [x] := by simp [addNew, hx]
    rw [List.foldl_cons, hnew, ih (by simpa using h), List.append_assoc, List.singleton_append]

/-- A list without repeats is the set of its elements. -/
theorem distinct_of_nodup {α : Type} [BEq α] [LawfulBEq α] {xs : List α} (h : xs.Nodup) :
    distinct xs = xs := foldl_addNew_of_nodup (List.nil_append xs ▸ h)

/-- Steps that change nothing change nothing together. -/
theorem foldl_of_fixed {σ β : Type} {step : σ → β → σ} {s : σ} {bs : List β}
    (h : ∀ b ∈ bs, step s b = s) : bs.foldl step s = s := by
  induction bs with
  | nil => rfl
  | cons b bs ih =>
    obtain ⟨hb, hbs⟩ := List.forall_mem_cons.mp h
    rw [List.foldl_cons, hb, ih hbs]

/-- What each step leaves as it is, all of them together do. -/
theorem foldl_kept {σ β γ : Type} {step : σ → β → σ} (f : σ → γ)
    (h : ∀ s b, f (step s b) = f s) (bs : List β) (s : σ) : f (bs.foldl step s) = f s := by
  induction bs generalizing s with
  | nil => rfl
  | cons b bs ih => rw [List.foldl_cons, ih, h]

namespace OrderedMap

variable {κ ν : Type} [BEq κ] [LawfulBEq κ] {m : OrderedMap κ ν} {k l : κ} {v w : ν}

theorem contains_iff : m.contains k = true ↔ k ∈ m.keys := by
  simp [contains, keys]

theorem get?_eq_none_iff : m.get? k = none ↔ k ∉ m.keys := by
  simp only [get?, keys, List.lookup_eq_none_iff, List.mem_map, not_exists, not_and,
    bne_iff_ne]
  exact forall₂_congr fun e _ => ne_comm

theorem exists_get?_of_mem_keys (h : k ∈ m.keys) : ∃ v, m.get? k = some v :=
  Option.ne_none_iff_exists'.mp fun hnone => get?_eq_none_iff.mp hnone h

theorem mem_keys_of_isSome_get? (h : (m.get? k).isSome = true) : k ∈ m.keys := by
  refine Classical.byContradiction fun hk => ?_
  rw [get?_eq_none_iff.mpr hk] at h
  cases h

/-- A map is known by its keys in order and their values. -/
theorem ext_of_get? {n : OrderedMap κ ν} (hm : m.keys.Nodup) (hkeys : m.keys = n.keys)
    (hget : ∀ k, m.get? k = n.get? k) : m = n := by
  have hentries (m : OrderedMap κ ν) (h : m.keys.Nodup) :
      m.entries.map (fun e => (e.1, some e.2)) = m.keys.map fun k => (k, m.get? k) := by
    rw [keys, List.map_map]
    refine List.map_congr_left fun e he => ?_
    rw [Function.comp_apply, get?_eq_some_of_mem h he]
  have hinjective : Function.Injective fun e : κ × ν => (e.1, some e.2) := by
    intro e f h
    simp only [Prod.mk.injEq, Option.some.injEq] at h
    exact Prod.ext h.1 h.2
  have hsame : m.entries.map (fun e => (e.1, some e.2)) =
      n.entries.map fun e => (e.1, some e.2) := by
    rw [hentries m hm, hentries n (hkeys ▸ hm), hkeys]
    exact List.map_congr_left fun k _ => by rw [hget]
  obtain ⟨mEntries⟩ := m
  obtain ⟨nEntries⟩ := n
  exact congrArg mk (List.map_injective_iff.mpr hinjective hsame)

/-- A new key comes last. -/
theorem insert_of_notMem (h : k ∉ m.keys) : m.insert k v = ⟨m.entries ++ [(k, v)]⟩ := by
  obtain ⟨entries⟩ := m
  unfold keys at h
  refine congrArg mk ?_
  induction entries with
  | nil => rfl
  | cons e rest ih =>
    simp only [List.map_cons, List.mem_cons, not_or] at h
    have hne : (e.1 == k) = false := beq_eq_false_iff_ne.mpr (Ne.symm h.1)
    rw [insertEntry, hne, ih h.2]
    rfl

omit [BEq κ] [LawfulBEq κ] in
/-- Where keys stand once, a key is not bound by what stands before it. -/
theorem notMem_keys_of_nodup {before rest : List (κ × ν)} {e : κ × ν}
    (h : ((before ++ e :: rest).map Prod.fst).Nodup) : e.1 ∉ keys ⟨before⟩ := by
  intro hmem
  rw [List.map_append, List.nodup_append] at h
  exact h.2.2 _ hmem e.1 (by simp) rfl

/-- A map is made again out of its bindings. -/
theorem ofList_entries (h : m.keys.Nodup) : ofList m.entries = m := by
  have hfold (entries before : List (κ × ν)) (hnodup : ((before ++ entries).map Prod.fst).Nodup) :
      entries.foldl (fun m e => m.insert e.1 e.2) (⟨before⟩ : OrderedMap κ ν) =
        ⟨before ++ entries⟩ := by
    induction entries generalizing before with
    | nil => rw [List.append_nil, List.foldl_nil]
    | cons e rest ih =>
      have hnew := notMem_keys_of_nodup hnodup
      have hrest := ih (before ++ [e]) (by simpa using hnodup)
      rw [List.foldl_cons, insert_of_notMem hnew, hrest, List.append_assoc, List.singleton_append]
  exact hfold m.entries [] h

/-- In a map that bindings make each key stands once. -/
theorem nodup_keys_ofList (entries : List (κ × ν)) : (ofList entries).keys.Nodup := by
  have hfold (m : OrderedMap κ ν) (hm : m.keys.Nodup) :
      (entries.foldl (fun m e => m.insert e.1 e.2) m).keys.Nodup := by
    induction entries generalizing m with
    | nil => exact hm
    | cons e rest ih =>
      refine ih (m.insert e.1 e.2) ?_
      rw [keys_insert]
      exact nodup_addNew hm
  exact hfold empty List.nodup_nil

/-- In a map that binds each of some keys to what a function makes of it, every one of them is
found so. -/
theorem get?_ofList_map (keys : List κ) (f : κ → ν) (k : κ) :
    (ofList (keys.map fun k => (k, f k))).get? k = if k ∈ keys then some (f k) else none := by
  rw [ofList, List.foldl_map]
  induction keys using List.reverseRecOn with
  | nil => rfl
  | append_singleton keys l ih =>
    rw [List.foldl_concat, get?_insert, ih]
    by_cases hkl : k = l
    · simp [hkl]
    · simp [hkl]

/-- A key that is bound unless it was bound before is found with the value that it has first. -/
theorem get?_ite_insert (m : OrderedMap κ ν) (k l : κ) (v : ν) :
    (if m.contains k then m else m.insert k v).get? l =
      (m.get? l).or (if k == l then some v else none) := by
  by_cases hknown : k ∈ m.keys
  · rw [if_pos (contains_iff.mpr hknown)]
    obtain ⟨w, hw⟩ := exists_get?_of_mem_keys hknown
    by_cases hl : k = l
    · rw [← hl, hw, Option.some_or]
    · rw [if_neg (by simpa using hl), Option.or_none]
  · rw [if_neg (mt contains_iff.mp hknown), get?_insert]
    by_cases hl : k = l
    · subst hl
      simp [get?_eq_none_iff.mpr hknown]
    · simp [hl, Ne.symm hl]

/-- Binding a key to the value it has changes nothing. -/
theorem insert_of_get? (h : m.get? k = some v) : m.insert k v = m := by
  obtain ⟨entries⟩ := m
  unfold get? at h
  refine congrArg mk ?_
  induction entries with
  | nil => cases h
  | cons e rest ih =>
    obtain ⟨l, w⟩ := e
    rw [insertEntry]
    rw [List.lookup_cons] at h
    by_cases hl : l = k
    · subst hl
      simp_all
    · have hne : (k == l) = false := beq_eq_false_iff_ne.mpr (Ne.symm hl)
      rw [hne] at h
      rw [if_neg (by simpa using hl), ih h]

/-- Of two bindings of a key the second one counts. -/
theorem insert_insert : (m.insert k w).insert k v = m.insert k v := by
  obtain ⟨entries⟩ := m
  refine congrArg mk ?_
  unfold insert
  induction entries with
  | nil => simp [insertEntry]
  | cons e rest ih =>
    by_cases he : e.1 = k
    · simp [insertEntry, he]
    · simp [insertEntry, he, ih]

/-- A bound key and another one are bound in either order. -/
theorem insert_comm (hne : k ≠ l) (hl : l ∈ m.keys) :
    (m.insert l w).insert k v = (m.insert k v).insert l w := by
  obtain ⟨entries⟩ := m
  unfold keys at hl
  refine congrArg mk ?_
  unfold insert
  induction entries with
  | nil => cases hl
  | cons e rest ih =>
    obtain ⟨i, x⟩ := e
    by_cases hik : i = k
    · subst hik
      simp [insertEntry, hne]
    · by_cases hil : i = l
      · subst hil
        simp [insertEntry, hik]
      · have hrest : l ∈ rest.map Prod.fst := by
          rcases List.mem_cons.mp hl with h | h
          · exact absurd h.symm hil
          · exact h
        simp [insertEntry, hik, hil, ih hrest]

/-- What is bound under other keys meanwhile does not keep a binding from counting. -/
theorem insert_foldl_insert {entries : List (κ × ν)} (h : ∀ e ∈ entries, e.1 ∈ m.keys) :
    (entries.foldl (fun m e => m.insert e.1 e.2) (m.insert k v)).insert k v =
      (entries.foldl (fun m e => m.insert e.1 e.2) m).insert k v := by
  induction entries generalizing m with
  | nil => exact insert_insert
  | cons e rest ih =>
    have he := h e List.mem_cons_self
    have hrest : ∀ f ∈ rest, f.1 ∈ (m.insert e.1 e.2).keys := by
      intro f hf
      rw [keys_insert, mem_addNew]
      exact .inl (h f (List.mem_cons_of_mem _ hf))
    rw [List.foldl_cons, List.foldl_cons]
    by_cases hk : e.1 = k
    · rw [hk, insert_insert]
    · rw [← insert_comm (Ne.symm hk) he, ih hrest]

theorem mem_keys_foldl_insert {entries : List (κ × ν)} :
    k ∈ (entries.foldl (fun m e => m.insert e.1 e.2) m).keys ↔
      k ∈ m.keys ∨ k ∈ entries.map Prod.fst := by
  induction entries generalizing m with
  | nil => simp
  | cons e rest ih => simp [ih, mem_addNew, or_assoc]

/-- Bindings that are made a second time change nothing. -/
theorem extend_extend (m n : OrderedMap κ ν) : (m.extend n).extend n = m.extend n := by
  obtain ⟨entries⟩ := n
  unfold extend
  -- The last binding is made after all others, which cannot undo it.
  induction entries using List.reverseRecOn with
  | nil => rfl
  | append_singleton entries e ih =>
    have hkeys : ∀ f ∈ entries, f.1 ∈ (entries.foldl (fun m e => m.insert e.1 e.2) m).keys := by
      intro f hf
      exact mem_keys_foldl_insert.mpr (.inr (List.mem_map_of_mem hf))
    simp only [List.foldl_append, List.foldl_cons, List.foldl_nil] at ih ⊢
    rw [insert_foldl_insert hkeys, ih]

omit [LawfulBEq κ] in
@[simp] theorem extend_empty (m : OrderedMap κ ν) : m.extend empty = m := rfl

theorem empty_extend (h : m.keys.Nodup) : empty.extend m = m := ofList_entries h

/-- The keys that are bound already come first. -/
theorem prefix_keys_extend (m n : OrderedMap κ ν) : m.keys <+: (m.extend n).keys := by
  obtain ⟨entries⟩ := n
  unfold extend
  induction entries generalizing m with
  | nil => exact List.prefix_rfl
  | cons e rest ih =>
    refine List.IsPrefix.trans ?_ (ih (m.insert e.1 e.2))
    rw [keys_insert]
    exact prefix_addNew _ _

/-- A bound key may have its new value before other keys are bound. -/
theorem foldl_insert_of_notMem {entries : List (κ × ν)} (hk : k ∈ m.keys)
    (hentries : k ∉ entries.map Prod.fst) :
    entries.foldl (fun m e => m.insert e.1 e.2) (m.insert k v) =
      (entries.foldl (fun m e => m.insert e.1 e.2) m).insert k v := by
  induction entries generalizing m with
  | nil => rfl
  | cons e rest ih =>
    rw [List.map_cons, List.mem_cons, not_or] at hentries
    have hbound : k ∈ (m.insert e.1 e.2).keys := by
      rw [keys_insert]
      exact mem_addNew.mpr (.inl hk)
    rw [List.foldl_cons, List.foldl_cons, insert_comm (Ne.symm hentries.1) hk,
      ih hbound hentries.2]

/-- A binding that is made among those on top of a map is made last. -/
theorem foldl_insertEntry {entries : List (κ × ν)} (h : (entries.map Prod.fst).Nodup) :
    (insertEntry k v entries).foldl (fun m e => m.insert e.1 e.2) m =
      (entries.foldl (fun m e => m.insert e.1 e.2) m).insert k v := by
  induction entries generalizing m with
  | nil => rfl
  | cons e rest ih =>
    obtain ⟨hnotMem, hrest⟩ := List.nodup_cons.mp h
    rw [insertEntry]
    split
    · next he =>
      obtain rfl : e.1 = k := LawfulBEq.eq_of_beq he
      have hbound : e.1 ∈ (m.insert e.1 e.2).keys := by
        rw [keys_insert]
        exact mem_addNew.mpr (.inr rfl)
      rw [List.foldl_cons, List.foldl_cons, ← foldl_insert_of_notMem hbound hnotMem, insert_insert]
    · exact ih hrest

/-- Bindings are made on top of a map one after the other, or all together. -/
theorem foldl_insert_eq_extend (m : OrderedMap κ ν) (entries : List (κ × ν)) :
    entries.foldl (fun m e => m.insert e.1 e.2) m = m.extend (ofList entries) := by
  induction entries using List.reverseRecOn with
  | nil => rfl
  | append_singleton entries e ih =>
    have hlast : ofList (entries ++ [e]) = (ofList entries).insert e.1 e.2 := by
      rw [ofList, List.foldl_concat, ← ofList]
    rw [List.foldl_concat, ih, hlast]
    exact (foldl_insertEntry (nodup_keys_ofList entries)).symm

/-- Bindings that come behind others are made on top of them. -/
theorem ofList_append (a b : List (κ × ν)) : ofList (a ++ b) = (ofList a).extend (ofList b) := by
  rw [ofList, List.foldl_append, foldl_insert_eq_extend (a.foldl _ empty) b, ← ofList]

end OrderedMap

end TexLint
