/-!
# Collections in order of insertion

The answers of this library list names in the order in which they were first met.
A set is a list without repeats that grows at its end (`addNew`, `distinct`), and
a map is a list of bindings in which a repeated key keeps its place and takes its
last value (`OrderedMap`).
-/

namespace TexLint

/-- Adds an element at the end unless it is there already. -/
def addNew {α : Type} [BEq α] (xs : List α) (x : α) : List α :=
  if xs.contains x then xs else xs ++ [x]

/-- The elements of a list, each at the place where it comes first. -/
def distinct {α : Type} [BEq α] (xs : List α) : List α := xs.foldl addNew []

theorem mem_addNew {α : Type} [BEq α] [LawfulBEq α] {xs : List α} {x y : α} :
    y ∈ addNew xs x ↔ y ∈ xs ∨ y = x := by
  unfold addNew
  split
  · next h => exact ⟨.inl, fun h' => h'.elim id fun e => e ▸ List.contains_iff_mem.1 h⟩
  · simp

theorem nodup_addNew {α : Type} [BEq α] [LawfulBEq α] {xs : List α} {x : α}
    (h : xs.Nodup) : (addNew xs x).Nodup := by
  unfold addNew
  split
  · exact h
  · next hx =>
    rw [List.nodup_append]
    exact ⟨h, by simp, fun a ha b hb e => hx (by simp_all)⟩

theorem mem_foldl_addNew {α : Type} [BEq α] [LawfulBEq α] {xs acc : List α} {y : α} :
    y ∈ xs.foldl addNew acc ↔ y ∈ acc ∨ y ∈ xs := by
  induction xs generalizing acc with
  | nil => simp
  | cons x xs ih => simp [ih, mem_addNew, or_assoc]

theorem nodup_foldl_addNew {α : Type} [BEq α] [LawfulBEq α] {xs acc : List α}
    (h : acc.Nodup) : (xs.foldl addNew acc).Nodup := by
  induction xs generalizing acc with
  | nil => exact h
  | cons x xs ih => exact ih (nodup_addNew h)

/-- Leaving out repeats leaves out nothing else. -/
@[simp] theorem mem_distinct {α : Type} [BEq α] [LawfulBEq α] {xs : List α} {y : α} :
    y ∈ distinct xs ↔ y ∈ xs := by
  simp [distinct, mem_foldl_addNew]

theorem nodup_distinct {α : Type} [BEq α] [LawfulBEq α] (xs : List α) : (distinct xs).Nodup :=
  nodup_foldl_addNew List.nodup_nil

/-- A map whose bindings stand in the order in which their keys were first bound. -/
structure OrderedMap (κ ν : Type) where
  /-- The bindings. -/
  entries : List (κ × ν)
  deriving DecidableEq, Repr

namespace OrderedMap

variable {κ ν : Type} [BEq κ]

/-- The map without bindings. -/
def empty : OrderedMap κ ν := ⟨[]⟩

instance : Inhabited (OrderedMap κ ν) := ⟨empty⟩

/-- The keys in order. -/
def keys (m : OrderedMap κ ν) : List κ := m.entries.map Prod.fst

/-- The value bound to a key. -/
def get? (m : OrderedMap κ ν) (k : κ) : Option ν := m.entries.lookup k

/-- A binding that is found stands in the map. -/
theorem mem_of_get? [LawfulBEq κ] {m : OrderedMap κ ν} {k : κ} {v : ν}
    (h : m.get? k = some v) : (k, v) ∈ m.entries := by
  unfold get? at h
  generalize m.entries = entries at h ⊢
  induction entries with
  | nil => simp at h
  | cons e rest ih =>
    obtain ⟨k', v'⟩ := e
    rw [List.lookup_cons] at h
    split at h
    · next he => simp_all
    · exact List.mem_cons_of_mem _ (ih h)

/-- Whether a key is bound. -/
def contains (m : OrderedMap κ ν) (k : κ) : Bool := m.entries.any (·.1 == k)

/-- Binds a key in a list of bindings. -/
def insertEntry (k : κ) (v : ν) : List (κ × ν) → List (κ × ν)
  | [] => [(k, v)]
  | e :: rest => if e.1 == k then (e.1, v) :: rest else e :: insertEntry k v rest

/-- Binds a key. A key that is bound keeps its place, a new one comes last. -/
def insert (m : OrderedMap κ ν) (k : κ) (v : ν) : OrderedMap κ ν :=
  ⟨insertEntry k v m.entries⟩

section Insert

variable [LawfulBEq κ]

theorem lookup_insertEntry (k k' : κ) (v : ν) (entries : List (κ × ν)) :
    (insertEntry k v entries).lookup k' = if k' == k then some v else entries.lookup k' := by
  induction entries with
  | nil => cases h : k' == k <;> simp [insertEntry, List.lookup_cons, h]
  | cons e rest ih =>
    obtain ⟨l, w⟩ := e
    rw [insertEntry]
    split
    · next hl =>
      cases (LawfulBEq.eq_of_beq hl : l = k)
      cases h : k' == k <;> simp [List.lookup_cons, h]
    · next hl =>
      rw [List.lookup_cons, List.lookup_cons, ih]
      cases h : k' == l with
      | false => rfl
      | true =>
        have hk : (k' == k) = false := by
          rw [LawfulBEq.eq_of_beq h]
          simpa using hl
        simp [hk]

/-- A key that has just been bound has its new value, all others keep theirs. -/
@[simp] theorem get?_insert (m : OrderedMap κ ν) (k k' : κ) (v : ν) :
    (m.insert k v).get? k' = if k' == k then some v else m.get? k' :=
  lookup_insertEntry k k' v m.entries

theorem map_fst_insertEntry (k : κ) (v : ν) (entries : List (κ × ν)) :
    (insertEntry k v entries).map Prod.fst = addNew (entries.map Prod.fst) k := by
  simp only [addNew, List.contains_iff_mem]
  induction entries with
  | nil => simp [insertEntry]
  | cons e rest ih =>
    rw [insertEntry]
    split
    · next h =>
      have hk : k = e.1 := (LawfulBEq.eq_of_beq h).symm
      simp [hk]
    · next h =>
      have hk : k ≠ e.1 := fun he => h (beq_iff_eq.2 he.symm)
      rw [List.map_cons, List.map_cons, ih]
      simp only [List.mem_cons, hk, false_or]
      split <;> rfl

/-- Binding a key adds it to the keys. -/
@[simp] theorem keys_insert (m : OrderedMap κ ν) (k : κ) (v : ν) :
    (m.insert k v).keys = addNew m.keys k :=
  map_fst_insertEntry k v m.entries

/-- Where each key stands once, a binding is found by its key. -/
theorem get?_eq_some_of_mem {m : OrderedMap κ ν} (h : m.keys.Nodup) {k : κ} {v : ν}
    (hmem : (k, v) ∈ m.entries) : m.get? k = some v := by
  simp only [get?, keys] at h ⊢
  generalize m.entries = entries at h hmem
  induction entries with
  | nil => simp at hmem
  | cons e rest ih =>
    obtain ⟨l, w⟩ := e
    simp only [List.map_cons, List.nodup_cons] at h
    rw [List.lookup_cons]
    rcases List.mem_cons.1 hmem with he | hmem
    · cases he
      simp
    · have hne : (k == l) = false := beq_eq_false_iff_ne.2 fun he =>
        h.1 (he ▸ List.mem_map_of_mem (f := Prod.fst) hmem)
      rw [hne]
      exact ih h.2 hmem

end Insert

/-- The map that a list of bindings makes, one after the other. -/
def ofList (entries : List (κ × ν)) : OrderedMap κ ν :=
  entries.foldl (fun m e => m.insert e.1 e.2) empty

/-- The map with the bindings of a second one made on top. -/
def extend (m n : OrderedMap κ ν) : OrderedMap κ ν :=
  n.entries.foldl (fun m e => m.insert e.1 e.2) m

end OrderedMap

end TexLint
