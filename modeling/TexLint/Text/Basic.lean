/-!
# Text and byte spans

A source text is the list of its characters. Editors and reports speak of it in
bytes of its UTF-8 encoding, so this module measures texts in bytes and cuts them
at byte offsets.

## The model

* `Text` is a list of characters; `byteLength` is the length of its encoding.
* `Span` is a range of byte offsets, the end excluded.
* `splitFloor` cuts a text at a byte offset, moving an offset that falls inside a
  character back to the start of that character; `slice?` refuses such offsets, and what
  it gives stands at the range (`exists_of_slice?`, `slice?_append`).
-/

namespace TexLint

/-- A text, as the list of its characters. -/
abbrev Text := List Char

/-- The number of bytes in the UTF-8 encoding of a text. -/
def byteLength (text : Text) : Nat :=
  text.foldl (fun n c => n + c.utf8Size) 0

@[simp] theorem byteLength_nil : byteLength [] = 0 := rfl

@[simp] theorem byteLength_cons (c : Char) (text : Text) :
    byteLength (c :: text) = c.utf8Size + byteLength text := by
  have h (n : Nat) : text.foldl (fun n c => n + c.utf8Size) n = n + byteLength text := by
    induction text generalizing n with
    | nil => rfl
    | cons d text ih =>
      rw [byteLength, List.foldl_cons, List.foldl_cons, ih, ih (0 + d.utf8Size)]
      omega
  rw [byteLength, List.foldl_cons, h, Nat.zero_add]

@[simp] theorem byteLength_append (a b : Text) :
    byteLength (a ++ b) = byteLength a + byteLength b := by
  induction a with
  | nil => simp
  | cons c a ih => simp [ih, Nat.add_assoc]

theorem byteLength_pos {text : Text} (h : text ≠ []) : 0 < byteLength text := by
  obtain ⟨c, rest, rfl⟩ := List.exists_cons_of_ne_nil h
  have := c.utf8Size_pos
  rw [byteLength_cons]
  omega

/-- A range of byte offsets in a text. -/
structure Span where
  /-- The first offset in the range. -/
  start : Nat
  /-- The first offset after the range. -/
  stop : Nat
  deriving DecidableEq, Repr

namespace Span

/-- The range of `length` bytes that begins at `start`. -/
def ofLength (start length : Nat) : Span := ⟨start, start + length⟩

/-- The range moved forward by `n` bytes. -/
def shift (s : Span) (n : Nat) : Span := ⟨s.start + n, s.stop + n⟩

/-- Whether every offset of `inner`, its end included, lies in `outer`. -/
def contains (outer inner : Span) : Bool :=
  outer.start ≤ inner.start && inner.stop ≤ outer.stop

theorem contains_iff {outer inner : Span} :
    outer.contains inner = true ↔ outer.start ≤ inner.start ∧ inner.stop ≤ outer.stop := by
  simp [contains]

end Span

/-- The worker of `splitFloor`: `read` holds, in reverse, what lies before the cut. -/
def splitFloorFrom (read : Text) : Text → Nat → Text × Text
  | [], _ => (read.reverse, [])
  | c :: rest, n =>
    if c.utf8Size ≤ n then splitFloorFrom (c :: read) rest (n - c.utf8Size)
    else (read.reverse, c :: rest)

/-- Cuts a text at byte offset `n`. An offset inside a character moves back to the
start of that character, and one past the end moves to the end. -/
def splitFloor (text : Text) (n : Nat) : Text × Text := splitFloorFrom [] text n

theorem splitFloorFrom_append (read text : Text) (n : Nat) :
    (splitFloorFrom read text n).1 ++ (splitFloorFrom read text n).2 = read.reverse ++ text := by
  induction text generalizing read n with
  | nil => simp [splitFloorFrom]
  | cons c rest ih =>
    rw [splitFloorFrom]
    split
    · simpa using ih (c :: read) _
    · rfl

/-- The two sides of a cut make up the text. -/
theorem splitFloor_append (text : Text) (n : Nat) :
    (splitFloor text n).1 ++ (splitFloor text n).2 = text :=
  splitFloorFrom_append [] text n

theorem splitFloorFrom_byteLength (read a b : Text) :
    splitFloorFrom read (a ++ b) (byteLength a) = (read.reverse ++ a, b) := by
  induction a generalizing read with
  | nil =>
    cases b with
    | nil => simp [splitFloorFrom]
    | cons c b =>
      have hc : ¬ c.utf8Size ≤ 0 := by
        have := c.utf8Size_pos
        omega
      simp [splitFloorFrom, hc]
  | cons c a ih =>
    rw [List.cons_append, splitFloorFrom, byteLength_cons, if_pos (by omega),
      Nat.add_sub_cancel_left, ih]
    simp

/-- A text is cut where a part of it ends. -/
@[simp] theorem splitFloor_byteLength (a b : Text) : splitFloor (a ++ b) (byteLength a) = (a, b) :=
  splitFloorFrom_byteLength [] a b

/-- What follows the first `n` bytes of a text. There is nothing to give if offset `n` lies
inside a character or past the end. -/
def dropBytes? : Text → Nat → Option Text
  | text, 0 => some text
  | [], _ + 1 => none
  | c :: rest, n + 1 =>
    if c.utf8Size ≤ n + 1 then dropBytes? rest (n + 1 - c.utf8Size) else none

/-- The first `n` bytes of a text, under the same condition. -/
def takeBytes? (text : Text) (n : Nat) : Option Text :=
  let taken := (splitFloor text n).1
  if byteLength taken = n then some taken else none

/-- The text of a byte range, if both ends are character boundaries in order. -/
def slice? (text : Text) (s : Span) : Option Text :=
  if s.start ≤ s.stop then
    (dropBytes? text s.start).bind (takeBytes? · (s.stop - s.start))
  else none

theorem dropBytes?_byteLength (a b : Text) : dropBytes? (a ++ b) (byteLength a) = some b := by
  induction a with
  | nil => simp [dropBytes?]
  | cons c a ih =>
    obtain ⟨n, hn⟩ : ∃ n, byteLength (c :: a) = n + 1 := by
      have := c.utf8Size_pos
      exact ⟨byteLength (c :: a) - 1, by rw [byteLength_cons]; omega⟩
    rw [byteLength_cons] at hn
    rw [List.cons_append, byteLength_cons, hn, dropBytes?, if_pos (by omega),
      show n + 1 - c.utf8Size = byteLength a by omega, ih]

theorem takeBytes?_byteLength (a b : Text) : takeBytes? (a ++ b) (byteLength a) = some a := by
  simp [takeBytes?]

/-- What stands in a text at a range is its slice. -/
theorem slice?_append (a b c : Text) :
    slice? (a ++ b ++ c) (.ofLength (byteLength a) (byteLength b)) = some b := by
  have hle : (Span.ofLength (byteLength a) (byteLength b)).start ≤
      (Span.ofLength (byteLength a) (byteLength b)).stop := Nat.le_add_right _ _
  rw [slice?, if_pos hle]
  show (dropBytes? (a ++ b ++ c) (byteLength a)).bind
    (takeBytes? · (byteLength a + byteLength b - byteLength a)) = some b
  rw [List.append_assoc, dropBytes?_byteLength, Option.bind_some, Nat.add_sub_cancel_left,
    takeBytes?_byteLength]

/-- What is dropped has as many bytes as were asked for. -/
theorem exists_of_dropBytes? {text rest : Text} {n : Nat} (h : dropBytes? text n = some rest) :
    ∃ before, text = before ++ rest ∧ byteLength before = n := by
  fun_induction dropBytes? text n with
  | case1 text => exact ⟨[], by simpa using h, rfl⟩
  | case2 => cases h
  | case3 c tail n hle ih =>
    obtain ⟨before, rfl, hlength⟩ := ih h
    exact ⟨c :: before, rfl, by rw [byteLength_cons, hlength]; omega⟩
  | case4 => cases h

/-- A slice stands in the text at its range. -/
theorem exists_of_slice? {text found : Text} {s : Span} (h : slice? text s = some found) :
    ∃ before behind, text = before ++ found ++ behind ∧ byteLength before = s.start ∧
      byteLength before + byteLength found = s.stop := by
  unfold slice? at h
  split at h
  · next hle =>
    obtain ⟨rest, hdrop, htake⟩ := Option.bind_eq_some_iff.1 h
    obtain ⟨before, rfl, hbefore⟩ := exists_of_dropBytes? hdrop
    simp only [takeBytes?] at htake
    split at htake
    · next hlength =>
      cases htake
      refine ⟨before, (splitFloor rest (s.stop - s.start)).2, ?_, hbefore, by omega⟩
      rw [List.append_assoc, splitFloor_append]
    · cases htake
  · cases h

end TexLint
