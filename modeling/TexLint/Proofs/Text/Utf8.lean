import TexLint.Text.Utf8

/-!
# A text is read back from its bytes

The bytes that encode a text decode to it.

## What is proved

* `PendingChar.ofFirst?_two`, `PendingChar.ofFirst?_three`, `PendingChar.ofFirst?_four`: what a
  first byte announces, by the length of the character. The bounds of the next byte leave out
  what the encoding of a character never has there.
* `foldl_next_utf8EncodeChar`: the bytes of a character are read as that character.
* `Bytes.text?_ofText`: the bytes of a text are read as that text.
-/

namespace TexLint

namespace PendingChar

theorem ofFirst?_two {b : Nat} (hlow : 0xC2 ≤ b) (hhigh : b ≤ 0xDF) :
    ofFirst? b = some ⟨1, b - 0xC0, 0x80, 0xBF⟩ :=
  if_pos ⟨hlow, hhigh⟩

/-- Only the first byte of the least characters and that of the surrogates bound the next one. -/
theorem ofFirst?_three {b : Nat} (hlow : 0xE0 ≤ b) (hhigh : b ≤ 0xEF) :
    ofFirst? b = some ⟨2, b - 0xE0, if b = 0xE0 then 0xA0 else 0x80,
      if b = 0xED then 0x9F else 0xBF⟩ := by
  rw [ofFirst?, if_neg (by omega)]
  by_cases hleast : b = 0xE0
  · subst hleast
    rfl
  · by_cases hsurrogate : b = 0xED
    · subst hsurrogate
      rfl
    · rw [if_neg hleast, if_neg hsurrogate, if_pos (by omega), if_neg hleast, if_neg hsurrogate]

/-- Only the first byte of the least characters and that of the greatest bound the next one. -/
theorem ofFirst?_four {b : Nat} (hlow : 0xF0 ≤ b) (hhigh : b ≤ 0xF4) :
    ofFirst? b = some ⟨3, b - 0xF0, if b = 0xF0 then 0x90 else 0x80,
      if b = 0xF4 then 0x8F else 0xBF⟩ := by
  rw [ofFirst?, if_neg (by omega), if_neg (by omega), if_neg (by omega), if_neg (by omega)]
  by_cases hleast : b = 0xF0
  · subst hleast
    rfl
  · by_cases hgreatest : b = 0xF4
    · subst hgreatest
      rfl
    · rw [if_neg hleast, if_pos (by omega), if_neg hleast, if_neg hgreatest]

end PendingChar

namespace Utf8Reading

variable {done : List (Option Char)} {p : PendingChar} {n : Nat}

theorem next_single (h : n < 0x80) :
    next ⟨done, none⟩ (UInt8.ofNat n) = ⟨some (Char.ofNat n) :: done, none⟩ := by
  have hn : (UInt8.ofNat n).toNat = n := by
    rw [UInt8.toNat_ofNat']
    omega
  rw [next, hn]
  exact if_pos h

theorem next_first (h : 0x80 ≤ n) (hn : n < 0x100) (hp : PendingChar.ofFirst? n = some p) :
    next ⟨done, none⟩ (UInt8.ofNat n) = ⟨done, some p⟩ := by
  have hn : (UInt8.ofNat n).toNat = n := by
    rw [UInt8.toNat_ofNat']
    omega
  rw [next, hn]
  simp [readFirst, Nat.not_lt.mpr h, hp]

/-- A byte within the bounds adds six bits. -/
theorem next_within (hlow : p.low ≤ n + 0x80) (hhigh : n + 0x80 ≤ p.high) (hn : n < 0x40) :
    next ⟨done, some p⟩ (UInt8.ofNat (n + 0x80)) =
      if p.missing ≤ 1 then ⟨some (Char.ofNat (p.value * 64 + n)) :: done, none⟩
      else ⟨done, some ⟨p.missing - 1, p.value * 64 + n, 0x80, 0xBF⟩⟩ := by
  have hn : (UInt8.ofNat (n + 0x80)).toNat = n + 0x80 := by
    rw [UInt8.toNat_ofNat']
    omega
  rw [next, hn]
  simp [hlow, hhigh]

section Lengths

variable {v : Nat}

theorem foldl_next_two (hlow : 0x80 ≤ v) (hhigh : v < 0x800) :
    [UInt8.ofNat (v / 64 % 32 + 0xC0), UInt8.ofNat (v % 64 + 0x80)].foldl next ⟨done, none⟩ =
      ⟨some (Char.ofNat v) :: done, none⟩ := by
  have hfirst := PendingChar.ofFirst?_two (b := v / 64 % 32 + 0xC0) (by omega) (by omega)
  have hv : (v / 64 % 32 + 0xC0 - 0xC0) * 64 + v % 64 = v := by omega
  rw [List.foldl_cons, List.foldl_cons, List.foldl_nil, next_first (by omega) (by omega) hfirst,
    next_within (by simp) (by simp; omega) (by omega), if_pos (by simp), hv]

/-- The second byte tells the least characters and the surrogates apart from all others. -/
theorem foldl_next_three (hlow : 0x800 ≤ v) (hhigh : v < 0x10000)
    (hvalid : v < 0xD800 ∨ 0xDFFF < v) :
    [UInt8.ofNat (v / 4096 % 16 + 0xE0), UInt8.ofNat (v / 64 % 64 + 0x80),
      UInt8.ofNat (v % 64 + 0x80)].foldl next ⟨done, none⟩ =
      ⟨some (Char.ofNat v) :: done, none⟩ := by
  have hfirst := PendingChar.ofFirst?_three (b := v / 4096 % 16 + 0xE0) (by omega) (by omega)
  have hleast : (if v / 4096 % 16 + 0xE0 = 0xE0 then 0xA0 else 0x80) ≤ v / 64 % 64 + 0x80 := by
    split <;> omega
  have hsurrogate : v / 64 % 64 + 0x80 ≤ if v / 4096 % 16 + 0xE0 = 0xED then 0x9F else 0xBF := by
    split <;> omega
  have hv : ((v / 4096 % 16 + 0xE0 - 0xE0) * 64 + v / 64 % 64) * 64 + v % 64 = v := by omega
  rw [List.foldl_cons, List.foldl_cons, List.foldl_cons, List.foldl_nil,
    next_first (by omega) (by omega) hfirst, next_within hleast hsurrogate (by omega),
    if_neg (by simp), next_within (by simp) (by simp; omega) (by omega), if_pos (by simp), hv]

/-- The second byte tells the least characters and what is beyond the greatest apart. -/
theorem foldl_next_four (hlow : 0x10000 ≤ v) (hhigh : v < 0x110000) :
    [UInt8.ofNat (v / 262144 % 8 + 0xF0), UInt8.ofNat (v / 4096 % 64 + 0x80),
      UInt8.ofNat (v / 64 % 64 + 0x80), UInt8.ofNat (v % 64 + 0x80)].foldl next ⟨done, none⟩ =
      ⟨some (Char.ofNat v) :: done, none⟩ := by
  have hfirst := PendingChar.ofFirst?_four (b := v / 262144 % 8 + 0xF0) (by omega) (by omega)
  have hleast : (if v / 262144 % 8 + 0xF0 = 0xF0 then 0x90 else 0x80) ≤
      v / 4096 % 64 + 0x80 := by
    split <;> omega
  have hgreatest : v / 4096 % 64 + 0x80 ≤
      if v / 262144 % 8 + 0xF0 = 0xF4 then 0x8F else 0xBF := by
    split <;> omega
  have hv : (((v / 262144 % 8 + 0xF0 - 0xF0) * 64 + v / 4096 % 64) * 64 + v / 64 % 64) * 64 +
      v % 64 = v := by omega
  rw [List.foldl_cons, List.foldl_cons, List.foldl_cons, List.foldl_cons, List.foldl_nil,
    next_first (by omega) (by omega) hfirst, next_within hleast hgreatest (by omega),
    if_neg (by simp), next_within (by simp) (by simp; omega) (by omega), if_neg (by simp),
    next_within (by simp) (by simp; omega) (by omega), if_pos (by simp), hv]

end Lengths

/-- The bytes of a character are read as that character. -/
theorem foldl_next_utf8EncodeChar (c : Char) :
    (String.utf8EncodeChar c).foldl next ⟨done, none⟩ = ⟨some c :: done, none⟩ := by
  have hvalid : c.toNat < 0xD800 ∨ 0xDFFF < c.toNat ∧ c.toNat < 0x110000 := c.valid
  have hc : Char.ofNat c.toNat = c := Char.ofNat_toNat c
  have hvalue : c.val.toNat = c.toNat := rfl
  unfold String.utf8EncodeChar
  rw [hvalue]
  generalize c.toNat = v at hvalid hc
  subst hc
  dsimp only
  split
  · exact next_single (by omega)
  · split
    · exact foldl_next_two (by omega) (by omega)
    · split
      · exact foldl_next_three (by omega) (by omega) (by omega)
      · exact foldl_next_four (by omega) (by omega)

/-- The bytes of a text are read character by character. -/
theorem foldl_next_ofText (text : Text) :
    (Bytes.ofText text).foldl next ⟨done, none⟩ = ⟨(text.map some).reverse ++ done, none⟩ := by
  induction text generalizing done with
  | nil => rfl
  | cons c text ih =>
    have hcons : Bytes.ofText (c :: text) = String.utf8EncodeChar c ++ Bytes.ofText text := rfl
    rw [hcons, List.foldl_append, foldl_next_utf8EncodeChar, ih, List.map_cons, List.reverse_cons,
      List.append_assoc, List.singleton_append]

end Utf8Reading

/-- A text is read back from its bytes. -/
theorem Bytes.text?_ofText (text : Text) : text? (ofText text) = some text := by
  have hdecoded : decodeUtf8 (ofText text) = text.map some := by
    rw [decodeUtf8, Utf8Reading.foldl_next_ofText]
    simp [Utf8Reading.finish]
  rw [text?, hdecoded]
  simp

end TexLint
