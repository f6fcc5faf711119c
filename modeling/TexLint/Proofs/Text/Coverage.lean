import TexLint.Proofs.Text.Pieces
import TexLint.Proofs.Text.Protection

/-!
# Pieces and separators cover the text

The pieces of a text and the separators between them make up the text, and the separators are all
the occurrences that touch nothing that is protected.

## The model

* `Separator.occurrences`: where a separator occurs in a text. `AreOccurrences` says what lists
  these can be.
* `Covers`: pieces and separators take turns from an offset on.
* `gaps` are the ranges between pieces, `interleaved` puts pieces and separators together.

## What is proved

* `exists_occurrences_eq`: any places one after the other are the occurrences of a separator.
* `covers_joinCuts`: pieces and unprotected separators take turns.
* `split_covers`: so the gaps between the pieces of a text are the unprotected separators.
-/

namespace TexLint

/-- A text is divided at an offset in one way only. -/
theorem append_inj_of_byteLength {a b a' b' : Text} (h : a ++ b = a' ++ b')
    (hlength : byteLength a = byteLength a') : a = a' ∧ b = b' := by
  have hcut := splitFloor_byteLength a b
  rw [h, hlength, splitFloor_byteLength] at hcut
  exact ⟨(congrArg Prod.fst hcut).symm, (congrArg Prod.snd hcut).symm⟩

theorem byteLength_reverse (text : Text) : byteLength text.reverse = byteLength text := by
  induction text with
  | nil => rfl
  | cons c text ih =>
    rw [List.reverse_cons, byteLength_append, ih, byteLength_cons, byteLength_cons, byteLength_nil]
    omega

/-! ### Occurrences -/

/-- Where the separators among some cuts stand, if what has been cut starts at an offset. -/
def separatorsFrom (offset : Nat) : List Cut → List Piece
  | [] => []
  | cut :: cuts =>
    let start := offset + byteLength cut.before
    ⟨start, cut.separator⟩ :: separatorsFrom (start + byteLength cut.separator) cuts

/-- Where a separator occurs in a text. -/
def Separator.occurrences (sep : Separator) (text : Text) : List Piece :=
  separatorsFrom 0 (sep.cuts text).1

/-- Places in a text that are not empty and follow each other. -/
structure AreOccurrences (text : Text) (places : List Piece) : Prop where
  /-- What is said to stand at a place stands there. -/
  stands : ∀ v ∈ places, v.StandsIn 0 text
  /-- No place is empty. -/
  ne_nil : ∀ v ∈ places, v.text ≠ []
  /-- A place begins where the one before it ends, or behind it. -/
  pairwise : places.Pairwise Piece.EndsBefore

section Occurrences

variable {sep : Separator}

theorem separator_ne_nil_of_mem_cutsFrom (before : Text) (skip : Nat) (text : Text) :
    ∀ cut ∈ (sep.cutsFrom before skip text).1, cut.separator ≠ [] := by
  induction text generalizing before skip with
  | nil =>
    intro cut hcut
    cases hcut
  | cons c rest ih =>
    cases skip with
    | succ skip => exact ih before skip
    | zero =>
      rw [Separator.cutsFrom]
      split
      · exact ih _ _
      · exact List.forall_mem_cons.mpr ⟨by simp, ih _ _⟩

theorem areOccurrences_separatorsFrom {cuts : List Cut} (hne : ∀ cut ∈ cuts, cut.separator ≠ [])
    (read last : Text) :
    AreOccurrences (read ++ joinedText cuts last) (separatorsFrom (byteLength read) cuts) ∧
      ∀ v ∈ separatorsFrom (byteLength read) cuts, byteLength read ≤ v.offset := by
  induction cuts generalizing read with
  | nil => exact ⟨⟨by simp [separatorsFrom], by simp [separatorsFrom], .nil⟩,
      by simp [separatorsFrom]⟩
  | cons cut cuts ih =>
    obtain ⟨hcut, hcuts⟩ := List.forall_mem_cons.mp hne
    obtain ⟨hplaces, hle⟩ := ih hcuts (read ++ cut.before ++ cut.separator)
    rw [byteLength_append, byteLength_append] at hplaces hle
    have htext : read ++ joinedText (cut :: cuts) last =
        read ++ cut.before ++ cut.separator ++ joinedText cuts last := by
      rw [joinedText_cons]
      simp only [List.append_assoc]
    rw [htext, separatorsFrom]
    refine ⟨⟨List.forall_mem_cons.mpr ⟨?_, hplaces.stands⟩,
      List.forall_mem_cons.mpr ⟨hcut, hplaces.ne_nil⟩,
      List.pairwise_cons.mpr ⟨hle, hplaces.pairwise⟩⟩,
      List.forall_mem_cons.mpr ⟨Nat.le_add_right _ _, fun v hv => ?_⟩⟩
    · exact ⟨read ++ cut.before, joinedText cuts last, rfl, by simp⟩
    · have hv := hle v hv
      omega

/-- A separator occurs at places that are not empty and follow each other. -/
theorem Separator.areOccurrences (sep : Separator) (text : Text) :
    AreOccurrences text (sep.occurrences text) := by
  have hne : ∀ cut ∈ (sep.cuts text).1, cut.separator ≠ [] :=
    separator_ne_nil_of_mem_cutsFrom [] 0 text
  have hplaces := (areOccurrences_separatorsFrom hne [] (sep.cuts text).2).1
  rwa [List.nil_append, joinedText_cuts] at hplaces

end Occurrences

/-- The separator that takes at each place in a text what is said to stand there. -/
def Separator.atPlaces (text : Text) (places : List Piece) : Separator := fun rest =>
  ((places.find? fun v => v.offset + byteLength rest == byteLength text).map (·.text.length)).getD 0

namespace AreOccurrences

variable {text : Text} {places : List Piece} (h : AreOccurrences text places)
include h

theorem exists_of_mem {v : Piece} (hv : v ∈ places) :
    ∃ before behind, text = before ++ (v.text ++ behind) ∧ v.offset = byteLength before := by
  obtain ⟨before, behind, htext, hoffset⟩ := h.stands v hv
  exact ⟨before, behind, by rw [htext, List.append_assoc], by rw [hoffset, Nat.zero_add]⟩

/-- No place begins inside a character. -/
theorem not_inside {read rest : Text} {c : Char} (htext : text = read ++ c :: rest) {v : Piece}
    (hv : v ∈ places) (hlt : byteLength read < v.offset) :
    byteLength read + c.utf8Size ≤ v.offset := by
  obtain ⟨before, behind, hbefore, hoffset⟩ := h.exists_of_mem hv
  rw [hoffset] at hlt ⊢
  rcases List.append_eq_append_iff.mp (htext.symm.trans hbefore) with
    ⟨t, rfl, ht⟩ | ⟨t, rfl, -⟩
  · cases t with
    | nil => simp at hlt
    | cons d t =>
      obtain ⟨rfl, -⟩ := List.cons_eq_cons.mp ht
      rw [byteLength_append, byteLength_cons]
      omega
  · rw [byteLength_append] at hlt
    omega

theorem offset_lt_stop {v : Piece} (hv : v ∈ places) : v.offset < v.span.stop :=
  Nat.lt_add_of_pos_right (byteLength_pos (h.ne_nil v hv))

/-- The places from one of them on are this one and those behind it. -/
theorem filter_eq_cons {v : Piece} (hv : v ∈ places) :
    places.filter (v.offset ≤ ·.offset) = v :: places.filter (v.span.stop ≤ ·.offset) := by
  have hlt := h.offset_lt_stop hv
  obtain ⟨l, r, rfl⟩ := List.append_of_mem hv
  obtain ⟨-, hr, hl⟩ := List.pairwise_append.mp h.pairwise
  have hbefore : ∀ w ∈ l, w.offset < v.offset := by
    intro w hw
    exact Nat.lt_of_lt_of_le (h.offset_lt_stop (List.mem_append_left _ hw))
      (hl w hw v List.mem_cons_self)
  have hbehind : ∀ w ∈ r, v.span.stop ≤ w.offset := fun _ => List.rel_of_pairwise_cons hr
  have hnone (n : Nat) (hn : v.offset ≤ n) : l.filter (n ≤ ·.offset) = [] := by
    refine List.filter_eq_nil_iff.mpr fun w hw => ?_
    simpa using Nat.lt_of_lt_of_le (hbefore w hw) hn
  have hall (n : Nat) (hn : n ≤ v.span.stop) : r.filter (n ≤ ·.offset) = r := by
    refine List.filter_eq_self.mpr fun w hw => ?_
    simpa using Nat.le_trans hn (hbehind w hw)
  rw [List.filter_append, List.filter_append, hnone _ (Nat.le_refl _), hnone _ (Nat.le_of_lt hlt),
    List.nil_append, List.nil_append, List.filter_cons_of_pos (by simp),
    List.filter_cons_of_neg (by simpa using hlt), hall _ (Nat.le_of_lt hlt),
    hall _ (Nat.le_refl _)]

omit h in
/-- What the separator takes: what stands at the place that begins there, if there is one. -/
theorem atPlaces_eq (places : List Piece) {read rest : Text} (htext : text = read ++ rest) :
    (∃ v ∈ places, v.offset = byteLength read ∧
        Separator.atPlaces text places rest = v.text.length) ∨
      (∀ v ∈ places, v.offset ≠ byteLength read) ∧ Separator.atPlaces text places rest = 0 := by
  have hat (v : Piece) : (v.offset + byteLength rest == byteLength text) = true ↔
      v.offset = byteLength read := by
    rw [beq_iff_eq, htext, byteLength_append, Nat.add_right_cancel_iff]
  rw [Separator.atPlaces]
  cases hfind : places.find? fun v => v.offset + byteLength rest == byteLength text with
  | none =>
    have hnone := List.find?_eq_none.mp hfind
    exact .inr ⟨fun v hv hoffset => hnone v hv ((hat v).mpr hoffset), rfl⟩
  | some v =>
    obtain ⟨hv, hmem⟩ := And.intro (List.find?_some (p := fun v : Piece => _) hfind)
      (List.mem_of_find?_eq_some hfind)
    exact .inl ⟨v, hmem, (hat v).mp hv, rfl⟩

/-- The cuts at the places are found from left to right. -/
theorem separatorsFrom_cutsFrom {read rest : Text} (before : Text) {offset skip : Nat}
    (htext : text = read ++ rest)
    (hoffset : offset + byteLength before = byteLength read + byteLength (rest.take skip)) :
    separatorsFrom offset ((Separator.atPlaces text places).cutsFrom before skip rest).1 =
      places.filter (offset + byteLength before ≤ ·.offset) := by
  induction rest generalizing read before offset skip with
  | nil =>
    rw [Separator.cutsFrom, separatorsFrom]
    refine (List.filter_eq_nil_iff.mpr fun v hv => ?_).symm
    have hstop := (h.stands v hv).le.2
    have hlt := h.offset_lt_stop hv
    rw [List.take_nil, byteLength_nil] at hoffset
    rw [htext, byteLength_append, byteLength_nil] at hstop
    simp only [decide_eq_true_eq]
    omega
  | cons c rest ih =>
    have hread : text = (read ++ [c]) ++ rest := by simpa using htext
    cases skip with
    | succ skip =>
      refine ih _ hread ?_
      rw [hoffset]
      simp [Nat.add_assoc]
    | zero =>
      rw [List.take_zero, byteLength_nil, Nat.add_zero] at hoffset
      rw [Separator.cutsFrom]
      rcases atPlaces_eq places htext with ⟨v, hv, hplace, hlength⟩ | ⟨hnone, hzero⟩
      · obtain ⟨before', behind, hbefore, hbefore'⟩ := h.exists_of_mem hv
        rw [hplace] at hbefore'
        -- What stands at the place is what comes next in the text.
        obtain ⟨-, hrest⟩ := append_inj_of_byteLength (htext.symm.trans hbefore) hbefore'
        obtain ⟨n, hn⟩ : ∃ n, v.text.length = n + 1 :=
          Nat.exists_eq_succ_of_ne_zero (List.length_pos_iff.mpr (h.ne_nil v hv)).ne'
        have htake : (c :: rest).take (n + 1) = v.text := by rw [hrest, ← hn, List.take_left]
        rw [hlength, hn]
        show ⟨_, (c :: rest).take (n + 1)⟩ :: separatorsFrom _ _ = _
        rw [htake, byteLength_reverse, hoffset, ← hplace, h.filter_eq_cons hv]
        refine congrArg₂ List.cons rfl (ih [] hread ?_)
        rw [hplace, byteLength_nil, Nat.add_zero, ← htake, List.take_succ_cons, byteLength_cons,
          byteLength_append, byteLength_cons, byteLength_nil]
        omega
      · rw [hzero]
        have hoffset' : offset + byteLength (c :: before) =
            byteLength (read ++ [c]) + byteLength (rest.take 0) := by
          simp
          omega
        refine (ih (c :: before) hread hoffset').trans ?_
        refine List.filter_congr fun v hv => ?_
        have hne := hnone v hv
        have hinside := h.not_inside htext hv
        rw [byteLength_cons, decide_eq_decide]
        omega

/-- Any places that are not empty and follow each other are the occurrences of a separator. -/
theorem exists_occurrences_eq : ∃ sep : Separator, sep.occurrences text = places := by
  refine ⟨.atPlaces text places, ?_⟩
  have hstart : 0 + byteLength [] = byteLength [] + byteLength (text.take 0) := rfl
  refine (h.separatorsFrom_cutsFrom [] (List.nil_append text).symm hstart).trans ?_
  exact List.filter_eq_self.mpr fun v _ => by simp

end AreOccurrences

/-! ### Pieces and separators take turns -/

/-- Pieces and separators take turns from an offset on and make up a text. -/
inductive Covers : Nat → List Piece → List Piece → Text → Prop where
  /-- The last piece. -/
  | last (offset : Nat) (text : Text) : Covers offset [⟨offset, text⟩] [] text
  /-- A piece, a separator and what follows. -/
  | cons (offset : Nat) (text separator : Text) {pieces separators : List Piece} {rest : Text} :
    separator ≠ [] →
    Covers (offset + byteLength text + byteLength separator) pieces separators rest →
    Covers offset (⟨offset, text⟩ :: pieces)
      (⟨offset + byteLength text, separator⟩ :: separators) (text ++ separator ++ rest)

/-- The ranges between the pieces of a list. -/
def gaps : List Piece → List Span
  | v :: w :: pieces => ⟨v.span.stop, w.offset⟩ :: gaps (w :: pieces)
  | _ => []

/-- The text of pieces with separators between them. -/
def interleaved : List Piece → List Piece → Text
  | piece :: pieces, separator :: separators =>
    piece.text ++ separator.text ++ interleaved pieces separators
  | pieces, _ => pieces.flatMap (·.text)

/-- The pieces that are put together from cuts and the unprotected separators take turns. -/
theorem covers_joinCuts {cuts : List Cut} (hne : ∀ cut ∈ cuts, cut.separator ≠ [])
    (read begun last : Text) {text : Text} (htext : text = read ++ begun ++ joinedText cuts last) :
    Covers (byteLength read)
      (joinCuts (Protection.start.after (read ++ begun)) (byteLength read) begun cuts last)
      ((separatorsFrom (byteLength (read ++ begun)) cuts).filter (Unprotected text ·.span))
      (begun ++ joinedText cuts last) := by
  induction cuts generalizing read begun with
  | nil => exact .last _ _
  | cons cut cuts ih =>
    obtain ⟨hcut, hcuts⟩ := List.forall_mem_cons.mp hne
    have htouches := Protection.touches_iff (read ++ begun ++ cut.before) cut.separator
      (joinedText cuts last)
    have hwhole : text = read ++ begun ++ cut.before ++ cut.separator ++ joinedText cuts last := by
      rw [htext, joinedText_cons]
      simp only [List.append_assoc]
    rw [← hwhole] at htouches
    let place : Piece := ⟨byteLength (read ++ begun ++ cut.before), cut.separator⟩
    have hplaces : separatorsFrom (byteLength (read ++ begun)) (cut :: cuts) = place ::
        separatorsFrom (byteLength (read ++ begun ++ cut.before ++ cut.separator)) cuts := by
      show _ = (⟨byteLength (read ++ begun ++ cut.before), cut.separator⟩ : Piece) :: _
      rw [separatorsFrom, byteLength_append (read ++ begun ++ cut.before),
        byteLength_append (read ++ begun)]
    rw [joinCuts, hplaces, joinedText_cons]
    simp only [← Protection.after_append]
    by_cases htouched :
        (Protection.start.after (read ++ begun ++ cut.before)).touches cut.separator = true
    · -- The separator is protected: it belongs to the piece that has begun.
      have hprotected : ¬ Unprotected text place.span := htouches.mp htouched
      have hih := ih hcuts read (begun ++ cut.before ++ cut.separator) (by simpa using hwhole)
      rw [if_pos htouched, List.filter_cons_of_neg (p := fun v : Piece => Unprotected text v.span)
        (mt of_decide_eq_true hprotected)]
      simpa only [List.append_assoc] using hih
    · have hfree : Unprotected text place.span := not_not.mp (mt htouches.mpr htouched)
      have hih := ih hcuts (read ++ begun ++ cut.before ++ cut.separator) [] (by simpa using hwhole)
      rw [if_neg htouched, List.filter_cons_of_pos (p := fun v : Piece => Unprotected text v.span)
        (decide_eq_true hfree)]
      rw [List.nil_append] at hih
      have hcovers := Covers.cons (byteLength read) (begun ++ cut.before) cut.separator hcut
        (by simpa [Nat.add_assoc] using hih)
      simpa [place, Nat.add_assoc] using hcovers

namespace Covers

variable {offset : Nat} {pieces separators : List Piece} {text : Text}
  (h : Covers offset pieces separators text)
include h

theorem exists_cons : ∃ first rest, pieces = ⟨offset, first⟩ :: rest := by
  cases h with
  | last => exact ⟨text, [], rfl⟩
  | cons _ first separator _ _ => exact ⟨first, _, rfl⟩

theorem getLast?_eq : pieces.getLast?.map (·.span.stop) = some (offset + byteLength text) := by
  induction h with
  | last => rfl
  | cons offset first separator hne hrest ih =>
    obtain ⟨second, rest, hpieces⟩ := hrest.exists_cons
    rw [hpieces] at ih ⊢
    rw [List.getLast?_cons_cons, ih, byteLength_append, byteLength_append]
    simp only [Nat.add_assoc]

/-- A piece ends before the next one begins. -/
theorem pairwise : pieces.Pairwise (·.span.stop < ·.offset) ∧ ∀ v ∈ pieces, offset ≤ v.offset := by
  induction h with
  | last => exact ⟨List.pairwise_singleton _ _, by simp⟩
  | cons offset first separator hne _ ih =>
    obtain ⟨hpairwise, hle⟩ := ih
    have hpos := byteLength_pos hne
    refine ⟨List.pairwise_cons.mpr ⟨fun v hv => ?_, hpairwise⟩,
      List.forall_mem_cons.mpr ⟨Nat.le_refl offset, fun v hv => ?_⟩⟩
    · have hv := hle v hv
      show offset + byteLength first < v.offset
      omega
    · have hv := hle v hv
      omega

/-- What lies between the pieces are the separators. -/
theorem gaps_eq : gaps pieces = separators.map (·.span) := by
  induction h with
  | last => rfl
  | cons offset first separator hne hrest ih =>
    obtain ⟨second, rest, hpieces⟩ := hrest.exists_cons
    rw [hpieces] at ih ⊢
    rw [gaps, ih]
    rfl

theorem interleaved_eq : interleaved pieces separators = text := by
  induction h with
  | last offset text => exact List.append_nil text
  | cons offset first separator hne hrest ih => rw [interleaved, ih]

end Covers

/-- The pieces of a text and its unprotected separators take turns. -/
theorem covers_split (sep : Separator) {text : Text} (h : text ≠ []) :
    Covers 0 (split sep text) ((sep.occurrences text).filter (Unprotected text ·.span)) text := by
  have htext : text = [] ++ [] ++ joinedText (sep.cuts text).1 (sep.cuts text).2 :=
    (joinedText_cuts text).symm
  have hne : ∀ cut ∈ (sep.cuts text).1, cut.separator ≠ [] :=
    separator_ne_nil_of_mem_cutsFrom [] 0 text
  have hcovers := covers_joinCuts hne [] [] _ htext
  rw [split_eq_joinCuts h]
  rwa [List.nil_append, joinedText_cuts] at hcovers

/-- Splitting covers a text. An empty one has no pieces. The pieces of any other one stand at their
ranges, one before the other, from its start to its end. What lies between them is, in order, all
that the separator matches without a protected byte, and with these matches between them the pieces
make up the text. What a separator matches may be any places in the text that follow each other. -/
theorem split_covers (text : Text) :
    (∀ places, AreOccurrences text places ↔ ∃ sep : Separator, sep.occurrences text = places) ∧
    ∀ sep : Separator, split sep [] = [] ∧
      (text ≠ [] →
        let pieces := split sep text
        let free := (sep.occurrences text).filter (Unprotected text ·.span)
        (∀ v ∈ pieces, slice? text v.span = some v.text) ∧
        pieces.Pairwise (·.span.stop < ·.offset) ∧
        pieces.head?.map (·.span.start) = some 0 ∧
        pieces.getLast?.map (·.span.stop) = some (byteLength text) ∧
        gaps pieces = free.map (·.span) ∧
        interleaved pieces free = text) := by
  refine ⟨fun places => ⟨fun h => h.exists_occurrences_eq, ?_⟩, fun sep => ⟨rfl, fun h => ?_⟩⟩
  · rintro ⟨sep, rfl⟩
    exact sep.areOccurrences text
  · have hcovers := covers_split sep h
    refine ⟨fun v hv => (standsIn_split sep text v hv).slice?, hcovers.pairwise.1, ?_, ?_,
      hcovers.gaps_eq, hcovers.interleaved_eq⟩
    · obtain ⟨first, rest, hpieces⟩ := hcovers.exists_cons
      rw [hpieces]
      rfl
    · rw [hcovers.getLast?_eq, Nat.zero_add]

/-- A group and an escaped comma stay whole, and the comma behind escaped whitespace divides. -/
theorem split_covers_groups :
    let text := "é\\,\x7ba,b\x7d \\ ,c".toList
    let pieces := split .parameter text
    pieces.map (String.ofList ·.text) = ["é\\,\x7ba,b\x7d \\", "c"] ∧ gaps pieces = [⟨11, 13⟩] ∧
      ((Separator.parameter.occurrences text).filter (Unprotected text ·.span)).map (·.span) =
        [⟨11, 13⟩] := by
  intro text pieces
  obtain ⟨-, hsep⟩ := split_covers text
  obtain ⟨-, hcovers⟩ := hsep .parameter
  obtain ⟨-, -, -, -, hgaps, -⟩ := hcovers (by decide)
  refine ⟨by decide +kernel, ?_, ?_⟩
  · decide +kernel
  · rw [← hgaps]
    decide +kernel

end TexLint
