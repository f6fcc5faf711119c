import Mathlib.Data.List.Induction
import Mathlib.Data.List.Nodup
import TexLint.Manuscript.Load
import TexLint.Proofs.Check.Alias
import TexLint.Proofs.Files.Tree
import TexLint.Proofs.Knowledge.DefaultExtensions

/-!
# Which files are loaded

A manuscript is loaded breadth first: the root, the files that it includes, those that they
include, and so on, each of them once.

## The model

* `Path.firstSpellings` are the paths of a list, each as it is spelled where it comes first.
  Paths with the same components are the same path.
* `LoadContext.Resolves` says what documents that are loaded one after the other include. Each
  answer is given with the documents and the aliases that there are when a document has been
  loaded.
* `LoadContext.Loaded` is what a manuscript that has been loaded keeps to.
* `LoadContext.after` counts the steps of a run.

## What is proved

* `Waiting.Follows.foldl_add`: what waits, behind what has been done, is what has been mentioned.
* `LoadContext.Progress.step`, `LoadContext.Progress.run`: what a step and a run keep to.
* `LoadContext.le_rounds_of_after`: how many steps a run can take.
* `LoadContext.step?_eq_error`: a run breaks off only at a file that is included, if an extension
  with a slash in it is prescribed for that file.
* `Manuscript.exists_load_builtin`: with what is built in, no run breaks off.
* `Manuscript.load_follows_includes`: what loading a manuscript comes to.
-/

namespace TexLint

namespace Path

/-! ### First spellings -/

/-- The paths of a list, each as it is spelled where it comes first. -/
def firstSpellings (paths : List String) : List String :=
  paths.eraseDupsBy fun p q => components p == components q

theorem eraseDupsBy_loop_concat {α : Type} (r : α → α → Bool) (as found : List α) (a : α) :
    List.eraseDupsBy.loop r (as ++ [a]) found =
      if (List.eraseDupsBy.loop r as found).any (r a) then List.eraseDupsBy.loop r as found
      else List.eraseDupsBy.loop r as found ++ [a] := by
  induction as generalizing found with
  | nil =>
    rw [List.nil_append, List.eraseDupsBy.loop, List.eraseDupsBy.loop, List.any_reverse]
    cases found.any (r a) <;> simp [List.eraseDupsBy.loop]
  | cons b as ih =>
    rw [List.cons_append, List.eraseDupsBy.loop, List.eraseDupsBy.loop]
    split <;> exact ih _

/-- A path that comes last is left out if it has been spelled before. -/
theorem firstSpellings_concat (paths : List String) (p : String) :
    firstSpellings (paths ++ [p]) =
      if components p ∈ (firstSpellings paths).map components then firstSpellings paths
      else firstSpellings paths ++ [p] := by
  have hany : (firstSpellings paths).any (components p == components ·) = true ↔
      components p ∈ (firstSpellings paths).map components := by
    simp only [List.any_eq_true, beq_iff_eq, List.mem_map]
    exact exists_congr fun q => and_congr_right fun _ => eq_comm
  simp only [← hany]
  exact eraseDupsBy_loop_concat _ paths [] p

theorem firstSpellings_cons (p : String) (paths : List String) :
    ∃ rest, firstSpellings (p :: paths) = p :: rest :=
  ⟨_, List.eraseDupsBy_cons⟩

theorem mem_of_mem_firstSpellings {paths : List String} {p : String}
    (h : p ∈ firstSpellings paths) : p ∈ paths := by
  induction paths using List.reverseRecOn with
  | nil => exact h
  | append_singleton paths q ih =>
    rw [firstSpellings_concat] at h
    split at h
    · exact List.mem_append_left _ (ih h)
    · rcases List.mem_append.mp h with h | h
      · exact List.mem_append_left _ (ih h)
      · exact List.mem_append_right _ h

/-- No two of the paths mean the same. -/
theorem nodup_components_firstSpellings (paths : List String) :
    ((firstSpellings paths).map components).Nodup := by
  induction paths using List.reverseRecOn with
  | nil => exact List.nodup_nil
  | append_singleton paths p ih =>
    rw [firstSpellings_concat]
    split
    · exact ih
    · next hnew =>
      rw [List.map_append, List.map_singleton, ← List.concat_eq_append]
      exact ih.concat hnew

/-- What every path means is meant by its first spelling. -/
theorem components_mem_firstSpellings {paths : List String} {p : String} (h : p ∈ paths) :
    components p ∈ (firstSpellings paths).map components := by
  induction paths using List.reverseRecOn with
  | nil => cases h
  | append_singleton paths q ih =>
    rw [firstSpellings_concat]
    split
    · next hknown =>
      rcases List.mem_append.mp h with h | h
      · exact ih h
      · rwa [List.mem_singleton.mp h]
    · rw [List.map_append]
      rcases List.mem_append.mp h with h | h
      · exact List.mem_append_left _ (ih h)
      · rw [List.mem_singleton.mp h]
        exact List.mem_append_right _ (List.mem_singleton_self _)

end Path

open TexLint.Path (firstSpellings components)

/-! ### What waits -/

/-- What waits, behind what has been done, is what has been mentioned, as it was spelled
first. -/
structure Waiting.Follows (w : Waiting) (done mentioned : List String) : Prop where
  /-- What waits stands behind what has been done. -/
  order : done ++ w.queue = firstSpellings mentioned
  /-- What has been seen is what has been mentioned. -/
  seen : ∀ k, k ∈ w.seen ↔ k ∈ (firstSpellings mentioned).map components

namespace Waiting.Follows

variable {w : Waiting} {done mentioned : List String}

/-- The next path is done. -/
theorem next {path : String} {rest : List String} (h : w.Follows done mentioned)
    (hqueue : w.queue = path :: rest) :
    Waiting.Follows { w with queue := rest } (done ++ [path]) mentioned where
  order := by rw [← h.order, hqueue, List.append_assoc, List.singleton_append]
  seen := h.seen

/-- One more path is mentioned. -/
theorem add (h : w.Follows done mentioned) (p : String) :
    (w.add p).Follows done (mentioned ++ [p]) := by
  have hseen : w.seen.contains (components p) = true ↔
      components p ∈ (firstSpellings mentioned).map components := by
    rw [List.contains_iff_mem, h.seen]
  unfold Waiting.add
  split
  · next hknown =>
    rw [hseen] at hknown
    constructor
    · rw [h.order, Path.firstSpellings_concat, if_pos hknown]
    · rw [Path.firstSpellings_concat, if_pos hknown]
      exact h.seen
  · next hnew =>
    rw [hseen] at hnew
    constructor
    · rw [Path.firstSpellings_concat, if_neg hnew, ← List.append_assoc, h.order]
    · intro k
      rw [Path.firstSpellings_concat, if_neg hnew, List.map_append, List.mem_append,
        List.mem_cons, h.seen, List.map_singleton, List.mem_singleton, or_comm]

theorem foldl_add (h : w.Follows done mentioned) (paths : List String) :
    (paths.foldl Waiting.add w).Follows done (mentioned ++ paths) := by
  induction paths generalizing w mentioned with
  | nil => rwa [List.append_nil]
  | cons p paths ih =>
    rw [List.append_cons]
    exact ih (h.add p)

end Waiting.Follows

/-- Whether a path leads to a file that holds text. -/
def FileTree.isText (t : FileTree) (path : String) : Bool := (t.readText path).toBool

theorem FileTree.isText_iff {t : FileTree} {path : String} :
    t.isText path = true ↔ ∃ text, t.readText path = .ok text := by
  unfold isText
  cases t.readText path <;> simp [Except.toBool]

/-- Only an extension that is unfit is refused. -/
theorem Path.withDefaultExtension_eq_error {path extension : String} {e : UnfitExtension}
    (h : withDefaultExtension path extension = .error e) :
    e = ⟨extension⟩ ∧ isUnfit extension = true := by
  unfold withDefaultExtension at h
  split at h
  · cases h
  · split at h
    · next hunfit =>
      cases h
      exact ⟨rfl, hunfit⟩
    · split at h <;> cases h

/-! ### What documents include -/

namespace LoadContext

variable {c : LoadContext}

theorem map_eq_error {ε α β : Type} {f : α → β} {x : Except ε α} {e : ε}
    (h : x.map f = .error e) : x = .error e := by
  cases x with
  | error e' =>
    cases h
    rfl
  | ok a => cases h

/-- A list of answers has no values only if one of them is an error. -/
theorem mem_of_mapM_id_eq_error {ε α : Type} {answers : List (Except ε α)} {e : ε}
    (h : answers.mapM id = .error e) : .error e ∈ answers := by
  induction answers with
  | nil => cases h
  | cons answer answers ih =>
    rw [List.mapM_cons] at h
    cases answer with
    | error e' =>
      cases h
      exact List.mem_cons_self
    | ok value =>
      refine List.mem_cons_of_mem _ (ih ?_)
      cases hrest : answers.mapM id with
      | error e' => simp_all [bind, Except.bind]
      | ok values => simp [hrest, bind, Except.bind, pure, Except.pure] at h

/-- Documents that are loaded one after the other, with what each of them includes as it is
resolved when it has been loaded. -/
inductive Resolves (c : LoadContext) : Manuscript → AliasCache → List (List String) → Prop
  /-- Nothing has been loaded. -/
  | start : Resolves c (.ofDocuments []) .empty []
  /-- One more document is loaded. -/
  | document {m : Manuscript} {aliases : AliasCache} {found : List (List String)} (d : Document)
      {included : Resolved (List String)} (h : Resolves c m aliases found)
      (hincludes : c.includes (m.push d) d aliases = .ok included) :
      Resolves c included.manuscript included.aliases (found ++ [included.found])

/-- What a document includes are files, and resolving it leaves the documents as they are. -/
theorem includes_eq_ok {m : Manuscript} {d : Document} {aliases : AliasCache}
    {included : Resolved (List String)} (h : c.includes m d aliases = .ok included) :
    included.manuscript.documents = m.documents ∧
      ∀ p ∈ included.found, c.files.isFile p = true := by
  unfold includes at h
  split at h
  · cases h
    exact ⟨rfl, fun p hp => nomatch hp⟩
  · have hdocuments := AliasCache.documents_update aliases Vocabulary.labelReferences m
    generalize aliases.update Vocabulary.labelReferences m = updated at h hdocuments
    obtain ⟨paths, -, rfl⟩ := exists_of_map_eq_ok h
    exact ⟨hdocuments, fun p hp => (List.mem_filter.mp hp).2⟩

/-- There is one answer for each document. -/
theorem Resolves.length_found {m : Manuscript} {aliases : AliasCache}
    {found : List (List String)} (h : c.Resolves m aliases found) :
    found.length = m.documents.length := by
  induction h with
  | start => rfl
  | document d _ hincludes ih =>
    rw [(includes_eq_ok hincludes).1, Manuscript.push, List.length_append, List.length_append, ih]
    rfl

theorem Resolves.isFile {m : Manuscript} {aliases : AliasCache} {found : List (List String)}
    (h : c.Resolves m aliases found) : ∀ p ∈ found.flatten, c.files.isFile p = true := by
  induction h with
  | start => exact fun p hp => nomatch hp
  | document d _ hincludes ih =>
    intro p hp
    rw [List.flatten_append, List.flatten_singleton, List.mem_append] at hp
    exact hp.elim (ih p) ((includes_eq_ok hincludes).2 p)

/-- Every document but the first one is included by a document before it. -/
def IncludedBefore (documents : List Document) (found : List (List String)) : Prop :=
  ∀ k d, 0 < k → documents[k]? = some d → ∃ j < k, ∃ paths, found[j]? = some paths ∧ d.path ∈ paths

/-- A document that others include comes behind them. -/
theorem IncludedBefore.concat {documents : List Document} {found : List (List String)}
    {d : Document} (h : IncludedBefore documents found) (hlength : found.length = documents.length)
    (hd : documents ≠ [] → d.path ∈ found.flatten) (paths : List String) :
    IncludedBefore (documents ++ [d]) (found ++ [paths]) := by
  intro k e hk he
  -- One of the documents so far includes it, whether it is one of them or the last one.
  have hbefore : ∃ j < k, ∃ paths, found[j]? = some paths ∧ e.path ∈ paths := by
    rcases Nat.lt_or_ge k documents.length with hlt | hge
    · rw [List.getElem?_append_left hlt] at he
      exact h k e hk he
    · rw [List.getElem?_append_right hge] at he
      obtain ⟨hlast, rfl⟩ := List.getElem?_eq_some_iff.mp he
      have hne : documents ≠ [] := by
        rintro rfl
        rw [List.length_singleton, List.length_nil] at hlast
        omega
      obtain ⟨found', hfound, hmem⟩ := List.mem_flatten.mp (hd hne)
      obtain ⟨j, hj, rfl⟩ := List.mem_iff_getElem.mp hfound
      refine ⟨j, by omega, found[j], List.getElem?_eq_getElem hj, ?_⟩
      rwa [List.getElem_singleton]
  obtain ⟨j, hj, found', hfound, hmem⟩ := hbefore
  refine ⟨j, hj, found', ?_, hmem⟩
  rw [List.getElem?_append_left (List.getElem?_eq_some_iff.mp hfound).1, hfound]

/-! ### A run of the loader -/

/-- A run ends when nothing waits. -/
theorem step?_eq_none_iff {s : Loading} : c.step? s = none ↔ s.waiting.queue = [] := by
  unfold step?
  split
  · next hqueue => simp [hqueue]
  · next hqueue =>
    dsimp only
    split <;> simp [hqueue]

theorem run_of_queue_nil {s : Loading} (h : s.waiting.queue = []) :
    c.run s = .ok s.manuscript := by
  rw [LoadContext.run, step?_eq_none_iff.mpr h]

/-- How far a run has come after so many steps, if it takes as many. -/
def after (c : LoadContext) : Nat → Loading → Option Loading
  | 0, s => some s
  | n + 1, s =>
    match c.step? s with
    | some (.ok s') => c.after n s'
    | _ => none

theorem after_succ {s s' : Loading} {n : Nat} (h : c.after (n + 1) s = some s') :
    ∃ next, c.step? s = some (.ok next) ∧ c.after n next = some s' := by
  rw [after] at h
  split at h
  · next next hstep => exact ⟨next, hstep, h⟩
  · cases h

/-- A run takes no more steps than there are rounds. -/
theorem le_rounds_of_after {s s' : Loading} {n : Nat} (h : c.after n s = some s') :
    n ≤ s.waiting.rounds c.bound := by
  induction n generalizing s with
  | zero => exact Nat.zero_le _
  | succ n ih =>
    obtain ⟨next, hstep, hrest⟩ := after_succ h
    exact Nat.lt_of_le_of_lt (ih hrest) (rounds_lt_of_step? hstep)

/-- A run goes on from where it has come to. -/
theorem run_eq_of_after {s s' : Loading} {n : Nat} (h : c.after n s = some s') :
    c.run s = c.run s' := by
  induction n generalizing s with
  | zero => rw [Option.some.inj h]
  | succ n ih =>
    obtain ⟨next, hstep, hrest⟩ := after_succ h
    rw [LoadContext.run, hstep]
    exact ih hrest

/-- How far a manuscript has been loaded: what has been done, and what the documents include. -/
structure Progress (c : LoadContext) (root : String) (s : Loading) (done : List String)
    (found : List (List String)) : Prop where
  /-- The root and what the documents include has been done or waits. -/
  waiting : s.waiting.Follows done (root :: found.flatten)
  /-- The documents include the files. -/
  resolved : c.Resolves s.manuscript s.aliases found
  /-- What has been done is a document if it holds text. -/
  paths : s.manuscript.documents.map (·.path) = done.filter c.files.isText
  /-- Every document is what its file holds. -/
  read : ∀ d ∈ s.manuscript.documents, ∃ text,
    c.files.readText d.path = .ok text ∧ d = .read d.path text
  /-- Every later document is included by an earlier one. -/
  included : IncludedBefore s.manuscript.documents found

namespace Progress

variable {root : String} {s s' : Loading} {done : List String} {found : List (List String)}

theorem start (c : LoadContext) (root : String) : c.Progress root (.start root) [] [] where
  waiting :=
    { order := rfl
      seen := fun k => by simp [Loading.start, firstSpellings, List.eraseDupsBy_cons] }
  resolved := .start
  paths := rfl
  read := fun d hd => nomatch hd
  included := fun k d _ hd => nomatch hd

/-- A path that waits behind the root is included by a document that has been read. -/
theorem mem_found {path : String} {rest : List String} (h : c.Progress root s done found)
    (hdocuments : s.manuscript.documents ≠ []) (hqueue : s.waiting.queue = path :: rest) :
    path ∈ found.flatten := by
  obtain ⟨behind, hfirst⟩ := Path.firstSpellings_cons root found.flatten
  have horder := h.waiting.order
  have hnodup := Path.nodup_components_firstSpellings (root :: found.flatten)
  rw [← horder, hqueue] at hnodup
  rw [hqueue, hfirst] at horder
  have hdone : done ≠ [] := by
    rintro rfl
    have hpaths := h.paths
    rw [List.filter_nil, List.map_eq_nil_iff] at hpaths
    exact hdocuments hpaths
  -- The root is the first path that has been done, and it does not wait again.
  obtain ⟨first, done, rfl⟩ := List.exists_cons_of_ne_nil hdone
  have hroot : first = root := (List.cons.inj horder).1
  have hpath : path ∈ root :: found.flatten := by
    refine Path.mem_of_mem_firstSpellings ?_
    rw [hfirst, ← horder]
    simp
  rcases List.mem_cons.mp hpath with rfl | hpath
  · simp [hroot] at hnodup
  · exact hpath

/-- A path that leads to no text is passed over. -/
theorem skip {path : String} {rest : List String} {e : ReadError}
    (h : c.Progress root s done found) (hqueue : s.waiting.queue = path :: rest)
    (hread : c.files.readText path = .error e) :
    c.Progress root { s with waiting := { s.waiting with queue := rest } } (done ++ [path])
      found where
  waiting := h.waiting.next hqueue
  resolved := h.resolved
  paths := by
    have hpath : c.files.isText path = false := by
      rw [FileTree.isText, hread]
      rfl
    rw [List.filter_append, List.filter_cons_of_neg (by simp [hpath]), List.filter_nil,
      List.append_nil]
    exact h.paths
  read := h.read
  included := h.included

/-- A document is read, and what it includes comes to wait. -/
theorem document {path : String} {rest : List String} {text : Text}
    {included : Resolved (List String)} (h : c.Progress root s done found)
    (hqueue : s.waiting.queue = path :: rest) (hread : c.files.readText path = .ok text)
    (hincludes : c.includes (s.manuscript.push (.read path text)) (.read path text) s.aliases =
      .ok included) :
    c.Progress root ⟨included.found.foldl Waiting.add { s.waiting with queue := rest },
      included.manuscript, included.aliases⟩ (done ++ [path]) (found ++ [included.found]) := by
  have hdocuments : included.manuscript.documents =
      s.manuscript.documents ++ [.read path text] := (includes_eq_ok hincludes).1
  have hpath : (Document.read path text).path = path := rfl
  constructor
  · rw [List.flatten_append, List.flatten_singleton, ← List.cons_append]
    exact (h.waiting.next hqueue).foldl_add included.found
  · exact .document _ h.resolved hincludes
  · have htext : c.files.isText path = true := FileTree.isText_iff.mpr ⟨text, hread⟩
    rw [hdocuments, List.map_append, h.paths, List.filter_append, List.map_singleton, hpath,
      List.filter_cons_of_pos htext, List.filter_nil]
  · intro d hd
    rw [hdocuments, List.mem_append, List.mem_singleton] at hd
    rcases hd with hd | rfl
    · exact h.read d hd
    · exact ⟨text, hread, rfl⟩
  · rw [hdocuments]
    refine h.included.concat h.resolved.length_found (fun hne => ?_) included.found
    exact h.mem_found hne hqueue

theorem step (h : c.Progress root s done found) (hstep : c.step? s = some (.ok s')) :
    ∃ done found, c.Progress root s' done found := by
  obtain ⟨path, rest, hqueue, ⟨e, hread, rfl⟩ | ⟨text, included, hread, hincludes, rfl⟩⟩ :=
    step?_cases hstep
  · exact ⟨_, _, h.skip hqueue hread⟩
  · exact ⟨_, _, h.document hqueue hread hincludes⟩

/-- A run leaves what has been loaded when nothing waits any more. -/
theorem run {m : Manuscript} (h : c.Progress root s done found) (hrun : c.run s = .ok m) :
    ∃ s' done found, s'.manuscript = m ∧ s'.waiting.queue = [] ∧
      c.Progress root s' done found := by
  induction s using LoadContext.run.induct c generalizing done found with
  | case1 s hstep =>
    rw [LoadContext.run, hstep] at hrun
    exact ⟨s, done, found, Except.ok.inj hrun, step?_eq_none_iff.mp hstep, h⟩
  | case2 s e hstep =>
    rw [LoadContext.run, hstep] at hrun
    cases hrun
  | case3 s next hstep ih =>
    obtain ⟨done, found, hnext⟩ := h.step hstep
    rw [LoadContext.run, hstep] at hrun
    exact ih hnext hrun

end Progress

/-- A run breaks off at a step that breaks off. -/
theorem exists_step?_of_run {s : Loading} {e : Path.UnfitExtension} (h : c.run s = .error e) :
    ∃ s', c.step? s' = some (.error e) := by
  induction s using LoadContext.run.induct c with
  | case1 s hstep =>
    rw [LoadContext.run, hstep] at h
    cases h
  | case2 s e hstep =>
    rw [LoadContext.run, hstep] at h
    cases h
    exact ⟨s, hstep⟩
  | case3 s next hstep ih =>
    rw [LoadContext.run, hstep] at h
    exact ih h

/-! ### Where a run breaks off -/

/-- A file that can be read includes another one, and the extension that is prescribed for that
one is unfit. -/
def Refuses (c : LoadContext) (e : Path.UnfitExtension) : Prop :=
  ∃ path text, c.files.readText path = .ok text ∧
    ∃ u ∈ includeCommands (.read path text), ∃ r ∈ filesOf c.catalogue u,
      c.pathOf? text u r = some (.error e)

/-- What is refused has been prescribed, and is unfit. -/
theorem Refuses.prescribes {e : Path.UnfitExtension} (h : c.Refuses e) :
    c.catalogue.Prescribes e.extension ∧ Path.isUnfit e.extension = true := by
  obtain ⟨path, text, -, u, -, r, hr, hpath⟩ := h
  cases r with
  | label | url | definition => cases hpath
  | file s argument =>
    obtain ⟨target, -, hextension⟩ := Option.map_eq_some_iff.mp hpath
    obtain ⟨rfl, hunfit⟩ := Path.withDefaultExtension_eq_error hextension
    exact ⟨Catalogue.prescribes_of_mem_filesOf hr, hunfit⟩

/-- Resolving breaks off only at a file that is included. -/
theorem includes_eq_error {m : Manuscript} {d : Document} {aliases : AliasCache}
    {e : Path.UnfitExtension} (h : c.includes m d aliases = .error e) :
    ∃ u ∈ includeCommands d, ∃ r ∈ filesOf c.catalogue u,
      c.pathOf? d.text u r = some (.error e) := by
  unfold includes at h
  split at h
  · cases h
  · generalize aliases.update Vocabulary.labelReferences m = updated at h
    have herror := mem_of_mapM_id_eq_error (map_eq_error h)
    simp only [List.mem_flatMap, List.mem_filterMap] at herror
    obtain ⟨u, hu, r, hr, hpath⟩ := herror
    refine ⟨u, hu, r, ?_, hpath⟩
    cases r with
    | label | url | definition => cases hpath
    | file s argument => exact mem_filesOf_of_mem_references hr

theorem step?_eq_error {s : Loading} {e : Path.UnfitExtension}
    (h : c.step? s = some (.error e)) : c.Refuses e := by
  unfold step? at h
  split at h
  · cases h
  · next path rest _ =>
    dsimp only at h
    split at h
    · cases h
    · next text hread =>
      obtain ⟨u, hu, r, hr, hpath⟩ := includes_eq_error (map_eq_error (Option.some.inj h))
      exact ⟨path, text, hread, u, hu, r, hr, hpath⟩

/-! ### What has been loaded -/

/-- A manuscript that has been loaded from its root, with the files that each document includes
as they were resolved when it was loaded. -/
structure Loaded (c : LoadContext) (root : String) (m : Manuscript)
    (found : List (List String)) : Prop where
  /-- The documents include the files. -/
  resolved : ∃ aliases, c.Resolves m aliases found
  /-- Every document is what its file holds. -/
  read : ∀ d ∈ m.documents, ∃ text, c.files.readText d.path = .ok text ∧ d = .read d.path text
  /-- The paths of different documents are different. -/
  different : (m.documents.map fun d => components d.path).Nodup
  /-- The first document is the root. -/
  root_first : m.documents.head?.map (·.path) = some root
  /-- Every later document is included by an earlier one. -/
  included : IncludedBefore m.documents found
  /-- Every file that is included is loaded if it holds text. -/
  complete : ∀ p ∈ found.flatten, ∀ text, c.files.readText p = .ok text →
    ∃ d ∈ m.documents, components d.path = components p ∧ d.text = text
  /-- The documents come in the order in which they are first mentioned: the root, what it
  includes, what the document behind it includes, and so on. -/
  order : m.documents.map (·.path) = (firstSpellings (root :: found.flatten)).filter c.files.isText

/-- When nothing waits any more, the manuscript has been loaded. -/
theorem Progress.loaded {root : String} {s : Loading} {done : List String}
    {found : List (List String)} (h : c.Progress root s done found)
    (hqueue : s.waiting.queue = []) (hroot : c.files.isText root = true) :
    c.Loaded root s.manuscript found := by
  have hdone : done = firstSpellings (root :: found.flatten) := by
    rw [← h.waiting.order, hqueue, List.append_nil]
  have horder := hdone ▸ h.paths
  have hcomponents : s.manuscript.documents.map (fun d => components d.path) =
      ((firstSpellings (root :: found.flatten)).filter c.files.isText).map components := by
    rw [← horder, List.map_map]
    rfl
  refine ⟨⟨_, h.resolved⟩, h.read, ?_, ?_, h.included, ?_, horder⟩
  · rw [hcomponents]
    exact (Path.nodup_components_firstSpellings _).sublist (List.filter_sublist.map components)
  · obtain ⟨behind, hfirst⟩ := Path.firstSpellings_cons root found.flatten
    rw [← List.head?_map, horder, hfirst, List.filter_cons_of_pos hroot, List.head?_cons]
  · intro p hp text htext
    -- The first spelling of the path leads to the same file.
    obtain ⟨q, hq, hsame⟩ := List.mem_map.mp
      (Path.components_mem_firstSpellings (List.mem_cons_of_mem root hp))
    have hfile : c.files.isFile q = true := by
      rcases List.mem_cons.mp (Path.mem_of_mem_firstSpellings hq) with rfl | hq
      · obtain ⟨text, hread⟩ := FileTree.isText_iff.mp hroot
        exact FileTree.isFile_of_readText hread
      · exact h.resolved.isFile q hq
    have hqtext := FileTree.readText_of_components hsame.symm htext hfile
    have hmem : q ∈ s.manuscript.documents.map (·.path) := by
      rw [horder, List.mem_filter, FileTree.isText_iff]
      exact ⟨hq, text, hqtext⟩
    obtain ⟨d, hd, rfl⟩ := List.mem_map.mp hmem
    refine ⟨d, hd, hsame, ?_⟩
    obtain ⟨text', hread, hd⟩ := h.read d hd
    rw [hqtext] at hread
    cases hread
    rw [hd]
    rfl

end LoadContext

namespace Manuscript

variable {files : FileTree} {catalogue : Catalogue} {path : String}

theorem rootPath_eq_error {e : LoadError} (h : rootPath files path = .error e) :
    e = .unreadable path ∧ files.isText path = false := by
  unfold rootPath at h
  split at h
  · next hread =>
    cases h
    refine ⟨rfl, ?_⟩
    rw [FileTree.isText, hread]
    rfl
  · split at h <;> cases h

/-- Loading fails at the given file, at the root, or where the run breaks off. -/
theorem load_cases (files : FileTree) (catalogue : Catalogue) (path : String) :
    (load files catalogue path = .error (.unreadable path) ∧ files.isText path = false) ∨
    ∃ root, rootPath files path = .ok root ∧
      ((load files catalogue path = .error (.unreadable root) ∧ files.isText root = false) ∨
      (∃ e, load files catalogue path = .error (.unfitExtension e.extension) ∧
        (loadContext files catalogue root).run (.start root) = .error e) ∨
      ∃ m, load files catalogue path = .ok m ∧ files.isText root = true ∧
        (loadContext files catalogue root).run (.start root) = .ok m) := by
  unfold load
  cases hroot : rootPath files path with
  | error e =>
    obtain ⟨rfl, htext⟩ := rootPath_eq_error hroot
    exact .inl ⟨rfl, htext⟩
  | ok root =>
    refine .inr ⟨root, rfl, ?_⟩
    simp only [FileTree.isText, bind, Except.bind]
    cases files.readText root with
    | error e => exact .inl ⟨rfl, rfl⟩
    | ok text =>
      cases (loadContext files catalogue root).run (.start root) with
      | error e => exact .inr (.inl ⟨e, rfl, rfl⟩)
      | ok m => exact .inr (.inr ⟨m, rfl, rfl, rfl⟩)

/-- What has been read when nothing waits any more is loaded. -/
theorem exists_load_of_after (catalogue : Catalogue) (n : Nat) (paths : List String)
    {root : String} (hroot : rootPath files path = .ok root) (htext : files.isText root = true)
    (hafter : ((loadContext files catalogue root).after n (.start root)).map
      (fun s => (s.waiting.queue, s.manuscript.documents.map (·.path))) = some ([], paths)) :
    ∃ m, load files catalogue path = .ok m ∧ m.documents.map (·.path) = paths := by
  obtain ⟨s, hafter, heq⟩ := Option.map_eq_some_iff.mp hafter
  obtain ⟨hqueue, hpaths⟩ := Prod.mk.inj heq
  obtain ⟨text, hread⟩ := FileTree.isText_iff.mp htext
  have hrun := (LoadContext.run_eq_of_after hafter).trans (LoadContext.run_of_queue_nil hqueue)
  refine ⟨s.manuscript, ?_, hpaths⟩
  simp only [load, hroot, bind, Except.bind, hread, hrun]

/-- A run that does not break off loads a manuscript. -/
theorem loaded_of_run {root : String} {m : Manuscript} (htext : files.isText root = true)
    (hrun : (loadContext files catalogue root).run (.start root) = .ok m) :
    ∃ found, (loadContext files catalogue root).Loaded root m found := by
  obtain ⟨s, done, found, rfl, hqueue, hprogress⟩ := (LoadContext.Progress.start _ root).run hrun
  exact ⟨found, hprogress.loaded hqueue htext⟩

/-- Every manuscript that is loaded follows the includes of its documents. -/
theorem loaded_of_load {m : Manuscript} (h : load files catalogue path = .ok m) :
    ∃ root found, rootPath files path = .ok root ∧
      (loadContext files catalogue root).Loaded root m found := by
  obtain ⟨hload, -⟩ | ⟨root, hroot, ⟨hload, -⟩ | ⟨e, hload, -⟩ | ⟨m', hload, htext, hrun⟩⟩ :=
    load_cases files catalogue path
  · cases hload.symm.trans h
  · cases hload.symm.trans h
  · cases hload.symm.trans h
  · cases hload.symm.trans h
    obtain ⟨found, hloaded⟩ := loaded_of_run htext hrun
    exact ⟨root, found, hroot, hloaded⟩

/-- With what is built in, loading fails only at the given file or at the root. -/
theorem exists_load_builtin {root : String} (hpath : files.isText path = true)
    (hroot : rootPath files path = .ok root) (htext : files.isText root = true) :
    ∃ m, load files .builtin path = .ok m := by
  obtain ⟨-, hunread⟩ | ⟨root', hroot', ⟨-, hunread⟩ | ⟨e, -, hrun⟩ | ⟨m, hload, -⟩⟩ :=
    load_cases files .builtin path
  · rw [hpath] at hunread
    cases hunread
  · cases hroot.symm.trans hroot'
    rw [htext] at hunread
    cases hunread
  · obtain ⟨s, hstep⟩ := LoadContext.exists_step?_of_run hrun
    obtain ⟨hprescribes, hunfit⟩ := (LoadContext.step?_eq_error hstep).prescribes
    rw [Catalogue.isUnfit_of_prescribes_builtin hprescribes] at hunfit
    cases hunfit
  · exact ⟨m, hload⟩

/-- Loading a manuscript follows all includes of its documents and nothing else. It fails only if
the given file or the root holds no text, or if a file includes another one for which a schema
prescribes an extension with a slash in it. There are no more steps than files are included in all
files that can be seen, and one for the root. -/
theorem load_follows_includes (files : FileTree) (catalogue : Catalogue) (path : String) :
    (match load files catalogue path with
      | .ok m => ∃ root found, rootPath files path = .ok root ∧
          (loadContext files catalogue root).Loaded root m found
      | .error (.unreadable p) =>
          (p = path ∨ rootPath files path = .ok p) ∧ files.isText p = false
      | .error (.unfitExtension extension) => ∃ root, rootPath files path = .ok root ∧
          (loadContext files catalogue root).Refuses ⟨extension⟩ ∧
          catalogue.Prescribes extension ∧ Path.isUnfit extension = true) ∧
    ∀ root n s, (loadContext files catalogue root).after n (.start root) = some s →
      n ≤ 1 + (loadContext files catalogue root).bound.length := by
  constructor
  · obtain ⟨hload, htext⟩ | ⟨root, hroot, ⟨hload, htext⟩ | ⟨e, hload, hrun⟩ | ⟨m, hload, -⟩⟩ :=
      load_cases files catalogue path
    · rw [hload]
      exact ⟨.inl rfl, htext⟩
    · rw [hload]
      exact ⟨.inr hroot, htext⟩
    · rw [hload]
      obtain ⟨s, hstep⟩ := LoadContext.exists_step?_of_run hrun
      have hrefuses := LoadContext.step?_eq_error hstep
      exact ⟨root, hroot, hrefuses, hrefuses.prescribes⟩
    · rw [hload]
      exact loaded_of_load hload
  · intro root n s hafter
    have hle := LoadContext.le_rounds_of_after hafter
    exact Nat.le_trans hle (Nat.add_le_add_left List.countP_le_length 1)

/-- Two files in a directory that include each other, in two spellings, and a file that is not
there. -/
theorem load_follows_includes_cycle :
    let files : FileTree := ⟨⟨[(["doc"], .directory),
      (["doc", "main.tex"], .file (.ofText "\\input\x7bone\x7d\\input\x7bnone\x7d".toList)),
      (["doc", "one.tex"], .file (.ofText "\\input\x7b./main\x7d\\input\x7bone\x7d".toList))]⟩⟩
    let input : CommandSchema := ⟨"input",
      [.required ⟨"file", some ⟨["tex"], "tex"⟩, false⟩], none⟩
    let catalogue := (Catalogue.empty.merge ⟨[input], []⟩).1
    ∃ m found, load files catalogue "doc/main.tex" = .ok m ∧
      m.documents.map (·.path) = ["doc/main.tex", "doc/one.tex"] ∧
      (loadContext files catalogue "doc/main.tex").Loaded "doc/main.tex" m found := by
  intro files input catalogue
  have hroot : rootPath files "doc/main.tex" = .ok "doc/main.tex" := by decide +kernel
  obtain ⟨m, hload, hpaths⟩ := exists_load_of_after catalogue 2 ["doc/main.tex", "doc/one.tex"]
    hroot (by decide +kernel) (by decide +kernel)
  have hfollows := (load_follows_includes files catalogue "doc/main.tex").1
  rw [hload] at hfollows
  obtain ⟨root, found, hroot', hloaded⟩ := hfollows
  cases hroot.symm.trans hroot'
  exact ⟨m, found, hload, hpaths, hloaded⟩

/-- An overlay that prescribes an extension with a slash in it for a file that is included. -/
theorem load_fails_of_unfit_extension :
    let files : FileTree := ⟨⟨[(["main.tex"],
      .file (.ofText "\\subfileinclude\x7bone\x7d".toList))]⟩⟩
    let overlay : CommandSchema := ⟨"subfileinclude",
      [.required ⟨"file", some ⟨["tex"], "tex/draft"⟩, true⟩], none⟩
    let catalogue := (Catalogue.empty.merge ⟨[overlay], []⟩).1
    (Catalogue.empty.merge ⟨[overlay], []⟩).2 = none ∧
      rootPath files "main.tex" = .ok "main.tex" ∧ files.isText "main.tex" = true ∧
      load files catalogue "main.tex" = .error (.unfitExtension "tex/draft") := by
  intro files overlay catalogue
  have hmerge : (Catalogue.empty.merge ⟨[overlay], []⟩).2 = none := by decide +kernel
  have hroot : rootPath files "main.tex" = .ok "main.tex" := by decide +kernel
  have htext : files.isText "main.tex" = true := by decide +kernel
  have hanswer : ((loadContext files catalogue "main.tex").step? (.start "main.tex")).map
      (Except.map fun _ => ()) = some (.error ⟨"tex/draft"⟩) := by decide +kernel
  obtain ⟨answer, hstep, hanswer⟩ := Option.map_eq_some_iff.mp hanswer
  obtain rfl := LoadContext.map_eq_error hanswer
  refine ⟨hmerge, hroot, htext, ?_⟩
  obtain ⟨text, hread⟩ := FileTree.isText_iff.mp htext
  have hrun : (loadContext files catalogue "main.tex").run (.start "main.tex") =
      .error ⟨"tex/draft"⟩ := by
    rw [LoadContext.run, hstep]
  simp only [load, hroot, bind, Except.bind, hread, hrun]

end Manuscript

end TexLint
