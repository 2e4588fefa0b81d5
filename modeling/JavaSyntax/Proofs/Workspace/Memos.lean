import JavaSyntax.Proofs.Parse.Total
import JavaSyntax.Workspace

namespace JavaSyntax

namespace Query

/-- What a query returns for a text. -/
def valueFor (L : LineIndexing) : (q : Query) → String → q.Value L
  | .parse, text => JavaSyntax.parse text
  | .errors, text => (JavaSyntax.parse text).map fun _ => ()
  | .lineIndex, text => L.ofText text

/-- What a query reports for a text. -/
def reportedFor : Query → String → List Diagnostic
  | .errors, text => ((JavaSyntax.parse text).map Parse.errors).toOption.getD []
  | _, _ => []

/-- The answer for a text. -/
def answerFor (L : LineIndexing) : (q : Query) → String → q.Answer L
  | .parse, text => JavaSyntax.parse text
  | .errors, text => (JavaSyntax.parse text).map Parse.errors
  | .lineIndex, text => L.ofText text

end Query

/-- What is reported one by one comes after what was reported before. -/
theorem Engine.Lawful.held_foldl {E : Engine} (hE : E.Lawful) (log : E.Log) (ds : List Diagnostic) :
    E.held (ds.foldl E.report log) = E.held log ++ ds := by
  induction ds generalizing log with
  | nil => exact (List.append_nil _).symm
  | cons d ds ih => rw [List.foldl_cons, ih, hE.held_report, List.append_assoc, List.singleton_append]

variable {L : LineIndexing} {E : Engine} {q : Query} {memo : Memo L E q} {w w' : Database L E}
  {f g : FileId} {file : SourceFile L E}

/-- A memo that a query makes from this text. -/
structure Memo.IsFor (memo : Memo L E q) (text : String) : Prop where
  value : memo.value = q.valueFor L text
  reported : E.held memo.reported = q.reportedFor text

theorem Memo.dependencies_reporting (memo : Memo L E .parse) :
    memo.reporting.dependencies = memo.dependencies := by
  rw [reporting]
  split <;> rfl

theorem Memo.IsFor.reporting {memo : Memo L E .parse} {text : String} (hE : E.Lawful)
    (h : memo.IsFor text) : memo.reporting.IsFor text := by
  have hvalue : memo.value = JavaSyntax.parse text := h.value
  rw [Memo.reporting]
  split
  · next misuse hp =>
    refine ⟨?_, ?_⟩ <;> simp [Query.valueFor, Query.reportedFor, ← hvalue, hp, hE.held_silent, Except.map,
      Except.toOption]
  · next p hp =>
    refine ⟨?_, ?_⟩ <;> simp [Query.valueFor, Query.reportedFor, ← hvalue, hp, hE.held_foldl,
      hE.held_silent, Except.map, Except.toOption]

/-- The text of the file was read for the memo. If it was not set since, the memo was made from it. -/
def Memo.Fits (memo : Memo L E q) (f : FileId) (text : String) (revision : Nat) : Prop :=
  ∃ r ∈ memo.dependencies, r.file = f ∧ r.revision ≤ revision ∧ (r.revision = revision → memo.IsFor text)

/-- Setting a text leaves no memo that could be taken for the new one. -/
theorem Memo.Fits.setText {text : String} {revision : Nat} (h : memo.Fits f text revision)
    (other : String) : memo.Fits f other (revision + 1) := by
  obtain ⟨r, hr, hfile, hle, _⟩ := h
  exact ⟨r, hr, hfile, by omega, fun heq => by omega⟩

namespace Database

/-- All memos fit their files. -/
def Sound (w : Database L E) : Prop :=
  ∀ (f : FileId) (file : SourceFile L E), w.files[f]? = some file →
    ∀ q, ∀ memo ∈ file.memos q, memo.Fits f file.text file.revision

/-- The files without their memos. -/
def versions (w : Database L E) : Array (String × Nat) :=
  w.files.map fun file => (file.text, file.revision)

theorem getElem?_versions (w : Database L E) (f : FileId) :
    w.versions[f]? = w.files[f]?.map fun file => (file.text, file.revision) := Array.getElem?_map

theorem exists_of_versions_eq (h : w'.versions = w.versions) (hf : w.files[f]? = some file) :
    ∃ file', w'.files[f]? = some file' ∧ file'.text = file.text ∧ file'.revision = file.revision := by
  have hversion := congrArg (·[f]?) h
  simp only [getElem?_versions, hf, Option.map_some, Option.map_eq_some_iff, Prod.mk.injEq] at hversion
  exact hversion

theorem getElem?_keep (w : Database L E) (f : FileId) (memo : Memo L E q) (g : FileId) :
    (w.keep f memo).files[g]? =
      if f = g then w.files[g]?.map (SourceFile.keep memo) else w.files[g]? :=
  Array.getElem?_modify

theorem versions_keep (w : Database L E) (f : FileId) (memo : Memo L E q) :
    (w.keep f memo).versions = w.versions := by
  apply Array.ext_getElem?
  intro g
  rw [getElem?_versions, getElem?_versions, getElem?_keep]
  split
  · rw [Option.map_map]
    rfl
  · rfl

theorem Sound.keep (hw : w.Sound) (hf : w.files[f]? = some file)
    (h : memo.Fits f file.text file.revision) : (w.keep f memo).Sound := by
  intro g file' hg r memo' hmemo
  rw [getElem?_keep] at hg
  split at hg
  · next hfg =>
    subst hfg
    rw [hf, Option.map_some, Option.some.injEq] at hg
    subst hg
    simp only [SourceFile.keep] at hmemo
    split at hmemo
    · next hq =>
      subst hq
      cases hmemo
      exact h
    · exact hw f file hf r memo' hmemo
  · exact hw g file' hg r memo' hmemo

/-- A query leads to a memo for the text of the file, and changes memos only. -/
def Leads (w : Database L E) (f : FileId) (file : SourceFile L E)
    (found : Option (Memo L E q × Database L E)) : Prop :=
  ∃ memo w', found = some (memo, w') ∧ memo.IsFor file.text ∧
    memo.Fits f file.text file.revision ∧ w'.Sound ∧ w'.versions = w.versions

/-- A memo that the engine takes is for the text: this was read for it, in this revision. -/
theorem isFor_of_reuses (hE : E.Lawful) (h : memo.Fits f file.text file.revision)
    (hf : w.files[f]? = some file) (hreuses : w.reuses memo = true) : memo.IsFor file.text := by
  obtain ⟨r, hr, rfl, _, hmade⟩ := h
  have hread := hE.eq_of_reuses _ _ _ hreuses
  have hnow : some r.revision = w.revision r.file := List.map_inj_left.mp hread r hr
  rw [revision, hf, Option.map_some, Option.some.injEq] at hnow
  exact hmade hnow

theorem leads_fetch {run : SourceFile L E → Database L E → Option (Memo L E q × Database L E)}
    (hE : E.Lawful) (hw : w.Sound) (hf : w.files[f]? = some file)
    (hrun : Leads w f file (run file { w with calls := w.calls + 1 })) :
    Leads w f file (w.fetch f run) := by
  rw [fetch, hf]
  dsimp only
  split
  · next memo hmemo =>
    obtain ⟨hkept, hreuses⟩ := Option.filter_eq_some_iff.mp hmemo
    have hfits := hw f file hf q memo hkept
    exact ⟨memo, _, rfl, isFor_of_reuses hE hfits hf hreuses, hfits, hw, rfl⟩
  · obtain ⟨memo, w', hfound, hmade, hfits, hw', hversions⟩ := hrun
    obtain ⟨file', hf', htext, hrevision⟩ := exists_of_versions_eq hversions hf
    have hfits' : memo.Fits f file'.text file'.revision := by rwa [htext, hrevision]
    exact ⟨memo, w'.keep f memo, by rw [hfound]; rfl, hmade, hfits, hw'.keep hf' hfits',
      (versions_keep w' f memo).trans hversions⟩

/-- What is made from the text of the file alone fits it. -/
theorem fits_dependency (value : q.Value L) (reported : E.Log)
    (h : (⟨value, reported, [⟨f, file.revision⟩]⟩ : Memo L E q).IsFor file.text) :
    (⟨value, reported, [⟨f, file.revision⟩]⟩ : Memo L E q).Fits f file.text file.revision :=
  ⟨_, List.mem_singleton_self _, rfl, Nat.le_refl _, fun _ => h⟩

theorem leads_fetchParse (hE : E.Lawful) (hw : w.Sound) (hf : w.files[f]? = some file) :
    Leads w f file (w.fetchParse f) :=
  have hmade := ⟨rfl, hE.held_silent⟩
  leads_fetch hE hw hf ⟨_, _, rfl, hmade, fits_dependency _ _ hmade, hw, rfl⟩

theorem leads_fetchLineIndex (hE : E.Lawful) (hw : w.Sound) (hf : w.files[f]? = some file) :
    Leads w f file (w.fetchLineIndex f) :=
  have hmade := ⟨rfl, hE.held_silent⟩
  leads_fetch hE hw hf ⟨_, _, rfl, hmade, fits_dependency _ _ hmade, hw, rfl⟩

theorem leads_fetchErrors (hE : E.Lawful) (hw : w.Sound) (hf : w.files[f]? = some file) :
    Leads w f file (w.fetchErrors f) := by
  refine leads_fetch hE hw hf ?_
  obtain ⟨memo, w', hfound, hparse, ⟨r, hr, hfile, hle, _⟩, hw', hversions⟩ :=
    leads_fetchParse (w := { w with calls := w.calls + 1 }) hE hw hf
  have hmade := hparse.reporting hE
  exact ⟨memo.reporting, w', by rw [hfound, Option.map_some], hmade,
    ⟨r, memo.dependencies_reporting ▸ hr, hfile, hle, fun _ => hmade⟩, hw', hversions⟩

/-- A question leads to the answer for the text of the file, and changes memos only. -/
def Answers (w : Database L E) (file : SourceFile L E) (found : Option (q.Answer L × Database L E)) : Prop :=
  ∃ w', found = some (q.answerFor L file.text, w') ∧ w'.Sound ∧ w'.versions = w.versions

/-- What is collected is what the query itself reported: the parse it calls reports nothing. -/
theorem answers_check (hE : E.Lawful) (hw : w.Sound) (hf : w.files[f]? = some file) :
    Answers (q := .errors) w file (w.check f) := by
  obtain ⟨memo, w₁, hfound, hmade, _, hw₁, hversions₁⟩ := leads_fetchErrors hE hw hf
  obtain ⟨file₁, hf₁, htext, _⟩ := exists_of_versions_eq hversions₁ hf
  obtain ⟨called, w', hfound', hcalled, _, hw', hversions'⟩ := leads_fetchParse hE hw₁ hf₁
  refine ⟨w', ?_, hw', hversions'.trans hversions₁⟩
  have hcollected : E.accumulated (.query .errors f memo.reported [.query .parse f called.reported []]) =
      Query.errors.reportedFor file.text := by
    rw [hE.accumulated_eq _ (by simp [Calls.entries, Calls.entriesOfAll])]
    simp [Calls.entries, Calls.entriesOfAll, hmade.reported, hcalled.reported, Query.reportedFor]
  have hvalue : memo.value = (JavaSyntax.parse file.text).map fun _ => () := hmade.value
  simp only [check, hfound, hfound', Option.bind_eq_bind, Option.bind_some, Option.pure_def, hcollected,
    hvalue, Query.reportedFor, Query.answerFor]
  cases JavaSyntax.parse file.text <;> rfl

theorem answers_ask (hE : E.Lawful) (hw : w.Sound) (hf : w.files[f]? = some file) :
    ∀ q, Answers w file (w.ask q f)
  | .parse => by
    obtain ⟨memo, w', hfound, hmade, _, hw', hversions⟩ := leads_fetchParse hE hw hf
    exact ⟨w', by rw [ask, parse, hfound]; exact congrArg (fun value => some (value, w')) hmade.value, hw', hversions⟩
  | .errors => answers_check hE hw hf
  | .lineIndex => by
    obtain ⟨memo, w', hfound, hmade, _, hw', hversions⟩ := leads_fetchLineIndex hE hw hf
    refine ⟨w', ?_, hw', hversions⟩
    rw [ask, lineIndex, hfound]
    exact congrArg (fun value => some (value, w')) hmade.value

/-- A question about a file that there is not has no answer. -/
theorem ask_of_none (hf : w.files[f]? = none) : ∀ q, w.ask q f = none
  | .parse => by rw [ask, parse, fetchParse, fetch, hf, Option.map_none]
  | .errors => by rw [ask, check, fetchErrors, fetch, hf, Option.bind_eq_bind, Option.bind_none]
  | .lineIndex => by rw [ask, lineIndex, fetchLineIndex, fetch, hf, Option.map_none]

end Database

end JavaSyntax
