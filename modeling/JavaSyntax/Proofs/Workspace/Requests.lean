import JavaSyntax.Proofs.Workspace.Memos

namespace JavaSyntax

/-- What a workspace is asked to do. -/
inductive Request where
  | addFile (path text : String)
  | setText (f : FileId) (text : String)
  | ask (q : Query) (f : FileId)

namespace Request

/-- The texts of the files, with what a request writes. -/
def write (texts : List String) : Request → List String
  | .addFile _ text => texts ++ [text]
  | .setText f text => texts.set f text
  | .ask _ _ => texts

end Request

/-- The text last set on a file. A file that is added has a text from the start. -/
def lastText (requests : List Request) (f : FileId) : Option String :=
  (requests.foldl Request.write [])[f]?

variable {L : LineIndexing} {E : Engine} {w : Database L E} {f g : FileId} {file : SourceFile L E}
  {requests : List Request}

namespace Database

def perform (w : Database L E) : Request → Database L E
  | .addFile path text => (w.addFile path text).2
  | .setText f text => w.setText f text
  | .ask q f => ((w.ask q f).map Prod.snd).getD w

/-- The database after some requests. -/
def after (w : Database L E) (requests : List Request) : Database L E := requests.foldl perform w

def texts (w : Database L E) : List String := w.files.toList.map SourceFile.text

theorem texts_eq_versions (w : Database L E) : w.texts = w.versions.toList.map Prod.fst := by
  rw [texts, versions, Array.toList_map, List.map_map]
  rfl

theorem Sound.addFile (hw : w.Sound) (path text : String) : (w.addFile path text).2.Sound := by
  intro f file hf q memo hmemo
  simp only [Database.addFile, Array.getElem?_push] at hf
  split at hf
  · cases hf
    cases hmemo
  · exact hw f file hf q memo hmemo

theorem Sound.setText (hw : w.Sound) (f : FileId) (text : String) : (w.setText f text).Sound := by
  intro g file hg q memo hmemo
  simp only [Database.setText, Array.getElem?_modify] at hg
  split at hg
  · next hfg =>
    subst hfg
    obtain ⟨old, hold, rfl⟩ := Option.map_eq_some_iff.mp hg
    exact (hw f old hold q memo hmemo).setText text
  · exact hw g file hg q memo hmemo

/-- One request keeps the memos fitting, and does to the texts what it should. -/
theorem perform_spec (hE : E.Lawful) (hw : w.Sound) : ∀ r : Request,
    (w.perform r).Sound ∧ (w.perform r).texts = r.write w.texts
  | .addFile path text => by
    refine ⟨hw.addFile path text, ?_⟩
    simp only [perform, addFile, texts, Request.write, Array.toList_push, List.map_append,
      List.map_cons, List.map_nil, SourceFile.ofText]
  | .setText f text => by
    refine ⟨hw.setText f text, ?_⟩
    apply List.ext_getElem?
    intro g
    simp only [perform, setText, texts, Request.write, List.getElem?_map, Array.getElem?_toList,
      Array.getElem?_modify, List.getElem?_set, List.length_map, Array.length_toList]
    split
    · next hfg =>
      subst hfg
      rw [Option.map_map]
      by_cases hlt : f < w.files.size
      · rw [if_pos hlt, Array.getElem?_eq_getElem hlt]
        rfl
      · rw [if_neg hlt, Array.getElem?_eq_none (Nat.le_of_not_lt hlt)]
        rfl
    · rfl
  | .ask q f => by
    rw [perform]
    cases hf : w.files[f]? with
    | none =>
      rw [ask_of_none hf]
      exact ⟨hw, rfl⟩
    | some file =>
      obtain ⟨w', hask, hw', hversions⟩ := answers_ask hE hw hf q
      rw [hask, Request.write, texts_eq_versions w, ← hversions, ← texts_eq_versions]
      exact ⟨hw', rfl⟩

/-- So do all requests one after the other. -/
theorem after_spec (hE : E.Lawful) (hw : w.Sound) (requests : List Request) :
    (w.after requests).Sound ∧ (w.after requests).texts = requests.foldl Request.write w.texts := by
  induction requests generalizing w with
  | nil => exact ⟨hw, rfl⟩
  | cons r requests ih =>
    obtain ⟨hsound, htexts⟩ := perform_spec hE hw r
    obtain ⟨hsound', htexts'⟩ := ih hsound
    exact ⟨hsound', by rw [List.foldl_cons, ← htexts]; exact htexts'⟩

theorem sound_new : (new L E).Sound := fun _ _ hf => by
  simp [new] at hf

/-- After any requests a question is answered for the text last set, and not at all without a file. -/
theorem ask_after (hE : E.Lawful) (requests : List Request) (q : Query) (f : FileId) :
    (((new L E).after requests).ask q f).map Prod.fst = (lastText requests f).map (q.answerFor L) := by
  obtain ⟨hsound, htexts⟩ := after_spec hE sound_new requests
  have htext : lastText requests f = ((new L E).after requests).files[f]?.map SourceFile.text := by
    have hget := congrArg (·[f]?) htexts
    simp only [texts, List.getElem?_map, Array.getElem?_toList] at hget
    rw [hget]
    rfl
  rw [htext]
  cases hf : ((new L E).after requests).files[f]? with
  | none =>
    rw [ask_of_none hf]
    rfl
  | some file =>
    obtain ⟨w', hask, _⟩ := answers_ask hE hsound hf q
    rw [hask]
    rfl

end Database

/-- Requests go on in the same way from texts that differ in one file only. -/
theorem foldl_write_congr (hgf : g ≠ f) {texts others : List String}
    (h : ∀ i ≠ g, texts[i]? = others[i]?) (hlength : texts.length = others.length) :
    (requests.foldl Request.write texts)[f]? = (requests.foldl Request.write others)[f]? := by
  induction requests generalizing texts others with
  | nil => exact h f hgf.symm
  | cons r requests ih =>
    apply ih
    · intro i hi
      cases r with
      | addFile _ _ => simp only [Request.write, List.getElem?_append, hlength, h i hi]
      | setText _ _ => simp only [Request.write, List.getElem?_set, hlength, h i hi]
      | ask _ _ => exact h i hi
    · cases r <;> simp only [Request.write, List.length_append, List.length_set, hlength]

/-- Setting the text of another file, at whatever time, makes no difference. -/
theorem lastText_setText_ne (hgf : g ≠ f) (earlier later : List Request) (text : String) :
    lastText (earlier ++ .setText g text :: later) f = lastText (earlier ++ later) f := by
  rw [lastText, lastText, List.foldl_append, List.foldl_append, List.foldl_cons]
  refine foldl_write_congr hgf (fun i hi => ?_) (List.length_set ..)
  rw [Request.write, List.getElem?_set_ne hi.symm]

/-- After any requests, and whichever memos the engine takes: the parse of a file is that of the text last set,
the errors are those of this parse, the line index is that of the text, and with the text of another file set
in between all answers are the same. Of the engine only what it documents is used. -/
theorem Database.answers_for_last_text (L : LineIndexing) {E : Engine} (hE : E.Lawful)
    {requests : List Request} {f : FileId} {text : String} (h : lastText requests f = some text) :
    ∃ p, JavaSyntax.parse text = .ok p ∧
      (((new L E).after requests).parse f).map Prod.fst = some (.ok p) ∧
      (((new L E).after requests).check f).map Prod.fst = some (.ok p.errors) ∧
      (((new L E).after requests).lineIndex f).map Prod.fst = some (L.ofText text) ∧
      ∀ earlier later, requests = earlier ++ later → ∀ g ≠ f, ∀ other q,
        (((new L E).after (earlier ++ .setText g other :: later)).ask q f).map Prod.fst =
          (((new L E).after requests).ask q f).map Prod.fst := by
  obtain ⟨p, hparse⟩ : ∃ p, JavaSyntax.parse text = .ok p := ⟨_, parse_eq text⟩
  have herrors : Query.errors.answerFor L text = .ok p.errors := by
    rw [Query.answerFor, hparse]
    rfl
  have hask (q : Query) : (((new L E).after requests).ask q f).map Prod.fst =
      some (q.answerFor L text) := by
    rw [ask_after hE, h, Option.map_some]
  refine ⟨p, hparse, (hask .parse).trans (congrArg some hparse),
    (hask .errors).trans (congrArg some herrors), hask .lineIndex, ?_⟩
  rintro earlier later rfl g hg other q
  rw [ask_after hE, ask_after hE, lastText_setText_ne hg]

theorem Database.answers_for_last_text_two :
    let requests : List Request := [.addFile "A.java" "class A \x7b \x7d", .addFile "B.java" "",
      .ask .errors 0, .setText 0 "class A \x7b int x \x7d", .setText 1 "x", .ask .parse 0, .ask .errors 0]
    ∃ p, ((Workspace.empty.after requests).check 0).map Prod.fst = some (.ok p.errors) ∧
      p.errors.map Diagnostic.message = ["expected ';'"] ∧
      ((Workspace.empty.after requests).parse 0).map Prod.fst = some (.ok p) ∧
      ((Workspace.empty.after requests).lineIndex 0).map Prod.fst = some "class A \x7b int x \x7d" := by
  intro requests
  have hlast : lastText requests 0 = some "class A \x7b int x \x7d" := rfl
  obtain ⟨p, hp, hparse, hcheck, hindex, _⟩ :=
    answers_for_last_text .scanning Engine.caching_lawful hlast
  refine ⟨p, hcheck, ?_, hparse, hindex⟩
  rw [parse_eq, Except.ok.injEq] at hp
  rw [← hp]
  decide +kernel

end JavaSyntax
