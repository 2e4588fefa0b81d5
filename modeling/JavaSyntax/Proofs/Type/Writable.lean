import Mathlib.Data.List.Forall2
import JavaSyntax.Proofs.Expression.Printed
import JavaSyntax.Proofs.Type.Glued
import JavaSyntax.TypeInfo

namespace JavaSyntax

open Word

theorem TypeInfo.nested_of_not_isArray {element : TypeInfo} (h : element.isArray = false) (n : Nat) :
    nested n element = if n = 0 then element else .array element n := by
  cases element with
  | array => cases h
  | _ => rfl

namespace TypeSyntax

mutual

/-- The type that the syntax spells. -/
def info : TypeSyntax → TypeInfo
  | .primitive p n => .nested n (.primitive p)
  | .named name n => .nested n (.classType name.text [])
  | .generic name arguments n => .nested n (.classType name.text (infos arguments))

def infos : List TypeSyntax → List TypeInfo
  | [] => []
  | t :: ts => t.info :: infos ts

end

/-- The type with these dimensions in place of its own. -/
def withDepth (n : Nat) : TypeSyntax → TypeSyntax
  | .primitive p _ => .primitive p n
  | .named name _ => .named name n
  | .generic name arguments _ => .generic name arguments n

theorem dimensions_eq_zero {t : TypeSyntax} (h : t.info.isArray = false) : t.dimensions = 0 := by
  cases t with
  | primitive p n | named name n | generic name arguments n =>
    rw [info, TypeInfo.nested_of_not_isArray rfl] at h
    split at h
    · assumption
    · cases h

theorem info_withDepth {t : TypeSyntax} (h : t.info.isArray = false) {n : Nat} (hn : 0 < n) :
    (t.withDepth n).info = .array t.info n := by
  have hzero := dimensions_eq_zero h
  have hne : n ≠ 0 := Nat.ne_of_gt hn
  cases t with
  | primitive p m | named name m | generic name arguments m =>
    cases hzero
    simp [withDepth, info, TypeInfo.nested, hne]

theorem words_withDepth {t : TypeSyntax} (h : t.info.isArray = false) (n : Nat) :
    (t.withDepth n).words = t.words ++ dimensionWords n := by
  have hzero := dimensions_eq_zero h
  cases t with
  | primitive p m | named name m | generic name arguments m =>
    cases hzero
    simp [withDepth, words, dimensionWords]

end TypeSyntax

/-- What may stand behind a type: nothing that makes a longer token of the one in front of it. -/
def Word.EndsText (cs : List Char) : Prop := Clear cs ∧ cs.head? ≠ some '='

theorem Lexeme.Names.startsName {k : Kind} {text : String} (h : Names k text) :
    StartsName text.toList := by
  obtain ⟨c, us, htext, hc, -⟩ := h.letters
  exact ⟨c, by rw [htext]; rfl, hc⟩

namespace Word.Glued

variable {ws : List Word} {cs : List Char}

theorem sign (h : Glued ws cs) {w : Word}
    (hw : w ∈ [leftBracket, rightBracket, comma, ⟨.leftBrace, "\x7b"⟩, ⟨.rightBrace, "\x7d"⟩,
      ⟨.semicolon, ";"⟩]) : Glued (w :: ws) (w.text.toList ++ cs) := by
  refine .word ?_ h
  simp only [List.mem_cons, List.not_mem_nil, or_false] at hw
  rcases hw with rfl | rfl | rfl | rfl | rfl | rfl
  all_goals exact ends_of_read rfl rfl rfl

theorem dimensions (h : Glued ws cs) : ∀ n : Nat,
    Glued (TypeSyntax.dimensionWords n ++ ws) ((String.join (List.replicate n "[]")).toList ++ cs)
  | 0 => h
  | n + 1 => by
    have hpair := ((dimensions h n).sign (w := rightBracket) (by simp)).sign (w := leftBracket) (by simp)
    rw [List.replicate_succ, String.join_cons, String.toList_append, List.append_assoc]
    exact hpair

theorem segments (h : Glued ws cs) (hcs : Clear cs) : ∀ others : List Identifier,
    Glued (others.flatMap (fun i => [.dot, i.word]) ++ ws)
        (others.flatMap (fun i => '.' :: i.text.toList) ++ cs) ∧
      Clear (others.flatMap (fun i => '.' :: i.text.toList) ++ cs)
  | [] => ⟨h, hcs⟩
  | i :: others => by
    obtain ⟨hmore, hclear⟩ := segments h hcs others
    have hname := Glued.word (ends_of_names i.names hclear) hmore
    refine ⟨?_, ?_⟩
    · rw [List.flatMap_cons, List.flatMap_cons, List.append_assoc, List.append_assoc]
      exact .word (ends_dot (i.names.startsName.append _)) hname
    · rintro d hd
      cases hd
      rfl

end Word.Glued

theorem DottedName.toList_text (n : DottedName) :
    n.text.toList = n.first.text.toList ++ n.others.flatMap fun i => '.' :: i.text.toList := by
  have hall : ∀ (others : List Identifier) (s : String),
      (others.foldl (fun s i => s ++ "." ++ i.text) s).toList =
        s.toList ++ others.flatMap fun i => '.' :: i.text.toList := by
    intro others
    induction others with
    | nil => simp
    | cons i others ih =>
      intro s
      rw [List.foldl_cons, ih]
      simp
  exact hall n.others n.first.text

theorem Word.Glued.name {ws : List Word} {cs : List Char} (h : Glued ws cs) (hcs : Clear cs)
    (n : DottedName) : Glued (n.words ++ ws) (n.text.toList ++ cs) := by
  obtain ⟨hmore, hclear⟩ := h.segments hcs n.others
  rw [n.toList_text, List.append_assoc]
  exact .word (ends_of_names n.first.names hclear) hmore

theorem Primitive.names (p : Primitive) : Lexeme.Names p.kind p.keyword := by
  cases p <;> exact .of_isLetters rfl rfl

theorem DottedName.startsName (n : DottedName) : StartsName n.text.toList := by
  rw [n.toList_text]
  exact n.first.names.startsName.append _

/-- The syntax spells the type, which is written as the words of the syntax, glued together. -/
structure TypeSyntax.Writes (s : TypeSyntax) (w : TypeInfo) : Prop where
  info : s.info = w
  startsName : StartsName w.written.toList
  glued : ∀ {ws : List Word} {cs : List Char}, Glued ws cs → EndsText cs →
    Glued (s.words ++ ws) (w.written.toList ++ cs)

namespace TypeSyntax.Writes

variable {s : TypeSyntax} {w a : TypeInfo} {ss : List TypeSyntax} {as : List TypeInfo}
variable {ws : List Word} {cs : List Char}

theorem primitive (p : Primitive) : Writes (.primitive p 0) (.primitive p) where
  info := rfl
  startsName := p.names.startsName
  glued h hcs := .word (ends_of_names p.names hcs.1) h

theorem named (name : DottedName) : Writes (.named name 0) (.classType name.text []) where
  info := rfl
  startsName := name.startsName
  glued h hcs := by
    rw [words, dimensionWords, List.append_nil]
    exact h.name hcs.1 name

theorem array (h : s.Writes w) (hw : w.isArray = false) {n : Nat} (hn : 0 < n) :
    Writes (s.withDepth n) (.array w n) := by
  obtain rfl := h.info
  refine ⟨info_withDepth hw hn, ?_, fun {ws cs} hws hcs => ?_⟩
  · rw [TypeInfo.written, String.toList_append]
    exact h.startsName.append _
  · have hends : EndsText ((String.join (List.replicate n "[]")).toList ++ cs) := by
      obtain ⟨m, rfl⟩ := Nat.exists_eq_succ_of_ne_zero (Nat.ne_of_gt hn)
      rw [List.replicate_succ, String.join_cons, String.toList_append]
      exact ⟨fun d hd => by cases hd; rfl, by simp⟩
    rw [words_withDepth hw, TypeInfo.written, String.toList_append, List.append_assoc,
      List.append_assoc]
    exact h.glued (hws.dimensions n) hends

/-- Further arguments, each behind a comma and a space. -/
theorem glued_more (h : List.Forall₂ Writes ss as) (hws : Glued ws cs) (hcs : EndsText cs) :
    Glued (moreWords ss ++ ws) ((TypeInfo.writtenMore as).toList ++ cs) ∧
      EndsText ((TypeInfo.writtenMore as).toList ++ cs) := by
  induction h with
  | nil => exact ⟨hws, hcs⟩
  | cons hs _ ih =>
    have hall := (hs.glued ih.1 ih.2).space.sign (w := comma) (by simp)
    rw [moreWords, TypeInfo.writtenMore, String.toList_append, String.toList_append,
      List.cons_append, List.append_assoc, List.append_assoc, List.append_assoc]
    exact ⟨hall, fun d hd => by cases hd; rfl, by simp⟩

theorem infos_eq (h : List.Forall₂ Writes ss as) : infos ss = as := by
  induction h with
  | nil => rfl
  | cons hs _ ih => rw [infos, hs.info, ih]

theorem generic (name : DottedName) (hs : s.Writes a) (h : List.Forall₂ Writes ss as) :
    Writes (.generic name (s :: ss) 0) (.classType name.text (a :: as)) where
  info := by rw [TypeSyntax.info, infos, hs.info, infos_eq h]; rfl
  startsName := by
    simp only [TypeInfo.written, String.toList_append, List.append_assoc]
    exact name.startsName.append _
  glued {ws cs} hws hcs := by
    have hclosed := Glued.word (ends_angle (.inr rfl) hcs.2) hws
    obtain ⟨hmore, hends⟩ := glued_more h hclosed ⟨fun d hd => by cases hd; rfl, by simp⟩
    -- A letter follows the angle bracket, which would otherwise be read together with a `=`.
    have hletter : ∀ us, (a.written.toList ++ us).head? ≠ some '=' := by
      intro us heq
      obtain ⟨c, hc, hletter⟩ := hs.startsName.append us
      rw [heq] at hc
      cases hc
      cases hletter
    have hopened := Glued.word (w := lt) (ends_angle (.inl rfl) (hletter _)) (hs.glued hmore hends)
    have hall := hopened.name (fun d hd => by cases hd; rfl) name
    simpa [words, argumentWords, dimensionWords, TypeInfo.written] using hall

end TypeSyntax.Writes

end JavaSyntax
