import Mathlib.Data.List.Forall2
import JavaSyntax.Proofs.Expression.Words
import JavaSyntax.Proofs.Text.Quoted
import JavaSyntax.Proofs.Token.Append
import JavaSyntax.Proofs.Token.Names

namespace JavaSyntax

namespace Lexeme

variable {c : Char} {cs : List Char}

theorem read_of_isDigit (h : c.isDigit = true) (cs : List Char) : read c cs = number c cs := by
  unfold read
  split
  all_goals try cases h
  rw [if_pos h]

/-- Nothing in front of a semicolon makes more than an integer of the digits. -/
theorem decimal_of_rest {us : List Char} (h : (Cut.span isDecimalPart us).rest = ';' :: cs) :
    (decimal us).1 = .intLiteral ∧ (decimal us).2.rest = ';' :: cs := by
  unfold decimal
  generalize Cut.span isDecimalPart us = whole at h
  obtain ⟨taken, rest, hcut⟩ := whole
  subst h
  exact ⟨rfl, rfl⟩

theorem number_of_digits {ds : List Char} (h : ∀ d ∈ ds, d.isDigit = true) (cs : List Char) :
    (number c (ds ++ ';' :: cs)).1 = .intLiteral ∧ (number c (ds ++ ';' :: cs)).2.rest = ';' :: cs := by
  have hrest : (Cut.span isDecimalPart (ds ++ ';' :: cs)).rest = ';' :: cs := by
    rw [Cut.rest_span, List.dropWhile_append_of_pos fun d hd => isDecimalPart_of_isDigit (h d hd)]
    rfl
  have hdecimal := decimal_of_rest hrest
  unfold number
  cases ds with
  | nil => simpa using hdecimal
  | cons d ds =>
    have hmark : ∀ x : Char, x.isDigit = false → d ≠ x := by
      rintro x hx rfl
      exact Bool.false_ne_true (hx.symm.trans (h d List.mem_cons_self))
    simpa [hmark] using hdecimal

/-- What holds of the ten digits holds of all characters of a numeral. -/
theorem forall_mem_toDigits {P : Char → Prop} (h : ∀ k < 10, P (Nat.digitChar k)) (n : Nat) :
    ∀ d ∈ Nat.toDigits 10 n, P d := by
  intro d hd
  obtain ⟨k, hk, rfl⟩ := Text.exists_digit_of_mem_toDigits (by decide) hd
  exact h k hk

/-- No keyword ends with a digit. -/
theorem ofKeyword?_eq_none {text : String} (h : text.toList.getLast?.any Char.isDigit = true) :
    Kind.ofKeyword? text = none := by
  unfold Kind.ofKeyword?
  split
  all_goals first
    | rfl
    | exact absurd h (by decide)

/-- Letters with a number behind them are an identifier. -/
theorem Names.append_number {text : String} (h : isLetters text.toList = true) (n : Nat) :
    Names .ident (text ++ toString n) := by
  have htext : (text ++ toString n).toList = text.toList ++ Nat.toDigits 10 n := by simp
  refine .of_isLetters ?_ ?_
  · cases hletters : text.toList with
    | nil =>
      rw [hletters] at h
      cases h
    | cons c cs =>
      rw [hletters, isLetters, Bool.and_eq_true] at h
      rw [htext, hletters, List.cons_append, isLetters, List.all_append, h.1, h.2, Bool.true_and,
        Bool.true_and, List.all_eq_true]
      exact forall_mem_toDigits (by decide) n
  · have hlast : (text ++ toString n).toList.getLast?.any Char.isDigit = true := by
      rw [htext, List.getLast?_append_of_ne_nil _ Nat.toDigits_ne_nil,
        List.getLast?_eq_some_getLast Nat.toDigits_ne_nil, Option.any_some]
      exact Nat.isDigit_of_mem_toDigits (by decide) (by decide) (List.getLast_mem _)
    rw [ofKeyword?_eq_none hlast]
    rfl

end Lexeme

namespace Word

open Lexeme

variable {w : Word} {ws : List Word} {c : Char} {cs : List Char}

/-- In front of these characters the text of the word is read as the word, and nothing more. -/
def Ends (w : Word) (cs : List Char) : Prop :=
  ∃ c us, w.text.toList = c :: us ∧ startsGap (c :: (us ++ cs)) = false ∧
    (read c (us ++ cs)).1 = w.kind ∧ (read c (us ++ cs)).2.rest = cs

/-- Wherever the characters stand, their tokens are these words. -/
def Glued (ws : List Word) (cs : List Char) : Prop :=
  ∀ offset, Spelled ws (tokensFrom offset cs).dropLast

theorem Ends.rest_gap (h : w.Ends cs) : (gap (w.text.toList ++ cs)).rest = w.text.toList ++ cs := by
  obtain ⟨c, us, htext, hgap, -⟩ := h
  rw [htext]
  exact rest_gap_of_not hgap

theorem Ends.readToken (h : w.Ends cs) (offset : Nat) :
    ∃ start, JavaSyntax.readToken offset (w.text.toList ++ cs) = (⟨w.kind, w.text, start⟩, cs) := by
  have hgap := h.rest_gap
  obtain ⟨c, us, htext, -, hkind, hrest⟩ := h
  have htaken : (read c (us ++ cs)).2.taken = us := by
    have hcut := (read c (us ++ cs)).2.taken_append_rest
    rw [hrest] at hcut
    exact List.append_cancel_right hcut
  rw [htext, List.cons_append] at hgap ⊢
  refine ⟨offset + Text.utf8Length (gap (c :: (us ++ cs))).taken, ?_⟩
  simp only [JavaSyntax.readToken, hgap, hkind, hrest, htaken]
  rw [← htext, String.ofList_toList]

namespace Glued

variable {vs : List Word} {ds : List Char}

theorem nil : Glued [] [] := by
  intro offset
  rw [(tokens_of_gap offset (by rw [gap]; rfl)).2]
  rfl

theorem white (h : Glued ws cs) (hc : Text.isWhiteSpace c = true) : Glued ws (c :: cs) := by
  intro offset
  have hend : offset + Text.utf8Length (c :: cs) = offset + c.utf8Size + Text.utf8Length cs :=
    (Nat.add_assoc ..).symm
  rw [tokensFrom_of_rest (rest_gap_white hc cs) hend]
  exact h _

theorem space (h : Glued ws cs) : Glued ws (' ' :: cs) := h.white (by decide)

theorem word (hw : w.Ends cs) (h : Glued ws cs) : Glued (w :: ws) (w.text.toList ++ cs) := by
  intro offset
  have hne : (gap (w.text.toList ++ cs)).rest ≠ [] := by
    obtain ⟨c, us, htext, -⟩ := id hw
    rw [hw.rest_gap, htext]
    exact List.cons_ne_nil _ _
  obtain ⟨start, hread⟩ := hw.readToken offset
  obtain ⟨ts, hts, -⟩ := tokensFrom_covers (Token.stop ⟨w.kind, w.text, start⟩) cs
  have hmore := h (Token.stop ⟨w.kind, w.text, start⟩)
  rw [hts, List.dropLast_concat] at hmore
  rw [tokensFrom, dif_neg hne, hread, hts, ← List.cons_append, List.dropLast_concat]
  exact congrArg _ hmore

/-- It is enough to look at one place. -/
theorem of_spelled (h : Spelled ws (tokensFrom 0 cs).dropLast) : Glued ws cs := by
  intro offset
  have hshift := tokensFrom_shift offset 0 cs
  rw [Nat.zero_add] at hshift
  rw [hshift, ← List.map_dropLast, Spelled, List.map_map]
  exact h

/-- Lines without comments stand on their own. -/
theorem line (h : Glued ws cs) (hknown : ∀ w ∈ ws, w.kind ≠ .unknown) (hslash : '/' ∉ cs)
    (hmore : Glued vs ds) : Glued (ws ++ vs) (cs ++ '\n' :: ds) := by
  intro offset
  obtain ⟨ts, hts, -⟩ := tokensFrom_covers offset cs
  have hws := h offset
  rw [hts, List.dropLast_concat] at hws
  have hall : ∀ t ∈ tokensFrom offset cs, t.kind ≠ .unknown := by
    intro t ht
    rw [hts] at ht
    rcases List.mem_append.mp ht with ht | ht
    · exact hknown ⟨t.kind, t.text⟩ (hws ▸ List.mem_map_of_mem ht)
    · rw [List.mem_singleton.mp ht]
      exact (by decide : Kind.eof ≠ .unknown)
  have hclosed : ¬ EndsOpen offset cs := by
    rintro ⟨front, rest, rfl, -, blank, body, rfl, -⟩
    exact hslash (by simp)
  obtain ⟨us, hus, -⟩ := tokensFrom_covers (offset + Text.utf8Length cs + 1) ds
  have hvs := hmore (offset + Text.utf8Length cs + 1)
  rw [hus, List.dropLast_concat] at hvs
  rw [tokensFrom_newline ds offset cs hall hclosed, hts, hus, List.dropLast_concat,
    ← List.append_assoc, List.dropLast_concat, Spelled, List.map_append, hws, hvs]

theorem spelled {text : String} (h : Glued ws text.toList) : Spelled ws (significantTokens text) := h 0

end Glued

/-- The words of a text. -/
def ofText (text : String) : List Word := (significantTokens text).map fun t => ⟨t.kind, t.text⟩

/-- A line without comments, and its words. -/
structure Line (text : String) (ws : List Word) : Prop where
  glued : Glued ws text.toList
  known : ∀ w ∈ ws, w.kind ≠ .unknown
  plain : '/' ∉ text.toList

theorem glued_ofText (text : String) : Glued (ofText text) text.toList := .of_spelled rfl

/-- The words of a text are those of its lines. -/
theorem spelled_lines {ls : List String} {wss : List (List Word)} (h : List.Forall₂ Line ls wss) :
    Spelled wss.flatten (significantTokens (String.join (ls.map (· ++ "\n")))) := by
  refine Glued.spelled ?_
  induction h with
  | nil => exact .nil
  | @cons l ws ls wss hl _ ih =>
    have hline := hl.glued.line hl.known hl.plain ih
    rw [List.map_cons, String.join_cons, String.toList_append, String.toList_append,
      List.append_assoc]
    exact hline

theorem Spelled.kinds {ts : List Token} (h : Spelled ws ts) : ts.map Token.kind = ws.map Word.kind := by
  rw [← h, List.map_map]
  rfl

/-- No word of letters goes on here. -/
def Clear (cs : List Char) : Prop := ∀ d ∈ cs.head?, isWordPart d = false

theorem ends_of_names {k : Kind} {text : String} (h : Names k text) (hcs : Clear cs) :
    Ends ⟨k, text⟩ cs := by
  obtain ⟨c, us, htext, hc, hus⟩ := h.letters
  have hread := word_of_forall hus hcs c
  rw [← read_of_isWordStart hc, ← htext, String.ofList_toList, h.kind] at hread
  exact ⟨c, us, htext, startsGap_of_isWordStart hc _, hread.1, hread.2.2⟩

/-- A numeral in front of a semicolon. -/
theorem ends_numeral (n : Nat) (cs : List Char) : Ends ⟨.intLiteral, toString n⟩ (';' :: cs) := by
  obtain ⟨c, ds, hds⟩ := List.exists_cons_of_ne_nil (Nat.toDigits_ne_nil (n := n) (b := 10))
  have hdigits : ∀ d ∈ c :: ds, d.isDigit = true :=
    fun d hd => Nat.isDigit_of_mem_toDigits (by decide) (by decide) (hds ▸ hd)
  obtain ⟨hc, hmore⟩ := List.forall_mem_cons.mp hdigits
  have hgap : Text.isWhiteSpace c = false ∧ c ≠ '/' :=
    forall_mem_toDigits (P := fun d => Text.isWhiteSpace d = false ∧ d ≠ '/') (by decide) n c
      (hds ▸ List.mem_cons_self)
  have hcomment : startsComment (c :: (ds ++ ';' :: cs)) = false :=
    startsComment_eq_false.mpr ⟨fun _ h => absurd h hgap.2, fun _ h => absurd h hgap.2⟩
  refine ⟨c, ds, by simpa using hds, Bool.or_eq_false_iff.mpr ⟨hgap.1, hcomment⟩, ?_⟩
  rw [read_of_isDigit hc]
  exact number_of_digits hmore cs

/-- A letter comes first. -/
def StartsName (cs : List Char) : Prop := ∃ c ∈ cs.head?, isWordStart c = true

theorem StartsName.append (h : StartsName cs) (us : List Char) : StartsName (cs ++ us) := by
  obtain ⟨c, hc, hletter⟩ := h
  exact ⟨c, by simp [Option.mem_def.mp hc], hletter⟩

/-- A sign of one character. -/
theorem ends_of_read (htext : w.text.toList = [c]) (hgap : startsGap (c :: cs) = false)
    (hread : read c cs = (w.kind, .before cs)) : w.Ends cs :=
  ⟨c, [], htext, hgap, congrArg Prod.fst hread, by rw [List.nil_append, hread]; rfl⟩

theorem ends_dot (h : StartsName cs) : dot.Ends cs := by
  obtain ⟨c, hc, hletter⟩ := h
  obtain ⟨us, rfl⟩ := List.head?_eq_some_iff.mp hc
  refine ends_of_read rfl rfl ?_
  change point (c :: us) = (.dot, .before (c :: us))
  rw [point_cons (by rintro r rfl; cases hletter), isDigit_eq_false hletter]
  rfl

theorem ends_angle (hw : w = lt ∨ w = gt) (hcs : cs.head? ≠ some '=') : w.Ends cs := by
  have hread : ∀ long short : Kind, oneOrTwo '=' long short cs = (short, .before cs) := by
    intro long short
    cases cs with
    | nil => rfl
    | cons d cs => rw [oneOrTwo, if_neg fun hd => hcs (congrArg some hd)]
  rcases hw with rfl | rfl
  · exact ends_of_read rfl rfl (hread .ltEq .lt)
  · exact ends_of_read rfl rfl (hread .gtEq .gt)

end Word

open Lexeme in
theorem Identifier.names (i : Identifier) : Names .ident i.text := by
  obtain ⟨c, cs, h⟩ := i.lexes.reads
  have hkind : isName (read c cs).1 = true := by rw [h.kind]; rfl
  have hname := names_read hkind
  rwa [h.kind, h.taken, h.text_eq] at hname

/-- Any word of letters that is no keyword is an identifier. -/
def Identifier.ofNames {text : String} (h : Lexeme.Names .ident text) : Identifier where
  text := text
  lexes := by
    have hglued : Word.Glued [⟨.ident, text⟩] (text.toList ++ []) :=
      .word (Word.ends_of_names h (by simp [Word.Clear])) .nil
    rw [List.append_nil] at hglued
    exact hglued.spelled

end JavaSyntax
