import JavaSyntax.Proofs.Expression.Syntax
import JavaSyntax.Proofs.Token.Gap

namespace JavaSyntax

namespace Word

open Lexeme

/-- The text of a word is read as its kind, and a gap can end in front of it. -/
structure Reads (w : Word) (c : Char) (cs : List Char) : Prop where
  text : w.text.toList = c :: cs
  startsGap : startsGap (c :: cs) = false
  kind : (read c cs).1 = w.kind
  rest : (read c cs).2.rest = []

theorem Lexes.reads {w : Word} (h : w.Lexes) : ∃ c cs, w.Reads c cs := by
  rw [Lexes, Spelled, significantTokens, tokenize, tokensFrom] at h
  split at h
  · cases h
  · next hne =>
    cases hr : (gap w.text.toList).rest with
    | nil => exact absurd hr hne
    | cons c cs =>
      have hread : readToken 0 w.text.toList =
          (⟨(read c cs).1, String.ofList (c :: (read c cs).2.taken),
            0 + Text.utf8Length (gap w.text.toList).taken⟩, (read c cs).2.rest) := by
        simp [readToken, hr]
      obtain ⟨ts, hts, -⟩ := tokensFrom_covers (readToken 0 w.text.toList).1.stop
        (readToken 0 w.text.toList).2
      rw [hts, ← List.cons_append, List.dropLast_concat, hread, List.map_cons] at h
      have hword := (List.cons.inj h).1
      have hkind : (read c cs).1 = w.kind := congrArg Word.kind hword
      have htext : String.ofList (c :: (read c cs).2.taken) = w.text := congrArg Word.text hword
      -- the token has all characters of the text, so nothing is in front of it or after it
      have hall := (gap w.text.toList).taken_append_rest
      have htoken := (read c cs).2.taken_append_rest
      have hlist : c :: (read c cs).2.taken = w.text.toList := by rw [← htext, String.toList_ofList]
      have hlength := congrArg List.length hall
      rw [hr, ← htoken, ← hlist] at hlength
      simp only [List.length_append, List.length_cons] at hlength
      have hrest : (read c cs).2.rest = [] := List.length_eq_zero_iff.mp (by omega)
      rw [hrest, List.append_nil] at htoken
      rw [htoken] at hlist
      refine ⟨c, cs, hlist.symm, ?_, hkind, hrest⟩
      rw [← hlist] at hr
      cases hgap : startsGap (c :: cs) with
      | false => rfl
      | true =>
        have hle := length_rest_gap_le hgap
        rw [hr, List.length_cons] at hle
        omega

/-- The word is the same token wherever spaces stand around it. -/
def IsToken (w : Word) : Prop := w.kind ≠ .unknown ∧ ∃ c cs, w.Reads c cs

theorem Reads.taken {w : Word} {c : Char} {cs : List Char} (h : w.Reads c cs) :
    (read c cs).2.taken = cs := by
  have := (read c cs).2.taken_append_rest
  rwa [h.rest, List.append_nil] at this

theorem Reads.text_eq {w : Word} {c : Char} {cs : List Char} (h : w.Reads c cs) :
    String.ofList (c :: cs) = w.text := by
  rw [← h.text, String.ofList_toList]

theorem Reads.readToken {w : Word} {c : Char} {cs : List Char} (h : w.Reads c cs) (offset : Nat)
    {us : List Char} (hus : (gap us).rest = c :: cs) :
    ∃ start, JavaSyntax.readToken offset us = (⟨w.kind, w.text, start⟩, []) := by
  refine ⟨offset + Text.utf8Length (gap us).taken, ?_⟩
  simp [JavaSyntax.readToken, hus, h.kind, h.rest, h.taken, h.text_eq]

/-- In front of a space a word is read up to the space. -/
theorem Reads.readToken_space {w : Word} {c : Char} {cs : List Char} (h : w.Reads c cs)
    (hknown : w.kind ≠ .unknown) (offset : Nat) {us r : List Char}
    (hus : (gap us).rest = c :: (cs ++ ' ' :: r)) :
    ∃ start, JavaSyntax.readToken offset us = (⟨w.kind, w.text, start⟩, ' ' :: r) := by
  obtain ⟨hkind, htaken, hrest⟩ := extends_read .space c cs r (h.kind ▸ hknown)
  refine ⟨offset + Text.utf8Length (gap us).taken, ?_⟩
  simp [JavaSyntax.readToken, hus, hkind, htaken, hrest, h.kind, h.rest, h.taken, h.text_eq]

theorem startsGap_spaced {w : Word} {ws : List Word} (h : ∀ v ∈ w :: ws, v.IsToken) :
    startsGap (spaced (w :: ws)).toList = false := by
  obtain ⟨-, c, cs, hw⟩ := h w List.mem_cons_self
  cases ws with
  | nil =>
    rw [spaced, hw.text]
    exact hw.startsGap
  | cons v ws =>
    have := startsGap_append .space (spaced (v :: ws)).toList hw.startsGap
    simpa [spaced, hw.text] using this

theorem tokensFrom_spaced : ∀ (w : Word) (ws : List Word), (∀ v ∈ w :: ws, v.IsToken) →
    ∀ (offset : Nat) (us : List Char), (gap us).rest = (spaced (w :: ws)).toList →
      ∃ ts e, tokensFrom offset us = ts ++ [e] ∧ Spelled (w :: ws) ts
  | w, [], h, offset, us, hus => by
    obtain ⟨-, c, cs, hw⟩ := h w List.mem_cons_self
    rw [spaced, hw.text] at hus
    obtain ⟨start, hread⟩ := hw.readToken offset hus
    refine ⟨[⟨w.kind, w.text, start⟩], .endOfInput (Token.stop ⟨w.kind, w.text, start⟩ + 0), ?_, rfl⟩
    rw [tokensFrom, dif_neg (by rw [hus]; exact List.cons_ne_nil _ _), hread, tokensFrom]
    simp [gap, readToken, Cut.before, Text.utf8Length]
  | w, v :: ws, h, offset, us, hus => by
    obtain ⟨hknown, c, cs, hw⟩ := h w List.mem_cons_self
    have hrest : ∀ u ∈ v :: ws, u.IsToken := fun u hu => h u (List.mem_cons_of_mem _ hu)
    have hus' : (gap us).rest = c :: (cs ++ ' ' :: (spaced (v :: ws)).toList) := by
      rw [hus]
      simp [spaced, hw.text]
    obtain ⟨start, hread⟩ := hw.readToken_space hknown offset hus'
    obtain ⟨ts, e, hts, hspelled⟩ := tokensFrom_spaced v ws hrest
      (Token.stop ⟨w.kind, w.text, start⟩) _ (rest_gap_space (startsGap_spaced hrest))
    refine ⟨⟨w.kind, w.text, start⟩ :: ts, e, ?_, congrArg _ hspelled⟩
    rw [tokensFrom, dif_neg (by rw [hus']; exact List.cons_ne_nil _ _), hread]
    exact congrArg _ hts

/-- Words with spaces between them are read as the tokens they are. -/
theorem spelled_significantTokens {ws : List Word} (h : ∀ w ∈ ws, w.IsToken) :
    Spelled ws (significantTokens (spaced ws)) := by
  cases ws with
  | nil => simp [Spelled, spaced, significantTokens, tokenize, tokensFrom, gap, Cut.before]
  | cons w ws =>
    obtain ⟨ts, e, hts, hspelled⟩ := tokensFrom_spaced w ws h 0 _
      (rest_gap_of_not (startsGap_spaced h))
    rw [significantTokens, tokenize, hts, List.dropLast_concat]
    exact hspelled

/-- Whether the text of a word is read as its kind, as far as this can be computed. -/
def readsBack (w : Word) : Bool :=
  match w.text.toList with
  | [] => false
  | c :: cs =>
    !startsGap (c :: cs) && (read c cs).1 == w.kind && (read c cs).2.rest.isEmpty &&
      w.kind != .unknown

theorem isToken_of_readsBack {w : Word} (h : w.readsBack = true) : w.IsToken := by
  unfold readsBack at h
  split at h
  · cases h
  · next c cs htext =>
    simp only [Bool.and_eq_true, Bool.not_eq_true', beq_iff_eq, bne_iff_ne, ne_eq,
      List.isEmpty_iff] at h
    obtain ⟨⟨⟨hgap, hkind⟩, hrest⟩, hknown⟩ := h
    exact ⟨hknown, c, cs, htext, hgap, hkind, hrest⟩

theorem lexes_of_readsBack {w : Word} (h : w.readsBack = true) : w.Lexes :=
  spelled_significantTokens (by simpa using isToken_of_readsBack h)

end Word

/-- An identifier whose text can be read back. -/
def Identifier.ofText (text : String) (h : Word.readsBack ⟨.ident, text⟩ = true) : Identifier :=
  ⟨text, Word.lexes_of_readsBack h⟩

end JavaSyntax
