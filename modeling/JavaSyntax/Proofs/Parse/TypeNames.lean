import JavaSyntax.Proofs.Expression.Operators
import JavaSyntax.Proofs.Expression.Types
import JavaSyntax.Proofs.Parse.Made
import JavaSyntax.Proofs.Type.Writable
import JavaSyntax.Proofs.View.Total

namespace JavaSyntax

open Piece Content Computability

/-- The parts of a name. -/
def DottedName.segments (n : DottedName) : List String := (n.first :: n.others).map Identifier.text

/-- Identifiers have no points in them, so the points of a name are those between them. -/
theorem DottedName.segments_text (n : DottedName) : JavaSyntax.segments n.text = n.segments := by
  have hpoint (i : Identifier) : '.' ∉ i.text.toList := by
    obtain ⟨c, cs, htext, hc, hcs⟩ := i.names.letters
    rw [htext, List.mem_cons, not_or]
    refine ⟨?_, fun hmem => ?_⟩
    · rintro rfl
      cases hc
    · cases hcs '.' hmem
  have hsplit (others : List Identifier) (i : Identifier) :
      Text.split '.' (i.text.toList ++ others.flatMap fun j => '.' :: j.text.toList) =
        (i :: others).map fun j => j.text.toList := by
    induction others generalizing i with
    | nil => rw [List.flatMap_nil, List.append_nil, Text.split_of_not_mem (hpoint i)]; rfl
    | cons j others ih =>
      rw [List.flatMap_cons, List.cons_append, Text.split_append (hpoint i), ih j, List.map_cons,
        List.map_cons, List.map_cons]
  rw [JavaSyntax.segments, Text.splitText, n.toList_text, hsplit, List.map_map, segments]
  exact List.map_congr_left fun i _ => String.ofList_toList

namespace Piece

/-- The texts of the identifiers that stand in a node itself. -/
def identifiers (ps : List Piece) : List String :=
  (((direct ps).map Prod.fst).filter fun t => t.kind == .ident).map Token.text

theorem identifiers_ident {t : Token} (ht : t.kind = .ident) (i : Bool) (ps : List Piece) :
    identifiers (.token t i :: ps) = t.text :: identifiers ps := by
  simp [identifiers, direct, ht]

theorem identifiers_token {t : Token} (ht : t.kind ≠ .ident) (i : Bool) (ps : List Piece) :
    identifiers (.token t i :: ps) = identifiers ps := by
  simp [identifiers, direct, ht]

variable {ps : List Piece} {l : Language Symbol} {text : String} {w : List Symbol}

theorem tokensOfAll_subset_cons {p : Piece} (h : tokensOfAll (p :: ps) ⊆ significantTokens text) :
    p.tokens ⊆ significantTokens text ∧ tokensOfAll ps ⊆ significantTokens text := by
  rw [tokensOfAll, List.append_subset] at h
  exact h

theorem exists_identifier {t : Token} (h : t ∈ significantTokens text) (hk : t.kind = .ident) :
    ∃ i : Identifier, i.text = t.text := by
  have hnames := names_of_mem h (by rw [hk]; rfl)
  rw [hk] at hnames
  exact ⟨.ofNames hnames, rfl⟩

/-- Further segments of a name. -/
theorem exists_segments {parts : List (List Symbol)} (hparts : ∀ part ∈ parts, part ∈ word .dot * word .ident)
    (h : symbols ps = parts.flatten ++ w) (ht : tokensOfAll ps ⊆ significantTokens text) :
    ∃ (others : List Identifier) (rest : List Piece), symbols rest = w ∧
      imageTexts ps = (others.flatMap fun i => [".", i.text]) ++ imageTexts rest ∧
        identifiers ps = others.map Identifier.text ++ identifiers rest := by
  induction parts generalizing ps with
  | nil => exact ⟨[], ps, h, rfl, rfl⟩
  | cons part parts ih =>
    obtain ⟨⟨_, rfl, _, rfl, rfl⟩, hmore⟩ := List.forall_mem_cons.mp hparts
    obtain ⟨d, more, rfl, hd, h⟩ := of_symbols_token h
    obtain ⟨n, rest, rfl, hn, h⟩ := of_symbols_token h
    obtain ⟨hdot, ht⟩ := tokensOfAll_subset_cons ht
    obtain ⟨hname, ht⟩ := tokensOfAll_subset_cons ht
    obtain ⟨i, hi⟩ := exists_identifier (hname List.mem_cons_self) hn
    have hpoint : d.text = "." := text_of_sign (hdot List.mem_cons_self) (by rw [hd]; rfl)
    obtain ⟨others, rest, hrest, htexts, hnames⟩ := ih hmore h ht
    refine ⟨i :: others, rest, hrest, ?_, ?_⟩
    · rw [imageTexts, imageTexts, htexts, hpoint, ← hi]
      rfl
    · rw [identifiers_token (by rw [hd]; decide), identifiers_ident hn, hnames, ← hi]
      rfl

/-- A dotted name, and what leaves no trace in the payload. -/
theorem exists_name (h : symbols ps ∈ dotted * l) (ht : tokensOfAll ps ⊆ significantTokens text)
    (hl : ∀ rest, symbols rest ∈ l → imageTexts rest = [] ∧ identifiers rest = []) :
    ∃ name : DottedName, payload none ps = some name.text ∧ identifiers ps = name.segments := by
  obtain ⟨_, ⟨_, rfl, v, hv, rfl⟩, w, hw, h⟩ := h
  obtain ⟨parts, rfl, hparts⟩ := Language.mem_kstar.mp hv
  obtain ⟨t, more, rfl, hk, h⟩ := of_symbols_token h.symm
  obtain ⟨hfirst, ht⟩ := tokensOfAll_subset_cons ht
  obtain ⟨i, hi⟩ := exists_identifier (hfirst List.mem_cons_self) hk
  obtain ⟨others, rest, hrest, htexts, hnames⟩ := exists_segments hparts h ht
  obtain ⟨hnoTexts, hnoNames⟩ := hl rest (hrest ▸ hw)
  refine ⟨⟨i, others⟩, ?_, ?_⟩
  · rw [payload_none, imageTexts, htexts, hnoTexts, List.append_nil, ← hi]
    exact DottedName.joined_texts ⟨i, others⟩
  · rw [identifiers_ident hk, hnames, hnoNames, List.append_nil, ← hi]
    rfl

variable {k : Kind} {clean : Bool}

/-- Whatever is made of a dotted name has its text. -/
theorem exists_name_of_formed (hf : (Piece.node k ps).Formed clean)
    (hk : k = .classType ∨ k = .ambiguousName) (ht : tokensOfAll ps <:+: significantTokens text) :
    ∃ name : DottedName, payload none ps = some name.text ∧ identifiers ps = name.segments := by
  rcases hk with rfl | rfl
  · refine exists_name hf.1.1 ht.subset fun rest hrest => ?_
    rcases hrest with hnone | harguments
    · rw [of_symbols_nil ((Language.mem_one _).mp hnone)]
      exact ⟨rfl, rfl⟩
    · obtain ⟨qs, more, rfl, hmore⟩ := of_symbols_node harguments
      rw [of_symbols_nil hmore]
      exact ⟨rfl, rfl⟩
  · have hcontent : symbols ps ∈ dotted * 1 := (mul_one dotted).symm ▸ hf.1.1
    refine exists_name hcontent ht.subset fun rest hrest => ?_
    rw [of_symbols_nil ((Language.mem_one _).mp hrest)]
    exact ⟨rfl, rfl⟩

end Piece

end JavaSyntax
