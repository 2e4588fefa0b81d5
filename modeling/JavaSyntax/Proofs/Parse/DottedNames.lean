import JavaSyntax.Proofs.Grammar.Avoided
import JavaSyntax.Proofs.Parse.TypeNames
import JavaSyntax.Proofs.View.Variables
import JavaSyntax.View.Declaration
import JavaSyntax.View.Expression

namespace JavaSyntax

open Piece Content Grammar Computability

namespace Piece

variable {ps : List Piece} {text : String}

theorem tokensOfAll_eq_direct (h : ∀ k, Symbol.node k ∉ symbols ps) :
    tokensOfAll ps = (direct ps).map Prod.fst := by
  induction ps with
  | nil => rfl
  | cons p ps ih =>
    cases p with
    | token t i =>
      rw [tokensOfAll_token, ih fun k hk => h k (List.mem_cons_of_mem _ hk)]
      rfl
    | node k qs => exact absurd List.mem_cons_self (h k)

theorem exists_cover_of_dotted (h : symbols ps ∈ dotted) : ∃ span, cover ps = some span := by
  obtain ⟨_, rfl, w, -, hsymbols⟩ := h
  obtain ⟨t, more, rfl, -⟩ := of_symbols_token hsymbols.symm
  refine Option.ne_none_iff_exists'.mp fun hnone => ?_
  cases cover_eq_none.mp hnone

/-- An annotation has a name, or nothing behind its `@`. -/
theorem exists_name_of_annotationUse (hf : (Piece.node .annotationUse ps).Formed false)
    (ht : tokensOfAll ps <:+: significantTokens text) :
    (∃ name : DottedName, payload none ps = some name.text ∧ identifiers ps = name.segments) ∨
      payload none ps = none ∧ identifiers ps = [] := by
  obtain ⟨_, rfl, w, hw, hsymbols⟩ := hf.1.1
  obtain ⟨t, more, rfl, hat, rfl⟩ := of_symbols_token hsymbols.symm
  obtain ⟨-, hmore⟩ := tokensOfAll_subset_cons ht.subset
  rw [identifiers_token (by rw [hat]; decide)]
  rcases hw with hname | hnone
  · refine .inl (exists_name ((mul_one dotted).symm ▸ hname) hmore fun rest hrest => ?_)
    rw [of_symbols_nil ((Language.mem_one _).mp hrest)]
    exact ⟨rfl, rfl⟩
  · rw [of_symbols_nil ((Language.mem_one _).mp hnone)]
    exact .inr ⟨rfl, rfl⟩

theorem exists_name_or_none {k : Kind} (hf : (Piece.node k ps).Formed false)
    (hk : k = .ambiguousName ∨ k = .classType ∨ k = .annotationUse)
    (ht : tokensOfAll ps <:+: significantTokens text) :
    (∃ name : DottedName, payload none ps = some name.text ∧ identifiers ps = name.segments) ∨
      k = .annotationUse ∧ payload none ps = none ∧ identifiers ps = [] := by
  rcases hk with rfl | rfl | rfl
  · exact .inl (exists_name_of_formed hf (.inr rfl) ht)
  · exact .inl (exists_name_of_formed hf (.inl rfl) ht)
  · exact (exists_name_of_annotationUse hf ht).imp_right fun h => ⟨rfl, h⟩

/-- A name leaves only the name of a method behind it, so the name of a field is not behind a name. -/
theorem head_of_fieldAccess {found : List (Option Token)} {after : List Token}
    (hf : (Piece.node .fieldAccess ps).Formed false) (h : (Piece.node .fieldAccess ps).Sound found after) :
    ∃ k, (heads ps).map Head.kind = [k] ∧ k ≠ .ambiguousName := by
  obtain ⟨_, ⟨_, ⟨k, -, rfl⟩, _, rfl, rfl⟩, _, rfl, hsymbols⟩ := hf.1.1
  obtain ⟨qs, more, rfl, hmore⟩ := of_symbols_node hsymbols.symm
  obtain ⟨d, more, rfl, hd, hmore⟩ := of_symbols_token hmore
  obtain ⟨i, more, rfl, hi, hmore⟩ := of_symbols_token hmore
  obtain rfl := of_symbols_nil hmore
  refine ⟨k, rfl, ?_⟩
  rintro rfl
  exact h.1.stops (h.2.1.1.stops d i after rfl hd hi)

end Piece

theorem DottedName.getLast?_segments (name : DottedName) :
    name.segments.getLast? = some (lastSegment name.text) := by
  rw [lastSegment, name.segments_text, segments, List.map_cons, List.getLastD_cons,
    List.getLast?_cons, List.getLastD_eq_getLast?]

theorem DottedName.ne_empty_of_mem (name : DottedName) : ∀ s ∈ name.segments, s ≠ "" := by
  intro s hs
  obtain ⟨i, -, rfl⟩ := List.mem_map.mp hs
  obtain ⟨c, cs, htext, -⟩ := i.names.letters
  intro hempty
  rw [hempty] at htext
  cases htext

/-- The texts of the identifiers that stand in a node itself, in the order of the text. -/
def Tree.identifiers (text : String) (t : Tree) (n : NodeId) : List String :=
  ((t.ownTokens text n).filter fun u => u.kind == .ident).map Token.text

/-- The payload of a node is a dotted name, whose identifiers stand in the node. -/
def Tree.HasName (text : String) (t : Tree) (n : NodeId) : Prop :=
  ∃ name : DottedName, t.image n = some name.text ∧ t.identifiers text n = name.segments

namespace Tree.HasName

variable {text : String} {t : Tree} {n : NodeId}

theorem exists_image (h : t.HasName text n) : ∃ image, t.image n = some image := by
  obtain ⟨name, himage, -⟩ := h
  exact ⟨_, himage⟩

theorem segments_eq (h : t.HasName text n) {image : String} (himage : t.image n = some image) :
    segments image = t.identifiers text n ∧ ∀ s ∈ segments image, s ≠ "" := by
  obtain ⟨name, hname, hidentifiers⟩ := h
  obtain rfl : name.text = image := Option.some.inj (hname.symm.trans himage)
  rw [name.segments_text, hidentifiers]
  exact ⟨rfl, name.ne_empty_of_mem⟩

theorem getLast?_identifiers (h : t.HasName text n) :
    (t.identifiers text n).getLast? = (t.image n).map lastSegment := by
  obtain ⟨name, himage, hidentifiers⟩ := h
  rw [himage, hidentifiers]
  exact name.getLast?_segments

end Tree.HasName

/-- The dotted names of a tree. -/
structure Tree.DottedNames (text : String) (t : Tree) : Prop where
  /-- A name of unknown meaning is never missing, nor is that of a class type. -/
  named : ∀ n, t.kind n = .ambiguousName ∨ t.kind n = .classType → ∃ name, t.image n = some name
  /-- Between the points of a name are the identifiers of the text, without what stands between them. -/
  faithful : ∀ n, t.kind n = .ambiguousName ∨ t.kind n = .classType ∨ t.kind n = .annotationUse →
    ∀ name, t.image n = some name →
      segments name = t.identifiers text n ∧ ∀ s ∈ segments name, s ≠ ""
  nameSegments : ∀ v : AmbiguousName t, AmbiguousName.segments v = t.identifiers text v.node
  nameLast : ∀ v : AmbiguousName t,
    (t.identifiers text v.node).getLast? = some (AmbiguousName.lastSegment v)
  className : ∀ v : ClassType t, (t.identifiers text v.node).getLast? = ClassType.simpleName v
  annotationName : ∀ v : AnnotationUse t,
    (t.identifiers text v.node).getLast? = AnnotationUse.simpleName v
  /-- A field of a name would have been read into the name. -/
  field : ∀ n, t.kind n = .fieldAccess → ∀ c, (t.children n).head? = some c →
    t.kind c ≠ .ambiguousName
  /-- What stands behind a name is no further segment of it. -/
  maximal : ∀ n, t.kind n = .ambiguousName → ∀ d i rest,
    tokensBehind text (t.span n) = d :: i :: rest → d.kind = .dot → i.kind = .ident →
      ahead rest = .leftParen

section

variable {text : String} {p : Parse} {n : NodeId}

theorem hasName_of_parsed (hp : parse text = .ok p ∨ parseExpression text = .ok p)
    (hk : p.tree.kind n = .ambiguousName ∨ p.tree.kind n = .classType ∨ p.tree.kind n = .annotationUse) :
    p.tree.HasName text n ∨
      p.tree.kind n = .annotationUse ∧ p.tree.image n = none ∧ p.tree.identifiers text n = [] := by
  have hkind : (p.tree.kind n).isNode = true ∧ isQualified (p.tree.kind n) = false ∧
      p.tree.kind n ≠ .typeExpression := by
    rcases hk with hk | hk | hk <;> exact ⟨by rw [hk]; rfl, by rw [hk]; rfl, by rw [hk]; decide⟩
  obtain ⟨hnode, hq, hx⟩ := hkind
  have hunclean : false = true → p.errors = [] := fun h => Bool.noConfusion h
  rcases exists_made_or_named hp hunclean (Tree.lt_size_of_isNode hnode) hq hx with
    ⟨ps, hmade, himage⟩ | ⟨-, hchildren, ps, hformed, htokens, himage, hin⟩
  · have hown : p.tree.identifiers text n = Piece.identifiers ps := by
      rw [Tree.identifiers, hmade.ownTokens_eq, Piece.identifiers]
    rw [Tree.HasName, himage, hown]
    exact exists_name_or_none hmade.formed hk hmade.tokens
  · have hown : p.tree.identifiers text n = Piece.identifiers ps := by
      have hall : p.tree.ownTokens text n = tokensOfAll ps := by
        rw [Tree.ownTokens, hchildren, hin]
        exact List.filter_eq_self.mpr fun _ _ => rfl
      rw [Tree.identifiers, hall, tokensOfAll_eq_direct fun k => avoids_dotted k _ hformed.1.1]
      rfl
    rw [Tree.HasName, himage, hown]
    exact .inl (exists_name_of_formed hformed (.inr rfl) htokens)

/-- Plain nodes of a file are sound where they stand. -/
theorem exists_sound (hp : parse text = .ok p) (hn : n < p.tree.size)
    (hk : (p.tree.kind n).isPlain = true) :
    ∃ found ps before after, p.tree.Made false text n ps ∧
      (Piece.node (p.tree.kind n) ps).Sound found after ∧
      significantTokens text = before ++ (tokensOfAll ps ++ after) := by
  cases (parse_eq text).symm.trans hp
  obtain ⟨ps, gap, hbelow, -, hspan, houtlines⟩ := exists_below rfl hn hk
  obtain ⟨before, after, hall, hsound⟩ := hbelow.sound_file
  refine ⟨_, ps, before, after, ⟨?_, ⟨before, after, ?_⟩, gap, hspan, houtlines⟩, hsound, hall⟩
  · exact hbelow.formed (formed_fileParts fun h => Bool.noConfusion h)
  · rw [hall, List.append_assoc]
    rfl

theorem ne_ambiguousName_of_fieldAccess (hp : parse text = .ok p) (hk : p.tree.kind n = .fieldAccess)
    {c : NodeId} (hc : (p.tree.children n).head? = some c) : p.tree.kind c ≠ .ambiguousName := by
  obtain ⟨found, ps, -, after, hmade, hsound, -⟩ := exists_sound hp
    (Tree.lt_size_of_isNode (by rw [hk]; rfl)) (by rw [hk]; rfl)
  have hformed := hmade.formed
  rw [hk] at hformed hsound
  obtain ⟨k, hkinds, hne⟩ := head_of_fieldAccess hformed hsound
  obtain ⟨cs, hchildren⟩ := List.head?_eq_some_iff.mp hc
  have hfirst := hmade.kinds_eq
  rw [hkinds, hchildren, List.map_cons] at hfirst
  rw [(List.cons.inj hfirst).1]
  exact hne

theorem stops_tokensBehind (hp : parse text = .ok p) (hk : p.tree.kind n = .ambiguousName) :
    Stops .ambiguousName (tokensBehind text (p.tree.span n)) := by
  obtain ⟨found, ps, before, after, hmade, hsound, hall⟩ := exists_sound hp
    (Tree.lt_size_of_isNode (by rw [hk]; rfl)) (by rw [hk]; rfl)
  have hformed := hmade.formed
  rw [hk] at hformed hsound
  obtain ⟨gap, hspan, -⟩ := hmade.stands
  obtain ⟨span, hcover⟩ := exists_cover_of_dotted hformed.1.1
  rw [hspan, grown, hcover, Option.getD_some, tokensBehind_cover hall hcover]
  exact hsound.1.stops

/-- In every text names are as they are written, and no shorter than they could be. -/
theorem parse_dottedNames (text : String) : ∃ p, parse text = .ok p ∧ p.tree.DottedNames text := by
  obtain ⟨p, hp⟩ : ∃ p, parse text = .ok p := ⟨_, parse_eq text⟩
  have hname {n : NodeId} (hk : p.tree.kind n = .ambiguousName ∨ p.tree.kind n = .classType) :
      p.tree.HasName text n := by
    rcases hasName_of_parsed (.inl hp) (hk.imp_right .inl) with h | ⟨huse, -⟩
    · exact h
    · rcases hk with hk | hk <;> cases hk.symm.trans huse
  refine ⟨p, hp, ?_⟩
  exact {
    named := fun n hk => (hname hk).exists_image
    faithful := fun n hk image himage => by
      rcases hasName_of_parsed (.inl hp) hk with h | ⟨-, hnone, -⟩
      · exact h.segments_eq himage
      · cases hnone.symm.trans himage
    nameSegments := fun v => by
      obtain ⟨name, himage, hidentifiers⟩ := hname (.inl v.kind_node)
      rw [AmbiguousName.segments, AmbiguousName.name, View.image, himage, hidentifiers]
      exact name.segments_text
    nameLast := fun v => by
      obtain ⟨name, himage, hidentifiers⟩ := hname (.inl v.kind_node)
      rw [AmbiguousName.lastSegment, AmbiguousName.name, View.image, himage, hidentifiers]
      exact name.getLast?_segments
    className := fun v => (hname (.inr v.kind_node)).getLast?_identifiers
    annotationName := fun v => by
      rcases hasName_of_parsed (.inl hp) (.inr (.inr v.kind_node)) with h | ⟨-, hnone, hidentifiers⟩
      · exact h.getLast?_identifiers
      · rw [AnnotationUse.simpleName, AnnotationUse.name, View.image, hnone, hidentifiers]
        rfl
    field := fun n hk c => ne_ambiguousName_of_fieldAccess hp hk
    maximal := fun n hk => stops_tokensBehind hp hk }

end

end JavaSyntax
