import JavaSyntax.Proofs.Grammar.DeclarationForms
import JavaSyntax.Proofs.Parse.Total
import JavaSyntax.Proofs.Tree.Heads

namespace JavaSyntax

open Branch Grammar

namespace Piece

variable {clean : Bool}

/-- A piece and all pieces in it. -/
inductive Below (p : Piece) : Piece → Prop where
  | self : Below p p
  | part {k : Kind} {ps : List Piece} {q : Piece} : q ∈ ps → Below p q → Below p (.node k ps)

theorem formed_of_mem {p : Piece} : ∀ {ps : List Piece}, AllFormed clean ps → p ∈ ps → p.Formed clean
  | _ :: _, ⟨hq, hps⟩, h => by
    rcases List.mem_cons.mp h with rfl | h
    · exact hq
    · exact formed_of_mem hps h

theorem Below.formed {p q : Piece} (h : Below p q) (hq : q.Formed clean) : p.Formed clean := by
  induction h with
  | self => exact hq
  | part hmem _ ih => exact ih (formed_of_mem hq.2 hmem)

theorem infix_tokensOfAll {p : Piece} {ps : List Piece} (h : p ∈ ps) :
    p.tokens <:+: tokensOfAll ps := by
  obtain ⟨before, after, rfl⟩ := List.append_of_mem h
  refine ⟨tokensOfAll before, tokensOfAll after, ?_⟩
  rw [tokensOfAll_append, tokensOfAll, List.append_assoc]

theorem Below.tokens {p q : Piece} (h : Below p q) : p.tokens <:+: q.tokens := by
  induction h with
  | self => exact List.infix_rfl
  | part hmem _ ih => exact ih.trans (infix_tokensOfAll hmem)

/-- A piece in another stands among its tokens, and is sound there. -/
theorem Below.sound {found : List (Option Token)} {p q : Piece} {after : List Token} (h : Below p q)
    (hq : q.Sound found after) :
    ∃ before after', q.tokens ++ after = before ++ (p.tokens ++ after') ∧ p.Sound found after' := by
  induction h generalizing after with
  | self => exact ⟨[], after, rfl, hq⟩
  | part hmem _ ih =>
    obtain ⟨front, back, rfl⟩ := List.append_of_mem hmem
    obtain ⟨before, after', hall, hp⟩ := ih (allSound_append.mp hq.2).2.1
    refine ⟨tokensOfAll front ++ before, after', ?_, hp⟩
    rw [Piece.tokens, tokensOfAll_append, tokensOfAll, List.append_assoc, List.append_assoc, hall,
      List.append_assoc]

/-- A piece of a file stands among the tokens of the text, and is sound there. -/
theorem Below.sound_file {text : String} {p : Piece}
    (h : Below p (.node .compilationUnit (fileParts text))) :
    ∃ before after, significantTokens text = before ++ (p.tokens ++ after) ∧
      p.Sound (compilationUnit (significantTokens text)).found after := by
  have hfile := (reads_compilationUnit (significantTokens text)).parts_sound
  rw [rest_compilationUnit] at hfile
  obtain ⟨before, after, hall, hp⟩ := @h.sound _ _ _ [] hfile.1
  rw [Piece.tokens, (holds_fileParts text).tokens, List.append_nil] at hall
  exact ⟨before, after, hall, hp⟩

/-- The finished node of a piece. What covers no token and has no token after it stands at `gap`. -/
def grown (gap : Nat) (k : Kind) (ps : List Piece) : Branch :=
  ⟨k, payload none ps, (cover ps).getD (.empty gap), branches ((cover ps).elim gap Span.stop) ps⟩

/-- What the pieces of a node are to it once it is finished. -/
def heads : List Piece → List Head
  | [] => []
  | .token _ _ :: ps => heads ps
  | .node k qs :: ps => ⟨k, payload none qs⟩ :: heads ps

theorem heads_append (ps qs : List Piece) : heads (ps ++ qs) = heads ps ++ heads qs := by
  induction ps with
  | nil => rfl
  | cons p ps ih => cases p <;> simp [heads, ih]

theorem map_head_branches (gap : Nat) (ps : List Piece) :
    (branches gap ps).map Branch.head = heads ps := by
  induction ps with
  | nil => rfl
  | cons p ps ih =>
    rw [branches, List.map_append, ih]
    cases p <;> rfl

theorem heads_grown (gap : Nat) (k : Kind) (ps : List Piece) : (grown gap k ps).heads = heads ps :=
  map_head_branches _ ps

mutual

theorem exists_below_branch : ∀ (p : Piece) (gap : Nat), ∀ b ∈ subtreesOfAll (p.branch gap),
    ∃ k ps gap', Below (.node k ps) p ∧ b = grown gap' k ps
  | .token _ _, _, b, hb => by cases hb
  | .node k parts, gap, b, hb => by
    rw [branch, subtreesOfAll, subtreesOfAll, List.append_nil] at hb
    rcases List.mem_cons.mp hb with rfl | hb
    · exact ⟨k, parts, gap, .self, rfl⟩
    · obtain ⟨q, hq, k', ps, gap', hbelow, rfl⟩ := exists_below_branches parts _ b hb
      exact ⟨k', ps, gap', .part hq hbelow, rfl⟩

theorem exists_below_branches : ∀ (ps : List Piece) (gap : Nat), ∀ b ∈ subtreesOfAll (branches gap ps),
    ∃ q ∈ ps, ∃ k qs gap', Below (.node k qs) q ∧ b = grown gap' k qs
  | [], _, b, hb => by cases hb
  | p :: ps, gap, b, hb => by
    rw [branches, subtreesOfAll_append] at hb
    rcases List.mem_append.mp hb with hb | hb
    · exact ⟨p, List.mem_cons_self, exists_below_branch p _ b hb⟩
    · obtain ⟨q, hq, h⟩ := exists_below_branches ps gap b hb
      exact ⟨q, List.mem_cons_of_mem _ hq, h⟩

end

/-- Every node of a tree that holds a text, before its names are settled. -/
theorem Holds.exists_piece {text : String} {k : Kind} {parts : List Piece} (h : Holds text k parts)
    (hf : (Piece.node k parts).Formed clean) {b : Branch} (hb : b ∈ (tree k parts).subtrees) :
    ∃ k' ps gap, b = grown gap k' ps ∧ (Piece.node k' ps).Formed clean ∧
      tokensOfAll ps <:+: significantTokens text := by
  have hbranch : b ∈ subtreesOfAll ((Piece.node k parts).branch 0) := List.mem_append_left _ hb
  obtain ⟨k', ps, gap, hbelow, rfl⟩ := exists_below_branch (.node k parts) 0 b hbranch
  refine ⟨k', ps, gap, rfl, hbelow.formed hf, ?_⟩
  rw [← h.tokens]
  exact hbelow.tokens

/-- What settled nodes have in common holds of all nodes of the settled tree. -/
theorem Holds.forall_settled {text : String} {k : Kind} {parts : List Piece} (h : Holds text k parts)
    (hf : (Piece.node k parts).Formed clean) {R : Head → List Head → Prop} (hR : Admits R)
    (hpiece : ∀ k ps, (Piece.node k ps).Formed clean → tokensOfAll ps <:+: significantTokens text →
      R ⟨k, payload none ps⟩ (Head.settle ⟨k, payload none ps⟩ (heads ps))) :
    ∀ b ∈ (tree k parts).disambiguated.subtrees, R b.head b.heads := by
  apply hR.disambiguated
  intro b hb
  obtain ⟨k', ps, gap, rfl, hformed, htokens⟩ := h.exists_piece hf hb
  rw [heads_grown]
  exact hpiece k' ps hformed htokens

end Piece

/-- The node for a whole file is formed, cleanly if there are no errors. -/
theorem formed_fileParts {clean : Bool} {text : String}
    (h : clean = true → (compilationUnit (significantTokens text)).problems = []) :
    (Piece.node .compilationUnit (fileParts text)).Formed clean :=
  (forms_compilationUnit (significantTokens text) h).1.1

theorem formed_expressionParts {clean : Bool} {text : String}
    (h : clean = true → (loneExpression (significantTokens text)).problems = []) :
    (Piece.node .expressionStatement (expressionParts text)).Formed clean :=
  (forms_loneExpression (significantTokens text) h).1.1

section

variable {clean : Bool} {text : String} {p : Parse}

/-- The two ways to parse a text make a tree of pieces that hold it and are formed, cleanly if there are
no errors. -/
theorem exists_holds (hp : parse text = .ok p ∨ parseExpression text = .ok p)
    (he : clean = true → p.errors = []) : ∃ k parts, Piece.Holds text k parts ∧
      (Piece.node k parts).Formed clean ∧ p.tree = .ofBranch text (Piece.tree k parts).disambiguated := by
  rcases hp with hp | hp
  · rw [parse_eq] at hp
    cases hp
    exact ⟨_, _, holds_fileParts text, formed_fileParts fun hc => List.map_eq_nil_iff.mp (he hc), rfl⟩
  · rw [parseExpression_eq] at hp
    cases hp
    exact ⟨_, _, holds_expressionParts text,
      formed_expressionParts fun hc => List.map_eq_nil_iff.mp (he hc), rfl⟩

/-- What the nodes of formed pieces have in common when they have settled their first children holds of
all nodes of a parsed text. -/
theorem forall_parsed (hp : parse text = .ok p ∨ parseExpression text = .ok p)
    (he : clean = true → p.errors = []) {R : Head → List Head → Prop} (hR : Admits R)
    (hpiece : ∀ k ps, (Piece.node k ps).Formed clean →
      Piece.tokensOfAll ps <:+: significantTokens text →
      R ⟨k, Piece.payload none ps⟩ (Head.settle ⟨k, Piece.payload none ps⟩ (Piece.heads ps))) :
    ∀ b ∈ p.tree.root.subtrees, R b.head b.heads := by
  obtain ⟨k, parts, hholds, hformed, htree⟩ := exists_holds hp he
  rw [htree]
  exact hholds.forall_settled hformed hR hpiece

end

end JavaSyntax
