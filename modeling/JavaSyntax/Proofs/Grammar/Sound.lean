import JavaSyntax.Proofs.Grammar.Braces
import JavaSyntax.Proofs.Grammar.Content

namespace JavaSyntax

namespace Piece

open Computability Content Grammar

/-- The node ends in front of these tokens because it must. A name leaves at most the name of a method
behind it, and a field is none. -/
def Stops (k : Kind) (after : List Token) : Prop :=
  match k with
  | .ambiguousName => ∀ d n rest, after = d :: n :: rest → d.kind = .dot → n.kind = .ident →
      ahead rest = .leftParen
  | .fieldAccess => ahead after ≠ .leftParen
  | _ => True

/-- What a node for an error is made of, if it starts with one of the tokens found. -/
def StartsAt (found : List (Option Token)) (parts : List Piece) : Prop :=
  ∃ t i more, parts = .token t i :: more ∧ some t ∈ found

/-- The first node is the declaration of one variable. -/
def DeclaresOne (parts : List Piece) : Prop :=
  ∃ qs, parts.find? isNode = some (.node .localVariableDeclaration qs) ∧
    symbols qs ∈ one .modifierList * typed false * one .variableDeclarator

/-- Kinds of nodes that hold any number of others, one after the other. -/
def isRun : Kind → Bool
  | .compilationUnit | .classBody | .block => true
  | _ => false

/-- What is true of every node that is made, with the tokens `after` behind it and with problems found at
some tokens, however broken the text is. -/
structure Stands (found : List (Option Token)) (k : Kind) (parts : List Piece) (after : List Token) : Prop
    extends Fits k parts where
  braced : k = .block → Braced parts after
  stops : Stops k after
  flagged : k = .error → StartsAt found parts
  single : k = .foreachStatement → DeclaresOne parts
  filled : isRun k = true → ∀ p ∈ parts, p.tokens ≠ []

mutual

/-- All nodes of a piece stand as they should, with the tokens `after` behind the piece. -/
def Sound (found : List (Option Token)) (after : List Token) : Piece → Prop
  | .token _ _ => True
  | .node k parts => Stands found k parts after ∧ AllSound found after parts

def AllSound (found : List (Option Token)) (after : List Token) : List Piece → Prop
  | [] => True
  | p :: ps => p.Sound found (tokensOfAll ps ++ after) ∧ AllSound found after ps

end

section

variable {found more : List (Option Token)} {after : List Token} {k o : Kind} {parts : List Piece}

theorem allSound_append {ps qs : List Piece} : AllSound found after (ps ++ qs) ↔
    AllSound found (tokensOfAll qs ++ after) ps ∧ AllSound found after qs := by
  induction ps with
  | nil => exact ⟨fun h => ⟨trivial, h⟩, And.right⟩
  | cons p ps ih =>
    rw [List.cons_append, AllSound, AllSound, ih, and_assoc, tokensOfAll_append, List.append_assoc]

theorem StartsAt.mono (h : StartsAt found parts) (hmore : found ⊆ more) : StartsAt more parts := by
  obtain ⟨t, i, behind, rfl, ht⟩ := h
  exact ⟨t, i, behind, rfl, hmore ht⟩

mutual

theorem Sound.mono (hmore : found ⊆ more) : ∀ {p : Piece} {after : List Token}, p.Sound found after →
    p.Sound more after
  | .token _ _, _, _ => trivial
  | .node _ _, _, ⟨h, hparts⟩ =>
    ⟨{ h with flagged := fun hk => (h.flagged hk).mono hmore }, AllSound.mono hmore hparts⟩

theorem AllSound.mono (hmore : found ⊆ more) : ∀ {ps : List Piece} {after : List Token},
    AllSound found after ps → AllSound more after ps
  | [], _, _ => trivial
  | _ :: _, _, ⟨hp, hps⟩ => ⟨Sound.mono hmore hp, AllSound.mono hmore hps⟩

end

mutual

theorem Sound.proper : ∀ {p : Piece} {after : List Token}, p.Sound found after → p.Proper
  | .token _ _, _, _ => trivial
  | .node _ _, _, ⟨h, hparts⟩ => ⟨h.toFits, AllSound.proper hparts⟩

theorem AllSound.proper : ∀ {ps : List Piece} {after : List Token}, AllSound found after ps →
    AllProper ps
  | [], _, _ => trivial
  | _ :: _, _, ⟨hp, hps⟩ => ⟨Sound.proper hp, AllSound.proper hps⟩

end

/-- Kinds of nodes that are promised nothing but their kind. -/
def isFree (k : Kind) : Bool :=
  k.isNode && opener? k == none && !isQualified k &&
    !([.tombstone, .ambiguousName, .fieldAccess, .error, .compilationUnit] : List Kind).contains k

/-- Kinds of nodes that are promised no more than the token they start with. -/
def startsWith (k o : Kind) : Bool :=
  k.isNode && opener? k == some o && !isQualified k &&
    !([.tombstone, .ambiguousName, .block, .foreachStatement, .classBody] : List Kind).contains k

theorem stops_of_ne (ha : k ≠ .ambiguousName) (hf : k ≠ .fieldAccess) (after : List Token) :
    Stops k after := by
  unfold Stops
  split
  · exact absurd rfl ha
  · exact absurd rfl hf
  · trivial

theorem Stands.of_isFree (h : isFree k = true) (parts : List Piece) (after : List Token) :
    Stands found k parts after := by
  simp only [isFree, Bool.and_eq_true, beq_iff_eq, Bool.not_eq_true', List.contains_eq_mem,
    List.mem_cons, List.not_mem_nil, or_false, decide_eq_false_iff_not, not_or] at h
  obtain ⟨⟨⟨hnode, hopener⟩, hqualified⟩, htombstone, hname, hfield, herror, hfile⟩ := h
  exact {
    node := hnode
    ne_tombstone := htombstone
    opened := fun o ho => by cases hopener.symm.trans ho
    plain := fun hk => absurd hk hname
    qualified := fun hk => by cases hqualified.symm.trans hk
    braced := by
      rintro rfl
      cases hopener
    stops := stops_of_ne hname hfield after
    flagged := fun hk => absurd hk herror
    single := by
      rintro rfl
      cases hopener
    filled := by
      intro hk
      unfold isRun at hk
      split at hk
      · exact absurd rfl hfile
      · cases hopener
      · cases hopener
      · cases hk }

theorem Stands.of_startsWith (h : startsWith k o = true) {t : Token} (ht : t.kind = o) (i : Bool)
    (parts : List Piece) (after : List Token) : Stands found k (.token t i :: parts) after := by
  simp only [startsWith, Bool.and_eq_true, beq_iff_eq, Bool.not_eq_true', List.contains_eq_mem,
    List.mem_cons, List.not_mem_nil, or_false, decide_eq_false_iff_not, not_or] at h
  obtain ⟨⟨⟨hnode, hopener⟩, hqualified⟩, htombstone, hname, hblock, hloop, hbody⟩ := h
  exact {
    node := hnode
    ne_tombstone := htombstone
    opened := fun o' ho => by
      cases hopener.symm.trans ho
      exact congrArg some ht
    plain := fun hk => absurd hk hname
    qualified := fun hk => by cases hqualified.symm.trans hk
    braced := fun hk => absurd hk hblock
    stops := by
      refine stops_of_ne hname ?_ after
      rintro rfl
      cases hopener
    flagged := by
      rintro rfl
      cases hopener
    single := fun hk => absurd hk hloop
    filled := by
      intro hk
      unfold isRun at hk
      split at hk
      · cases hopener
      · exact absurd rfl hbody
      · exact absurd rfl hblock
      · cases hk }

end

end Piece

namespace Grammar

open Piece

/-- Kinds of nodes that are made around an operand. -/
def isAround (k : Kind) : Bool :=
  ([.assignmentExpression, .infixExpression, .methodCall, .fieldAccess, .classLiteral,
    .thisExpression] : List Kind).contains k

/-- Nodes only, the first of which is of the given kind and holds at least one token. -/
def Led (k : Kind) (parts : List Piece) : Prop :=
  ∃ qs more, parts = .node k qs :: more ∧ tokensOfAll qs ≠ [] ∧ direct more = []

namespace Led

variable {k k' : Kind} {ps qs : List Piece}

theorem append (h : Led k ps) (hq : direct qs = []) : Led k (ps ++ qs) := by
  obtain ⟨inner, more, rfl, ht, hm⟩ := h
  exact ⟨inner, more ++ qs, rfl, ht, by rw [direct_append, hm, hq]; rfl⟩

theorem tokens_ne_nil (h : Led k ps) : tokensOfAll ps ≠ [] := by
  obtain ⟨inner, more, rfl, ht, _⟩ := h
  simp [tokensOfAll, Piece.tokens, ht]

theorem direct_eq_nil (h : Led k ps) : direct ps = [] := by
  obtain ⟨inner, more, rfl, _, hm⟩ := h
  exact hm

/-- A node around an operand whose kind is settled when it is closed keeps that operand first. -/
theorem find_isNode (h : Led k ps) (qs : List Piece) : ∀ p, (ps ++ qs).find? isNode = some p → p.tokens ≠ [] := by
  obtain ⟨inner, more, rfl, hn, _⟩ := h
  intro p hp
  cases hp
  exact hn

theorem stands (h : Led k' ps) (hk : isAround k = true) (qs : List Piece) {found : List (Option Token)}
    {after : List Token} (hstops : Stops k after) : Stands found k (ps ++ qs) after := by
  simp only [isAround, List.contains_eq_mem, List.mem_cons, List.not_mem_nil, or_false,
    decide_eq_true_iff] at hk
  have hfind := h.find_isNode qs
  rcases hk with rfl | rfl | rfl | rfl | rfl | rfl
  all_goals exact ⟨⟨rfl, by decide, nofun, nofun, fun _ => hfind⟩, nofun, hstops, nofun, nofun, nofun⟩

/-- The first token in the node of a reference is its `::`, for the operand holds nodes only. -/
theorem stands_methodReference (h : Led k ps) {t : Token} (ht : t.kind = .colonColon) (qs : List Piece)
    (found : List (Option Token)) (after : List Token) :
    Stands found .methodReference (ps ++ .token t false :: qs) after := by
  refine ⟨⟨rfl, by decide, ?_, nofun, fun _ => h.find_isNode _⟩, nofun, trivial, nofun, nofun, nofun⟩
  intro o ho
  cases ho
  simp [direct_append, h.direct_eq_nil, direct, ht]

end Led

end Grammar

end JavaSyntax
