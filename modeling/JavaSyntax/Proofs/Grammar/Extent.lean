import JavaSyntax.Event
import JavaSyntax.Proofs.Grammar.DeclarationForms
import JavaSyntax.Proofs.Grammar.DeclarationReads

namespace JavaSyntax

open Computability

def weight {α : Type} (v : α → Int) : List α → Int
  | [] => 0
  | a :: w => v a + weight v w

/-- Every word of the language weighs at least `m`. -/
def AtLeast {α : Type} (v : α → Int) (m : Int) (l : Language α) : Prop := ∀ w ∈ l, m ≤ weight v w

section

variable {α : Type} {v : α → Int} {m n : Int} {l l' : Language α} {a : α}

theorem weight_append (x y : List α) : weight v (x ++ y) = weight v x + weight v y := by
  induction x with
  | nil => exact (Int.zero_add _).symm
  | cons a x ih => rw [List.cons_append, weight, weight, ih, Int.add_assoc]

theorem weight_singleton (a : α) : weight v [a] = v a := Int.add_zero _

theorem AtLeast.mono (h : AtLeast v n l) (hle : m ≤ n) : AtLeast v m l := fun w hw => hle.trans (h w hw)

theorem atLeast_zero : AtLeast v m 0 := by
  rintro w ⟨⟩

theorem atLeast_nil : AtLeast v 0 1 := by
  rintro _ rfl
  exact le_refl _

theorem atLeast_singleton : AtLeast v (v a) {[a]} := by
  rintro _ rfl
  rw [weight_singleton]

theorem atLeast_add (hl : AtLeast v m l) (hl' : AtLeast v n l') : AtLeast v (min m n) (l + l') := by
  rintro w (hw | hw)
  · exact (min_le_left m n).trans (hl w hw)
  · exact (min_le_right m n).trans (hl' w hw)

theorem atLeast_mul (hl : AtLeast v m l) (hl' : AtLeast v n l') : AtLeast v (m + n) (l * l') := by
  rintro _ ⟨x, hx, y, hy, rfl⟩
  rw [weight_append]
  exact Int.add_le_add (hl x hx) (hl' y hy)

theorem atLeast_kstar (hl : AtLeast v m l) (hm : 0 ≤ m) : AtLeast v 0 l∗ := by
  intro w hw
  obtain ⟨parts, rfl, hparts⟩ := Language.mem_kstar.mp hw
  clear hw
  induction parts with
  | nil => exact le_refl _
  | cons x parts ih =>
    obtain ⟨hx, hparts⟩ := List.forall_mem_cons.mp hparts
    rw [List.flatten_cons, weight_append]
    exact Int.add_nonneg (hm.trans (hl x hx)) (ih hparts)

end

/-- Of 31 entries allowed for each token, the least that the node or the token leaves for the nodes around it.
It leaves ten more if it has a token. -/
def Symbol.surplus : Symbol → Int
  | .token _ _ => 20
  | .node .compilationUnit => -12
  | .node .fieldDeclaration | .node .localVariableDeclaration => -8
  | .node .formalParameter | .node .catchParameter => -6
  | .node .classDeclaration | .node .variableDeclarator => -4
  | .node .modifierList | .node .variableDeclaratorId | .node .expressionStatement => -2
  | .node .arrayType | .node .arrayDimensions => 0
  | .node _ => 2

namespace Content

open Piece

variable {v : Symbol → Int} {m : Int} {P : Kind → Bool} {k : Kind}

theorem atLeast_nodeOf (h : ∀ k, P k = true → m ≤ v (.node k)) : AtLeast v m (nodeOf P) := by
  rintro _ ⟨k, hk, rfl⟩
  rw [weight_singleton]
  exact h k hk

theorem atLeast_operands : AtLeast Symbol.surplus 0 (nodeOf isOperand) :=
  atLeast_nodeOf fun k => by cases k <;> decide

theorem atLeast_types : AtLeast Symbol.surplus 0 (nodeOf Kind.isType) :=
  atLeast_nodeOf fun k => by cases k <;> decide

theorem atLeast_statements : AtLeast Symbol.surplus (-8) (nodeOf Category.statement.contains) :=
  atLeast_nodeOf fun k => by cases k <;> decide

theorem atLeast_wordOf : AtLeast Symbol.surplus 20 (wordOf P) := by
  rintro _ ⟨k, -, rfl⟩
  exact le_refl _

/-- What stands in a node makes up for the entries of the node. -/
theorem atLeast_content (hrun : isRun k = false) (herror : k ≠ .error) :
    AtLeast Symbol.surplus ((Symbol.node k).surplus + 2) (content false k) := by
  unfold content
  split
  any_goals exact atLeast_zero
  any_goals cases hrun
  any_goals exact absurd rfl herror
  any_goals simp only [Content.condition, value, typed, statement, semicolon, declarators, parameters,
    Content.resultType, operand, listed, dotted, due_false, junk_false]
  all_goals apply AtLeast.mono
  all_goals repeat' first
    | exact atLeast_nil
    | exact atLeast_singleton
    | exact atLeast_operands
    | exact atLeast_types
    | exact atLeast_statements
    | exact atLeast_wordOf
    | apply atLeast_add
    | apply atLeast_mul
    | apply atLeast_kstar
  all_goals decide

theorem atLeast_marks : AtLeast Symbol.surplus 0 marks := by
  intro w hw
  induction w with
  | nil => exact le_refl _
  | cons s w ih =>
    obtain ⟨⟨k, rfl⟩, hrest⟩ := List.forall_mem_cons.mp hw
    exact Int.add_nonneg (by decide : (0 : Int) ≤ 20) (ih hrest)

theorem atLeast_filled (h : P .compilationUnit = false) :
    AtLeast (fun s => s.surplus + 10) 2 (nodeOf P) := by
  refine atLeast_nodeOf fun k hk => ?_
  cases k with
  | compilationUnit => cases h.symm.trans hk
  | _ => decide

/-- Nodes that hold any number of others do so only of such that have tokens. -/
theorem atLeast_content_run (hrun : isRun k = true) :
    AtLeast (fun s => s.surplus + 10) ((Symbol.node k).surplus + 12) (content false k) := by
  unfold content
  split
  any_goals exact atLeast_zero
  any_goals cases hrun
  all_goals apply AtLeast.mono
  any_goals simp only [statement, due_false, junk_false]
  all_goals repeat' first
    | exact atLeast_nil
    | exact atLeast_singleton
    | exact atLeast_filled rfl
    | apply atLeast_add
    | apply atLeast_mul
    | apply atLeast_kstar
  all_goals decide

end Content

namespace Piece

/-- What is left of 31 entries for each token. -/
def credit (p : Piece) : Int := 31 * p.tokens.length - p.events.length

def creditOfAll (ps : List Piece) : Int := 31 * (tokensOfAll ps).length - (eventsOfAll ps).length

theorem credit_node (k : Kind) (parts : List Piece) : (node k parts).credit = creditOfAll parts - 2 := by
  have hlength : (node k parts).events.length = (eventsOfAll parts).length + 2 := by
    simp [events]
  rw [credit, creditOfAll, tokens, hlength]
  omega

theorem creditOfAll_cons (p : Piece) (ps : List Piece) : creditOfAll (p :: ps) = p.credit + creditOfAll ps := by
  simp only [creditOfAll, credit, tokensOfAll, eventsOfAll, List.length_append]
  omega

theorem weight_symbols_cons (v : Symbol → Int) (p : Piece) (ps : List Piece) :
    weight v (symbols (p :: ps)) = v p.symbol + weight v (symbols ps) := rfl

/-- The entries of a piece are paid for by its tokens, but for what the nodes around it make up for. -/
structure Afforded (p : Piece) : Prop where
  least : p.symbol.surplus ≤ p.credit
  more : p.tokens ≠ [] → p.symbol.surplus + 10 ≤ p.credit

/-- Pieces side by side. One with a token is enough for ten more, and where each has one, each leaves them. -/
structure AllAfforded (ps : List Piece) : Prop where
  least : weight Symbol.surplus (symbols ps) ≤ creditOfAll ps
  more : tokensOfAll ps ≠ [] → weight Symbol.surplus (symbols ps) + 10 ≤ creditOfAll ps
  most : (∀ p ∈ ps, p.tokens ≠ []) → weight (fun s => s.surplus + 10) (symbols ps) ≤ creditOfAll ps

variable {p : Piece} {ps parts : List Piece} {k : Kind} {after : List Token} {found : List (Option Token)}

theorem Afforded.of_more (h : p.symbol.surplus + 10 ≤ p.credit) : p.Afforded := ⟨by omega, fun _ => h⟩

theorem afforded_token (t : Token) (i : Bool) : (token t i).Afforded :=
  .of_more (by decide : (20 : Int) + 10 ≤ 30)

theorem allAfforded_nil : AllAfforded [] := ⟨le_refl _, nofun, fun _ => le_refl _⟩

theorem AllAfforded.cons (hp : p.Afforded) (hps : AllAfforded ps) : AllAfforded (p :: ps) where
  least := by
    rw [creditOfAll_cons, weight_symbols_cons]
    exact Int.add_le_add hp.least hps.least
  more := by
    intro h
    rw [creditOfAll_cons, weight_symbols_cons]
    have hleast := hp.least
    have hleasts := hps.least
    change p.tokens ++ tokensOfAll ps ≠ [] at h
    by_cases htokens : p.tokens = []
    · rw [htokens] at h
      have hmore := hps.more h
      omega
    · have hmore := hp.more htokens
      omega
  most := by
    intro h
    obtain ⟨htokens, h⟩ := List.forall_mem_cons.mp h
    rw [creditOfAll_cons, weight_symbols_cons]
    exact Int.add_le_add (hp.more htokens) (hps.most h)

theorem Afforded.run (hrun : isRun k = true) (hcontent : symbols parts ∈ content false k)
    (hfilled : ∀ p ∈ parts, p.tokens ≠ []) (h : AllAfforded parts) : (Piece.node k parts).Afforded := by
  have hmost := h.most hfilled
  have hsum := Content.atLeast_content_run hrun _ hcontent
  refine .of_more ?_
  rw [credit_node, symbol]
  omega

/-- An error has a token, which pays for more than the node. -/
theorem Afforded.error (hcontent : symbols parts ∈ Content.marks) (hstart : StartsAt found parts)
    (h : AllAfforded parts) : (Piece.node .error parts).Afforded := by
  obtain ⟨t, i, more, rfl, _⟩ := hstart
  have hmore := h.more nofun
  have hmarks := Content.atLeast_marks (symbols more) fun s hs => hcontent s (List.mem_cons_of_mem _ hs)
  rw [weight_symbols_cons] at hmore
  change 20 + _ + 10 ≤ _ at hmore
  refine .of_more ?_
  rw [credit_node]
  change (2 : Int) + 10 ≤ _
  omega

theorem Afforded.node (hcontent : symbols parts ∈ content false k)
    (hflagged : k = .error → StartsAt found parts) (hfilled : isRun k = true → ∀ p ∈ parts, p.tokens ≠ [])
    (h : AllAfforded parts) : (Piece.node k parts).Afforded := by
  by_cases hrun : isRun k = true
  · exact .run hrun hcontent (hfilled hrun) h
  · by_cases herror : k = .error
    · subst herror
      exact .error hcontent (hflagged rfl) h
    · have hsum := Content.atLeast_content (Bool.eq_false_iff.mpr hrun) herror _ hcontent
      have hleast := h.least
      refine ⟨?_, fun htokens => ?_⟩
      · rw [credit_node, symbol]
        omega
      · have hmore := h.more htokens
        rw [credit_node, symbol]
        omega

mutual

theorem Sound.afforded : ∀ {p : Piece} {after : List Token}, p.Formed false → p.Sound found after → p.Afforded
  | .token t i, _, _, _ => afforded_token t i
  | .node _ _, _, ⟨⟨hcontent, _⟩, hparts⟩, ⟨h, hsound⟩ =>
    .node hcontent h.flagged h.filled (AllSound.afforded hparts hsound)

theorem AllSound.afforded : ∀ {ps : List Piece} {after : List Token}, AllFormed false ps →
    AllSound found after ps → AllAfforded ps
  | [], _, _, _ => allAfforded_nil
  | _ :: _, _, ⟨hp, hps⟩, ⟨h, hs⟩ => .cons (Sound.afforded hp h) (AllSound.afforded hps hs)

end

end Piece

namespace Grammar

open Piece

variable {ts : List Token} {s : Step ts} {k : Kind} {parts : List Piece} {l : Language Symbol}

end Grammar

end JavaSyntax
