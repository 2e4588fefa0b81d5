import JavaSyntax.Proofs.Expression.Shape
import JavaSyntax.Proofs.Expression.Words

namespace JavaSyntax

namespace TypeSyntax

theorem kind_withDimensions (element : Branch) (n : Nat) :
    (withDimensions element n).kind = element.kind ∨
      (withDimensions element n).kind = .arrayType := by
  unfold withDimensions
  split
  · exact .inl rfl
  · exact .inr rfl

theorem isType_tree (t : TypeSyntax) : t.tree.kind.isType = true := by
  cases t with
  | primitive p n | named name n | generic name arguments n =>
    rw [tree]
    rcases kind_withDimensions _ n with h | h
    all_goals
      rw [h]
      rfl

theorem span_tree (t : TypeSyntax) : t.tree.span = default := by
  cases t with
  | primitive p n | named name n | generic name arguments n =>
    rw [tree, withDimensions]
    split <;> rfl

theorem tree_ne_ambiguousName (t : TypeSyntax) : t.tree.kind ≠ .ambiguousName := by
  intro h
  have := t.isType_tree
  rw [h] at this
  cases this

/-- A type in front of `.class` stays as it is. -/
theorem settleFirst_classLiteral (t : TypeSyntax) :
    (Branch.bare .classLiteral none [t.tree]).settleFirst = .bare .classLiteral none [t.tree] := by
  simp [Branch.settleFirst, Branch.bare, Reading.ofNode, t.tree_ne_ambiguousName, Branch.read]

/-- A type in front of `::` becomes an expression. -/
theorem settleFirst_methodReference (t : TypeSyntax) (image : Option String) (bs : List Branch) :
    (Branch.bare .methodReference image (t.tree :: bs)).settleFirst =
      .bare .methodReference image (.bare .typeExpression none [t.tree] :: bs) := by
  simp [Branch.settleFirst, Branch.bare, Reading.ofNode, t.tree_ne_ambiguousName, t.isType_tree,
    Branch.read, Branch.wrapped, t.span_tree]

end TypeSyntax

/-- The keyword is no identifier. -/
theorem Identifier.text_ne_new (i : Identifier) : i.text ≠ "new" := by
  intro hnew
  obtain ⟨c, cs, htext, -, hkind, -⟩ := i.lexes.reads
  have hchars : i.text.toList = ['n', 'e', 'w'] := by
    rw [hnew]
    rfl
  obtain ⟨rfl, rfl⟩ := List.cons.inj (hchars.symm.trans htext)
  have hkind : (Lexeme.read 'n' ['e', 'w']).1 = .ident := hkind
  exact absurd hkind (by decide)

namespace Term

/-- The qualifier of a method reference is settled by what it refers to. -/
theorem settleFirst_reference (q : Term) (target : ReferenceTarget) (bs : List Branch) :
    (Branch.bare .methodReference (some target.word.text) (q.tree :: bs)).settleFirst =
      .bare .methodReference (some target.word.text) (qualifierTree target q q.tree :: bs) := by
  cases q with
  | name n =>
    cases target with
    | constructor => rfl
    | method f =>
      simp [Branch.settleFirst, Branch.bare, Reading.ofNode, tree, ReferenceTarget.word, f.text_ne_new,
        Branch.read, qualifierTree, Kind.isType]
  | _ => cases target <;> rfl

end Term

end JavaSyntax
