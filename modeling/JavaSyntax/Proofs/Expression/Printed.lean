import JavaSyntax.Proofs.Expression.Words

namespace JavaSyntax

@[simp] theorem Word.isToken_fixed :
    dot.IsToken ∧ comma.IsToken ∧ leftParen.IsToken ∧ rightParen.IsToken ∧ leftBracket.IsToken ∧
      rightBracket.IsToken ∧ lt.IsToken ∧ gt.IsToken ∧ colonColon.IsToken ∧ thisKw.IsToken ∧
      classKw.IsToken ∧ newKw.IsToken := by
  refine ⟨?_, ?_, ?_, ?_, ?_, ?_, ?_, ?_, ?_, ?_, ?_, ?_⟩
  all_goals exact Word.isToken_of_readsBack (by decide)

theorem Identifier.isToken (i : Identifier) : i.word.IsToken :=
  ⟨by simp, i.lexes.reads⟩

theorem LiteralText.isToken (l : LiteralText) : l.word.IsToken := by
  refine ⟨?_, l.lexes.reads⟩
  intro hunknown
  have hliteral := l.isLiteral
  rw [show l.kind = .unknown from hunknown] at hliteral
  exact absurd hliteral (by decide)

theorem Primitive.isToken (p : Primitive) : p.word.IsToken := by
  cases p <;> exact Word.isToken_of_readsBack (by decide)

theorem UnaryOperator.isToken (o : UnaryOperator) : o.word.IsToken := by
  cases o <;> exact Word.isToken_of_readsBack (by decide)

theorem BinaryOperator.isToken (o : BinaryOperator) : o.word.IsToken := by
  cases o <;> exact Word.isToken_of_readsBack (by decide)

theorem AssignmentOperator.isToken (o : AssignmentOperator) : o.word.IsToken := by
  cases o <;> exact Word.isToken_of_readsBack (by decide)

theorem ReferenceTarget.isToken : ∀ t : ReferenceTarget, t.word.IsToken
  | .method name => name.isToken
  | .constructor => by simp [word]

theorem DottedName.isToken (n : DottedName) : ∀ w ∈ n.words, w.IsToken := by
  simp only [words, List.forall_mem_cons, List.forall_mem_flatMap]
  refine ⟨n.first.isToken, ?_⟩
  intro i _
  simpa using i.isToken

namespace TypeSyntax

theorem isToken_dimensionWords (n : Nat) : ∀ w ∈ dimensionWords n, w.IsToken := by
  induction n with
  | zero => simp [dimensionWords]
  | succ n ih => simpa [dimensionWords] using ih

mutual

theorem isToken : ∀ t : TypeSyntax, ∀ w ∈ t.words, w.IsToken
  | .primitive p n => by simpa [words] using ⟨p.isToken, isToken_dimensionWords n⟩
  | .named name n => by
    simpa [words, or_imp, forall_and] using ⟨name.isToken, isToken_dimensionWords n⟩
  | .generic name arguments n => by
    simpa [words, or_imp, forall_and] using
      ⟨name.isToken, isToken_arguments arguments, isToken_dimensionWords n⟩

theorem isToken_arguments : ∀ ts : List TypeSyntax, ∀ w ∈ argumentWords ts, w.IsToken
  | [] => by simp [argumentWords]
  | t :: ts => by
    simpa [argumentWords, or_imp, forall_and] using ⟨isToken t, isToken_more ts⟩

theorem isToken_more : ∀ ts : List TypeSyntax, ∀ w ∈ moreWords ts, w.IsToken
  | [] => by simp [moreWords]
  | t :: ts => by simpa [moreWords, or_imp, forall_and] using ⟨isToken t, isToken_more ts⟩

end

end TypeSyntax

theorem GenericArguments.isToken : ∀ a : GenericArguments, ∀ w ∈ a.words, w.IsToken
  | none => by simp [words]
  | some ts => by
    simpa [words, or_imp, forall_and] using TypeSyntax.isToken_arguments ts

namespace Term

mutual

theorem isToken : ∀ e : Term, ∀ w ∈ e.words, w.IsToken
  | .literal l => by simpa [words] using l.isToken
  | .this => by simp [words]
  | .name n => n.isToken
  | .outerThis n | .nameClass n => by simpa [words, or_imp, forall_and] using n.isToken
  | .typeClass t => by simpa [words, or_imp, forall_and] using t.isToken
  | .parens e => by simpa [words, or_imp, forall_and] using e.isToken
  | .construct n typeArguments arguments => by
    simpa [words, or_imp, forall_and] using
      ⟨n.isToken, typeArguments.isToken, isToken_arguments arguments⟩
  | .call f arguments => by
    simpa [words, or_imp, forall_and] using ⟨f.isToken, isToken_arguments arguments⟩
  | .callOn q f arguments => by
    simpa [words, or_imp, forall_and] using ⟨q.isToken, f.isToken, isToken_arguments arguments⟩
  | .field q f => by simpa [words, or_imp, forall_and] using ⟨q.isToken, f.isToken⟩
  | .reference q typeArguments target => by
    simpa [words, or_imp, forall_and] using ⟨q.isToken, typeArguments.isToken, target.isToken⟩
  | .typeReference t typeArguments target => by
    simpa [words, or_imp, forall_and] using ⟨t.isToken, typeArguments.isToken, target.isToken⟩
  | .unary o e => by simpa [words] using ⟨o.isToken, e.isToken⟩
  | .binary o l r => by
    simpa [words, or_imp, forall_and] using ⟨l.isToken, o.isToken, r.isToken⟩
  | .assign o l r => by
    simpa [words, or_imp, forall_and] using ⟨l.isToken, o.isToken, r.isToken⟩

theorem isToken_arguments : ∀ es : List Term, ∀ w ∈ argumentWords es, w.IsToken
  | [] => by simp [argumentWords]
  | e :: es => by simpa [argumentWords, or_imp, forall_and] using ⟨e.isToken, isToken_more es⟩

theorem isToken_more : ∀ es : List Term, ∀ w ∈ moreWords es, w.IsToken
  | [] => by simp [moreWords]
  | e :: es => by simpa [moreWords, or_imp, forall_and] using ⟨e.isToken, isToken_more es⟩

end

end Term

/-- What is printed is read as the words of the term. -/
theorem Term.spelled_print (e : Term) : Word.Spelled e.words (significantTokens e.print) :=
  Word.spelled_significantTokens e.isToken

end JavaSyntax
