import JavaSyntax.Proofs.Grammar.DeclarationLocal
import JavaSyntax.Proofs.Grammar.Avoided
import JavaSyntax.Proofs.Parse.Nodes
import JavaSyntax.Proofs.Parse.Shifted

namespace JavaSyntax

open Piece Grammar

/-- Every piece of a file covers a token. -/
theorem Grammar.tokens_ne_nil_of_mem_classDeclarations (ts : List Token) :
    ∀ p ∈ (classDeclarations ts).parts, p.tokens ≠ [] := by
  cases ts with
  | nil =>
    rw [classDeclarations]
    intro p hp
    cases hp
  | cons t r =>
    rw [classDeclarations]
    split
    · next h =>
      have hfirst : tokensOfAll (classDeclaration (t :: r)).parts ≠ [] := by
        intro hnil
        have htokens := (reads_classDeclaration (t :: r)).tokens_eq
        have hlt := length_rest_classDeclaration_lt (r := r) h
        rw [hnil, List.nil_append, List.nil_append] at htokens
        have hlength := congrArg List.length htokens
        rw [List.length_cons] at hlength
        omega
      have hone : ∀ p ∈ (classDeclaration (t :: r)).parts, p.tokens ≠ [] := by
        rintro _ hp
        rw [List.mem_singleton.mp hp]
        exact fun hnil => hfirst (List.append_eq_nil_iff.mpr ⟨hnil, rfl⟩)
      exact List.forall_mem_append.mpr ⟨hone, tokens_ne_nil_of_mem_classDeclarations _⟩
    · have hone : ∀ p ∈ (Step.skip .classDeclaration t r).parts, p.tokens ≠ [] := by
        rintro _ hp
        rw [List.mem_singleton.mp hp]
        exact List.cons_ne_nil _ _
      exact List.forall_mem_append.mpr ⟨hone, tokens_ne_nil_of_mem_classDeclarations r⟩
termination_by ts.length
decreasing_by all_goals grind [length_rest_classDeclaration_lt]

/-- A text without errors has no unknown tokens. -/
theorem known_of_no_errors {text : String} {p : Parse}
    (hp : parse text = .ok p ∨ parseExpression text = .ok p) (he : p.errors = []) :
    ∀ t ∈ significantTokens text, t.kind ≠ .unknown := by
  obtain ⟨k, parts, hholds, hformed, -⟩ := @exists_holds true text p hp fun _ => he
  rw [← hholds.tokens]
  exact known_of_formed hformed.2 fun i => Content.avoids_unknown k i _ hformed.1.1

/-- No piece of a file is placed by what comes behind it. -/
theorem children_file (text : String) (gap : Nat) :
    (tree .compilationUnit (fileParts text)).disambiguated.children =
      (branches gap (fileParts text)).map Branch.disambiguated := by
  rw [tree, Branch.disambiguated_mk rfl]
  exact congrArg _ (branches_of_tokens (tokens_ne_nil_of_mem_classDeclarations _) _ _)

/-- A file behind a file without errors and a line end. -/
theorem parse_append {a : String} {p : Parse} (ha : parse a = .ok p) (he : p.errors = [])
    (hopen : ¬ EndsInComment a) (b : String) :
    ∃ q r, parse b = .ok q ∧ parse (a ++ "\n" ++ b) = .ok r ∧
      r.tree.root.children = p.tree.root.children ++
        q.tree.root.children.map (Branch.shift (a.utf8ByteSize + 1)) ∧
      r.errors = q.errors.map (Diagnostic.shift (a.utf8ByteSize + 1)) := by
  have htokens := significantTokens_newline b (known_of_no_errors (.inl ha) he) hopen
  rw [parse_eq] at ha
  cases ha
  have hclean : (classDeclarations (significantTokens a)).problems = [] := List.map_eq_nil_iff.mp he
  obtain ⟨hparts, hproblems⟩ := classDeclarations_append
    ((significantTokens b).map (Token.shift (a.utf8ByteSize + 1))) hclean
  have along := along_classDeclarations (Token.moves_shift (a.utf8ByteSize + 1)).toKeepsKinds
    (significantTokens b)
  rw [← htokens] at hparts hproblems
  rw [along.parts] at hparts
  rw [along.problems] at hproblems
  refine ⟨_, _, parse_eq b, parse_eq _, ?_, ?_⟩
  · have hall : fileParts (a ++ "\n" ++ b) =
        fileParts a ++ movedAll (Token.shift (a.utf8ByteSize + 1)) (fileParts b) := hparts
    have hshift : Branch.disambiguated ∘ Branch.shift (a.utf8ByteSize + 1) =
        Branch.shift (a.utf8ByteSize + 1) ∘ Branch.disambiguated :=
      funext (Branch.disambiguated_shift _)
    change (tree .compilationUnit (fileParts (a ++ "\n" ++ b))).disambiguated.children =
      (tree .compilationUnit (fileParts a)).disambiguated.children ++
        (tree .compilationUnit (fileParts b)).disambiguated.children.map _
    rw [children_file _ (0 + (a.utf8ByteSize + 1)), hall, branches_append, branches_shift,
      Branch.shiftAll_eq_map, List.map_append, List.map_map, hshift, ← List.map_map,
      ← children_file b 0, ← children_file a]
  · have hsize : (a ++ "\n" ++ b).utf8ByteSize = b.utf8ByteSize + (a.utf8ByteSize + 1) := by
      have hnewline : "\n".utf8ByteSize = 1 := by decide
      rw [String.utf8ByteSize_append, String.utf8ByteSize_append, hnewline, Nat.add_comm]
    have hdiagnostic : Problem.diagnostic (a ++ "\n" ++ b) ∘
          Problem.moved (Token.shift (a.utf8ByteSize + 1)) =
        Diagnostic.shift (a.utf8ByteSize + 1) ∘ Problem.diagnostic b :=
      funext (diagnostic_shift hsize)
    change (classDeclarations (significantTokens (a ++ "\n" ++ b))).problems.map _ =
      ((classDeclarations (significantTokens b)).problems.map _).map _
    rw [hproblems, List.map_map, hdiagnostic, List.map_map]

/-- A class with an error in it behind another class. -/
theorem parse_append_field :
    let a := "class A \x7b int x; \x7d"
    let b := "class B \x7b int y = ; \x7d"
    ∃ p, parse a = .ok p ∧ p.errors = [] ∧ ¬ EndsInComment a ∧
      ∃ q r, parse b = .ok q ∧ parse (a ++ "\n" ++ b) = .ok r ∧
        r.tree.root.children = p.tree.root.children ++
          q.tree.root.children.map (Branch.shift (a.utf8ByteSize + 1)) ∧
        r.errors = q.errors.map (Diagnostic.shift (a.utf8ByteSize + 1)) := by
  intro a b
  have hproblems : (compilationUnit (significantTokens a)).problems = [] := by decide +kernel
  have herrors : (compilationUnit (significantTokens a)).problems.map (Problem.diagnostic a) = [] :=
    List.map_eq_nil_iff.mpr hproblems
  have hopen : ¬ EndsInComment a := not_endsInComment (by decide +kernel)
  exact ⟨_, parse_eq a, herrors, hopen, parse_append (parse_eq a) herrors hopen b⟩

end JavaSyntax
