import JavaSyntax.Proofs.Parse.TypeNames
import JavaSyntax.Proofs.Recording.Replay
import JavaSyntax.Proofs.Type.Field
import JavaSyntax.Proofs.View.WrittenType

namespace JavaSyntax

variable {t : Tree}

namespace TypeSyntax

/-- The kinds of the nodes of types. -/
def nodeKinds : List Kind :=
  [.primitiveType, .classType, .arrayType, .arrayDimensions, .arrayTypeDim, .typeArguments]

theorem kinds_withDimensions {element : Branch} (h : ∀ k ∈ element.kinds, k ∈ nodeKinds) (n : Nat) :
    ∀ k ∈ (withDimensions element n).kinds, k ∈ nodeKinds := by
  unfold withDimensions
  split
  · exact h
  · have hdimension : ∀ b ∈ List.replicate n (Branch.bare .arrayTypeDim (some "[]") []),
        ∀ k ∈ b.kinds, k ∈ nodeKinds := by
      intro b hb
      rw [List.eq_of_mem_replicate hb]
      decide
    simp only [Branch.kinds_bare, List.flatMap_cons, List.flatMap_nil, List.append_nil,
      List.forall_mem_cons, List.forall_mem_append, List.forall_mem_flatMap]
    exact ⟨by decide, h, by decide, hdimension⟩

mutual

theorem kinds_tree : ∀ s : TypeSyntax, ∀ k ∈ s.tree.kinds, k ∈ nodeKinds
  | .primitive p n => kinds_withDimensions (by simp [nodeKinds]) n
  | .named name n => kinds_withDimensions (by simp [nodeKinds]) n
  | .generic name arguments n => by
    refine kinds_withDimensions ?_ n
    simpa [nodeKinds, or_imp, forall_and] using kinds_trees arguments

theorem kinds_trees : ∀ ss : List TypeSyntax, ∀ k ∈ (trees ss).flatMap Branch.kinds, k ∈ nodeKinds
  | [] => by simp [trees]
  | s :: ss => by
    rw [trees, List.flatMap_cons, List.forall_mem_append]
    exact ⟨kinds_tree s, kinds_trees ss⟩

end

end TypeSyntax

section

variable {type : Branch}

end

end JavaSyntax
