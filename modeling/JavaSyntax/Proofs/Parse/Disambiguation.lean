import JavaSyntax.Proofs.Parse.Total

namespace JavaSyntax

namespace Piece

mutual

theorem ne_tombstone_branch : ∀ (p : Piece) (gap : Nat), p.Proper →
    ∀ b ∈ Branch.subtreesOfAll (p.branch gap), b.kind ≠ .tombstone
  | .token _ _, _, _, b, hb => by cases hb
  | .node k parts, gap, ⟨hk, hp⟩, b, hb => by
    rw [branch, Branch.subtreesOfAll, Branch.subtreesOfAll, List.append_nil] at hb
    rcases List.mem_cons.mp hb with rfl | hb
    · exact hk.ne_tombstone
    · exact ne_tombstone_branches parts _ hp b hb

theorem ne_tombstone_branches : ∀ (ps : List Piece) (gap : Nat), AllProper ps →
    ∀ b ∈ Branch.subtreesOfAll (branches gap ps), b.kind ≠ .tombstone
  | [], _, _, b, hb => by cases hb
  | p :: ps, gap, ⟨hp, hps⟩, b, hb => by
    rw [branches, Branch.subtreesOfAll_append] at hb
    rcases List.mem_append.mp hb with hb | hb
    · exact ne_tombstone_branch p _ hp b hb
    · exact ne_tombstone_branches ps gap hps b hb

end

theorem ne_tombstone_tree {k : Kind} {parts : List Piece} (hp : (Piece.node k parts).Proper) :
    ∀ b ∈ (tree k parts).subtrees, b.kind ≠ .tombstone := by
  intro b hb
  rcases List.mem_cons.mp hb with rfl | hb
  · exact hp.1.ne_tombstone
  · exact ne_tombstone_branches parts _ hp.2 b hb

end Piece

theorem Branch.lasting_ne_tombstone : Lasting fun b => b.kind ≠ .tombstone :=
  ⟨fun _ _ _ _ _ _ h => h, fun _ _ => by simp [named], fun _ _ => by simp [wrapped]⟩

/-- The tree of a file is the tree built without a finalizer, with its names settled afterwards.
The errors are the same, settling once more changes nothing, and no placeholder is left. -/
theorem parse_eq_disambiguated (text : String) : ∃ p q,
    parse text = .ok p ∧ parseWith text .inert () = .ok (q, ()) ∧ p.errors = q.errors ∧
      p.tree = .ofBranch text q.tree.root.disambiguated ∧
      p.tree.root.disambiguated = p.tree.root ∧
      ∀ b ∈ p.tree.root.subtrees, b.kind ≠ .tombstone := by
  refine ⟨_, _, parse_eq text, parseWith_inert text, rfl, rfl, Branch.disambiguated_idem _, ?_⟩
  exact Branch.lasting_ne_tombstone.disambiguated _
    (Piece.ne_tombstone_tree (holds_fileParts text).proper)

end JavaSyntax
