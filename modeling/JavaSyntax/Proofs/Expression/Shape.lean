import JavaSyntax.Proofs.Expression.Syntax
import JavaSyntax.Proofs.Parse.Total

namespace JavaSyntax

namespace Branch

theorem unplacedAll_append (bs cs : List Branch) :
    unplacedAll (bs ++ cs) = unplacedAll bs ++ unplacedAll cs := by
  induction bs with
  | nil => rfl
  | cons b bs ih => simp only [List.cons_append, unplacedAll, ih]

theorem kind_unplaced (b : Branch) : b.unplaced.kind = b.kind := by
  cases b
  rfl

theorem unplaced_read (b : Branch) (r : Reading) : (b.read r).unplaced = b.unplaced.read r := by
  cases b
  cases r <;> rfl

/-- Settling a name does not depend on places. -/
theorem unplaced_settleFirst (b : Branch) : b.settleFirst.unplaced = b.unplaced.settleFirst := by
  obtain ⟨k, image, span, children⟩ := b
  cases children with
  | nil => rfl
  | cons c cs =>
    simp only [settleFirst, unplaced, unplacedAll, unplaced_read, kind_unplaced]

theorem settleFirst_bare {k : Kind} (hk : Piece.isQualified k = false) (image : Option String)
    (bs : List Branch) : (bare k image bs).settleFirst = bare k image bs := by
  cases bs with
  | nil => rfl
  | cons b bs =>
    simp only [Piece.isQualified, Bool.or_eq_false_iff, beq_eq_false_iff_ne] at hk
    simp only [settleFirst, bare, Reading.ofNode_eq_kept hk.1.1 hk.1.2 hk.2, read]

theorem kind_settleFirst (b : Branch) : b.settleFirst.kind = b.kind := by
  unfold settleFirst
  split <;> rfl

end Branch

namespace Piece

/-- The texts that make up the payload of the node around the pieces. -/
def imageTexts : List Piece → List String
  | [] => []
  | .token t true :: ps => t.text :: imageTexts ps
  | _ :: ps => imageTexts ps

theorem imageTexts_append (ps qs : List Piece) :
    imageTexts (ps ++ qs) = imageTexts ps ++ imageTexts qs := by
  induction ps with
  | nil => rfl
  | cons p ps ih =>
    rcases p with ⟨t, _ | _⟩ | ⟨k, parts⟩
    · exact ih
    · exact congrArg _ ih
    · exact ih

/-- All texts in one, if there are any. -/
def joined : List String → Option String
  | [] => none
  | s :: ss => some (ss.foldl (· ++ ·) s)

theorem payload_some (s : String) (ps : List Piece) :
    payload (some s) ps = some ((imageTexts ps).foldl (· ++ ·) s) := by
  induction ps generalizing s with
  | nil => rfl
  | cons p ps ih =>
    rcases p with ⟨t, _ | _⟩ | ⟨k, parts⟩
    · exact ih s
    · exact ih (s ++ t.text)
    · exact ih s

theorem payload_none (ps : List Piece) : payload none ps = joined (imageTexts ps) := by
  induction ps with
  | nil => rfl
  | cons p ps ih =>
    rcases p with ⟨t, _ | _⟩ | ⟨k, parts⟩
    · exact ih
    · simp [payload, payload_some, imageTexts, joined]
    · exact ih

mutual

/-- The nodes of a piece without their places, with the names settled. -/
def shape : Piece → List Branch
  | .token _ _ => []
  | .node k parts => [(Branch.bare k (joined (imageTexts parts)) (shapes parts)).settleFirst]

def shapes : List Piece → List Branch
  | [] => []
  | p :: ps => p.shape ++ shapes ps

end

theorem shape_node {k : Kind} (hk : isQualified k = false) (parts : List Piece) :
    (Piece.node k parts).shape = [.bare k (joined (imageTexts parts)) (shapes parts)] := by
  rw [shape, Branch.settleFirst_bare hk]

theorem shapes_append (ps qs : List Piece) : shapes (ps ++ qs) = shapes ps ++ shapes qs := by
  induction ps with
  | nil => rfl
  | cons p ps ih => simp only [List.cons_append, shapes, ih, List.append_assoc]

mutual

theorem unplacedAll_branch : ∀ (p : Piece) (gap : Nat),
    Branch.unplacedAll (Branch.rebuiltAll Branch.settleFirst (p.branch gap)) = p.shape
  | .token _ _, _ => rfl
  | .node k parts, gap => by
    simp only [branch, Branch.rebuiltAll, Branch.rebuilt, Branch.unplacedAll,
      Branch.unplaced_settleFirst, Branch.unplaced, unplacedAll_branches parts, payload_none]
    rfl

theorem unplacedAll_branches : ∀ (ps : List Piece) (gap : Nat),
    Branch.unplacedAll (Branch.rebuiltAll Branch.settleFirst (branches gap ps)) = shapes ps
  | [], _ => rfl
  | p :: ps, gap => by
    rw [branches, Branch.rebuiltAll_append, Branch.unplacedAll_append, unplacedAll_branch p,
      unplacedAll_branches ps, shapes]

end

/-- Whatever the places are, the settled tree has the shape of its pieces. -/
theorem unplaced_disambiguated (k : Kind) (parts : List Piece) :
    (tree k parts).disambiguated.unplaced =
      (Branch.bare k (joined (imageTexts parts)) (shapes parts)).settleFirst := by
  rw [tree, Branch.disambiguated, Branch.rebuilt, Branch.unplaced_settleFirst, Branch.unplaced,
    unplacedAll_branches, payload_none]
  rfl

end Piece

end JavaSyntax
