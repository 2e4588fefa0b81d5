import JavaSyntax.Proofs.Parse.Trivia
import JavaSyntax.Proofs.Token.Append

namespace JavaSyntax

namespace Span

/-- The span that many bytes further on. -/
def shift (n : Nat) (s : Span) : Span :=
  ⟨s.start + n, s.stop + n, Nat.add_le_add_right s.start_le_stop n⟩

theorem shift_cover (n : Nat) (s t : Span) : (s.cover t).shift n = (s.shift n).cover (t.shift n) := by
  have hstart := Nat.add_min_add_right s.start t.start n
  have hstop := Nat.add_max_add_right s.stop t.stop n
  simp only [shift, cover, hstart, hstop]

theorem shift_empty (n o : Nat) : (empty o).shift n = empty (o + n) := rfl

end Span

theorem Token.span_shift (n : Nat) (t : Token) : (t.shift n).span = t.span.shift n := by
  simp only [Token.span, Token.shift, Span.ofLength, Span.shift, Nat.add_right_comm]

theorem Token.moves_shift (n : Nat) : Moves (Token.shift n) := ⟨⟨fun _ => rfl⟩, fun _ => rfl⟩

/-- The same message about a place further on. -/
def Diagnostic.shift (n : Nat) (e : Diagnostic) : Diagnostic := ⟨e.message, e.span.shift n⟩

namespace Branch

mutual

/-- The tree with all its nodes that many bytes further on. -/
def shift (n : Nat) : Branch → Branch
  | ⟨kind, image, span, children⟩ => ⟨kind, image, span.shift n, shiftAll n children⟩

def shiftAll (n : Nat) : List Branch → List Branch
  | [] => []
  | b :: bs => b.shift n :: shiftAll n bs

end

theorem shiftAll_eq_map (n : Nat) (bs : List Branch) : shiftAll n bs = bs.map (shift n) := by
  induction bs with
  | nil => rfl
  | cons b bs ih => rw [shiftAll, ih, List.map_cons]

theorem shift_read (n : Nat) (b : Branch) (r : Reading) : (b.shift n).read r = (b.read r).shift n := by
  obtain ⟨k, image, span, children⟩ := b
  cases r <;> rfl

theorem shift_settleFirst (n : Nat) (b : Branch) :
    (b.shift n).settleFirst = b.settleFirst.shift n := by
  obtain ⟨k, image, span, _ | ⟨c, cs⟩⟩ := b
  · rfl
  · have hkind : (c.shift n).kind = c.kind := by cases c; rfl
    simp only [shift, shiftAll, settleFirst, hkind, shift_read]

mutual

/-- Where a tree stands does not matter for settling its names. -/
theorem disambiguated_shift (n : Nat) : ∀ b : Branch,
    (b.shift n).disambiguated = b.disambiguated.shift n
  | ⟨k, image, span, children⟩ => by
    have h := shift_settleFirst n ⟨k, image, span, rebuiltAll settleFirst children⟩
    rw [shift, ← rebuiltAll_shiftAll n children] at h
    exact h

theorem rebuiltAll_shiftAll (n : Nat) : ∀ bs : List Branch,
    rebuiltAll settleFirst (shiftAll n bs) = shiftAll n (rebuiltAll settleFirst bs)
  | [] => rfl
  | b :: bs => by
    have h : (b.shift n).rebuilt settleFirst = (b.rebuilt settleFirst).shift n :=
      disambiguated_shift n b
    rw [shiftAll, rebuiltAll, rebuiltAll, shiftAll, h, rebuiltAll_shiftAll n bs]

end

theorem rebuiltAll_eq_map (bs : List Branch) :
    rebuiltAll settleFirst bs = bs.map disambiguated := by
  induction bs with
  | nil => rfl
  | cons b bs ih => rw [rebuiltAll, ih, List.map_cons]; rfl

/-- A node that gives its first child no meaning of its own is kept. -/
theorem disambiguated_mk {k : Kind} (hk : Piece.isQualified k = false) (image : Option String)
    (span : Span) (cs : List Branch) :
    disambiguated ⟨k, image, span, cs⟩ = ⟨k, image, span, cs.map disambiguated⟩ := by
  rw [disambiguated, rebuilt, rebuiltAll_eq_map]
  cases cs with
  | nil => rfl
  | cons c cs =>
    simp only [Piece.isQualified, Bool.or_eq_false_iff, beq_eq_false_iff_ne] at hk
    simp only [List.map_cons, settleFirst, Reading.ofNode_eq_kept hk.1.1 hk.1.2 hk.2, read]
    rfl

theorem children_disambiguated {b : Branch} (hk : Piece.isQualified b.kind = false) :
    b.disambiguated.children = b.children.map disambiguated := by
  obtain ⟨k, image, span, cs⟩ := b
  rw [disambiguated_mk hk]

end Branch

namespace Piece

open Branch (shiftAll)

theorem hull_shift (n : Nat) (ss : List Span) :
    Draft.hull (ss.map (Span.shift n)) = (Draft.hull ss).map (Span.shift n) := by
  have hfold : ∀ (ss : List Span) (s : Span),
      (ss.map (Span.shift n)).foldl Span.cover (s.shift n) = (ss.foldl Span.cover s).shift n := by
    intro ss
    induction ss with
    | nil => exact fun _ => rfl
    | cons t ss ih =>
      intro s
      rw [List.map_cons, List.foldl_cons, ← Span.shift_cover, ih, List.foldl_cons]
  cases ss with
  | nil => rfl
  | cons s ss => exact congrArg some (hfold ss s)

theorem cover_shift (n : Nat) (ps : List Piece) :
    cover (movedAll (Token.shift n) ps) = (cover ps).map (Span.shift n) := by
  rw [cover, cover, ← hull_shift, tokensOfAll_movedAll, List.map_map, List.map_map]
  congr 1
  exact List.map_congr_left fun t _ => t.span_shift n

theorem firstStart_shift (n : Nat) (ts : List Token) (gap : Nat) :
    (firstStart (ts.map (Token.shift n))).getD (gap + n) = (firstStart ts).getD gap + n := by
  cases ts <;> rfl

mutual

theorem branch_shift (n gap : Nat) : ∀ p : Piece,
    (p.moved (Token.shift n)).branch (gap + n) = shiftAll n (p.branch gap)
  | .token _ _ => rfl
  | .node k parts => by
    rw [moved, branch, branch, cover_shift, payload_movedAll (Token.moves_shift n)]
    cases cover parts with
    | none =>
      simp only [Option.map_none, Option.getD_none, Option.elim_none, branches_shift n gap parts]
      rfl
    | some span =>
      have h := branches_shift n span.stop parts
      simp only [Option.map_some, Option.getD_some, Option.elim_some]
      rw [Span.shift]
      simp only [h]
      rfl

/-- What is made of pieces whose tokens stand further on stands further on. -/
theorem branches_shift (n gap : Nat) : ∀ ps : List Piece,
    branches (gap + n) (movedAll (Token.shift n) ps) = shiftAll n (branches gap ps)
  | [] => rfl
  | p :: ps => by
    rw [movedAll, branches, branches, tokensOfAll_movedAll, firstStart_shift, branch_shift n _ p,
      branches_shift n gap ps, Branch.shiftAll_eq_map, Branch.shiftAll_eq_map,
      Branch.shiftAll_eq_map, List.map_append]

end

theorem branches_append (gap : Nat) (ps qs : List Piece) : branches gap (ps ++ qs) =
    branches ((firstStart (tokensOfAll qs)).getD gap) ps ++ branches gap qs := by
  induction ps with
  | nil => rfl
  | cons p ps ih =>
    have hnext : (firstStart (tokensOfAll (ps ++ qs))).getD gap =
        (firstStart (tokensOfAll ps)).getD ((firstStart (tokensOfAll qs)).getD gap) := by
      rw [tokensOfAll_append]
      cases tokensOfAll ps <;> rfl
    rw [List.cons_append, branches, branches, hnext, ih, List.append_assoc]

/-- The gap behind a piece is filled by what covers no token only. -/
theorem branch_of_tokens {p : Piece} (h : p.tokens ≠ []) (gap gap' : Nat) :
    p.branch gap = p.branch gap' := by
  cases p with
  | token t i => rfl
  | node k parts =>
    cases hc : cover parts with
    | none => exact absurd (cover_eq_none.mp hc) h
    | some span => rw [branch, branch, hc]; rfl

theorem branches_of_tokens {ps : List Piece} (h : ∀ p ∈ ps, p.tokens ≠ []) (gap gap' : Nat) :
    branches gap ps = branches gap' ps := by
  induction ps with
  | nil => rfl
  | cons p ps ih =>
    obtain ⟨hp, hps⟩ := List.forall_mem_cons.mp h
    rw [branches, branches, ih hps, branch_of_tokens hp]

end Piece

open Grammar in
theorem diagnostic_shift {n : Nat} {text text' : String}
    (h : text'.utf8ByteSize = text.utf8ByteSize + n) (p : Problem) :
    Problem.diagnostic text' (p.moved (Token.shift n)) = (Problem.diagnostic text p).shift n := by
  obtain ⟨e, _ | t⟩ := p
  · simp only [Problem.moved, Problem.diagnostic, Diagnostic.shift, Option.map_none, Option.getD_none,
      Span.shift_empty, h]
  · simp only [Problem.moved, Problem.diagnostic, Diagnostic.shift, Option.map_some, Option.getD_some,
      Token.span_shift]

end JavaSyntax
