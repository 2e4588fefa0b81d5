import JavaSyntax.Proofs.Event.Meaning
import JavaSyntax.Proofs.Tree.Disambiguated

namespace JavaSyntax

namespace Sprout

theorem local_id : Local id id := ⟨fun _ => rfl, fun _ _ => rfl, fun _ _ _ _ _ _ => rfl, fun _ => rfl⟩

theorem toBranch_read (s : Sprout) (r : Reading) : (s.read r).toBranch = s.toBranch.read r := by
  cases s
  cases r <;> rfl

theorem fill_read (o : Nat) {s : Sprout} (h : s.span.isSome = true) (r : Reading) :
    (s.read r).fill o = (s.fill o).read r := by
  obtain ⟨k, i, span, cs⟩ := s
  cases span with
  | none => cases h
  | some span => cases r <;> rfl

/-- Settling the first child of a node is local. -/
theorem local_disambiguate : Local disambiguate Branch.settleFirst := by
  refine ⟨?_, ?_, ?_, ?_⟩
  · intro s
    unfold disambiguate
    split <;> rfl
  · intro s h
    unfold disambiguate
    split
    · rfl
    · next c cs hcs =>
      obtain ⟨k, i, span, children⟩ := s
      simp only at hcs h
      subst hcs
      rcases h with hq | hn
      · simp only [Piece.isQualified, Bool.or_eq_false_iff, beq_eq_false_iff_ne] at hq
        rw [Reading.ofNode_eq_kept hq.1.1 hq.1.2 hq.2]
        rfl
      · cases hn
  · rintro ⟨k, i, span, children⟩ c cs o hcs hc
    simp only at hcs
    subst hcs
    have hkind : (c.fill o).kind = c.kind := by
      cases c
      rfl
    simp only [disambiguate, fill, fillAll, fill_read o hc, hkind]
  · rintro ⟨k, i, span, children⟩
    cases children with
    | nil => rfl
    | cons c cs =>
      have hkind : c.toBranch.kind = c.kind := by
        cases c
        rfl
      simp only [disambiguate, toBranch, toBranches, Branch.settleFirst, toBranch_read, hkind]

/-- The span of an open node around tokens. -/
def widened (ts : List Token) (span : Option Span) : Option Span :=
  ts.foldl (fun s t => some (s.elim t.span (·.cover t.span))) span

def fillBy (ts : List Token) (ss : List Sprout) : List Sprout :=
  ts.foldl (fun ss t => fillAll t.start ss) ss

theorem passedAll_eq (ts : List Token) (s : Sprout) :
    s.passedAll ts = ⟨s.kind, s.image, widened ts s.span, fillBy ts s.children⟩ := by
  induction ts generalizing s with
  | nil =>
    cases s
    rfl
  | cons t ts ih =>
    rw [passedAll, List.foldl_cons]
    exact ih (s.passed t.span)

theorem widened_none (ts : List Token) : widened ts none = Draft.hull (ts.map Token.span) := by
  have h : ∀ (ts : List Token) (s : Span),
      widened ts (some s) = some ((ts.map Token.span).foldl Span.cover s) := by
    intro ts
    induction ts with
    | nil => exact fun _ => rfl
    | cons t ts ih => exact fun s => ih _
  cases ts with
  | nil => rfl
  | cons t ts => exact h ts t.span

theorem fillBy_append (ts : List Token) (ss us : List Sprout) :
    fillBy ts (ss ++ us) = fillBy ts ss ++ fillBy ts us := by
  induction ts generalizing ss us with
  | nil => rfl
  | cons t ts ih =>
    simp only [fillBy, List.foldl_cons, fillAll_append] at ih ⊢
    exact ih _ _

@[simp] theorem fillBy_nil (ts : List Token) : fillBy ts [] = [] := by
  induction ts with
  | nil => rfl
  | cons t ts ih => exact ih

theorem fillBy_tokens_append (ts us : List Token) (ss : List Sprout) :
    fillBy (ts ++ us) ss = fillBy us (fillBy ts ss) := by
  rw [fillBy, List.foldl_append]
  rfl

theorem widened_append (ts us : List Token) (span : Option Span) :
    widened (ts ++ us) span = widened us (widened ts span) := by
  rw [widened, List.foldl_append]
  rfl

end Sprout

namespace Piece

open Sprout

variable {g : Sprout → Sprout} {G : Branch → Branch}

theorem payload_cons (image : Option String) (p : Piece) (ps : List Piece) :
    payload (payload image [p]) ps = payload image (p :: ps) := by
  cases p with
  | token t i => cases i <;> rfl
  | node k parts => rfl

theorem fillBy_sprout (hg : Local g G) (ts : List Token) {p : Piece} (hp : p.Suits g)
    (gap : Option Nat) : fillBy ts (p.sprout g gap) = p.sprout g (gap.or (firstStart ts)) := by
  induction ts generalizing gap with
  | nil => rw [show firstStart [] = none from rfl, Option.or_none]; rfl
  | cons t ts ih =>
    have h := ih (gap.or (some t.start))
    rw [← fill_sprout hg t.start p gap hp] at h
    apply h.trans
    cases gap <;> rfl

/-- What is made of a node when it is closed around its parts. -/
theorem shut_sprouts (hg : Local g G) {k : Kind} {parts : List Piece} (hp : AllSuit g parts) :
    Sprout.shut ⟨k, payload none parts, cover parts, sprouts g none parts⟩ =
      ⟨k, payload none parts, cover parts,
        sprouts g ((cover parts).elim none (some ·.stop)) parts⟩ := by
  cases hc : cover parts with
  | none =>
    simp only [Sprout.shut, spans_sprouts hg (cover_eq_none.mp hc)]
    rfl
  | some span =>
    simp only [Sprout.shut, Option.some_or, settle_sprouts hg span.stop parts none hp]
    rfl

mutual

/-- A piece widens the node it is read in, and adds to its payload and to its children. -/
theorem grow_eq (hg : Local g G) : ∀ (p : Piece) (s : Sprout), p.Suits g →
    p.grow g s = ⟨s.kind, payload s.image [p], widened p.tokens s.span,
      fillBy p.tokens s.children ++ p.sprout g none⟩
  | .token t i, s, _ => by
    cases i <;> simp [grow, noted, payload, Piece.tokens, widened, fillBy, passed, sprout] <;> rfl
  | .node k parts, s, ⟨_, _, hp⟩ => by
    have hgrow := growAll_eq hg parts ⟨k, none, none, []⟩ hp
    rw [widened_none, fillBy_nil, List.nil_append, ← cover] at hgrow
    rw [grow, hgrow, shut_sprouts hg hp, passedAll_eq]
    simp [withChild, payload, Piece.tokens, sprout]

theorem growAll_eq (hg : Local g G) : ∀ (ps : List Piece) (s : Sprout), AllSuit g ps →
    growAll g ps s = ⟨s.kind, payload s.image ps, widened (tokensOfAll ps) s.span,
      fillBy (tokensOfAll ps) s.children ++ sprouts g none ps⟩
  | [], ⟨_, _, _, _⟩, _ => by simp [growAll, payload, tokensOfAll, widened, fillBy, sprouts]
  | p :: ps, s, ⟨hp, hps⟩ => by
    rw [growAll, growAll_eq hg ps _ hps, grow_eq hg p s hp]
    simp only [payload_cons, tokensOfAll, widened_append, fillBy_tokens_append, fillBy_append,
      fillBy_sprout hg _ hp, sprouts, List.append_assoc, Option.none_or, Option.or_none]

end

mutual

/-- A finished node is made by the finalizer as a branch is rebuilt. -/
theorem toBranches_sprout (hg : Local g G) : ∀ (p : Piece) (gap : Nat),
    toBranches (p.sprout g (some gap)) = Branch.rebuiltAll G (p.branch gap)
  | .token _ _, _ => rfl
  | .node k parts, gap => by
    have hgap : (cover parts).elim (some gap) (some ·.stop) =
        some ((cover parts).elim gap Span.stop) := by
      cases cover parts <;> rfl
    have hspan : ((cover parts).or ((some gap).map Span.empty)).getD default =
        (cover parts).getD (.empty gap) := by
      cases cover parts <;> rfl
    simp only [sprout, branch, toBranches, Branch.rebuiltAll, Branch.rebuilt, hg.toBranch, toBranch]
    rw [hgap, toBranches_sprouts hg parts, hspan]

theorem toBranches_sprouts (hg : Local g G) : ∀ (ps : List Piece) (gap : Nat),
    toBranches (sprouts g (some gap) ps) = Branch.rebuiltAll G (branches gap ps)
  | [], _ => rfl
  | p :: ps, gap => by
    have hgap : (firstStart (tokensOfAll ps)).or (some gap) =
        some ((firstStart (tokensOfAll ps)).getD gap) := by
      cases firstStart (tokensOfAll ps) <;> rfl
    rw [sprouts, branches, toBranches_eq_map, List.map_append, ← toBranches_eq_map,
      ← toBranches_eq_map, hgap, toBranches_sprout hg p, toBranches_sprouts hg ps,
      Branch.rebuiltAll_append]

end

/-- The branch of a node, as a single one. -/
def tree (k : Kind) (parts : List Piece) : Branch :=
  ⟨k, payload none parts, (cover parts).getD (.empty 0),
    branches ((cover parts).elim 0 Span.stop) parts⟩

end Piece

open Sprout Piece in
/-- The events of a node describe the tree that the node stands for, finalized node by node. -/
theorem buildTree_suits {σ : Type} {f : Finalizer σ} {g : Sprout → Sprout} {G : Branch → Branch}
    (hf : f.Implements g) (hg : Local g G) (text : String) (m : σ) {k : Kind} {parts : List Piece}
    (hp : (Piece.node k parts).Suits g)
    (ht : ∀ t ∈ tokensOfAll parts, t.span.stop ≤ text.utf8ByteSize) :
    buildTree text f m (eventsOfAll [.node k parts]) =
      .ok (.ofBranch text ((tree k parts).rebuilt G), m) := by
  rw [buildTree_node hf text m hp ht, growAll_eq hg parts _ hp.2.2, widened_none, fillBy_nil,
    List.nil_append, ← cover, shut_sprouts hg hp.2.2]
  have hfill := fill_sprout hg (lastStop 0 (tokensOfAll parts)) (.node k parts) none hp
  simp only [sprout, fillAll, Option.map_none, Option.or_none, Option.none_or, List.cons.injEq,
    and_true] at hfill
  rw [hfill]
  have hbranch := toBranches_sprout hg (.node k parts) (lastStop 0 (tokensOfAll parts))
  simp only [sprout, branch, toBranches, Branch.rebuiltAll, List.cons.injEq, and_true] at hbranch
  rw [hbranch, tree]
  -- without tokens nothing was read, so the gap is at 0
  cases hc : cover parts with
  | some span => rfl
  | none => rw [cover_eq_none.mp hc]; rfl

open Sprout Piece in
/-- The events of a proper node describe the tree that the node stands for, finalized node by node. -/
theorem buildTree_proper {σ : Type} {f : Finalizer σ} {g : Sprout → Sprout} {G : Branch → Branch}
    (hf : f.Implements g) (hg : Local g G) (text : String) (m : σ) {k : Kind} {parts : List Piece}
    (hp : (Piece.node k parts).Proper)
    (ht : ∀ t ∈ tokensOfAll parts, t.span.stop ≤ text.utf8ByteSize) :
    buildTree text f m (eventsOfAll [.node k parts]) =
      .ok (.ofBranch text ((tree k parts).rebuilt G), m) :=
  buildTree_suits hf hg text m (hp.suits hg) ht

end JavaSyntax
