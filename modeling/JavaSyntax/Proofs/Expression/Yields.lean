import JavaSyntax.Proofs.Expression.Printed
import JavaSyntax.Proofs.Expression.Shape

namespace JavaSyntax

namespace Word.Spelled

variable {ws vs : List Word} {ts : List Token}

theorem nil (h : Spelled [] ts) : ts = [] := List.map_eq_nil_iff.mp h

theorem cons {w : Word} (h : Spelled (w :: ws) ts) :
    ∃ start us, ts = ⟨w.kind, w.text, start⟩ :: us ∧ Spelled ws us := by
  obtain ⟨t, us, rfl, ht, hus⟩ := List.map_eq_cons_iff.mp h
  subst ht
  exact ⟨t.start, us, rfl, hus⟩

theorem append (h : Spelled (ws ++ vs) ts) :
    ∃ us vs', ts = us ++ vs' ∧ Spelled ws us ∧ Spelled vs vs' := by
  obtain ⟨us, vs', rfl, hus, hvs⟩ := List.map_eq_append_iff.mp h
  exact ⟨us, vs', rfl, hus, hvs⟩

/-- Words around a word. -/
theorem middle {w : Word} (h : Spelled (ws ++ w :: vs) ts) :
    ∃ us start vs', ts = us ++ ⟨w.kind, w.text, start⟩ :: vs' ∧ Spelled ws us ∧ Spelled vs vs' := by
  obtain ⟨us, _, rfl, hus, hmore⟩ := h.append
  obtain ⟨start, vs', rfl, hvs⟩ := hmore.cons
  exact ⟨us, start, vs', rfl, hus, hvs⟩

/-- Words with a word in front of them and a word after them. -/
theorem enclosed {w v : Word} (h : Spelled (w :: ws ++ [v]) ts) :
    ∃ start us stop, ts = ⟨w.kind, w.text, start⟩ :: (us ++ [⟨v.kind, v.text, stop⟩]) ∧
      Spelled ws us := by
  obtain ⟨start, _, rfl, hmore⟩ := Spelled.cons h
  obtain ⟨us, stop, _, rfl, hus, hnil⟩ := Spelled.middle hmore
  rw [hnil.nil]
  exact ⟨start, us, stop, rfl, hus⟩

/-- A point and another word at the end. -/
theorem selection {w : Word} (h : Spelled (ws ++ [.dot, w]) ts) :
    ∃ us start stop,
      ts = us ++ [⟨Word.dot.kind, Word.dot.text, start⟩, ⟨w.kind, w.text, stop⟩] ∧
        Spelled ws us := by
  obtain ⟨us, start, _, rfl, hus, hlast⟩ := h.middle
  obtain ⟨stop, _, rfl, hnil⟩ := hlast.cons
  rw [hnil.nil]
  exact ⟨us, start, stop, rfl, hus⟩

end Word.Spelled

namespace Grammar

open Piece (imageTexts shapes joined)

/-- The pieces of an operand are one node, in the end this one. -/
structure Stands (operand : List Piece) (b : Branch) : Prop where
  texts : imageTexts operand = []
  shapes : Piece.shapes operand = [b]

variable {ts r m : List Token} {xs ys : List String} {b c : Branch} {bs cs : List Branch}

/-- No problem is found, the pieces have these texts and nodes, and `r` is left. -/
structure Step.Yields (s : Step ts) (xs : List String) (bs : List Branch) (r : List Token) : Prop where
  texts : imageTexts s.parts = xs
  shapes : Piece.shapes s.parts = bs
  problems : s.problems = []
  rest : s.rest = r

/-- No problem is found, one node is made, and `r` is left. -/
structure Operand.Yields (o : Operand ts) (b : Branch) (r : List Token) : Prop where
  stands : Stands o.parts b
  problems : o.problems = []
  rest : o.rest = r
  lead : o.lead = some b.kind

namespace Step

theorem yields_idle (ts : List Token) : (idle ts).Yields [] [] ts := ⟨rfl, rfl, rfl, rfl⟩

theorem Yields.lead_true {s : Step ts} (h : s.Yields xs bs r) (t : Token) :
    (s.lead true t).Yields (t.text :: xs) bs r :=
  ⟨congrArg _ h.texts, h.shapes, h.problems, h.rest⟩

theorem Yields.lead_false {s : Step ts} (h : s.Yields xs bs r) (t : Token) :
    (s.lead false t).Yields xs bs r :=
  ⟨h.texts, h.shapes, h.problems, h.rest⟩

theorem Yields.lift {s : Step ts} (h : s.Yields xs bs r) (t : Token) : (s.lift t).Yields xs bs r :=
  ⟨h.texts, h.shapes, h.problems, h.rest⟩

theorem yields_bump_true (t : Token) (r : List Token) : (bump true t r).Yields [t.text] [] r :=
  ((yields_idle r).lead_true t).lift t

theorem yields_bump_false (t : Token) (r : List Token) : (bump false t r).Yields [] [] r :=
  ((yields_idle r).lead_false t).lift t

/-- The second rule goes on where the first one stopped. -/
theorem Yields.andThen {s : Step ts} (h : s.Yields xs bs m) {f : (us : List Token) → Step us}
    (hf : (f m).Yields ys cs r) :
    (s.andThen (f s.rest)).Yields (xs ++ ys) (bs ++ cs) r := by
  rw [← h.rest] at hf
  refine ⟨?_, ?_, ?_, hf.rest⟩
  · rw [← h.texts, ← hf.texts]
    exact Piece.imageTexts_append _ _
  · rw [← h.shapes, ← hf.shapes]
    exact Piece.shapes_append _ _
  · exact List.append_eq_nil_iff.mpr ⟨h.problems, hf.problems⟩

theorem Yields.node {s : Step ts} (h : s.Yields xs bs r) (k : Kind) :
    (s.node k).Yields [] [(Branch.bare k (joined xs) bs).settleFirst] r := by
  refine ⟨rfl, ?_, h.problems, h.rest⟩
  rw [← h.texts, ← h.shapes]
  rfl

/-- A node whose name needs no settling. -/
theorem Yields.bare {s : Step ts} (h : s.Yields xs bs r) {k : Kind} (hk : Piece.isQualified k = false) :
    (s.node k).Yields [] [.bare k (joined xs) bs] r :=
  Branch.settleFirst_bare hk _ _ ▸ h.node k

theorem Yields.within {us : List Token} {s : Step ts} (h : s.Yields xs bs r)
    (hle : s.rest.length ≤ us.length) : (s.within us hle).Yields xs bs r :=
  ⟨h.texts, h.shapes, h.problems, h.rest⟩

theorem yields_expect {t : Token} {k : Kind} (ht : t.kind = k) (r : List Token) :
    (expect k (t :: r)).Yields [] [] r := by
  rw [expect, if_pos ht]
  exact yields_bump_false t r

theorem Yields.found {s : Step ts} (h : s.Yields xs bs r) (k : Kind) :
    (Operand.found s k).Yields (Branch.bare k (joined xs) bs).settleFirst r :=
  ⟨⟨rfl, (h.node k).shapes⟩, h.problems, h.rest, by rw [Branch.kind_settleFirst]; rfl⟩

theorem Yields.foundBare {s : Step ts} (h : s.Yields xs bs r) {k : Kind}
    (hk : Piece.isQualified k = false) : (Operand.found s k).Yields (.bare k (joined xs) bs) r :=
  Branch.settleFirst_bare hk _ _ ▸ h.found k

theorem Yields.around {s : Step ts} (h : s.Yields xs bs r) {operand : List Piece}
    (hoperand : Stands operand b) (k : Kind) :
    (Operand.around operand s k).Yields (Branch.bare k (joined xs) (b :: bs)).settleFirst r := by
  refine ⟨⟨rfl, ?_⟩, h.problems, h.rest, by rw [Branch.kind_settleFirst]; rfl⟩
  simp [Operand.around, Piece.shapes, Piece.shape, Piece.imageTexts_append, Piece.shapes_append,
    hoperand.texts, hoperand.shapes, h.texts, h.shapes]

end Step

namespace Operand

theorem yields_done {operand : List Piece} (h : Stands operand b) (ts : List Token) :
    (done b.kind operand ts).Yields b ts :=
  ⟨h, rfl, rfl, rfl⟩

theorem Yields.toStep {o : Operand ts} (h : o.Yields b r) : o.toStep.Yields [] [b] r :=
  ⟨h.stands.texts, h.stands.shapes, h.problems, h.rest⟩

theorem Yields.lift {o : Operand ts} (h : o.Yields b r) (t : Token) : (o.lift t).Yields b r :=
  ⟨h.stands, h.problems, h.rest, h.lead⟩

/-- What follows an operand is read on with its pieces. -/
theorem Yields.goOn {o : Operand ts} (h : o.Yields b m)
    {f : List Piece → (us : List Token) → Operand us}
    (hf : ∀ operand, Stands operand b → (f operand m).Yields c r) :
    (o.resume (f o.parts o.rest)).Yields c r := by
  have hf := hf o.parts h.stands
  rw [← h.rest] at hf
  refine ⟨hf.stands, ?_, hf.rest, hf.lead⟩
  exact List.append_eq_nil_iff.mpr ⟨h.problems, hf.problems⟩

theorem Yields.resume {o : Operand ts} (h : o.Yields b m)
    {f : Kind → List Piece → (us : List Token) → Operand us}
    (hf : ∀ operand, Stands operand b → (f b.kind operand m).Yields c r) :
    (match o.lead with
      | none => o
      | some k => o.resume (f k o.parts o.rest)).Yields c r := by
  rw [h.lead]
  exact h.goOn hf

end Operand

end Grammar

end JavaSyntax
