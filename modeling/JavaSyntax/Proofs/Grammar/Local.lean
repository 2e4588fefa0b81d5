import Mathlib.Tactic.ClearExcept
import JavaSyntax.Proofs.Grammar.Moved
import JavaSyntax.Proofs.Grammar.Reads

namespace JavaSyntax.Grammar

open Piece

/-- No rule goes on with such a token when it has read an operand, a type or a name. -/
def isEnd (k : Kind) : Bool := k == .eof || k == .semicolon || k == .rightBrace

theorem isEnd_cases {k : Kind} (h : isEnd k = true) : k = .eof ∨ k = .semicolon ∨ k = .rightBrace := by
  simpa [isEnd, or_assoc] using h

theorem ne_of_isEnd {k l : Kind} (h : isEnd k = true) (hl : isEnd l = false) : k ≠ l := by
  rintro rfl
  exact Bool.false_ne_true (hl.symm.trans h)

theorem kind_ne_of_isEnd {t : Token} {r : List Token} (h : isEnd (ahead (t :: r)) = true) (k : Kind)
    (hk : isEnd k = false) : ¬ t.kind = k :=
  ne_of_isEnd h hk

/-- What is false of the three ends is false of an end. -/
theorem eq_false_of_isEnd {P : Kind → Bool} {k : Kind} (h : isEnd k = true)
    (hP : (P .eof || P .semicolon || P .rightBrace) = false) : P k = false := by
  simp only [Bool.or_eq_false_iff] at hP
  rcases isEnd_cases h with rfl | rfl | rfl
  · exact hP.1.1
  · exact hP.1.2
  · exact hP.2

/-- A change of tokens that keeps their kinds, and two ends of the input, neither of which continues what
stands in front. -/
structure Ends (f : Token → Token) (z z' : List Token) : Prop extends KeepsKinds f where
  here : isEnd (ahead z) = true
  there : isEnd (ahead z') = true

theorem ends_nil {f : Token → Token} (hf : KeepsKinds f) : Ends f [] [] := ⟨hf, rfl, rfl⟩

theorem ends_rightBrace {f : Token → Token} (hf : KeepsKinds f) {b : Token} (hb : b.kind = .rightBrace)
    (q q' : List Token) : Ends f (b :: q) (f b :: q') :=
  ⟨hf, by rw [ahead, hb]; rfl, by rw [ahead, hf.kind, hb]; rfl⟩

/-- Tokens in front of `z`, and the same tokens moved in front of `z'`. -/
inductive Alongside (f : Token → Token) (z z' : List Token) : List Token → List Token → Prop where
  | behind : Alongside f z z' z z'
  | cons (t : Token) {ts us : List Token} : Alongside f z z' ts us →
      Alongside f z z' (t :: ts) (f t :: us)

variable {f : Token → Token} {z z' ts us r r' : List Token}

theorem alongside_append (f : Token → Token) (ts z z' : List Token) :
    Alongside f z z' (ts ++ z) (ts.map f ++ z') := by
  induction ts with
  | nil => exact .behind
  | cons t ts ih => exact .cons t ih

theorem alongside_map (f : Token → Token) (ts : List Token) : Alongside f [] [] ts (ts.map f) := by
  have h := alongside_append f ts [] []
  rwa [List.append_nil, List.append_nil] at h

namespace Alongside

theorem length_le (h : Alongside f z z' ts us) : z.length ≤ ts.length := by
  induction h with
  | behind => exact Nat.le_refl _
  | cons t _ ih => exact Nat.le_succ_of_le ih

theorem eq_append (h : Alongside f z z' ts us) : ∃ ps, ts = ps ++ z ∧ us = ps.map f ++ z' := by
  induction h with
  | behind => exact ⟨[], rfl, rfl⟩
  | cons t _ ih =>
    obtain ⟨ps, rfl, rfl⟩ := ih
    exact ⟨t :: ps, rfl, rfl⟩

/-- What is left of the first is what stands behind it, so the same holds of the second. -/
theorem eq_of_eq (h : Alongside f z z' ts us) (hts : ts = z) : us = z' := by
  obtain ⟨ps, rfl, rfl⟩ := h.eq_append
  obtain rfl : ps = [] := by simpa using hts
  rfl

theorem eq_map (h : Alongside f [] [] ts us) : us = ts.map f := by
  obtain ⟨ps, rfl, rfl⟩ := h.eq_append
  rw [List.append_nil, List.append_nil]

/-- The same token comes first, unless both have come to their ends. -/
theorem ahead_cases (hz : Ends f z z') (h : Alongside f z z' ts us) :
    ahead us = ahead ts ∨ isEnd (ahead ts) = true ∧ isEnd (ahead us) = true := by
  cases h with
  | behind => exact .inr ⟨hz.here, hz.there⟩
  | cons t h => exact .inl (hz.kind t)

/-- Whether a token comes first that is no end does not depend on what stands behind. -/
theorem ahead_eq (hz : Ends f z z') (h : Alongside f z z' ts us) (k : Kind)
    (hk : isEnd k = false) : (ahead us = k) = (ahead ts = k) := by
  rcases h.ahead_cases hz with heq | ⟨hts, hus⟩
  · rw [heq]
  · rw [eq_false (ne_of_isEnd hts hk), eq_false (ne_of_isEnd hus hk)]

/-- The same for the first two tokens. -/
theorem ahead_two (hz : Ends f z z') (h : Alongside f z z' ts us) (j k : Kind)
    (hj : isEnd j = false) (hk : isEnd k = false) :
    (ahead us = j ∧ ahead (us.drop 1) = k) = (ahead ts = j ∧ ahead (ts.drop 1) = k) := by
  cases h with
  | behind =>
    rw [eq_false (not_and_of_not_left _ (ne_of_isEnd hz.here hj)),
      eq_false (not_and_of_not_left _ (ne_of_isEnd hz.there hj))]
  | cons t h =>
    rw [List.drop_succ_cons, List.drop_succ_cons, List.drop_zero, List.drop_zero,
      h.ahead_eq hz k hk, ahead_cons, ahead_cons, hz.kind]

end Alongside

/-- The second outcome is the first one with all tokens moved, and both leave what stands behind. -/
structure Step.Along (f : Token → Token) (z z' : List Token) {ts us : List Token} (s : Step ts)
    (s' : Step us) : Prop where
  parts : s'.parts = movedAll f s.parts
  problems : s'.problems = s.problems.map (Problem.moved f)
  rest : Alongside f z z' s.rest s'.rest

/-- Nothing stands behind, or no problem is found and what stands behind is left. -/
def Step.Spares (z z' : List Token) {ts : List Token} (s : Step ts) : Prop :=
  z = [] ∧ z' = [] ∨ s.problems = [] ∧ z.length ≤ s.rest.length

/-- If the first outcome spares what stands behind, the second one goes along with it. -/
def Step.Local (f : Token → Token) (z z' : List Token) {ts us : List Token} (s : Step ts) (s' : Step us) :
    Prop :=
  s.Spares z z' → s.Along f z z' s'

/-- A problem is found, or what stands behind is touched. -/
def Step.Fails {ts : List Token} (s : Step ts) : Prop := s.problems = [] → s.rest.length < ts.length

namespace Step

/-- Problems are allowed only where nothing stands behind. -/
theorem Spares.ended {s : Step ts} (h : s.Spares z z') (hs : s.problems ≠ []) : z = [] ∧ z' = [] :=
  h.resolve_right fun h => hs h.1

theorem Spares.first {a : Step ts} {b : Step a.rest} (h : (a.andThen b).Spares z z') : a.Spares z z' :=
  h.imp_right fun ⟨hs, hle⟩ => ⟨(List.append_eq_nil_iff.mp hs).1, Nat.le_trans hle b.length_rest_le⟩

theorem Spares.second {a : Step ts} {b : Step a.rest} (h : (a.andThen b).Spares z z') : b.Spares z z' :=
  h.imp_right fun ⟨hs, hle⟩ => ⟨(List.append_eq_nil_iff.mp hs).2, hle⟩

theorem Along.local {s : Step ts} {s' : Step us} (h : s.Along f z z' s') : s.Local f z z' s' :=
  fun _ => h

/-- Without any tokens nothing is moved. -/
theorem along_nil {s : Step []} (h : s.Reads false [] []) : s.Along f [] [] s := by
  obtain ⟨htokens, hrest⟩ := List.append_eq_nil_iff.mp h.tokens_eq
  have hproblems : ∀ p ∈ s.problems, p.moved f = p := by
    intro p hp
    obtain ⟨vs, hvs, hfound⟩ := h.along.suffix_of_mem (List.mem_map_of_mem hp)
    rw [List.suffix_nil.mp hvs] at hfound
    rw [Problem.moved, ← hfound]
    exact congrArg (Problem.mk p.error) hfound
  refine ⟨(movedAll_eq_self fun t ht => ?_).symm, ?_, ?_⟩
  · rw [htokens] at ht
    cases ht
  · exact ((List.map_congr_left hproblems).trans (List.map_id _)).symm
  · rw [hrest]
    exact .behind

/-- A rule that fails where something stands behind. -/
theorem local_of_fails {rule : (ts : List Token) → Step ts} (h : (rule z).Fails)
    (hnil : (rule []).Reads false [] []) : (rule z).Local f z z' (rule z') := by
  rintro (⟨rfl, rfl⟩ | ⟨hs, hle⟩)
  · exact along_nil hnil
  · exact absurd (h hs) (Nat.not_lt.mpr hle)

theorem along_idle (h : Alongside f z z' ts us) : (idle ts).Along f z z' (idle us) := ⟨rfl, rfl, h⟩

theorem local_report (e : SyntaxError) (h : Alongside f z z' ts us) :
    (report e ts).Local f z z' (report e us) := by
  intro hs
  obtain ⟨rfl, rfl⟩ := hs.ended (List.cons_ne_nil _ _)
  refine ⟨rfl, ?_, h⟩
  rw [report, report, h.eq_map, List.head?_map]
  rfl

theorem local_skip (e : SyntaxError) (t : Token) (h : Alongside f z z' r r') :
    (skip e t r).Local f z z' (skip e (f t) r') :=
  fun _ => ⟨rfl, rfl, h⟩

theorem Along.lead {s : Step r} {s' : Step r'} (h : s.Along f z z' s') (i : Bool) (t : Token) :
    (s.lead i t).Along f z z' (s'.lead i (f t)) :=
  ⟨congrArg (Piece.token (f t) i :: ·) h.parts, h.problems, h.rest⟩

theorem Local.lead {s : Step r} {s' : Step r'} (h : s.Local f z z' s') (i : Bool) (t : Token) :
    (s.lead i t).Local f z z' (s'.lead i (f t)) :=
  fun hs => (h hs).lead i t

theorem Along.lift {s : Step r} {s' : Step r'} (h : s.Along f z z' s') (t : Token) :
    (s.lift t).Along f z z' (s'.lift (f t)) :=
  ⟨h.parts, h.problems, h.rest⟩

theorem Local.lift {s : Step r} {s' : Step r'} (h : s.Local f z z' s') (t : Token) :
    (s.lift t).Local f z z' (s'.lift (f t)) :=
  fun hs => (h hs).lift t

theorem Along.within {s : Step ts} {s' : Step us} (h : s.Along f z z' s')
    (hr : s.rest.length ≤ r.length) (hr' : s'.rest.length ≤ r'.length) :
    (s.within r hr).Along f z z' (s'.within r' hr') :=
  ⟨h.parts, h.problems, h.rest⟩

theorem Local.within {s : Step ts} {s' : Step us} (h : s.Local f z z' s')
    (hr : s.rest.length ≤ r.length) (hr' : s'.rest.length ≤ r'.length) :
    (s.within r hr).Local f z z' (s'.within r' hr') :=
  fun hs => (h hs).within hr hr'

theorem along_bump (i : Bool) (t : Token) (h : Alongside f z z' r r') :
    (bump i t r).Along f z z' (bump i (f t) r') :=
  ((along_idle h).lead i t).lift t

theorem Along.node {s : Step ts} {s' : Step us} (h : s.Along f z z' s') (k : Kind) :
    (s.node k).Along f z z' (s'.node k) :=
  ⟨congrArg (fun parts => [Piece.node k parts]) h.parts, h.problems, h.rest⟩

theorem Local.node {s : Step ts} {s' : Step us} (h : s.Local f z z' s') (k : Kind) :
    (s.node k).Local f z z' (s'.node k) :=
  fun hs => (h hs).node k

theorem Along.andThen {w w' : List Token} {a : Step ts} {b : Step a.rest} {a' : Step us}
    {b' : Step a'.rest} (ha : a.Along f z z' a') (hb : b.Along f w w' b') :
    (a.andThen b).Along f w w' (a'.andThen b') := by
  refine ⟨?_, ?_, hb.rest⟩
  · rw [Step.andThen, Step.andThen, movedAll_append, ha.parts, hb.parts]
  · rw [Step.andThen, Step.andThen, List.map_append, ha.problems, hb.problems]

/-- The second rule may rely on the first one to have gone along. -/
theorem Local.andThen {a : Step ts} {b : Step a.rest} {a' : Step us} {b' : Step a'.rest}
    (ha : a.Local f z z' a') (hb : a.Along f z z' a' → b.Local f z z' b') :
    (a.andThen b).Local f z z' (a'.andThen b') := by
  intro hs
  have along := ha hs.first
  exact along.andThen (hb along hs.second)

theorem Fails.andThen {a : Step ts} (h : a.Fails) (b : Step a.rest) : (a.andThen b).Fails :=
  fun hs => Nat.lt_of_le_of_lt b.length_rest_le (h (List.append_eq_nil_iff.mp hs).1)

theorem Fails.node {s : Step ts} (h : s.Fails) (k : Kind) : (s.node k).Fails := h

theorem fails_report (e : SyntaxError) (ts : List Token) : (report e ts).Fails :=
  fun hs => absurd hs (List.cons_ne_nil _ _)

/-- A rule that starts with a token of its own fails where that token is missing. -/
theorem fails_lift (t : Token) (s : Step r) : (s.lift t).Fails :=
  fun _ => Nat.lt_succ_of_le s.length_rest_le

theorem fails_expect (k : Kind) : ∀ ts : List Token, (expect k ts).Fails
  | [] => fails_report _ _
  | t :: r => by
    rw [expect]
    split
    · exact fails_lift t _
    · exact fails_report _ _

theorem local_expect (hz : Ends f z z') (k : Kind) (h : Alongside f z z' ts us) :
    (expect k ts).Local f z z' (expect k us) := by
  cases h with
  | behind => exact local_of_fails (fails_expect k z) (reads_expect outside [])
  | cons t h =>
    rw [expect, expect, hz.kind]
    split
    · exact (along_bump false t h).local
    · exact local_report _ (.cons t h)

end Step

/-- The same for operands, which start with nodes of the same kind. -/
structure Operand.Along (f : Token → Token) (z z' : List Token) {ts us : List Token} (s : Operand ts)
    (s' : Operand us) : Prop extends s.toStep.Along f z z' s'.toStep where
  lead : s'.lead = s.lead

def Operand.Local (f : Token → Token) (z z' : List Token) {ts us : List Token} (s : Operand ts)
    (s' : Operand us) : Prop :=
  s.toStep.Spares z z' → s.Along f z z' s'

namespace Operand

open Step (Fails)

theorem Along.local {s : Operand ts} {s' : Operand us} (h : s.Along f z z' s') : s.Local f z z' s' :=
  fun _ => h

theorem local_of_fails {rule : (ts : List Token) → Operand ts} (h : (rule z).toStep.Fails)
    (hnil : (rule []).Reads false [] []) : (rule z).Local f z z' (rule z') := by
  rintro (⟨rfl, rfl⟩ | ⟨hs, hle⟩)
  · exact ⟨Step.along_nil hnil.toReads, rfl⟩
  · exact absurd (h hs) (Nat.not_lt.mpr hle)

theorem Local.toStep {s : Operand ts} {s' : Operand us} (h : s.Local f z z' s') :
    s.toStep.Local f z z' s'.toStep :=
  fun hs => (h hs).toAlong

theorem local_missing {s : Step ts} {s' : Step us} (h : s.Local f z z' s') :
    (missing s).Local f z z' (missing s') :=
  fun hs => ⟨h hs, rfl⟩

theorem along_found {s : Step ts} {s' : Step us} (h : s.Along f z z' s') (k : Kind) :
    (found s k).Along f z z' (found s' k) :=
  ⟨h.node k, rfl⟩

theorem local_found {s : Step ts} {s' : Step us} (h : s.Local f z z' s') (k : Kind) :
    (found s k).Local f z z' (found s' k) :=
  fun hs => along_found (h hs) k

theorem local_done (k : Kind) (operand : List Piece) (h : Alongside f z z' ts us) :
    (done k operand ts).Local f z z' (done k (movedAll f operand) us) :=
  fun _ => ⟨⟨rfl, rfl, h⟩, rfl⟩

theorem local_around (operand : List Piece) {s : Step ts} {s' : Step us} (h : s.Local f z z' s')
    (k : Kind) : (around operand s k).Local f z z' (around (movedAll f operand) s' k) := by
  intro hs
  obtain ⟨hparts, hproblems, hrest⟩ := h hs
  refine ⟨⟨?_, hproblems, hrest⟩, rfl⟩
  rw [around, around, hparts, ← movedAll_append]
  rfl

theorem Local.resume {a : Operand ts} {b : Operand a.rest} {a' : Operand us} {b' : Operand a'.rest}
    (ha : a.Local f z z' a') (hb : a.Along f z z' a' → b.Local f z z' b') :
    (a.resume b).Local f z z' (a'.resume b') := by
  intro hs
  have along := ha (Step.Spares.first (b := b.toStep) hs)
  obtain ⟨⟨hparts, hproblems, hrest⟩, hlead⟩ := hb along (Step.Spares.second (b := b.toStep) hs)
  refine ⟨⟨hparts, ?_, hrest⟩, hlead⟩
  rw [Operand.resume, Operand.resume, List.map_append, along.problems, hproblems]

theorem Local.lift {s : Operand r} {s' : Operand r'} (h : s.Local f z z' s') (t : Token) :
    (s.lift t).Local f z z' (s'.lift (f t)) :=
  fun hs => ⟨(h hs).toAlong.lift t, (h hs).lead⟩

/-- What follows an operand is read with its pieces, if there is an operand. -/
theorem Local.goOn {a : Operand ts} {a' : Operand us} (ha : a.Local f z z' a')
    {g : Kind → List Piece → (ms : List Token) → Operand ms}
    (hg : ∀ k operand, Alongside f z z' a.rest a'.rest →
      (g k operand a.rest).Local f z z' (g k (movedAll f operand) a'.rest)) :
    Operand.Local f z z'
      (match a.lead with
        | none => a
        | some k => a.resume (g k a.parts a.rest))
      (match a'.lead with
        | none => a'
        | some k => a'.resume (g k a'.parts a'.rest)) := by
  cases hlead : a.lead with
  | none =>
    intro hs
    have along := ha hs
    rw [along.lead.trans hlead]
    exact along
  | some k =>
    intro hs
    have along := ha (Step.Spares.first (b := (g k a.parts a.rest).toStep) hs)
    rw [along.lead.trans hlead, along.parts]
    exact ha.resume (fun along => hg k a.parts along.rest) hs

/-- What comes after an operand depends on whether there is one. -/
theorem Local.andEither {a : Operand ts} {a' : Operand us} (ha : a.Local f z z' a')
    {g h : (ms : List Token) → Step ms}
    (hg : Alongside f z z' a.rest a'.rest → (g a.rest).Local f z z' (g a'.rest))
    (hh : Alongside f z z' a.rest a'.rest → (h a.rest).Local f z z' (h a'.rest)) :
    Step.Local f z z'
      (match a.lead with
        | none => a.toStep.andThen (g a.rest)
        | some _ => a.toStep.andThen (h a.rest))
      (match a'.lead with
        | none => a'.toStep.andThen (g a'.rest)
        | some _ => a'.toStep.andThen (h a'.rest)) := by
  cases hlead : a.lead with
  | none =>
    intro hs
    have along := ha (Step.Spares.first (b := g a.rest) hs)
    rw [along.lead.trans hlead]
    exact ha.toStep.andThen (fun along => hg along.rest) hs
  | some k =>
    intro hs
    have along := ha (Step.Spares.first (b := h a.rest) hs)
    rw [along.lead.trans hlead]
    exact ha.toStep.andThen (fun along => hh along.rest) hs

end Operand

/-- A rule that reads one item after the other up to a closing brace, and the brace. -/
structure UpToBrace (rule : (ts : List Token) → Step ts) (item : (t : Token) → (r : List Token) → Step r) :
    Prop where
  nil : rule [] = Step.expect .rightBrace []
  cons (t : Token) (r : List Token) : rule (t :: r) =
    if t.kind = .rightBrace then Step.expect .rightBrace (t :: r)
    else ((item t r).andThen (rule (item t r).rest)).lift t

namespace UpToBrace

open Step

variable {rule : (ts : List Token) → Step ts} {item : (t : Token) → (r : List Token) → Step r}
  {q q' : List Token}

/-- What is read ends with a brace. -/
theorem fails (h : UpToBrace rule item) : ∀ z : List Token, (rule z).Fails
  | [] => by
    rw [h.nil]
    exact fails_expect _ _
  | t :: r => by
    rw [h.cons]
    split
    · exact fails_expect _ _
    · exact fails_lift t _

theorem exists_brace (h : UpToBrace rule item) (hitem : ∀ t r, (item t r).Reads false [] [t]) :
    ∀ {ts : List Token}, (rule ts).problems = [] →
      ∃ ps b, ts = ps ++ b :: (rule ts).rest ∧ b.kind = .rightBrace
  | [], hs => by
    rw [h.nil] at hs
    cases hs
  | t :: r, hs => by
    rw [h.cons] at hs ⊢
    split at hs
    · next hbrace =>
      rw [if_pos hbrace, expect, if_pos hbrace]
      exact ⟨[], t, rfl, hbrace⟩
    · next hbrace =>
      obtain ⟨_, htail⟩ := List.append_eq_nil_iff.mp hs
      obtain ⟨ps, b, hps, hb⟩ := exists_brace h hitem htail
      rw [if_neg hbrace]
      refine ⟨Piece.tokensOfAll (item t r).parts ++ ps, b, ?_, hb⟩
      rw [List.append_assoc, rest_lift, rest_andThen, ← hps, (hitem t r).tokens_eq,
        List.singleton_append]
termination_by ts => ts.length
decreasing_by grind

/-- Items up to their brace, with something else behind it. -/
theorem along (h : UpToBrace rule item) (hf : KeepsKinds f)
    (hitem : ∀ {z z' r r' : List Token}, Ends f z z' → ∀ t, Alongside f z z' r r' →
      (item t r).Local f z z' (item (f t) r')) {b : Token} (hb : b.kind = .rightBrace)
    {ts us : List Token} (hts : Alongside f (b :: q) (f b :: q') ts us) (hs : (rule ts).problems = [])
    (hq : (rule ts).rest = q) : (rule ts).Along f q q' (rule us) := by
  have hb' : (f b).kind = .rightBrace := (hf.kind b).trans hb
  have hz := ends_rightBrace hf hb q q'
  cases hts with
  | behind =>
    rw [h.cons, h.cons, if_pos hb, if_pos hb', expect, expect, if_pos hb, if_pos hb']
    exact along_bump false b .behind
  | @cons t r r' hr =>
    have hlength := hr.length_le
    rw [h.cons] at hs hq ⊢
    rw [h.cons, hf.kind]
    split at hs
    · next hbrace =>
      rw [if_pos hbrace, expect, if_pos hbrace] at hq
      rw [← hq] at hlength
      exact absurd hlength (Nat.not_succ_le_self _)
    · next hbrace =>
      rw [if_neg hbrace] at hq
      rw [if_neg hbrace, if_neg hbrace]
      obtain ⟨hfirst, htail⟩ := List.append_eq_nil_iff.mp hs
      have hrest := h.fails _ htail
      have first := hitem hz t hr (.inr ⟨hfirst, by rw [← hq]; exact hrest⟩)
      exact (first.andThen (along h hf hitem hb first.rest htail hq)).lift t
termination_by ts.length
decreasing_by all_goals (subst_vars; clear * -; grind)

end UpToBrace

end JavaSyntax.Grammar
