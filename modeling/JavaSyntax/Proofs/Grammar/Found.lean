import JavaSyntax.Proofs.Grammar.Formed

namespace JavaSyntax

open Piece Content Computability

namespace Content

variable {clean : Bool} {k : Kind} {w : List Symbol}

theorem isValue_of_contains (h : Category.expr.contains k = true) : isValue clean k = true := by
  cases clean with
  | false =>
    change isOperand k = true
    rw [isOperand, h, Bool.true_or]
  | true => exact h

/-- The operands that no operator holds together. -/
def isAtom (k : Kind) : Bool :=
  isOperand k && !([.assignmentExpression, .infixExpression, .unaryExpression] : List Kind).contains k

theorem isOperand_of_isAtom (h : isAtom k = true) : isOperand k = true :=
  (Bool.and_eq_true_iff.mp h).1

theorem mem_junk : w ∈ junk clean ↔ clean = false ∧ w = [.node .error] := mem_broken

/-- What can stand behind an operand does not in a clean text. -/
theorem mem_one_add_junk : w ∈ 1 + junk clean ↔ w = [] ∨ clean = false ∧ w = [.node .error] := by
  rw [Language.mem_add, Language.mem_one, mem_junk]

theorem mem_value_of_operand (h : w ∈ operand clean) : w ∈ value clean := by
  obtain ⟨a, ha, b, hb, rfl⟩ := Language.mem_mul.mp h
  exact Language.append_mem_mul (mem_due_of_mem ha) hb

theorem mem_value_of_broken (h : w ∈ broken clean (1 + one .error)) : w ∈ value clean := by
  obtain ⟨hc, h⟩ := mem_broken.mp h
  have hnone : [] ∈ due clean (nodeOf (isValue clean)) := mem_due.mpr (.inr ⟨hc, rfl⟩)
  have hbehind : w ∈ 1 + junk clean := by
    rcases h with h | h
    · exact .inl h
    · exact .inr (mem_junk.mpr ⟨hc, h⟩)
  exact Language.append_mem_mul hnone hbehind

end Content

namespace Piece

theorem level_of_isAtom {k : Kind} (h : isAtom k = true) (ps : List Piece) :
    (Piece.node k ps).level = 8 := by
  unfold level
  split
  · next he =>
    cases he
    cases h
  · next he =>
    cases he
    cases h
  · next he =>
    cases he
    cases h
  · rfl

/-- An atom in front is held together strongly enough for what is attached to it. -/
theorem ranked_attached {k k' : Kind} (hk : k = .fieldAccess ∨ k = .methodCall ∨ k = .methodReference)
    (ha : isAtom k' = true) (qs ps : List Piece) : Ranked k (.node k' qs :: ps) := by
  have hfirst : ∀ p, (Piece.node k' qs :: ps).find? isNode = some p → 8 ≤ p.level := by
    intro p hp
    cases hp
    exact Nat.le_of_eq (level_of_isAtom ha qs).symm
  rcases hk with rfl | rfl | rfl <;> exact hfirst

end Piece

namespace Grammar

open Step

variable {ts r : List Token} {clean : Bool} {l m : Language Symbol}

/-- What was read before and what follows it in one node. -/
theorem Step.Forms.enclosed {s : Step ts} {k : Kind} {before : List Piece} (h : s.Forms clean l)
    (hb : AllFormed clean before) (hs : symbols before ∈ m) (hc : ∀ w ∈ m * l, w ∈ content clean k)
    (hr : clean = true → s.problems = [] → Ranked k (before ++ s.parts))
    (hp : clean = true → s.problems = []) : AllFormed clean [.node k (before ++ s.parts)] := by
  obtain ⟨hf, hw⟩ := h hp
  refine ⟨⟨⟨?_, fun hclean => hr hclean (hp hclean)⟩, allFormed_append.mpr ⟨hb, hf⟩⟩, trivial⟩
  rw [symbols_append]
  exact hc _ (Language.append_mem_mul hs hw)

namespace Operand

/-- A rule for an operand. Where it finds one, `P` holds of its kind, its pieces and the tokens behind
it; where it finds none, it has at most skipped a token, and the text has an error. -/
def Finds (clean : Bool) (P : Kind → List Piece → List Token → Prop) (s : Operand ts) : Prop :=
  (clean = true → s.problems = []) →
    match s.lead with
    | some k => P k s.parts s.rest
    | none => AllFormed clean s.parts ∧ symbols s.parts ∈ broken clean (1 + one .error)

variable {P Q : Kind → List Piece → List Token → Prop}

theorem finds_done {k : Kind} {operand : List Piece} (h : P k operand ts) :
    (done k operand ts).Finds clean P := fun _ => h

theorem finds_around {s : Step ts} {k : Kind} {operand : List Piece}
    (h : (clean = true → s.problems = []) → P k [.node k (operand ++ s.parts)] s.rest) :
    (around operand s k).Finds clean P := h

theorem finds_missing {s : Step ts} (h : s.Forms clean (broken clean (1 + one .error))) :
    (missing s).Finds clean P := h

theorem finds_report (e : SyntaxError) (ts : List Token) :
    (missing (report e ts)).Finds clean P := by
  apply finds_missing
  refine (forms_report e ts).mono fun w hw => ?_
  obtain ⟨hc, hw⟩ := mem_broken.mp hw
  exact mem_broken.mpr ⟨hc, .inl hw⟩

theorem finds_skip (e : SyntaxError) (t : Token) (r : List Token) :
    (missing ((skip e t r).lift t)).Finds clean P := by
  apply finds_missing
  refine ((forms_skip e t r).lift t).mono fun w hw => ?_
  obtain ⟨hc, hw⟩ := mem_junk.mp hw
  exact mem_broken.mpr ⟨hc, .inr hw⟩

theorem Finds.lift {s : Operand r} (h : s.Finds clean P) (t : Token) : (s.lift t).Finds clean P := h

theorem Finds.mono {s : Operand ts} (h : s.Finds clean P)
    (hP : ∀ k ps rest, P k ps rest → Q k ps rest) : s.Finds clean Q := by
  intro hp
  have := h hp
  cases hlead : s.lead with
  | none =>
    rw [hlead] at this
    exact this
  | some k =>
    rw [hlead] at this
    exact hP _ _ _ this

theorem Finds.of_none {s : Operand ts} (h : s.Finds clean P) (hk : s.lead = none) :
    s.Finds clean Q := by
  intro hp
  have := h hp
  rw [hk] at this ⊢
  exact this

theorem Finds.resume {a : Operand ts} {b : Operand a.rest} {k : Kind} (ha : a.Finds clean P)
    (hk : a.lead = some k) (hb : P k a.parts a.rest → b.Finds clean Q) :
    (a.resume b).Finds clean Q := by
  intro hp
  have hnil : clean = true → a.problems = [] ∧ b.problems = [] := fun hc =>
    List.append_eq_nil_iff.mp (hp hc)
  have hfound := ha fun hc => (hnil hc).1
  rw [hk] at hfound
  exact hb hfound fun hc => (hnil hc).2

end Operand

/-- An operand as its operators see it. In a clean text it is one expression and holds together at
least as strongly as asked. -/
structure Standing (clean : Bool) (weakest : Nat) (k : Kind) (ps : List Piece) : Prop where
  formed : AllFormed clean ps
  mem : symbols ps ∈ operand clean
  strong : clean = true → ∃ p, ps = [p] ∧ p.isNode = true ∧ weakest ≤ p.level

theorem Standing.mono {k : Kind} {ps : List Piece} {v w : Nat} (h : Standing clean w k ps)
    (hv : v ≤ w) : Standing clean v k ps := by
  refine ⟨h.formed, h.mem, fun hc => ?_⟩
  obtain ⟨p, hp, hn, hw⟩ := h.strong hc
  exact ⟨p, hp, hn, Nat.le_trans hv hw⟩

theorem Standing.of_expr {k : Kind} {ps : List Piece} {w : Nat}
    (hf : AllFormed clean [.node k ps]) (he : Category.expr.contains k = true)
    (hl : clean = true → w ≤ (Piece.node k ps).level) : Standing clean w k [.node k ps] := by
  refine ⟨hf, ?_, fun hc => ⟨_, rfl, rfl, hl hc⟩⟩
  have hnode : [.node k] ∈ nodeOf (isValue clean) := ⟨k, isValue_of_contains he, rfl⟩
  exact Language.append_mem_mul hnode (mem_one_add_junk.mpr (.inl rfl))

/-- What selections and references are attached to. In a clean text it is an expression, or a type of
which `turned` makes one. -/
structure Attachable (clean : Bool) (k : Kind) (ps : List Piece) (turned : Prop) : Prop where
  formed : AllFormed clean ps
  single : ∃ qs, ps = [.node k qs]
  atom : isAtom k = true
  value : clean = true → Category.expr.contains k = true ∨ k.isType = true ∧ turned

namespace Attachable

variable {k : Kind} {ps : List Piece} {p q : Prop}

theorem imp (h : Attachable clean k ps p) (hpq : p → q) : Attachable clean k ps q :=
  ⟨h.formed, h.single, h.atom, fun hc => (h.value hc).imp_right (And.imp_right hpq)⟩

theorem mem_isOperand (h : Attachable clean k ps p) : symbols ps ∈ nodeOf isOperand := by
  obtain ⟨qs, rfl⟩ := h.single
  exact ⟨k, isOperand_of_isAtom h.atom, rfl⟩

theorem mem_isValue (h : Attachable clean k ps p) (hp : ¬ p) :
    symbols ps ∈ nodeOf (isValue clean) := by
  obtain ⟨qs, rfl⟩ := h.single
  refine ⟨k, ?_, rfl⟩
  cases clean with
  | false => exact isOperand_of_isAtom h.atom
  | true =>
    rcases h.value rfl with hv | ⟨_, ht⟩
    · exact hv
    · exact absurd ht hp

/-- Where nothing turns types into expressions, an operand with all its attachments stands. -/
theorem standing (h : Attachable clean k ps p) (hp : ¬ p) : Standing clean 8 k ps := by
  refine ⟨h.formed, ?_, fun _ => ?_⟩
  · have hbehind : [] ∈ 1 + junk clean := mem_one_add_junk.mpr (.inl rfl)
    exact Language.mem_mul.mpr ⟨_, h.mem_isValue hp, [], hbehind, List.append_nil _⟩
  · obtain ⟨qs, rfl⟩ := h.single
    exact ⟨_, rfl, rfl, Nat.le_of_eq (level_of_isAtom h.atom qs).symm⟩

theorem ranked (h : Attachable clean k ps p) {k' : Kind}
    (hk : k' = .fieldAccess ∨ k' = .methodCall ∨ k' = .methodReference) (qs : List Piece) :
    Ranked k' (ps ++ qs) := by
  obtain ⟨inner, rfl⟩ := h.single
  exact ranked_attached hk h.atom inner qs

theorem of_expr (hf : AllFormed clean [.node k ps]) (ha : isAtom k = true)
    (he : Category.expr.contains k = true) : Attachable clean k [.node k ps] p :=
  ⟨hf, ⟨ps, rfl⟩, ha, fun _ => .inl he⟩

/-- An operand with more attached to it is attachable again. -/
theorem around (h : Attachable clean k ps p) {s : Step ts} {k' : Kind} (hs : s.Forms clean l)
    (hm : symbols ps ∈ m) (hc : ∀ w ∈ m * l, w ∈ content clean k') (hr : ∀ qs, Ranked k' (ps ++ qs))
    (ha : isAtom k' = true) (he : Category.expr.contains k' = true)
    (hp : clean = true → s.problems = []) :
    Attachable clean k' (Operand.around ps s k').parts q :=
  .of_expr (hs.enclosed h.formed hm hc (fun _ _ => hr _) hp) ha he

end Attachable

end Grammar

end JavaSyntax
