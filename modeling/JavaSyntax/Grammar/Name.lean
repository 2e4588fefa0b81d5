import JavaSyntax.Grammar.Step

namespace JavaSyntax.Grammar

open Step

def modifierKeywords : KindSet :=
  .ofList [.publicKw, .protectedKw, .privateKw, .staticKw, .finalKw, .abstractKw]

def primitiveKeywords : KindSet :=
  .ofList [.booleanKw, .byteKw, .charKw, .shortKw, .intKw, .longKw, .floatKw, .doubleKw]

/-- Further segments of a dotted name, into the image of the node around it. -/
def segments : (ts : List Token) → Step ts
  | d :: n :: r =>
    if d.kind = .dot ∧ n.kind = .ident then
      ((segments r).lead true n).lead true d |>.lift n |>.lift d
    else idle (d :: n :: r)
  | ts => idle ts

/-- A dotted name that starts with the identifier `t`. -/
def qualifiedName (t : Token) (r : List Token) : Step r := (segments r).lead true t

def annotationName : (ts : List Token) → Step ts
  | [] => report .annotationName []
  | t :: r =>
    if t.kind = .ident then (qualifiedName t r).lift t else report .annotationName (t :: r)

/-- An annotation; `t` is its `@`. -/
def annotationUse (t : Token) (r : List Token) : Step r :=
  ((annotationName r).lead false t).node .annotationUse

def startsModifier (k : Kind) : Bool := modifierKeywords.contains k || k == .at

def modifiers (ts : List Token) : Step ts :=
  match ts with
  | [] => idle []
  | t :: r =>
    if modifierKeywords.contains t.kind then
      ((bump true t r).node .modifier).andThen (modifiers r)
    else if t.kind = .at then
      let a := (annotationUse t r).lift t
      a.andThen (modifiers a.rest)
    else idle (t :: r)
termination_by ts.length
decreasing_by all_goals grind

/-- Always a node, so that declarations keep a fixed layout. -/
def modifierList (ts : List Token) : Step ts := (modifiers ts).node .modifierList

/-- The name of a variable, as a node even when it is missing. -/
def variableId : (ts : List Token) → Step ts
  | [] => (report .variableName []).node .variableDeclaratorId
  | t :: r =>
    if t.kind = .ident then (bump true t r).node .variableDeclaratorId
    else (report .variableName (t :: r)).node .variableDeclaratorId

theorem length_rest_modifierList_lt {t : Token} {r : List Token} (h : startsModifier t.kind) :
    (modifierList (t :: r)).rest.length ≤ r.length := by
  simp only [startsModifier, Bool.or_eq_true, beq_iff_eq] at h
  unfold modifierList modifiers
  grind

theorem rest_modifierList_of_not {t : Token} {r : List Token} (h : startsModifier t.kind = false) :
    (modifierList (t :: r)).rest = t :: r := by
  simp only [startsModifier, Bool.or_eq_false_iff, beq_eq_false_iff_ne] at h
  unfold modifierList modifiers
  grind

/-- Modifiers and what a rule reads after them take in the next token if one of the two does. -/
theorem length_rest_after_modifierList_lt {t : Token} {r : List Token}
    {f : (ts : List Token) → Step ts}
    (h : startsModifier t.kind = false → (f (t :: r)).rest.length ≤ r.length) :
    (f (modifierList (t :: r)).rest).rest.length ≤ r.length := by
  cases hm : startsModifier t.kind with
  | true => exact Nat.le_trans (f _).length_rest_le (length_rest_modifierList_lt hm)
  | false =>
    rw [rest_modifierList_of_not hm]
    exact h hm

end JavaSyntax.Grammar
