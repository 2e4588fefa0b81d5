import JavaSyntax.Grammar.Name

namespace JavaSyntax.Grammar

open Step

def startsType (k : Kind) : Bool := k == .ident || primitiveKeywords.contains k

/-- The last dimension of a parameter with a variable number of arguments. -/
def ellipsis (varargs : Bool) : (ts : List Token) → Step ts
  | [] => idle []
  | t :: r =>
    if varargs ∧ t.kind = .ellipsis then (bump true t r).node .arrayTypeDim else idle (t :: r)

/-- Any number of `[]`, then perhaps `...`. -/
def dimensions (varargs : Bool) : (ts : List Token) → Step ts
  | b :: c :: r =>
    if b.kind = .leftBracket ∧ c.kind = .rightBracket then
      let dim := (((idle r).lead true c).lead true b).node .arrayTypeDim |>.lift c |>.lift b
      dim.andThen (dimensions varargs r)
    else ellipsis varargs (b :: c :: r)
  | ts => ellipsis varargs ts

theorem ellipsis_false (ts : List Token) : ellipsis false ts = idle ts := by
  cases ts <;> simp [ellipsis]

theorem dimensions_eq_ellipsis (v : Bool) {ts : List Token} (h : ahead ts ≠ .leftBracket) :
    dimensions v ts = ellipsis v ts := by
  rcases ts with _ | ⟨b, _ | ⟨c, r⟩⟩
  · rfl
  · rfl
  · rw [dimensions, if_neg fun hb => h hb.1]

/-- An element type becomes an array type when dimensions follow. -/
def withDimensions (varargs : Bool) {ts : List Token} (element : Operand ts) : Operand ts :=
  let dims := dimensions varargs element.rest
  if dims.parts.isEmpty then element
  else .found (element.andThen (dims.node .arrayDimensions)) .arrayType

@[grind =] theorem rest_withDimensions (v : Bool) {ts : List Token} (element : Operand ts) :
    (withDimensions v element).rest =
      if (dimensions v element.rest).parts.isEmpty then element.rest
      else (dimensions v element.rest).rest := by
  unfold withDimensions
  split <;> simp_all

mutual

/-- A type, perhaps an array type. With `varargs`, a final `...` counts as one more dimension. -/
def type (varargs : Bool) (ts : List Token) : Operand ts :=
  match ts with
  | [] => .missing (report .type [])
  | t :: r =>
    if primitiveKeywords.contains t.kind then
      withDimensions varargs (.found (bump true t r) .primitiveType)
    else if t.kind = .ident then withDimensions varargs ((classType t r).lift t)
    else .missing (report .type (t :: r))
termination_by 8 * ts.length
decreasing_by all_goals grind

/-- A class type that starts with the identifier `t`. -/
def classType (t : Token) (r : List Token) : Operand r :=
  let name := qualifiedName t r
  .found (name.andThen (typeArguments? name.rest)) .classType
termination_by 8 * r.length + 5
decreasing_by all_goals grind

def typeArguments? (ts : List Token) : Step ts :=
  match ts with
  | [] => idle []
  | t :: r =>
    if t.kind = .lt then ((typeArgumentsTail r).lead false t).node .typeArguments |>.lift t
    else idle (t :: r)
termination_by 8 * ts.length + 4
decreasing_by all_goals grind

/-- The arguments after `<` and the closing `>`. -/
def typeArgumentsTail (ts : List Token) : Step ts :=
  match ts with
  | [] => expect .gt []
  | t :: r =>
    if t.kind = .gt then expect .gt (t :: r)
    else
      let argument := type false (t :: r)
      match argument.lead with
      | none => argument.andThen (expect .gt argument.rest)
      | some _ => argument.andThen (typeArgumentsMore argument.rest)
termination_by 8 * ts.length + 3
decreasing_by all_goals grind

def typeArgumentsMore (ts : List Token) : Step ts :=
  match ts with
  | [] => expect .gt []
  | t :: r =>
    if t.kind = .comma then ((typeArgumentsTail r).lead false t).lift t
    else expect .gt (t :: r)
termination_by 8 * ts.length + 2
decreasing_by all_goals grind

end

/-- What is left after a type that was only looked at, and the kind of its last token. -/
structure Skipped (ts : List Token) where
  last : Kind
  rest : List Token
  length_rest_le : rest.length ≤ ts.length

namespace Skipped

grind_pattern length_rest_le => self.rest

def lift (t : Token) {r : List Token} (s : Skipped r) : Skipped (t :: r) :=
  { s with length_rest_le := Nat.le_succ_of_le s.length_rest_le }

def andThen {ts : List Token} (a : Skipped ts) (b : Skipped a.rest) : Skipped ts :=
  { b with length_rest_le := Nat.le_trans b.length_rest_le a.length_rest_le }

def nothing (last : Kind) (ts : List Token) : Skipped ts :=
  ⟨last, ts, (Step.idle ts).length_rest_le⟩

end Skipped

def skipSegments : (ts : List Token) → Skipped ts
  | d :: n :: r =>
    if d.kind = .dot ∧ n.kind = .ident then ((skipSegments r).lift n).lift d
    else .nothing .ident (d :: n :: r)
  | ts => .nothing .ident ts

def skipDimensions (last : Kind) : (ts : List Token) → Skipped ts
  | b :: c :: r =>
    if b.kind = .leftBracket ∧ c.kind = .rightBracket then
      ((skipDimensions .rightBracket r).lift c).lift b
    else .nothing last (b :: c :: r)
  | ts => .nothing last ts

mutual

/-- Looks past a type without reading it, if one is there. -/
def skipType (ts : List Token) : Option (Skipped ts) :=
  match ts with
  | [] => none
  | t :: r =>
    if primitiveKeywords.contains t.kind then some ((skipDimensions t.kind r).lift t)
    else if t.kind = .ident then
      let name := skipSegments r
      match skipTypeArguments? name.rest with
      | none => none
      | some arguments =>
        let element := name.andThen arguments
        some ((element.andThen (skipDimensions element.last element.rest)).lift t)
    else none
termination_by 4 * ts.length
decreasing_by all_goals grind

/-- Looks past the type arguments of a class type, if there are any and they are complete. -/
def skipTypeArguments? (ts : List Token) : Option (Skipped ts) :=
  match ts with
  | [] => some (.nothing .ident [])
  | t :: r =>
    if t.kind = .lt then (skipTypeArgumentsTail r).map (Skipped.lift t)
    else some (.nothing .ident (t :: r))
termination_by 4 * ts.length + 3
decreasing_by all_goals grind

/-- Looks past the type arguments after `<`. -/
def skipTypeArgumentsTail (ts : List Token) : Option (Skipped ts) :=
  match ts with
  | [] => none
  | t :: r =>
    if t.kind = .gt then some ((Skipped.nothing .gt r).lift t) else skipArguments (t :: r)
termination_by 4 * ts.length + 3
decreasing_by all_goals grind

def skipArguments (ts : List Token) : Option (Skipped ts) :=
  match skipType ts with
  | none => none
  | some argument => (skipMoreArguments argument.rest).map argument.andThen
termination_by 4 * ts.length + 2
decreasing_by all_goals grind

def skipMoreArguments (ts : List Token) : Option (Skipped ts) :=
  match ts with
  | [] => none
  | t :: r =>
    if t.kind = .comma then (skipArguments r).map (Skipped.lift t)
    else if t.kind = .gt then some ((Skipped.nothing .gt r).lift t)
    else none
termination_by 4 * ts.length + 1
decreasing_by all_goals grind

end

/-- `List<String>::new`, `String[]::new` or `String[].class`: a type that nothing else can be,
directly before `::` or `.class`. -/
def atExplicitTypeQualifier (ts : List Token) : Bool :=
  let second := ahead (ts.drop 1)
  (second == .lt || second == .leftBracket || second == .dot) &&
  match skipType ts with
  | none => false
  | some type =>
    match type.last, ahead type.rest with
    | .gt, .colonColon => true
    | .rightBracket, .colonColon => true
    | .rightBracket, .dot => ahead (type.rest.drop 1) == .classKw
    | _, _ => false

theorem length_rest_type_lt {v : Bool} {t : Token} {r : List Token} (h : startsType t.kind) :
    (type v (t :: r)).rest.length ≤ r.length := by
  simp only [startsType, Bool.or_eq_true, beq_iff_eq] at h
  rw [type]
  grind

theorem lead_type_isSome {v : Bool} {t : Token} {r : List Token} (h : startsType t.kind) :
    (type v (t :: r)).lead.isSome := by
  simp only [startsType, Bool.or_eq_true, beq_iff_eq] at h
  rw [type]
  simp only [withDimensions, Operand.found, Operand.lift, classType]
  grind

end JavaSyntax.Grammar
