import JavaSyntax.Proofs.Token.Gap
import JavaSyntax.View.Expression

namespace JavaSyntax

/-- Where a line of the text ends. -/
def isLineEnd (c : Char) : Bool := c == '\n' || c == '\r'

namespace Cut

variable {p q : Char → Bool} {cs : List Char}

/-- All that is taken satisfies `p`. -/
def TakesOnly (p : Char → Bool) (cut : Cut cs) : Prop := ∀ c ∈ cut.taken, p c = true

theorem takesOnly_before (p : Char → Bool) (cs : List Char) : TakesOnly p (before cs) := by
  intro c hc
  cases hc

theorem TakesOnly.cons {c : Char} {cut : Cut cs} (h : TakesOnly p cut) (hc : p c = true) :
    TakesOnly p (cut.cons c) :=
  List.forall_mem_cons.mpr ⟨hc, h⟩

theorem TakesOnly.andThen {a : Cut cs} {b : Cut a.rest} (ha : TakesOnly p a) (hb : TakesOnly p b) :
    TakesOnly p (a.andThen b) :=
  List.forall_mem_append.mpr ⟨ha, hb⟩

theorem TakesOnly.mono {cut : Cut cs} (h : TakesOnly p cut) (hpq : ∀ c, p c = true → q c = true) :
    TakesOnly q cut :=
  fun c hc => hpq c (h c hc)

theorem takesOnly_span (p : Char → Bool) (cs : List Char) : TakesOnly p (span p cs) :=
  List.all_eq_true.mp List.all_takeWhile

theorem takesOnly_one (p : Char → Bool) (cs : List Char) : TakesOnly p (one p cs) := by
  cases cs with
  | nil => exact takesOnly_before p []
  | cons c r =>
    rw [one]
    split
    · next hc => exact (takesOnly_before p r).cons hc
    · exact takesOnly_before p (c :: r)

theorem takesOnly_orNothing {cut : Option (Cut cs)} (h : ∀ c, cut = some c → TakesOnly p c) :
    TakesOnly p (orNothing cut) := by
  cases cut with
  | none => exact takesOnly_before p cs
  | some c => exact h c rfl

end Cut

namespace Lexeme

open Cut

variable {cs : List Char}

def isIntSuffix (c : Char) : Bool := c == 'l' || c == 'L'

/-- What decimal and binary integers are made of. -/
def isIntPart (c : Char) : Bool := isDecimalPart c || ['b', 'B', 'l', 'L'].contains c

/-- What floating-point numbers are made of. -/
def isFloatPart (c : Char) : Bool :=
  isDecimalPart c || ['.', 'e', 'E', '-', '+', 'f', 'F', 'd', 'D'].contains c

/-- A point, an exponent or a suffix that tells a floating-point number from an integer. -/
def MarksFloat (ds : List Char) : Prop :=
  (∃ c ∈ ds, c ∈ ['.', 'e', 'E']) ∨ LiteralKind.endsIn ['f', 'F', 'd', 'D'] ds = true

/-- A number without its first digit. -/
inductive NumberTail (first : Char) : Kind → List Char → Prop
  | hex {x : Char} {ds : List Char} (zero : first = '0') (mark : x = 'x' ∨ x = 'X')
    (digits : ∀ c ∈ ds, (isHexPart c || isIntSuffix c) = true) :
    NumberTail first .intLiteral (x :: ds)
  | int {ds : List Char} (parts : ∀ c ∈ ds, isIntPart c = true) : NumberTail first .intLiteral ds
  | float {ds : List Char} (parts : ∀ c ∈ ds, isFloatPart c = true) (marks : MarksFloat ds) :
    NumberTail first .floatLiteral ds

theorem isFloatPart_of_isDecimalPart (c : Char) (h : isDecimalPart c = true) : isFloatPart c = true :=
  Bool.or_eq_true_iff.mpr (.inl h)

theorem takesOnly_digits (cs : List Char) : TakesOnly isFloatPart (span isDecimalPart cs) :=
  (takesOnly_span isDecimalPart cs).mono isFloatPart_of_isDecimalPart

theorem MarksFloat.of_mem {c : Char} {ds : List Char} (h : c ∈ ds) (hc : c ∈ ['.', 'e', 'E']) :
    MarksFloat ds :=
  .inl ⟨c, h, hc⟩

theorem takes_fraction {point : Cut cs} (h : fraction? cs = some point) :
    TakesOnly isFloatPart point ∧ '.' ∈ point.taken := by
  unfold fraction? at h
  split at h
  · split at h
    · cases h
      exact ⟨(takesOnly_digits _).cons rfl, List.mem_cons_self⟩
    · cases h
  · cases h

theorem takes_exponent {power : Cut cs} (h : exponent? cs = some power) :
    TakesOnly isFloatPart power ∧ ∃ c ∈ power.taken, c ∈ ['.', 'e', 'E'] := by
  unfold exponent? at h
  split at h
  · split at h
    · next c r hc =>
      cases h
      have hmark : c ∈ ['.', 'e', 'E'] := List.mem_cons_of_mem _ (by simpa using hc)
      have hsign : TakesOnly isFloatPart (one (fun s => s == '-' || s == '+') r) := by
        refine (takesOnly_one _ r).mono fun s hs => ?_
        rcases Bool.or_eq_true_iff.mp hs with hs | hs
        all_goals
          rw [beq_iff_eq.mp hs]
          rfl
      have hpart : isFloatPart c = true := by rcases hc with rfl | rfl <;> rfl
      exact ⟨(hsign.andThen (takesOnly_digits _)).cons hpart, c, List.mem_cons_self, hmark⟩
    · cases h
  · cases h

theorem takes_floatSuffix {suffix : Cut cs} (h : floatSuffix? cs = some suffix) :
    TakesOnly isFloatPart suffix ∧ ∃ c, suffix.taken = [c] ∧ c ∈ ['f', 'F', 'd', 'D'] := by
  unfold floatSuffix? at h
  split at h
  · split at h
    · next c r hc =>
      cases h
      have hpart : isFloatPart c = true := by rcases hc with rfl | rfl | rfl | rfl <;> rfl
      exact ⟨(takesOnly_before _ r).cons hpart, c, rfl, by simpa using hc⟩
    · cases h
  · cases h

theorem takesOnly_floatSuffix (cs : List Char) :
    TakesOnly isFloatPart (orNothing (floatSuffix? cs)) :=
  takesOnly_orNothing fun _ h => (takes_floatSuffix h).1

theorem takesOnly_floatTail (cs : List Char) : TakesOnly isFloatPart (floatTail cs) :=
  (takesOnly_orNothing fun _ h => (takes_exponent h).1).andThen (takesOnly_floatSuffix _)

theorem takesOnly_intSuffix (cs : List Char) : TakesOnly isIntSuffix (intSuffix cs) :=
  takesOnly_one _ cs

theorem isIntPart_of_isIntSuffix (c : Char) (h : isIntSuffix c = true) : isIntPart c = true := by
  rcases Bool.or_eq_true_iff.mp h with h | h
  all_goals
    rw [beq_iff_eq.mp h]
    rfl

theorem takesOnly_int (cs : List Char) :
    TakesOnly isIntPart ((span isDecimalPart cs).andThen (intSuffix (span isDecimalPart cs).rest)) :=
  ((takesOnly_span _ cs).mono fun _ h => Bool.or_eq_true_iff.mpr (.inl h)).andThen
    ((takesOnly_intSuffix _).mono isIntPart_of_isIntSuffix)

theorem numberTail_decimal (first : Char) (cs : List Char) :
    NumberTail first (decimal cs).1 (decimal cs).2.taken := by
  simp only [decimal]
  split
  · next point hpoint =>
    obtain ⟨hparts, hmark⟩ := takes_fraction hpoint
    refine .float (((takesOnly_digits cs).andThen hparts).andThen (takesOnly_floatTail _)) ?_
    exact .of_mem (List.mem_append_left _ (List.mem_append_right _ hmark)) List.mem_cons_self
  · split
    · next power hpower =>
      obtain ⟨hparts, c, hc, hmark⟩ := takes_exponent hpower
      refine .float (((takesOnly_digits cs).andThen hparts).andThen (takesOnly_floatSuffix _)) ?_
      exact .of_mem (List.mem_append_left _ (List.mem_append_right _ hc)) hmark
    · split
      · next suffix hsuffix =>
        obtain ⟨hparts, c, hc, hmark⟩ := takes_floatSuffix hsuffix
        have htaken : ((span isDecimalPart cs).andThen suffix).taken =
            (span isDecimalPart cs).taken ++ [c] := congrArg (_ ++ ·) hc
        have hends : LiteralKind.endsIn ['f', 'F', 'd', 'D']
            ((span isDecimalPart cs).taken ++ [c]) = true := by
          rw [LiteralKind.endsIn, List.getLast?_concat]
          exact List.contains_iff_mem.mpr hmark
        exact .float ((takesOnly_digits cs).andThen hparts) (.inr (htaken ▸ hends))
      · exact .int (takesOnly_int cs)

/-- A number is written as its kind is. -/
theorem numberTail_number (first : Char) (cs : List Char) :
    NumberTail first (number first cs).1 (number first cs).2.taken := by
  unfold number
  split
  · next x r =>
    split
    · next hx =>
      refine .hex hx.1 hx.2 (List.forall_mem_append.mpr ⟨fun c hc => ?_, fun c hc => ?_⟩)
      · rw [takesOnly_span isHexPart r c hc, Bool.true_or]
      · rw [takesOnly_intSuffix _ c hc, Bool.or_true]
    · split
      · next hx =>
        have hpart : isIntPart x = true := by rcases hx.2 with rfl | rfl <;> rfl
        exact .int ((takesOnly_int r).cons hpart)
      · exact numberTail_decimal first (x :: r)
  · exact numberTail_decimal first []

/-- What stands behind a point is a point, a number or nothing. -/
theorem takes_point (cs : List Char) :
    (point cs).2.taken = ['.', '.'] ∧ (point cs).1 = .ellipsis ∨
      (point cs).1 = .floatLiteral ∧ TakesOnly isFloatPart (point cs).2 ∨
        (point cs).2.taken = [] ∧ (point cs).1 = .dot := by
  unfold point
  split
  · exact .inl ⟨rfl, rfl⟩
  · split
    · exact .inr (.inl ⟨rfl, (takesOnly_digits _).andThen (takesOnly_floatTail _)⟩)
    · exact .inr (.inr ⟨rfl, rfl⟩)
  · exact .inr (.inr ⟨rfl, rfl⟩)

end Lexeme

end JavaSyntax
