import JavaSyntax.Proofs.Token.Order

namespace JavaSyntax

/-- Characters that no token but a literal contains. -/
inductive IsBreak : Char → Prop
  | space : IsBreak ' '
  | newline : IsBreak '\n'

namespace Cut

variable {cs us s : List Char}

theorem rest_suffix (cut : Cut cs) : cut.rest <:+ cs := ⟨cut.taken, cut.taken_append_rest⟩

theorem rest_span (p : Char → Bool) (cs : List Char) : (span p cs).rest = cs.dropWhile p := rfl

theorem length_rest_span_le {p : Char → Bool} {c : Char} (hc : p c = true) (cs : List Char) :
    (span p (c :: cs)).rest.length ≤ cs.length := by
  rw [rest_span, List.dropWhile_cons_of_pos hc]
  exact (List.dropWhile_suffix p).length_le

/-- The same is taken, and `s` is left in addition. -/
structure Extends (s : List Char) (b : Cut us) (a : Cut cs) : Prop where
  taken : b.taken = a.taken
  rest : b.rest = a.rest ++ s

/-- Both or neither, and if both, with `s` left in addition. -/
inductive OptExtends (s : List Char) : Option (Cut us) → Option (Cut cs) → Prop
  | none : OptExtends s none none
  | some {b : Cut us} {a : Cut cs} (h : Extends s b a) : OptExtends s (some b) (some a)

/-- What was read ends in front of `s`: nothing of `s` was taken, or it starts with a break. -/
def Ends (s : List Char) (cut : Cut us) : Prop :=
  s <:+ cut.rest ∨ ∃ sep r, IsBreak sep ∧ s = sep :: r

theorem Ends.of_suffix {vs : List Char} {a : Cut us} {b : Cut vs} (h : Ends s b)
    (hrest : b.rest <:+ a.rest) : Ends s a :=
  h.imp (fun hs => hs.trans hrest) id

theorem rest_andThen_suffix (a : Cut us) (b : Cut a.rest) : (a.andThen b).rest <:+ a.rest :=
  b.rest_suffix

theorem ends_orNothing (h : us = cs ++ s) {cut : Option (Cut us)}
    (hs : ∀ c, cut = some c → Ends s c) : Ends s (orNothing cut) := by
  cases cut with
  | none => exact .inl ⟨cs, h.symm⟩
  | some c => exact hs c rfl

theorem Ends.first {a : Cut us} {b : Cut a.rest} (h : Ends s (a.andThen b)) : Ends s a :=
  h.of_suffix b.rest_suffix

/-- Only a break of what follows can have been taken. -/
theorem Ends.absurd {c : Char} {r : List Char} {cut : Cut us} (h : Ends (c :: r) cut)
    (hc : ¬ IsBreak c) (hle : cut.rest.length ≤ r.length) : False := by
  rcases h with h | ⟨sep, s, hsep, hs⟩
  · have hlength := h.length_le
    rw [List.length_cons] at hlength
    omega
  · exact hc ((List.cons.inj hs).1 ▸ hsep)

theorem extends_before (cs s : List Char) : Extends s (before (cs ++ s)) (before cs) := ⟨rfl, rfl⟩

theorem Extends.cons {b : Cut us} {a : Cut cs} (h : Extends s b a) (c : Char) :
    Extends s (b.cons c) (a.cons c) :=
  ⟨congrArg (c :: ·) h.taken, h.rest⟩

theorem Extends.andThen {b : Cut us} {a : Cut cs} {b' : Cut b.rest} {a' : Cut a.rest}
    (h : Extends s b a) (h' : Extends s b' a') : Extends s (b.andThen b') (a.andThen a') :=
  ⟨by simp [Cut.andThen, h.taken, h'.taken], h'.rest⟩

theorem Ends.outside {p : Char → Bool} {cut : Cut us} (h : Ends s cut) (hspace : p ' ' = false)
    (hnewline : p '\n' = false) : s <:+ cut.rest ∨ ∀ c ∈ s.head?, p c = false := by
  refine h.imp id ?_
  rintro ⟨sep, r, hsep, rfl⟩ c hc
  cases hc
  cases hsep with
  | space => exact hspace
  | newline => exact hnewline

section

variable {p : Char → Bool}

theorem outside_of_not_taken {c : Char} {r : List Char} {cut : Cut us}
    (h : c :: r <:+ cut.rest ∨ ∀ d ∈ (c :: r).head?, p d = false)
    (hle : p c = true → cut.rest.length ≤ r.length) : p c = false := by
  rcases h with h | h
  · refine Bool.eq_false_iff.mpr fun hc => ?_
    exact absurd (hle hc) (Nat.not_le.mpr h.length_le)
  · exact h c rfl

/-- A run of characters does not depend on what comes after it and could not have continued it. -/
theorem extends_span (h : us = cs ++ s)
    (hs : s <:+ (span p us).rest ∨ ∀ c ∈ s.head?, p c = false) :
    Extends s (span p us) (span p cs) := by
  subst h
  induction cs with
  | nil =>
    cases s with
    | nil => exact extends_before [] []
    | cons c r =>
      have hc : p c = false := outside_of_not_taken hs fun hc => length_rest_span_le hc r
      exact ⟨by simp [span, hc], by simp [span, hc]⟩
  | cons c cs ih =>
    by_cases hc : p c = true
    · have hmore : s <:+ (span p (cs ++ s)).rest ∨ ∀ d ∈ s.head?, p d = false := by
        simpa [span, hc] using hs
      obtain ⟨ht, hr⟩ := ih hmore
      simp only [span] at ht hr
      exact ⟨by simp [span, hc, ht], by simp [span, hc, hr]⟩
    · exact ⟨by simp [span, hc], by simp [span, hc]⟩

theorem extends_one (h : us = cs ++ s) (hs : s <:+ (one p us).rest ∨ ∀ c ∈ s.head?, p c = false) :
    Extends s (one p us) (one p cs) := by
  subst h
  cases cs with
  | nil =>
    cases s with
    | nil => exact extends_before [] []
    | cons c r =>
      have hc : p c = false := by
        refine outside_of_not_taken hs fun hc => ?_
        simp [one, hc, before]
      simp only [List.nil_append, one, hc]
      exact extends_before [] _
  | cons c cs =>
    simp only [List.cons_append, one]
    split
    · exact (extends_before cs s).cons c
    · exact extends_before (c :: cs) s

end

theorem OptExtends.orNothing (hus : us = cs ++ s) {b : Option (Cut us)} {a : Option (Cut cs)}
    (h : OptExtends s b a) : Extends s (orNothing b) (orNothing a) := by
  subst hus
  cases h with
  | none => exact extends_before cs s
  | some h => exact h

end Cut

namespace Lexeme

open Cut

variable {cs us s : List Char}

theorem isDecimalPart_of_isDigit {c : Char} (h : c.isDigit = true) : isDecimalPart c = true := by
  rw [isDecimalPart, h, Bool.or_true]

theorem not_isBreak_of_isDigit {c : Char} (h : c.isDigit = true) : ¬ IsBreak c := by
  rintro (_ | _)
  all_goals cases h

theorem extends_digits (h : us = cs ++ s) (hs : Ends s (span isDecimalPart us)) :
    Extends s (span isDecimalPart us) (span isDecimalPart cs) :=
  extends_span h (hs.outside (by decide) (by decide))

theorem extends_intSuffix (h : us = cs ++ s) (hs : Ends s (intSuffix us)) :
    Extends s (intSuffix us) (intSuffix cs) :=
  extends_one h (hs.outside (by decide) (by decide))

theorem fraction?_eq_none (h : ∀ d r, cs = '.' :: d :: r → ¬ d.isDigit = true) :
    fraction? cs = none := by
  unfold fraction?
  split
  · next d r => exact if_neg (h d r rfl)
  · rfl

theorem extends_fraction? (h : us = cs ++ s) (hs : Ends s (orNothing (fraction? us))) :
    OptExtends s (fraction? us) (fraction? cs) := by
  subst h
  by_cases hpoint : ∃ d r, cs = '.' :: d :: r
  · obtain ⟨d, r, rfl⟩ := hpoint
    simp only [List.cons_append, fraction?] at hs ⊢
    split
    · next hd =>
      rw [if_pos hd] at hs
      have hdigits := extends_digits (rfl : d :: r ++ s = _) hs
      exact .some (hdigits.cons '.')
    · exact .none
  · -- a fraction that starts in what follows would have taken of it
    have hmore : fraction? (cs ++ s) = none := by
      refine fraction?_eq_none fun d r hcs hd => ?_
      rw [hcs, fraction?, if_pos hd] at hs
      have hle : (span isDecimalPart (d :: r)).rest.length ≤ r.length :=
        length_rest_span_le (isDecimalPart_of_isDigit hd) r
      match cs, hcs with
      | [], hcs =>
        rw [List.nil_append] at hcs
        subst hcs
        exact hs.absurd (by rintro ⟨⟩) (Nat.le_succ_of_le hle)
      | [c], hcs =>
        obtain rfl : s = d :: r := (List.cons.inj hcs).2
        exact hs.absurd (not_isBreak_of_isDigit hd) hle
      | c :: e :: cs, hcs => exact hpoint ⟨e, cs, by rw [(List.cons.inj hcs).1]⟩
    rw [hmore, fraction?_eq_none fun d r hcs => absurd ⟨d, r, hcs⟩ hpoint]
    exact .none

theorem extends_exponent? (h : us = cs ++ s) (hs : Ends s (orNothing (exponent? us))) :
    OptExtends s (exponent? us) (exponent? cs) := by
  subst h
  cases cs with
  | nil =>
    have hnone : exponent? s = none := by
      cases s with
      | nil => rfl
      | cons c r =>
        rw [exponent?]
        refine if_neg fun hc => ?_
        rw [List.nil_append, exponent?, if_pos hc] at hs
        let sign := one (fun d => d == '-' || d == '+') r
        have hle : (sign.andThen (span isDecimalPart sign.rest)).rest.length ≤ r.length :=
          length_rest_le _
        refine hs.absurd ?_ hle
        rintro ⟨⟩ <;> simp at hc
    rw [List.nil_append, hnone]
    exact .none
  | cons c cs =>
    simp only [List.cons_append, exponent?] at hs ⊢
    split
    · next hc =>
      rw [if_pos hc] at hs
      have hsign := extends_one (p := fun d => d == '-' || d == '+') (rfl : cs ++ s = cs ++ s)
        (Ends.outside (Ends.first hs) (by decide) (by decide))
      have hdigits := extends_digits hsign.rest hs
      exact .some ((hsign.andThen hdigits).cons c)
    · exact .none

theorem extends_floatSuffix? (h : us = cs ++ s) (hs : Ends s (orNothing (floatSuffix? us))) :
    OptExtends s (floatSuffix? us) (floatSuffix? cs) := by
  subst h
  cases cs with
  | nil =>
    have hnone : floatSuffix? s = none := by
      cases s with
      | nil => rfl
      | cons c r =>
        rw [floatSuffix?]
        refine if_neg fun hc => ?_
        rw [List.nil_append, floatSuffix?, if_pos hc] at hs
        refine hs.absurd ?_ (Nat.le_refl _)
        rintro ⟨⟩ <;> simp at hc
    rw [List.nil_append, hnone]
    exact .none
  | cons c cs =>
    simp only [List.cons_append, floatSuffix?]
    split
    · exact .some ((extends_before cs s).cons c)
    · exact .none

theorem extends_floatTail (h : us = cs ++ s) (hs : Ends s (floatTail us)) :
    Extends s (floatTail us) (floatTail cs) := by
  have hpower := (extends_exponent? h (Ends.first hs)).orNothing h
  have hsuffix := extends_floatSuffix? hpower.rest hs
  exact hpower.andThen (hsuffix.orNothing hpower.rest)

/-- The same kind is read, and the cuts extend each other. -/
def ReadExtends (s : List Char) (b : Kind × Cut us) (a : Kind × Cut cs) : Prop :=
  b.1 = a.1 ∧ Extends s b.2 a.2

theorem rest_decimal_suffix (cs : List Char) :
    (decimal cs).2.rest <:+ (span isDecimalPart cs).rest := by
  unfold decimal
  dsimp only
  split
  · exact (rest_andThen_suffix _ _).trans (rest_andThen_suffix _ _)
  · split
    · exact (rest_andThen_suffix _ _).trans (rest_andThen_suffix _ _)
    · split
      · exact rest_andThen_suffix _ _
      · exact rest_andThen_suffix _ _

theorem extends_decimal (h : us = cs ++ s) (hs : Ends s (decimal us).2) :
    ReadExtends s (decimal us) (decimal cs) := by
  have hwhole := extends_digits h (hs.of_suffix (rest_decimal_suffix us))
  unfold decimal at hs ⊢
  dsimp only at hs ⊢
  have hpoint := extends_fraction? hwhole.rest (ends_orNothing hwhole.rest fun point hp => by
    simp only [hp] at hs
    exact Ends.first hs)
  generalize fraction? (span isDecimalPart us).rest = point' at hs hpoint ⊢
  generalize fraction? (span isDecimalPart cs).rest = point at hpoint ⊢
  cases hpoint with
  | some hpoint =>
    have hmantissa := hwhole.andThen hpoint
    exact ⟨rfl, hmantissa.andThen (extends_floatTail hmantissa.rest hs)⟩
  | none =>
    have hpower := extends_exponent? hwhole.rest (ends_orNothing hwhole.rest fun power hp => by
      simp only [hp] at hs
      exact Ends.first hs)
    generalize exponent? (span isDecimalPart us).rest = power' at hs hpower ⊢
    generalize exponent? (span isDecimalPart cs).rest = power at hpower ⊢
    cases hpower with
    | some hpower =>
      have hscaled := hwhole.andThen hpower
      have hsuffix := extends_floatSuffix? hscaled.rest hs
      exact ⟨rfl, hscaled.andThen (hsuffix.orNothing hscaled.rest)⟩
    | none =>
      have hsuffix := extends_floatSuffix? hwhole.rest (ends_orNothing hwhole.rest fun suffix hp => by
        simp only [hp] at hs
        exact hs)
      generalize floatSuffix? (span isDecimalPart us).rest = suffix' at hs hsuffix ⊢
      generalize floatSuffix? (span isDecimalPart cs).rest = suffix at hsuffix ⊢
      cases hsuffix with
      | some hsuffix => exact ⟨rfl, hwhole.andThen hsuffix⟩
      | none => exact ⟨rfl, hwhole.andThen (extends_intSuffix hwhole.rest hs)⟩

theorem extends_number (first : Char) (h : us = cs ++ s) (hs : Ends s (number first us).2) :
    ReadExtends s (number first us) (number first cs) := by
  subst h
  cases cs with
  | nil =>
    cases s with
    | nil => exact @extends_decimal [] [] [] rfl hs
    | cons x r =>
      have hdecimal : number first (x :: r) = decimal (x :: r) := by
        rw [List.nil_append, number] at hs
        rw [number]
        split
        · next hx =>
          have hle : ((span isHexPart r).andThen (intSuffix (span isHexPart r).rest)).rest.length ≤
              r.length := length_rest_le _
          rw [if_pos hx] at hs
          exact (hs.absurd (by rintro ⟨⟩ <;> simp at hx) hle).elim
        · next hx =>
          rw [if_neg hx] at hs
          split
          · next hb =>
            have hle : ((span isDecimalPart r).andThen
                (intSuffix (span isDecimalPart r).rest)).rest.length ≤ r.length := length_rest_le _
            rw [if_pos hb] at hs
            exact (hs.absurd (by rintro ⟨⟩ <;> simp at hb) hle).elim
          · rfl
      rw [List.nil_append, hdecimal] at hs ⊢
      exact @extends_decimal [] (x :: r) (x :: r) rfl hs
  | cons x cs =>
    simp only [List.cons_append, number] at hs ⊢
    split
    · next hx =>
      rw [if_pos hx] at hs
      have hparts := extends_span (p := isHexPart) (rfl : cs ++ s = _)
        ((Ends.first hs).outside (by decide) (by decide))
      have hdigits := hparts.cons x
      exact ⟨rfl, hdigits.andThen (extends_intSuffix hdigits.rest hs)⟩
    · next hx =>
      rw [if_neg hx] at hs
      split
      · next hb =>
        rw [if_pos hb] at hs
        have hdigits := (extends_digits (rfl : cs ++ s = _) (Ends.first hs)).cons x
        exact ⟨rfl, hdigits.andThen (extends_intSuffix hdigits.rest hs)⟩
      · next hb =>
        rw [if_neg hb] at hs
        exact extends_decimal rfl hs

theorem extends_word (first : Char) (h : us = cs ++ s) (hs : Ends s (word first us).2) :
    ReadExtends s (word first us) (word first cs) := by
  have hpart := extends_span (p := isWordPart) h (Ends.outside hs (by decide) (by decide))
  exact ⟨by simp only [word, hpart.taken], hpart⟩

theorem extends_oneOrTwo {next : Char} (hn : ¬ IsBreak next) (long short : Kind) (h : us = cs ++ s)
    (hs : Ends s (oneOrTwo next long short us).2) :
    ReadExtends s (oneOrTwo next long short us) (oneOrTwo next long short cs) := by
  subst h
  cases cs with
  | nil =>
    cases s with
    | nil => exact ⟨rfl, extends_before [] []⟩
    | cons c r =>
      rw [List.nil_append, oneOrTwo] at hs ⊢
      split
      · next hc =>
        rw [if_pos hc] at hs
        exact (hs.absurd (hc ▸ hn) (Nat.le_refl _)).elim
      · exact ⟨rfl, extends_before [] _⟩
  | cons c cs =>
    simp only [List.cons_append, oneOrTwo]
    split
    · exact ⟨rfl, (extends_before cs s).cons c⟩
    · exact ⟨rfl, extends_before (c :: cs) s⟩

theorem point_cons {c : Char} {cs : List Char} (h : ∀ s, c = '.' → cs ≠ '.' :: s) :
    point (c :: cs) =
      if c.isDigit then
        (.floatLiteral, (span isDecimalPart (c :: cs)).andThen
          (floatTail (span isDecimalPart (c :: cs)).rest))
      else (.dot, before (c :: cs)) := by
  rw [point]
  exact h

theorem extends_point (h : us = cs ++ s) (hs : Ends s (point us).2) :
    ReadExtends s (point us) (point cs) := by
  subst h
  by_cases hdots : ∃ r, cs = '.' :: '.' :: r
  · obtain ⟨r, rfl⟩ := hdots
    exact ⟨rfl, ((extends_before r s).cons '.').cons '.'⟩
  · have hdots' : ∀ r, cs ++ s ≠ '.' :: '.' :: r := by
      intro r hcs
      rw [hcs] at hs
      match cs, hcs with
      | [], hcs =>
        rw [List.nil_append] at hcs
        subst hcs
        exact hs.absurd (by rintro ⟨⟩) (Nat.le_succ _)
      | [c], hcs =>
        obtain rfl : s = '.' :: r := (List.cons.inj hcs).2
        exact hs.absurd (by rintro ⟨⟩) (Nat.le_refl _)
      | c :: d :: cs, hcs =>
        cases hcs
        exact hdots ⟨_, rfl⟩
    cases cs with
    | nil =>
      cases s with
      | nil => exact ⟨rfl, extends_before [] []⟩
      | cons c r =>
        have hc : ¬ c.isDigit = true := by
          intro hc
          rw [List.nil_append, point_cons (fun s hd hr => hdots' s (by simp [hd, hr])), if_pos hc] at hs
          have hle : (span isDecimalPart (c :: r)).rest.length ≤ r.length :=
            length_rest_span_le (isDecimalPart_of_isDigit hc) r
          exact (Ends.first hs).absurd (not_isBreak_of_isDigit hc) hle
        rw [List.nil_append, point_cons (fun s hd hr => hdots' s (by simp [hd, hr])), if_neg hc]
        exact ⟨rfl, extends_before [] _⟩
    | cons c cs =>
      have hc : ∀ r, c = '.' → cs ≠ '.' :: r := fun r hc hr => hdots ⟨r, by rw [hc, hr]⟩
      have hc' : ∀ r, c = '.' → cs ++ s ≠ '.' :: r := fun r hc hr =>
        hdots' r (by rw [List.cons_append, hc, hr])
      rw [List.cons_append, point_cons hc'] at hs ⊢
      rw [point_cons hc]
      split
      · next hdigit =>
        rw [if_pos hdigit] at hs
        have hdigits := extends_digits (rfl : c :: cs ++ s = _) (Ends.first hs)
        exact ⟨rfl, hdigits.andThen (extends_floatTail hdigits.rest hs)⟩
      · exact ⟨rfl, extends_before (c :: cs) s⟩

theorem quoted_cons {quote c : Char} (hc : c ≠ '\\') (cs : List Char) :
    quoted quote (c :: cs) =
      if c = '\n' ∨ c = '\r' then (false, before (c :: cs))
      else if c = quote then (true, (before cs).cons c)
      else ((quoted quote cs).1, (quoted quote cs).2.cons c) := by
  rw [quoted]
  · intro d s h
    exact absurd h hc
  · intro h
    exact absurd h hc

/-- A literal of which nothing was taken stops at once, at a line end or where nothing is left. -/
theorem quoted_of_suffix {quote : Char} (hs : s <:+ (quoted quote s).2.rest) :
    quoted quote s = (false, before s) := by
  cases s with
  | nil => rfl
  | cons c r =>
    have hlong : r.length < (quoted quote (c :: r)).2.rest.length := hs.length_le
    by_cases hc : c = '\\'
    · subst hc
      cases r with
      | nil => exact absurd hlong (Nat.lt_irrefl 0)
      | cons d r =>
        have hle := (quoted quote r).2.length_rest_le
        exact absurd (Nat.lt_of_succ_lt hlong) (Nat.not_lt.mpr hle)
    · rw [quoted_cons hc] at hlong ⊢
      split
      · rfl
      · next hend =>
        rw [if_neg hend] at hlong
        split at hlong
        · exact absurd hlong (Nat.lt_irrefl _)
        · exact absurd hlong (Nat.not_lt.mpr (quoted quote r).2.length_rest_le)

/-- A closed literal does not depend on anything that comes after it, and an open one only on how it
ends. -/
theorem extends_quoted {quote : Char} (s : List Char) : ∀ {cs : List Char},
    s <:+ (quoted quote (cs ++ s)).2.rest ∨ (quoted quote cs).1 = true →
      (quoted quote (cs ++ s)).1 = (quoted quote cs).1 ∧
        Extends s (quoted quote (cs ++ s)).2 (quoted quote cs).2
  | [], hs => by
    have hnone : quoted quote s = (false, before s) := by
      rcases hs with hs | hs
      · exact quoted_of_suffix hs
      · cases hs
    rw [List.nil_append, hnone]
    exact ⟨rfl, extends_before [] s⟩
  | c :: cs, hs => by
    by_cases hc : c = '\\'
    · subst hc
      cases cs with
      | nil =>
        rcases hs with hs | hs
        · cases s with
          | nil => exact ⟨rfl, ((extends_before [] []).cons '\\')⟩
          | cons d r =>
            have hlong : r.length < (quoted quote r).2.rest.length := hs.length_le
            exact absurd hlong (Nat.not_lt.mpr (quoted quote r).2.length_rest_le)
        · cases hs
      | cons d cs =>
        obtain ⟨h, he⟩ := @extends_quoted quote s cs hs
        exact ⟨h, (he.cons d).cons '\\'⟩
    · rw [List.cons_append, quoted_cons hc, quoted_cons hc] at hs ⊢
      split
      · exact ⟨rfl, extends_before (c :: cs) s⟩
      · next hend =>
        rw [if_neg hend, if_neg hend] at hs
        split
        · exact ⟨rfl, (extends_before cs s).cons c⟩
        · next hquote =>
          rw [if_neg hquote, if_neg hquote] at hs
          obtain ⟨h, he⟩ := extends_quoted s hs
          exact ⟨h, he.cons c⟩

theorem extends_literal {kind : Kind} {quote : Char}
    (hs : s <:+ (quoted quote (cs ++ s)).2.rest ∨
      (literal kind (quoted quote cs)).1 ≠ .unknown) :
    ReadExtends s (literal kind (quoted quote (cs ++ s))) (literal kind (quoted quote cs)) := by
  have hquoted : s <:+ (quoted quote (cs ++ s)).2.rest ∨ (quoted quote cs).1 = true := by
    refine hs.imp id fun hknown => ?_
    cases h : (quoted quote cs).1 with
    | true => rfl
    | false => simp [literal, h] at hknown
  obtain ⟨h, he⟩ := extends_quoted s hquoted
  exact ⟨by simp only [literal, h], he⟩

/-- What is read of a text does not depend on what is left behind it. Nor does a token depend on what
comes after a space or a line end, unless it is a literal that is still open. -/
theorem extends_read_of (first : Char) (h : us = cs ++ s)
    (hs : s <:+ (read first us).2.rest ∨ (∃ sep r, IsBreak sep ∧ s = sep :: r) ∧
      (first = '"' ∨ first = '\'' → (read first cs).1 ≠ .unknown)) :
    ReadExtends s (read first us) (read first cs) := by
  have hends : Ends s (read first us).2 := hs.imp id And.left
  subst h
  revert hs hends
  unfold read
  split
  all_goals
    intro hs hends
    first
    | exact ⟨rfl, extends_before cs _⟩
    | exact extends_oneOrTwo (by rintro ⟨⟩) _ _ rfl hends
    | exact extends_point rfl hends
    | exact extends_literal (hs.imp id fun hbreak => hbreak.2 (by simp))
    | skip
  split
  · next hdigit =>
    rw [if_pos hdigit] at hends
    exact extends_number first rfl hends
  · next hdigit =>
    rw [if_neg hdigit] at hends
    split
    · next hstart =>
      rw [if_pos hstart] at hends
      exact extends_word first rfl hends
    · exact ⟨rfl, extends_before cs _⟩

theorem extends_read {sep : Char} (hsep : IsBreak sep) (first : Char) (cs r : List Char)
    (hknown : (read first cs).1 ≠ .unknown) :
    ReadExtends (sep :: r) (read first (cs ++ sep :: r)) (read first cs) :=
  extends_read_of first rfl (.inr ⟨⟨sep, r, hsep, rfl⟩, fun _ => hknown⟩)

end Lexeme

end JavaSyntax
