import JavaSyntax.Proofs.Grammar.TypeReads

namespace JavaSyntax.Grammar

open Piece Step

variable {whole : Bool}

/-- A name stops only where nothing continues it, unless as the name of a method. -/
theorem reads_nameSegments : (ts : List Token) →
    (nameSegments ts).Reads whole [] [] ∧ Stops .ambiguousName (nameSegments ts).rest
  | [] => ⟨reads_idle _, by rintro d n rest ⟨⟩⟩
  | [_] => ⟨reads_idle _, by rintro d n rest ⟨⟩⟩
  | d :: n :: r => by
    obtain ⟨hmore, hstops⟩ := reads_nameSegments r
    rw [nameSegments]
    split
    · next h =>
      have named := hmore.lead true fun _ => congrArg Kind.isBrace h.2.1
      have pointed := named.lead true fun _ => congrArg Kind.isBrace h.1
      exact ⟨(pointed.lift (b := [d])).lift (b := []), hstops⟩
    · next h =>
      refine ⟨reads_idle _, ?_⟩
      rintro _ _ _ ⟨⟩ hd hn
      exact not_ne_iff.mp fun hr => h ⟨hd, hn, hr⟩

/-- A name holds tokens only. -/
theorem not_isNode_nameSegments : (ts : List Token) →
    ∀ p ∈ (nameSegments ts).parts, p.isNode = false
  | [] | [_] => by simp [nameSegments, idle]
  | d :: n :: r => by
    rw [nameSegments]
    split
    · intro p hp
      simp only [Step.lift, Step.lead, List.mem_cons] at hp
      rcases hp with rfl | rfl | hp
      · rfl
      · rfl
      · exact not_isNode_nameSegments r p hp
    · simp [idle]

theorem reads_ambiguousName {t : Token} (ht : t.kind = .ident) (r : List Token) :
    (ambiguousName t r).Reads whole [] [t] := by
  obtain ⟨hmore, hstops⟩ := @reads_nameSegments whole r
  have named := hmore.lead (t := t) true fun _ => congrArg Kind.isBrace ht
  have plain : ∀ p ∈ ((nameSegments r).lead true t).parts, p.isNode = false := by
    intro p hp
    rcases List.mem_cons.mp hp with rfl | hp
    · rfl
    · exact not_isNode_nameSegments r p hp
  have opened : ∀ o, opener? .ambiguousName = some o →
      ((direct ((nameSegments r).lead true t).parts).head?.map fun t => t.1.kind) = some o := by
    intro o ho
    cases ho
    exact congrArg some ht
  refine Operand.reads_found (named.node ?_) (by simp [Step.lead, tokensOfAll, Piece.tokens])
  exact ⟨⟨rfl, by decide, opened, fun _ => plain, nofun⟩, nofun, hstops, nofun, nofun, nofun⟩

theorem reads_referenceName (ts : List Token) : (referenceName ts).Reads whole [] [] := by
  cases ts with
  | nil => exact reads_report _ _
  | cons t r =>
    rw [referenceName]
    split
    · next ht => exact reads_bump _ (fun _ => not_isBrace_of_or ht rfl rfl) _
    · exact reads_report _ _

/-- The point is read only after it was reported, and stands first in the node for it. -/
theorem reads_danglingPoint {k : Kind} {operand : List Piece} (ho : Led k operand) {d : Token}
    (hd : d.kind = .dot) (r : List Token) : (danglingPoint k operand d r).Reads whole operand [d] := by
  have tail {s : Step r} (h : s.Reads whole [] []) (hs : s.problems = []) :
      Operand.Reads
        { s with
          parts := operand ++ [.node .error (.token d false :: s.parts)]
          problems := [⟨.memberName, some d⟩]
          lead := some k } whole operand [d] := by
    have pointed := h.lead (t := d) false fun _ => congrArg Kind.isBrace hd
    refine ⟨⟨?_, fun {earlier} hoperand => ?_, ?_, pointed.braces⟩, ?_⟩
    · have htokens := ((pointed.behind operand).tokens)
      simpa [tokensOfAll_append, tokensOfAll, Piece.tokens, Step.lead] using htokens
    · have hfound : earlier ⊆ earlier ++ [some d] := List.subset_append_left _ _
      have hbehind : tokensOfAll [.node .error (.token d false :: s.parts)] ++ s.rest = d :: r := by
        simpa [tokensOfAll, Piece.tokens, Step.lead] using pointed.tokens
      refine allSound_append.mpr ⟨?_, ⟨⟨⟨rfl, by decide, nofun, nofun, nofun⟩, nofun, trivial, ?_, nofun, nofun⟩,
        trivial, ?_⟩, trivial⟩
      · rw [hbehind]
        exact hoperand.mono hfound
      · exact fun _ => ⟨d, false, s.parts, rfl, List.mem_append_right _ List.mem_cons_self⟩
      · have hs' : s.found = [] := congrArg (List.map Problem.found) hs
        have hsound : AllSound (earlier ++ s.found) s.rest s.parts := h.sound trivial
        rw [hs', List.append_nil] at hsound
        exact hsound.mono hfound
    · have hs' : s.found = [] := congrArg (List.map Problem.found) hs
      have halong := h.along
      rw [hs'] at halong
      exact ⟨d :: r, List.suffix_rfl, rfl, halong.trans (List.suffix_cons d r)⟩
    · intro k' he
      cases he
      exact ho.append rfl
  cases r with
  | nil => exact tail (reads_idle []) rfl
  | cons t s =>
    rw [danglingPoint]
    split
    · next ht => exact tail (reads_bump false (fun _ => not_isBrace_of_or ht rfl rfl) s) rfl
    · exact tail (reads_idle (t :: s)) rfl

theorem reads_constructedClass (ts : List Token) : (constructedClass ts).Reads whole [] [] := by
  cases ts with
  | nil => exact reads_report _ _
  | cons t r =>
    rw [constructedClass]
    split
    · next ht => exact (reads_classType ht r).toReads.lift (b := [])
    · exact reads_report _ _

/-- A type that leads nowhere is reported behind it. -/
theorem reads_primitiveOperand (ts : List Token) : (primitiveOperand ts).Reads whole [] [] := by
  have htype : (type false ts).Reads whole [] [] := reads_type false ts
  rw [primitiveOperand]
  split
  · exact htype
  · have hreport := htype.toReads.andThen (reads_report .afterPrimitive (type false ts).rest)
    have hparts : ((type false ts).andThen (report .afterPrimitive (type false ts).rest)).parts =
        (type false ts).parts := List.append_nil _
    refine ⟨⟨htype.tokens, fun ho => ?_, hreport.along, htype.braces⟩, htype.led⟩
    have hsound := hreport.sound ho
    rwa [hparts] at hsound

mutual

theorem reads_expr (ts : List Token) : (expr ts).Reads whole [] [] := by
  have h := reads_binary ts 1
  rw [expr]
  split
  · exact h
  · next k hk => exact h.resume (reads_assignment (h.led k hk) _)
termination_by 16 * ts.length + 6
decreasing_by all_goals grind

theorem reads_assignment {k : Kind} {target : List Piece} (hl : Led k target) (ts : List Token) :
    (assignment k target ts).Reads whole target [] := by
  cases ts with
  | nil =>
    rw [assignment]
    exact Operand.reads_done hl _
  | cons t r =>
    rw [assignment]
    split
    · next ht =>
      have value := (reads_expr r).toReads.lead true fun _ => not_isBrace_of_isAssignment ht
      exact Operand.reads_around hl (value.lift (b := [])) (hl.stands rfl _ trivial)
    · exact Operand.reads_done hl _
termination_by 16 * ts.length
decreasing_by all_goals grind

theorem reads_binary (ts : List Token) (weakest : Nat) : (binary ts weakest).Reads whole [] [] := by
  have h := reads_unary ts
  rw [binary]
  split
  · exact h
  · next k hk => exact h.resume (reads_binaryTail (h.led k hk) _ weakest)
termination_by 16 * ts.length + 5
decreasing_by all_goals grind

theorem reads_binaryTail {k : Kind} {left : List Piece} (hl : Led k left) (ts : List Token)
    (weakest : Nat) : (binaryTail k left ts weakest).Reads whole left [] := by
  cases ts with
  | nil =>
    rw [binaryTail]
    exact Operand.reads_done hl _
  | cons t r =>
    rw [binaryTail]
    split
    · exact Operand.reads_done hl _
    · next strength ht =>
      split
      · exact Operand.reads_done hl _
      · have right := (reads_binary r (strength + 1)).toReads.lead true fun _ =>
          not_isBrace_of_precedence ht
        have infixed := Operand.reads_around (k := .infixExpression) hl right (hl.stands rfl _ trivial)
        exact (infixed.resume (reads_binaryTail (infixed.led _ rfl) _ weakest)).lift
termination_by 16 * ts.length
decreasing_by all_goals grind

theorem reads_unary (ts : List Token) : (unary ts).Reads whole [] [] := by
  cases ts with
  | nil =>
    rw [unary]
    exact reads_suffixed []
  | cons t r =>
    rw [unary]
    split
    · next ht =>
      have h := (reads_unary r).toReads.lead (t := t) true fun _ => not_isBrace_of_or ht rfl rfl
      exact Operand.reads_found ((h.lift (b := [])).free rfl)
        (by simp [Step.lift, Step.lead, tokensOfAll, Piece.tokens])
    · exact reads_suffixed (t :: r)
termination_by 16 * ts.length + 4
decreasing_by all_goals grind

theorem reads_suffixed (ts : List Token) : (suffixed ts).Reads whole [] [] := by
  have h := reads_primary ts
  rw [suffixed]
  split
  · exact h
  · next k hk => exact h.resume (reads_suffixedTail (h.led k hk) _)
termination_by 16 * ts.length + 3
decreasing_by all_goals grind

theorem reads_suffixedTail {k : Kind} {operand : List Piece} (hl : Led k operand) (ts : List Token) :
    (suffixedTail k operand ts).Reads whole operand [] := by
  cases ts with
  | nil =>
    rw [suffixedTail]
    exact Operand.reads_done hl _
  | cons t r =>
    rw [suffixedTail]
    split
    · next ht => exact (reads_selection hl ht r).lift
    · split
      · next ht =>
        have named : ((typeArguments? r).andThen (referenceName (typeArguments? r).rest)).Reads
            whole [] [] := (reads_typeArguments? r).andThen (reads_referenceName _)
        have referred := named.lead (t := t) false fun _ => congrArg Kind.isBrace ht
        have reference := Operand.reads_around (k := .methodReference) hl referred
          (hl.stands_methodReference ht _ _ _)
        exact (reference.resume (reads_suffixedTail (reference.led _ rfl) _)).lift
      · exact Operand.reads_done hl _
termination_by 16 * ts.length
decreasing_by all_goals grind

theorem reads_selection {k : Kind} {operand : List Piece} (hl : Led k operand) {d : Token}
    (hd : d.kind = .dot) (r : List Token) : (selection k operand d r).Reads whole operand [d] := by
  cases r with
  | nil =>
    rw [selection]
    exact reads_danglingPoint hl hd []
  | cons n s =>
    have follow {k' j : Kind} {t : Step s} {i : Bool} (ht : t.Reads whole [] [])
        (hn : n.kind = j) (hj : j.isBrace = false) (hk : isAround k' = true) (hstops : Stops k' t.rest) :
        let a := Operand.around operand ((t.lead i n).lead false d) k'
        ((a.resume (suffixedTail k' a.parts a.rest)).lift n).Reads whole operand [d] := by
      have pointed := (ht.lead i fun _ => hn ▸ hj).lead false fun _ => congrArg Kind.isBrace hd
      have selected := Operand.reads_around hl pointed (hl.stands hk _ hstops)
      exact (selected.resume (reads_suffixedTail (selected.led k' rfl) _)).lift
    rw [selection]
    split
    · next hn =>
      split
      · exact follow (reads_argumentList s) hn rfl rfl trivial
      · next hs => exact follow (reads_idle s) hn rfl rfl hs
    · split
      · next hn => exact follow (reads_idle s) hn.1 rfl rfl trivial
      · split
        · next hn => exact follow (reads_idle s) hn.1 rfl rfl trivial
        · exact reads_danglingPoint hl hd (n :: s)
termination_by 16 * r.length + 8
decreasing_by all_goals grind

theorem reads_primary (ts : List Token) : (primary ts).Reads whole [] [] := by
  cases ts with
  | nil =>
    rw [primary]
    exact Operand.reads_missing (reads_report _ _)
  | cons t r =>
    have found {k : Kind} {s : Step r} {i : Bool} (h : s.Reads whole [] [])
        (ht : t.kind.isBrace = false) (hk : isFree k = true) :
        (Operand.found ((s.lead i t).lift t) k).Reads whole [] [] :=
      Operand.reads_found (((h.lead i fun _ => ht).lift (b := [])).free hk)
        (by simp [Step.lift, Step.lead, tokensOfAll, Piece.tokens])
    rw [primary]
    split
    · next ht => exact found (reads_idle r) (not_isBrace_of_literal ht) rfl
    · split
      · next ht =>
        split
        · exact found (reads_argumentList r) (congrArg Kind.isBrace ht) rfl
        · split
          · exact reads_type false (t :: r)
          · exact (reads_ambiguousName ht r).lift (b := [])
      · split
        · exact reads_primitiveOperand (t :: r)
        · split
          · next ht =>
            have this : (bump false t r).Reads whole [] [] :=
              reads_bump false (fun _ => congrArg Kind.isBrace ht) r
            exact Operand.reads_found (k := .thisExpression)
              (this.node ⟨⟨rfl, by decide, nofun, nofun, nofun⟩, nofun, trivial, nofun, nofun, nofun⟩)
              (List.cons_ne_nil _ _)
          · split
            · next ht =>
              exact found ((reads_expr r).toReads.andThen (reads_expect (fun _ => rfl) _))
                (congrArg Kind.isBrace ht) rfl
            · split
              · next ht =>
                exact found ((reads_constructedClass r).andThen (reads_argumentList _))
                  (congrArg Kind.isBrace ht) rfl
              · split
                · exact Operand.reads_missing (reads_report _ _)
                · next ht =>
                  exact Operand.reads_missing
                    ((reads_skip _ (fun _ => not_isBrace_of_not_recovery ht) r).lift (b := []))
termination_by 16 * ts.length + 2
decreasing_by all_goals grind

theorem reads_argumentList (ts : List Token) : (argumentList ts).Reads whole [] [] := by
  cases ts with
  | nil =>
    rw [argumentList]
    exact reads_report _ _
  | cons t r =>
    rw [argumentList]
    split
    · next ht => exact ((reads_argumentsTail r).opened false ht rfl fun _ => rfl).lift (b := [])
    · exact reads_report _ _
termination_by 16 * ts.length
decreasing_by all_goals grind

theorem reads_argumentsTail (ts : List Token) : (argumentsTail ts).Reads whole [] [] := by
  cases ts with
  | nil =>
    rw [argumentsTail]
    exact reads_expect (fun _ => rfl) _
  | cons t r =>
    rw [argumentsTail]
    split
    · exact reads_expect (fun _ => rfl) _
    · have h := reads_expr (t :: r)
      dsimp only
      split
      · exact h.toReads.andThen (reads_expect (fun _ => rfl) _)
      · exact h.toReads.andThen (reads_argumentsMore _)
termination_by 16 * ts.length + 8
decreasing_by all_goals grind

theorem reads_argumentsMore (ts : List Token) : (argumentsMore ts).Reads whole [] [] := by
  cases ts with
  | nil =>
    rw [argumentsMore]
    exact reads_expect (fun _ => rfl) _
  | cons t r =>
    rw [argumentsMore]
    split
    · next ht =>
      exact ((reads_argumentsTail r).lead false fun _ => congrArg Kind.isBrace ht).lift (b := [])
    · exact reads_expect (fun _ => rfl) _
termination_by 16 * ts.length + 7
decreasing_by all_goals grind

end

end JavaSyntax.Grammar
