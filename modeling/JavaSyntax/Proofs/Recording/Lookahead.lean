import JavaSyntax.Proofs.Recording.Performing
import JavaSyntax.Recording.Declaration

namespace JavaSyntax

namespace Grammar

theorem exists_of_ahead {ts : List Token} {k : Kind} (h : ahead ts = k) (hk : k ≠ .eof) :
    ∃ t r, ts = t :: r ∧ t.kind = k := by
  cases ts with
  | nil => exact absurd h.symm hk
  | cons t r => exact ⟨t, r, rfl, h⟩

theorem exists_of_ahead_two {ts : List Token} {k k' : Kind} (h : ahead ts = k ∧ ahead (ts.drop 1) = k')
    (hk : k ≠ .eof) (hk' : k' ≠ .eof) : ∃ t u r, ts = t :: u :: r ∧ t.kind = k ∧ u.kind = k' := by
  obtain ⟨t, r, rfl, ht⟩ := exists_of_ahead h.1 hk
  obtain ⟨u, r, rfl, hu⟩ := exists_of_ahead h.2 hk'
  exact ⟨t, u, r, rfl, ht, hu⟩

theorem skipSegments_of_not {ts : List Token} (h : ¬(ahead ts = .dot ∧ ahead (ts.drop 1) = .ident)) :
    skipSegments ts = .nothing .ident ts := by
  rcases ts with _ | ⟨d, _ | ⟨m, r⟩⟩
  · rfl
  · rfl
  · exact if_neg h

theorem last_skipSegments : ∀ ts, (skipSegments ts).last = .ident
  | [] | [_] => rfl
  | d :: m :: r => by
    rw [skipSegments]
    split
    · exact last_skipSegments r
    · rfl

theorem skipDimensions_of_not (last : Kind) {ts : List Token}
    (h : ¬(ahead ts = .leftBracket ∧ ahead (ts.drop 1) = .rightBracket)) :
    skipDimensions last ts = .nothing last ts := by
  rcases ts with _ | ⟨b, _ | ⟨c, r⟩⟩
  · rfl
  · rfl
  · exact if_neg h

end Grammar

namespace Recording

open Grammar

variable {ts us r : List Token} {t : Token}

theorem drop_add_of_drop {i : Nat} (h : ts.drop i = us) (j : Nat) : ts.drop (i + j) = us.drop j := by
  rw [← List.drop_drop, h]

theorem looks_kindAt_of_drop {i : Nat} (hi : ts.drop i = us) : Looks (fun _ => kindAt i) ts (ahead us) := by
  rw [← hi]
  exact looks_kindAt ts i

/-- Two looks ahead, one token apart. -/
theorem looks_kindAt_two {i : Nat} (hi : ts.drop i = us) {α : Type} {a : α}
    {f : Nat → Kind → Kind → Recording α} (hf : Looks (fun d => f d (ahead us) (ahead (us.drop 1))) ts a) :
    Looks (fun d => do f d (← kindAt i) (← kindAt (i + 1))) ts a :=
  (looks_kindAt_of_drop hi).bind ((looks_kindAt_of_drop (drop_add_of_drop hi 1)).bind hf)

/-- The position where a lookahead ends. -/
structure Stands (ts : List Token) (s : Skipped us) (j : Nat) : Prop where
  pos : 0 < j
  rest : ts.drop j = s.rest
  last : ahead (ts.drop (j - 1)) = s.last

/-- A lookahead by positions tells where the other one ends, if there is something to go past. -/
inductive Agrees (ts : List Token) : Option (Skipped us) → Option Nat → Prop
  | nothing : Agrees ts none none
  | past {s : Skipped us} {j : Nat} (stands : Stands ts s j) : Agrees ts (some s) (some j)

theorem Stands.lift {s : Skipped r} {j : Nat} (h : Stands ts s j) : Stands ts (s.lift t) j :=
  ⟨h.pos, h.rest, h.last⟩

theorem Agrees.lift {o : Option (Skipped r)} {o' : Option Nat} (h : Agrees ts o o') :
    Agrees ts (o.map (Skipped.lift t)) o' := by
  cases h with
  | nothing => exact .nothing
  | past stands => exact .past stands.lift

theorem Agrees.andThen {a : Skipped us} {o : Option (Skipped a.rest)} {o' : Option Nat}
    (h : Agrees ts o o') : Agrees ts (o.map a.andThen) o' := by
  cases h with
  | nothing => exact .nothing
  | past stands => exact .past ⟨stands.pos, stands.rest, stands.last⟩

theorem looks_skipSegments {us : List Token} {i : Nat} (hi : ts.drop i = us)
    (hpos : 0 < i) (hlast : ahead (ts.drop (i - 1)) = .ident) :
    ∃ j, Looks (skipSegments i) ts j ∧ Stands ts (Grammar.skipSegments us) j := by
  refine exists_looks_deeper (skipSegments.eq_2 i) ?_
  by_cases hnext : ahead us = .dot ∧ ahead (us.drop 1) = .ident
  · obtain ⟨d, m, r, rfl, hd, hm⟩ := exists_of_ahead_two hnext (by decide) (by decide)
    have hlast₂ : ahead (ts.drop (i + 1)) = .ident := by
      rw [drop_add_of_drop hi 1]
      exact hm
    obtain ⟨j, hrun, hj⟩ := looks_skipSegments (drop_add_of_drop hi 2) (by omega) hlast₂
    refine ⟨j, ?_, ?_⟩
    · refine looks_kindAt_two hi ?_
      rw [fun_if_pos (by simp [ahead, hd, hm])]
      exact hrun
    · rw [Grammar.skipSegments, if_pos ⟨hd, hm⟩]
      exact hj.lift.lift
  · refine ⟨i, ?_, ?_⟩
    · refine looks_kindAt_two hi ?_
      rw [fun_if_neg (by simpa using hnext)]
      exact .pure
    · rw [skipSegments_of_not hnext]
      exact ⟨hpos, hi, hlast⟩
termination_by us.length
decreasing_by grind

theorem looks_skipDimensions {us : List Token} {i : Nat} (last : Kind)
    (hi : ts.drop i = us) (hpos : 0 < i) (hlast : ahead (ts.drop (i - 1)) = last) :
    ∃ j, Looks (skipDimensions i) ts j ∧ Stands ts (Grammar.skipDimensions last us) j := by
  refine exists_looks_deeper (skipDimensions.eq_2 i) ?_
  by_cases hnext : ahead us = .leftBracket ∧ ahead (us.drop 1) = .rightBracket
  · obtain ⟨b, c, r, rfl, hb, hc⟩ := exists_of_ahead_two hnext (by decide) (by decide)
    have hlast₂ : ahead (ts.drop (i + 1)) = .rightBracket := by
      rw [drop_add_of_drop hi 1]
      exact hc
    obtain ⟨j, hrun, hj⟩ := looks_skipDimensions .rightBracket (drop_add_of_drop hi 2) (by omega) hlast₂
    refine ⟨j, ?_, ?_⟩
    · refine looks_kindAt_two hi ?_
      rw [fun_if_pos (by simp [ahead, hb, hc])]
      exact hrun
    · rw [Grammar.skipDimensions, if_pos ⟨hb, hc⟩]
      exact hj.lift.lift
  · refine ⟨i, ?_, ?_⟩
    · refine looks_kindAt_two hi ?_
      rw [fun_if_neg (by simpa using hnext)]
      exact .pure
    · rw [skipDimensions_of_not last hnext]
      exact ⟨hpos, hi, hlast⟩
termination_by us.length
decreasing_by grind

mutual

theorem looks_skipType {us : List Token} {i : Nat} (hi : ts.drop i = us) :
    ∃ o, Looks (skipType i) ts o ∧ Agrees ts (Grammar.skipType us) o := by
  refine exists_looks_deeper (skipType.eq_2 i) ?_
  have hfirst := looks_kindAt_of_drop hi
  rcases us with _ | ⟨t, r⟩
  · refine ⟨none, hfirst.bind .pure, ?_⟩
    rw [Grammar.skipType]
    exact .nothing
  have hlast : ahead (ts.drop (i + 1 - 1)) = t.kind := by rw [Nat.add_sub_cancel, hi, ahead]
  have hr : ts.drop (i + 1) = r := drop_add_of_drop hi 1
  rw [ahead] at hfirst
  rw [Grammar.skipType]
  by_cases hprimitive : primitiveKeywords.contains t.kind
  · obtain ⟨j, hrun, hj⟩ := looks_skipDimensions t.kind hr (by omega) hlast
    refine ⟨some j, hfirst.bind ?_, ?_⟩
    · rw [fun_if_pos hprimitive]
      exact hrun.bind .pure
    · rw [if_pos hprimitive]
      exact .past hj.lift
  by_cases hident : t.kind = .ident
  · obtain ⟨j, hname, hj⟩ := looks_skipSegments hr (by omega) (hlast.trans hident)
    obtain ⟨o, harguments, ho⟩ := looks_skipTypeArguments? hj.rest hj.pos
      (hj.last.trans (last_skipSegments r))
    rw [if_neg hprimitive, if_pos hident]
    dsimp only
    generalize Grammar.skipTypeArguments? (Grammar.skipSegments r).rest = arguments at ho ⊢
    cases ho with
    | nothing =>
      refine ⟨none, hfirst.bind ?_, .nothing⟩
      rw [fun_if_neg hprimitive, fun_if_neg (by simp [hident])]
      exact hname.bind (harguments.bind .pure)
    | past stands =>
      obtain ⟨j', hdimensions, hj'⟩ := looks_skipDimensions _ stands.rest stands.pos stands.last
      refine ⟨some j', hfirst.bind ?_, .past ⟨hj'.pos, hj'.rest, hj'.last⟩⟩
      rw [fun_if_neg hprimitive, fun_if_neg (by simp [hident])]
      exact hname.bind (harguments.bind (hdimensions.bind .pure))
  · refine ⟨none, hfirst.bind ?_, ?_⟩
    · rw [fun_if_neg hprimitive, fun_if_pos (by simpa using hident)]
      exact .pure
    · rw [if_neg hprimitive, if_neg hident]
      exact .nothing
termination_by 4 * us.length
decreasing_by all_goals grind

theorem looks_skipTypeArguments? {us : List Token} {i : Nat} (hi : ts.drop i = us)
    (hpos : 0 < i) (hlast : ahead (ts.drop (i - 1)) = .ident) :
    ∃ o, Looks (skipTypeArguments? i) ts o ∧ Agrees ts (Grammar.skipTypeArguments? us) o := by
  refine exists_looks_deeper (skipTypeArguments?.eq_2 i) ?_
  have hfirst := looks_kindAt_of_drop hi
  rcases us with _ | ⟨t, r⟩
  · refine ⟨some i, hfirst.bind .pure, ?_⟩
    rw [Grammar.skipTypeArguments?]
    exact .past ⟨hpos, hi, hlast⟩
  have hr : ts.drop (i + 1) = r := drop_add_of_drop hi 1
  have hnext := looks_kindAt_of_drop hr
  rw [ahead] at hfirst
  rw [Grammar.skipTypeArguments?]
  by_cases hlt : t.kind = .lt
  · have hassert : Looks (fun _ => assertAt i .lt) ts () := looks_assertAt (by rw [hi]; exact hlt)
    rw [if_pos hlt]
    by_cases hgt : ahead r = .gt
    · obtain ⟨u, s, rfl, hu⟩ := exists_of_ahead hgt (by decide)
      refine ⟨some (i + 2), hfirst.bind ?_, ?_⟩
      · rw [fun_if_pos (by simpa using hlt)]
        refine .deeper (skipTypeArguments.eq_2 i) (hassert.bind (hnext.bind ?_))
        rw [fun_if_pos (by simpa using hgt)]
        exact .pure
      · rw [skipTypeArgumentsTail, if_pos hu]
        exact .past ⟨by omega, drop_add_of_drop hi 2, by rw [show i + 2 - 1 = i + 1 by omega, hr]; exact hu⟩
    · obtain ⟨o, hrun, ho⟩ := looks_skipArguments hr
      refine ⟨o, hfirst.bind ?_, ?_⟩
      · rw [fun_if_pos (by simpa using hlt)]
        refine .deeper (skipTypeArguments.eq_2 i) (hassert.bind (hnext.bind ?_))
        rw [fun_if_neg (by simpa using hgt)]
        exact hrun
      · have htail : skipTypeArgumentsTail r = Grammar.skipArguments r := by
          cases r with
          | nil => rw [skipTypeArgumentsTail, Grammar.skipArguments, Grammar.skipType]
          | cons u s => rw [skipTypeArgumentsTail, if_neg (show u.kind ≠ .gt from hgt)]
        rw [htail]
        exact ho.lift
  · refine ⟨some i, hfirst.bind ?_, ?_⟩
    · rw [fun_if_neg (by simpa using hlt)]
      exact .pure
    · rw [if_neg hlt]
      exact .past ⟨hpos, hi, hlast⟩
termination_by 4 * us.length + 3
decreasing_by all_goals grind

theorem looks_skipArguments {us : List Token} {i : Nat} (hi : ts.drop i = us) :
    ∃ o, Looks (skipArguments i) ts o ∧ Agrees ts (Grammar.skipArguments us) o := by
  refine exists_looks_deeper (skipArguments.eq_2 i) ?_
  obtain ⟨o, hargument, ho⟩ := looks_skipType hi
  rw [Grammar.skipArguments]
  generalize Grammar.skipType us = argument at ho ⊢
  cases ho with
  | nothing => exact ⟨none, hargument.bind .pure, .nothing⟩
  | @past argument j stands =>
    obtain ⟨last, rest, hle⟩ := argument
    have hrest : ts.drop j = rest := stands.rest
    have hfirst := looks_kindAt_of_drop hrest
    dsimp only
    rcases rest with _ | ⟨t, r⟩
    · refine ⟨none, hargument.bind (hfirst.bind .pure), ?_⟩
      rw [skipMoreArguments]
      exact .nothing
    rw [skipMoreArguments]
    rw [ahead] at hfirst
    by_cases hcomma : t.kind = .comma
    · obtain ⟨o, hmore, ho⟩ := looks_skipArguments (drop_add_of_drop hrest 1)
      rw [if_pos hcomma]
      refine ⟨o, hargument.bind (hfirst.bind ?_), ho.lift.andThen⟩
      rw [hcomma]
      exact hmore
    · rw [if_neg hcomma]
      by_cases hgt : t.kind = .gt
      · rw [if_pos hgt]
        refine ⟨some (j + 1), hargument.bind (hfirst.bind ?_), ?_⟩
        · rw [hgt]
          exact .pure
        · refine .past ⟨by omega, drop_add_of_drop hrest 1, ?_⟩
          rw [Nat.add_sub_cancel, hrest]
          exact hgt
      · rw [if_neg hgt]
        refine ⟨none, hargument.bind (hfirst.bind ?_), .nothing⟩
        split
        · contradiction
        · contradiction
        · exact .pure
termination_by 4 * us.length + 2
decreasing_by all_goals grind

end

theorem looks_atExplicitTypeQualifier (ts : List Token) :
    Looks atExplicitTypeQualifier ts (Grammar.atExplicitTypeQualifier ts) := by
  rw [Grammar.atExplicitTypeQualifier]
  refine (looks_kindAt ts 1).bind ?_
  obtain ⟨o, htype, ho⟩ := looks_skipType (List.drop_zero (l := ts))
  generalize Grammar.skipType ts = type at ho ⊢
  cases hsecond : (ahead (ts.drop 1) == .lt || ahead (ts.drop 1) == .leftBracket || ahead (ts.drop 1) == .dot)
  · exact .pure
  · refine htype.bind ?_
    cases ho with
    | nothing => exact .pure
    | @past s j stands =>
      have hlast := looks_kindAt ts (j - 1)
      have hnext := looks_kindAt_of_drop stands.rest
      have hbehind := looks_kindAt_of_drop (drop_add_of_drop stands.rest 1)
      rw [stands.last] at hlast
      exact hlast.bind (hnext.bind (hbehind.bind .pure))

theorem looks_atLocalVariable (ts : List Token) :
    Looks atLocalVariable ts (Grammar.atLocalVariable ts) := by
  rw [Grammar.atLocalVariable]
  refine (looks_next ts).bind ?_
  obtain ⟨o, htype, ho⟩ := looks_skipType (List.drop_zero (l := ts))
  generalize Grammar.skipType ts = type at ho ⊢
  cases hfirst : (startsModifier (ahead ts) || primitiveKeywords.contains (ahead ts))
  · refine htype.bind ?_
    cases ho with
    | nothing => exact .pure
    | past stands => exact (looks_kindAt_of_drop stands.rest).bind .pure
  · exact .pure

end Recording

end JavaSyntax
