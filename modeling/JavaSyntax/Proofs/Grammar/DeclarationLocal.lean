import JavaSyntax.Proofs.Grammar.DeclarationReads
import JavaSyntax.Proofs.Grammar.StatementLocal

namespace JavaSyntax.Grammar

open Piece Step

variable {f : Token → Token} {z z' ts us r r' q q' : List Token}

theorem local_parameter (hz : Ends f z z') (h : Alongside f z z' ts us) :
    (parameter ts).Local f z z' (parameter us) :=
  ((local_typed hz true h).andThen fun along => local_variableId hz along.rest).node _

theorem fails_parametersTail (h : isEnd (ahead z) = true) : (parametersTail z).Fails := by
  cases z with
  | nil =>
    rw [parametersTail]
    exact fails_expect _ _
  | cons t r =>
    rw [parametersTail]
    split
    · exact fails_expect _ _
    · split
      · exact fails_lift t _
      · exact fails_lift t _

theorem fails_parametersMore (h : isEnd (ahead z) = true) : (parametersMore z).Fails := by
  cases z with
  | nil =>
    rw [parametersMore]
    exact fails_expect _ _
  | cons t r =>
    rw [parametersMore, if_neg (kind_ne_of_isEnd h .comma rfl)]
    exact fails_expect _ _

mutual

theorem local_parametersTail (hz : Ends f z z') {ts us : List Token} (h : Alongside f z z' ts us) :
    (parametersTail ts).Local f z z' (parametersTail us) := by
  cases h with
  | behind => exact local_of_fails (fails_parametersTail hz.here) (reads_parametersTail [])
  | @cons t r r' h =>
    rw [parametersTail, parametersTail]
    simp only [hz.kind]
    split
    · exact local_expect hz _ (.cons t h)
    · split
      · next hstart =>
        have first := (local_parameter hz (.cons t h)).within (length_rest_parameter_lt hstart)
          (length_rest_parameter_lt (by rwa [hz.kind]))
        exact (first.andThen fun along => local_parametersMore hz along.rest).lift t
      · exact ((local_skip .parameter t h).andThen fun _ => local_parametersTail hz h).lift t
termination_by 2 * ts.length
decreasing_by all_goals (subst_vars; clear * -; grind)

theorem local_parametersMore (hz : Ends f z z') {ts us : List Token} (h : Alongside f z z' ts us) :
    (parametersMore ts).Local f z z' (parametersMore us) := by
  cases h with
  | behind => exact local_of_fails (fails_parametersMore hz.here) (reads_parametersMore [])
  | @cons t r r' h =>
    rw [parametersMore, parametersMore, hz.kind]
    split
    · exact ((local_parametersTail hz h).lead false t).lift t
    · exact local_expect hz _ (.cons t h)
termination_by 2 * ts.length + 1
decreasing_by all_goals (subst_vars; clear * -; grind)

end

theorem fails_methodBody (h : isEnd (ahead z) = true) : (methodBody z).Fails := by
  cases z with
  | nil => exact fails_expect _ _
  | cons t r =>
    rw [methodBody, if_neg (kind_ne_of_isEnd h .leftBrace rfl)]
    exact fails_expect _ _

theorem local_methodBody (hz : Ends f z z') (h : Alongside f z z' ts us) :
    (methodBody ts).Local f z z' (methodBody us) := by
  cases h with
  | behind => exact local_of_fails (fails_methodBody hz.here) (reads_methodBody [])
  | cons t h =>
    rw [methodBody, methodBody, hz.kind]
    split
    · exact (local_blockFrom hz t h).lift t
    · exact local_expect hz _ (.cons t h)

theorem fails_resultType (h : isEnd (ahead z) = true) : (resultType z).Fails := by
  cases z with
  | nil => exact fails_type false h
  | cons t r =>
    rw [resultType, if_neg (kind_ne_of_isEnd h .voidKw rfl)]
    exact fails_type false h

theorem local_resultType (hz : Ends f z z') (h : Alongside f z z' ts us) :
    (resultType ts).Local f z z' (resultType us) := by
  cases h with
  | behind => exact local_of_fails (fails_resultType hz.here) (reads_resultType [])
  | cons t h =>
    rw [resultType, resultType, hz.kind]
    split
    · exact ((along_bump true t h).node _).local
    · exact (local_type hz false (.cons t h)).toStep

/-- What was read before goes into the node of the member. -/
theorem local_enclosed (typed : List Piece) {s : Step ts} {s' : Step us} (h : s.Local f z z' s')
    (k : Kind) :
    Step.Local f z z' { s with parts := [.node k (typed ++ s.parts)] }
      { s' with parts := [.node k (movedAll f typed ++ s'.parts)] } := by
  intro hs
  obtain ⟨hparts, hproblems, hrest⟩ := h hs
  refine ⟨?_, hproblems, hrest⟩
  dsimp only
  rw [hparts, ← movedAll_append]
  rfl

theorem local_field (hz : Ends f z z') (typed : List Piece) (h : Alongside f z z' ts us) :
    (memberTail.field typed ts).Local f z z' (memberTail.field (movedAll f typed) us) :=
  local_enclosed typed
    ((local_declarators hz h).andThen fun along => local_expect hz .semicolon along.rest) _

theorem memberTail_of_isEnd (typed : List Piece) (h : isEnd (ahead z) = true) :
    memberTail typed z = memberTail.field typed z := by
  rcases z with _ | ⟨n, _ | ⟨p, r⟩⟩
  · rfl
  · rfl
  · rw [memberTail, if_neg (not_and_of_not_left _ (kind_ne_of_isEnd h .ident rfl))]

theorem memberTail_single (typed : List Piece) (n : Token) (h : isEnd (ahead z) = true) :
    memberTail typed (n :: z) = memberTail.field typed (n :: z) := by
  cases z with
  | nil => rfl
  | cons p r => rw [memberTail, if_neg (not_and_of_not_right _ (kind_ne_of_isEnd h .leftParen rfl))]

theorem local_memberTail (hz : Ends f z z') (typed : List Piece) {ts us : List Token} :
    Alongside f z z' ts us → (memberTail typed ts).Local f z z' (memberTail (movedAll f typed) us)
  | .behind => by
    rw [memberTail_of_isEnd typed hz.here, memberTail_of_isEnd _ hz.there]
    exact local_field hz typed .behind
  | .cons n .behind => by
    rw [memberTail_single typed n hz.here, memberTail_single _ (f n) hz.there]
    exact local_field hz typed (.cons n .behind)
  | .cons n (.cons p h) => by
    rw [memberTail, memberTail, hz.kind, hz.kind]
    split
    · have parameters := ((local_parametersTail hz h).lead false p).node .formalParameters
      have method := (parameters.andThen fun along => local_methodBody hz along.rest).lead true n
      exact ((local_enclosed typed method .methodDeclaration).lift p).lift n
    · exact local_field hz typed (.cons n (.cons p h))

/-- A rule that puts the pieces of another one into its own. -/
theorem local_taking {a : Step ts} {a' : Step us} (ha : a.Local f z z' a')
    {g : List Piece → (ms : List Token) → Step ms}
    (hg : Alongside f z z' a.rest a'.rest →
      (g a.parts a.rest).Local f z z' (g (movedAll f a.parts) a'.rest)) :
    Step.Local f z z' { a.andThen (g a.parts a.rest) with parts := (g a.parts a.rest).parts }
      { a'.andThen (g a'.parts a'.rest) with parts := (g a'.parts a'.rest).parts } := by
  intro hs
  have along := ha (Spares.first (b := g a.parts a.rest) hs)
  have tail : (g a.parts a.rest).Along f z z' (g a'.parts a'.rest) := by
    rw [along.parts]
    exact hg along.rest (Spares.second (b := g a.parts a.rest) hs)
  exact ⟨tail.parts, (along.andThen tail).problems, tail.rest⟩

theorem local_declaredMember (hz : Ends f z z') (h : Alongside f z z' ts us) :
    (declaredMember ts).Local f z z' (declaredMember us) := by
  have typed := (local_modifierList hz h).andThen fun along => local_resultType hz along.rest
  exact local_taking typed fun along => local_memberTail hz _ along

/-- A member does not depend on what stands behind it. -/
theorem local_member (hz : Ends f z z') (t : Token) (h : Alongside f z z' r r') :
    (member t r).Local f z z' (member (f t) r') := by
  rw [member, member]
  simp only [hz.kind]
  split
  · exact ((along_idle h).lead false t).local
  · split
    · exact (local_declaredMember hz (.cons t h)).within _ _
    · exact local_skip _ t h

theorem upToBrace_membersTail : UpToBrace membersTail member where
  nil := by rw [membersTail]
  cons _ _ := by rw [membersTail]

theorem local_membersTail (hz : Ends f z z') {ts us : List Token} (h : Alongside f z z' ts us) :
    (membersTail ts).Local f z z' (membersTail us) := by
  cases h with
  | behind => exact local_of_fails (upToBrace_membersTail.fails z) (reads_membersTail [])
  | @cons t r r' h =>
    rw [membersTail, membersTail, hz.kind]
    split
    · exact local_expect hz _ (.cons t h)
    · exact ((local_member hz t h).andThen fun along => local_membersTail hz along.rest).lift t
termination_by ts.length
decreasing_by all_goals (subst_vars; clear * -; grind)

theorem fails_className (h : isEnd (ahead z) = true) : (className z).Fails := by
  cases z with
  | nil => exact fails_report _ _
  | cons t r =>
    rw [className, if_neg (kind_ne_of_isEnd h .ident rfl)]
    exact fails_report _ _

theorem local_className (hz : Ends f z z') (h : Alongside f z z' ts us) :
    (className ts).Local f z z' (className us) := by
  cases h with
  | behind => exact local_of_fails (fails_className hz.here) (reads_className [])
  | cons t h =>
    rw [className, className, hz.kind]
    split
    · exact (along_bump true t h).local
    · exact local_report _ (.cons t h)

theorem fails_classBody : ∀ z : List Token, (classBody z).Fails
  | [] => fails_report _ _
  | t :: r => by
    rw [classBody]
    split
    · exact fails_lift t _
    · exact fails_report _ _

theorem local_classBody (hz : Ends f z z') (h : Alongside f z z' ts us) :
    (classBody ts).Local f z z' (classBody us) := by
  cases h with
  | behind => exact local_of_fails (fails_classBody z) (reads_classBody [])
  | cons t h =>
    rw [classBody, classBody, hz.kind]
    split
    · exact (((local_membersTail hz h).lead false t).node _).lift t
    · exact local_report _ (.cons t h)

theorem local_classDeclaration (hz : Ends f z z') (h : Alongside f z z' ts us) :
    (classDeclaration ts).Local f z z' (classDeclaration us) := by
  have announced := (local_modifierList hz h).andThen fun along =>
    local_expect hz .classKw along.rest
  have named := announced.andThen fun along => local_className hz along.rest
  exact (named.andThen fun along => local_classBody hz along.rest).node _

theorem exists_brace_classBody (hs : (classBody ts).problems = []) :
    ∃ ps b, ts = ps ++ b :: (classBody ts).rest ∧ b.kind = .rightBrace := by
  cases ts with
  | nil => cases hs
  | cons t r =>
    rw [classBody] at hs ⊢
    split at hs
    · next hopen =>
      have hmembers : (membersTail r).problems = [] := hs
      obtain ⟨ps, b, hps, hb⟩ := upToBrace_membersTail.exists_brace reads_member hmembers
      rw [if_pos hopen]
      exact ⟨t :: ps, b, congrArg (t :: ·) hps, hb⟩
    · cases hs

theorem along_classBody (hf : KeepsKinds f) {b : Token} (hb : b.kind = .rightBrace)
    (h : Alongside f (b :: q) (f b :: q') ts us) (hs : (classBody ts).problems = [])
    (hq : (classBody ts).rest = q) : (classBody ts).Along f q q' (classBody us) := by
  cases h with
  | behind =>
    have hopen : ¬ b.kind = .leftBrace := by
      rw [hb]
      decide
    rw [classBody, if_neg hopen] at hs
    cases hs
  | @cons t r r' h =>
    rw [classBody] at hs hq ⊢
    rw [classBody, hf.kind]
    split at hs
    · next hopen =>
      rw [if_pos hopen] at hq
      rw [if_pos hopen, if_pos hopen]
      have members := upToBrace_membersTail.along hf local_member hb h hs hq
      exact ((members.lead false t).node _).lift t
    · cases hs

/-- A clean class ends with a brace. -/
theorem exists_brace_classDeclaration (hs : (classDeclaration ts).problems = []) :
    ∃ ps b, ts = ps ++ b :: (classDeclaration ts).rest ∧ b.kind = .rightBrace := by
  have announced := (reads_modifierList ts).andThen (reads_expect (k := .classKw) outside _)
  have named := (announced.andThen (reads_className _)).tokens_eq
  obtain ⟨ps, b, hps, hb⟩ := exists_brace_classBody (List.append_eq_nil_iff.mp hs).2
  rw [hps, List.nil_append, ← List.append_assoc] at named
  exact ⟨_, b, named.symm, hb⟩

/-- A clean class with something else behind its brace. -/
theorem along_classDeclaration (hf : KeepsKinds f) {b : Token} (hb : b.kind = .rightBrace)
    (h : Alongside f (b :: q) (f b :: q') ts us) (hs : (classDeclaration ts).problems = [])
    (hq : (classDeclaration ts).rest = q) :
    (classDeclaration ts).Along f q q' (classDeclaration us) := by
  have hz : Ends f (b :: q) (f b :: q') := ends_rightBrace hf hb q q'
  have announced := (local_modifierList hz h).andThen fun along =>
    local_expect hz .classKw along.rest
  have named := announced.andThen fun along => local_className hz along.rest
  obtain ⟨hnamed, hbody⟩ := List.append_eq_nil_iff.mp hs
  have hrest := fails_classBody _ hbody
  have along := named (.inr ⟨hnamed, by rw [← hq]; exact hrest⟩)
  exact (along.andThen (along_classBody hf hb along.rest hbody hq)).node _

/-- Clean class declarations with more tokens behind them: what is made of both on their own. -/
theorem classDeclarations_append (us : List Token) : ∀ {ts : List Token},
    (classDeclarations ts).problems = [] →
      (classDeclarations (ts ++ us)).parts =
          (classDeclarations ts).parts ++ (classDeclarations us).parts ∧
        (classDeclarations (ts ++ us)).problems = (classDeclarations us).problems
  | [], _ => by
    rw [classDeclarations.eq_def []]
    exact ⟨rfl, rfl⟩
  | t :: r, hs => by
    rw [List.cons_append, classDeclarations.eq_def (t :: r), classDeclarations.eq_def (t :: (r ++ us))]
    rw [classDeclarations] at hs
    dsimp only
    split at hs
    · next hstart =>
      obtain ⟨(hclass : (classDeclaration (t :: r)).problems = []), hmore⟩ := List.append_eq_nil_iff.mp hs
      obtain ⟨ps, b, hps, hb⟩ := exists_brace_classDeclaration hclass
      have hlt : (classDeclaration (t :: r)).rest.length ≤ r.length :=
        length_rest_classDeclaration_lt hstart
      have further : Alongside id (b :: (classDeclaration (t :: r)).rest)
          (id b :: ((classDeclaration (t :: r)).rest ++ us)) (t :: r) (t :: (r ++ us)) := by
        have := alongside_append id ps (b :: (classDeclaration (t :: r)).rest)
          (b :: ((classDeclaration (t :: r)).rest ++ us))
        rwa [List.map_id, ← List.cons_append, ← List.append_assoc, ← hps] at this
      obtain ⟨hparts, hproblems, hrest⟩ := along_classDeclaration keepsKinds_id hb further hclass rfl
      have hrest := hrest.eq_of_eq rfl
      rw [movedAll_id] at hparts
      rw [hclass, List.map_nil] at hproblems
      have ih := classDeclarations_append us hmore
      rw [dif_pos hstart, dif_pos hstart]
      simp only [Step.lift, Step.andThen, Step.within] at ih ⊢
      rw [hparts, hproblems, hrest, ih.1, ih.2, List.append_assoc, List.nil_append]
      exact ⟨rfl, rfl⟩
    · cases hs
termination_by ts => ts.length
decreasing_by grind

/-- What is made of a file moves with its tokens. -/
theorem along_classDeclarations (hf : KeepsKinds f) (ts : List Token) :
    (classDeclarations ts).Along f [] [] (classDeclarations (ts.map f)) := by
  cases ts with
  | nil => exact along_nil (reads_classDeclarations [])
  | cons t r =>
    rw [List.map_cons, classDeclarations, classDeclarations]
    simp only [hf.kind]
    split
    · next hstart =>
      have hrest := length_rest_classDeclaration_lt (r := r) hstart
      have whole := local_classDeclaration (ends_nil hf) (alongside_map f (t :: r)) (.inl ⟨rfl, rfl⟩)
      have first := whole.within hrest (length_rest_classDeclaration_lt (by rwa [hf.kind]))
      have more := along_classDeclarations hf (classDeclaration (t :: r)).rest
      rw [← whole.rest.eq_map] at more
      exact (first.andThen more).lift t
    · have skipped := local_skip .classDeclaration t (alongside_map f r) (.inl ⟨rfl, rfl⟩)
      exact (skipped.andThen (along_classDeclarations hf r)).lift t
termination_by ts.length
decreasing_by all_goals grind

theorem along_unexpectedRest (f : Token → Token) : ∀ ts : List Token,
    (unexpectedRest ts).Along f [] [] (unexpectedRest (ts.map f))
  | [] => along_idle .behind
  | t :: r => by
    have skipped := local_skip .endOfExpression t (alongside_map f r) (.inl ⟨rfl, rfl⟩)
    exact (skipped.andThen (along_unexpectedRest f r)).lift t

end JavaSyntax.Grammar
