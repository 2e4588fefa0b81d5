import JavaSyntax.Proofs.Parse.Made

namespace JavaSyntax

open Piece Grammar

theorem InOrder.of_suffix {start stop : Nat} {ts us : List Token} (h : InOrder start stop ts)
    (hus : us <:+ ts) : ∃ mid, InOrder mid stop us := by
  obtain ⟨front, rfl⟩ := hus
  obtain ⟨mid, _, hmid⟩ := inOrder_append.mp h
  exact ⟨mid, hmid⟩

namespace Grammar

/-- The token that a problem is found at, in a text that goes up to `stop`. -/
def foundToken (stop : Nat) (t : Option Token) : Token := t.getD (.endOfInput stop)

section

variable {rest ts us : List Token} {found : List (Option Token)} {start stop : Nat}

theorem start_foundToken_le (h : InOrder start stop ts) (hus : us <:+ ts) :
    (foundToken stop ts.head?).start ≤ (foundToken stop us.head?).start := by
  obtain ⟨front, rfl⟩ := hus
  cases front with
  | nil => exact Nat.le_refl _
  | cons t front =>
    cases us with
    | nil =>
      have hbounds := h.bounds t (by simp)
      exact Nat.le_trans (Nat.le_of_lt hbounds.2.1) hbounds.2.2
    | cons u us =>
      have hlater := (List.pairwise_cons.mp h.pairwise).1 u (by simp)
      exact Nat.le_of_lt hlater.1

/-- On the way through the tokens of a text problems are found from the front to the back. -/
theorem Along.pairwise (h : Along rest ts found) (hin : InOrder start stop ts) :
    found.Pairwise fun t u => (foundToken stop t).start ≤ (foundToken stop u).start := by
  induction found generalizing ts start with
  | nil => exact .nil
  | cons t found ih =>
    obtain ⟨us, hus, rfl, hmore⟩ := h
    obtain ⟨mid, hmid⟩ := hin.of_suffix hus
    refine .cons (fun u hu => ?_) (ih hmore hmid)
    obtain ⟨vs, hvs, rfl⟩ := hmore.suffix_of_mem hu
    exact start_foundToken_le hmid hvs

theorem Along.foundToken_mem {text : String} (h : Along rest (significantTokens text) found)
    {t : Option Token} (ht : t ∈ found) : foundToken text.utf8ByteSize t ∈ tokenize text := by
  obtain ⟨us, hus, rfl⟩ := h.suffix_of_mem ht
  rw [tokenize_eq_append]
  cases us with
  | nil => exact List.mem_append_right _ List.mem_cons_self
  | cons u us => exact List.mem_append_left _ (hus.subset List.mem_cons_self)

theorem Problem.span_diagnostic (text : String) (p : Problem) :
    (Problem.diagnostic text p).span = (foundToken text.utf8ByteSize p.found).span := by
  rw [Problem.diagnostic, foundToken]
  cases p.found <;> rfl

end

end Grammar

namespace Piece

/-- What starts with a token of its own starts where the token does. -/
theorem start_grown {text : String} {ps more : List Piece} {t : Token} {i : Bool}
    (ht : tokensOfAll ps <:+: significantTokens text) (hps : ps = .token t i :: more) (gap : Nat)
    (k : Kind) : (grown gap k ps).span.start = t.start := by
  obtain ⟨before, after, hall⟩ := ht
  have hin := inOrder_significantTokens text
  rw [← hall, List.append_assoc] at hin
  obtain ⟨_, _, hin⟩ := inOrder_append.mp hin
  obtain ⟨_, hin, _⟩ := inOrder_append.mp hin
  have hhead : (tokensOfAll ps).head? = some t := by rw [hps]; rfl
  have hne : tokensOfAll ps ≠ [] := by
    rw [hps]
    exact List.cons_ne_nil _ _
  obtain ⟨span, hcover, hstart, _⟩ := cover_ends hin hhead (List.getLast?_eq_some_getLast hne)
  rw [grown, hcover]
  exact hstart

end Piece

/-- The errors of a text in the order in which they were reported, and its nodes for errors. -/
structure Parse.Diagnosed (text : String) (p : Parse) : Prop where
  atTokens : ∀ e ∈ p.errors, ∃ t ∈ tokenize text, e.span = t.span
  inOrder : p.errors.Pairwise fun d e => d.span.start ≤ e.span.start
  nodes : ∀ n, p.tree.kind n = .error → ∃ e ∈ p.errors, e.span.start = (p.tree.span n).start

/-- What a rule has to report that goes through all of a text. -/
theorem Grammar.Step.Reads.diagnosed {text : String} {k : Kind} {parts : List Piece}
    {s : Step (significantTokens text)} (h : s.Reads false [] []) (hparts : s.parts = [.node k parts])
    (hholds : Holds text k parts) :
    Parse.Diagnosed text ⟨.ofBranch text (Piece.tree k parts).disambiguated,
      s.problems.map (Problem.diagnostic text)⟩ where
  atTokens := by
    intro e he
    obtain ⟨p, hp, rfl⟩ := List.mem_map.mp he
    exact ⟨_, h.along.foundToken_mem (List.mem_map_of_mem hp), Problem.span_diagnostic text p⟩
  inOrder := by
    have hin := inOrder_significantTokens text
    rw [Nat.zero_add, ← Text.utf8ByteSize_eq] at hin
    have hpairwise := h.along.pairwise hin
    rw [Step.found, List.pairwise_map] at hpairwise
    rw [List.pairwise_map]
    refine hpairwise.imp fun {p q} hle => ?_
    rw [Problem.span_diagnostic, Problem.span_diagnostic]
    exact hle
  nodes := by
    intro n hk
    have hsound := h.parts_sound
    rw [hparts] at hsound
    obtain ⟨ps, gap, hbelow, -, hspan, -⟩ := @exists_below k parts _ rfl _
      (Tree.lt_size_of_isNode (by rw [hk]; rfl)) (by rw [hk]; rfl)
    obtain ⟨_, _, _, hnode⟩ := hbelow.sound hsound.1
    obtain ⟨t, i, more, hps, ht⟩ := hnode.1.flagged hk
    obtain ⟨p, hp, hfound⟩ := List.mem_map.mp ht
    have htokens : tokensOfAll ps <:+: significantTokens text := by
      rw [← hholds.tokens]
      exact hbelow.tokens
    refine ⟨_, List.mem_map_of_mem hp, ?_⟩
    rw [Problem.span_diagnostic, hfound, hspan, start_grown htokens hps]
    rfl

/-- Every error has the place of a token of the text, that of the end of the input included. Errors are
reported from the front to the back, and a node for an error starts where some error is reported. So there
are no such nodes in the tree of a text without errors. -/
theorem parse_diagnosed {text : String} {p : Parse}
    (hp : parse text = .ok p ∨ parseExpression text = .ok p) :
    p.Diagnosed text ∧ (p.errors = [] → ∀ n, p.tree.kind n ≠ .error) := by
  have hdiagnosed : p.Diagnosed text := by
    rcases hp with hp | hp
    · rw [parse_eq] at hp
      cases hp
      exact (reads_compilationUnit _).diagnosed (parts_compilationUnit text) (holds_fileParts text)
    · rw [parseExpression_eq] at hp
      cases hp
      exact (reads_loneExpression _).diagnosed (parts_loneExpression text) (holds_expressionParts text)
  refine ⟨hdiagnosed, fun he n hk => ?_⟩
  obtain ⟨e, hmem, -⟩ := hdiagnosed.nodes n hk
  rw [he] at hmem
  cases hmem

/-- A point without a name and a bracket that fits nowhere make nodes for errors, and the end of the input
is reported twice. -/
theorem parse_diagnosed_open :
    let text := "class A \x7b void m() \x7b a.; ) "
    ∃ p, parse text = .ok p ∧ p.errors.map (fun e => e.span.start) = [22, 25, 27, 27] ∧
      p.tree.kind 11 = .error ∧ p.tree.kind 12 = .error ∧ p.Diagnosed text := by
  intro text
  have hp := parse_eq text
  obtain ⟨hdiagnosed, -⟩ := parse_diagnosed (.inl hp)
  exact ⟨_, hp, by decide +kernel, by decide +kernel, by decide +kernel, hdiagnosed⟩

end JavaSyntax
