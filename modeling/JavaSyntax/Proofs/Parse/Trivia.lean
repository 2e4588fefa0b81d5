import Mathlib.Data.List.Forall2
import JavaSyntax.Proofs.Grammar.DeclarationLocal
import JavaSyntax.Proofs.Parse.Spans
import JavaSyntax.Proofs.Tree.Matches

namespace JavaSyntax

open Piece Grammar

/-- What the grammar may see of a token. -/
def Token.word (t : Token) : Kind × String := (t.kind, t.text)

theorem moves_counterpart {ts us : List Token} (h : ts.map Token.word = us.map Token.word) :
    Moves (counterpart ts us) where
  kind t := congrArg Prod.fst (counterpart_eq h t)
  text t := congrArg Prod.snd (counterpart_eq h t)

theorem nodup_significantTokens (text : String) : (significantTokens text).Nodup := by
  refine (significantTokens_covers text).inOrder.pairwise.imp ?_
  rintro t u ⟨hlt, _⟩ rfl
  exact Nat.lt_irrefl _ hlt

/-- A rule that starts with nothing read finds problems at its own tokens. -/
theorem Grammar.Step.Reads.mem_of_found {ts : List Token} {s : Step ts} (h : s.Reads false [] [])
    {p : Problem} (hp : p ∈ s.problems) {t : Token} (ht : p.found = some t) : t ∈ ts := by
  obtain ⟨us, hus, hhead⟩ := h.along.suffix_of_mem (List.mem_map_of_mem hp)
  exact hus.subset (List.mem_of_head? (hhead.trans ht))

/-- A place in one text and a place in another: where a token starts in both, or where it stops, or where
the texts start. -/
inductive SameSpot (ts us : List Token) : Nat → Nat → Prop
  | origin : SameSpot ts us 0 0
  | start {i : Nat} {t u : Token} : ts[i]? = some t → us[i]? = some u →
      SameSpot ts us t.start u.start
  | stop {i : Nat} {t u : Token} : ts[i]? = some t → us[i]? = some u →
      SameSpot ts us t.stop u.stop

/-- The span goes from the start of the token `i` to the end of the token `j`. -/
structure Span.Runs (s : Span) (ts : List Token) (i j : Nat) : Prop where
  start : ts[i]?.map Token.start = some s.start
  stop : ts[j]?.map Token.stop = some s.stop

/-- A span in one text and a span in another: around the same run of tokens in both, or empty at the same
place. -/
def SameRun (ts us : List Token) (s s' : Span) : Prop :=
  (∃ i j, i ≤ j ∧ s.Runs ts i j ∧ s'.Runs us i j) ∨
    ∃ o o', s = .empty o ∧ s' = .empty o' ∧ SameSpot ts us o o'

theorem Span.Runs.sameSpot {ts us : List Token} {s s' : Span} {i j : Nat} (h : s.Runs ts i j)
    (h' : s'.Runs us i j) : SameSpot ts us s.stop s'.stop := by
  obtain ⟨t, ht, hs⟩ := Option.map_eq_some_iff.mp h.stop
  obtain ⟨u, hu, hs'⟩ := Option.map_eq_some_iff.mp h'.stop
  rw [← hs, ← hs']
  exact .stop ht hu

namespace Piece

/-- A node that covers tokens runs from the first of them to the last. -/
theorem runs_cover {ts before after : List Token} {ps : List Piece} {stop : Nat}
    (hin : InOrder 0 stop ts) (hall : ts = before ++ (tokensOfAll ps ++ after))
    (hne : tokensOfAll ps ≠ []) : ∃ span, cover ps = some span ∧
      span.Runs ts before.length (before.length + ((tokensOfAll ps).length - 1)) := by
  have hlength := List.length_pos_iff.mpr hne
  obtain ⟨_, _, hrest⟩ := inOrder_append.mp (hall ▸ hin)
  obtain ⟨_, hown, _⟩ := inOrder_append.mp hrest
  obtain ⟨span, hcover, hstart, hstop⟩ := cover_ends hown (List.head?_eq_some_head hne)
    (List.getLast?_eq_some_getLast hne)
  have hget (i : Nat) (hi : i < (tokensOfAll ps).length) :
      ts[before.length + i]? = (tokensOfAll ps)[i]? := by
    rw [hall, List.getElem?_append_right (Nat.le_add_right _ _), Nat.add_sub_cancel_left,
      List.getElem?_append_left hi]
  have hfirst := hget 0 hlength
  rw [Nat.add_zero, ← List.head?_eq_getElem?, List.head?_eq_some_head hne] at hfirst
  have hlast := hget _ (Nat.sub_lt hlength Nat.one_pos)
  rw [← List.getLast?_eq_getElem?, List.getLast?_eq_some_getLast hne] at hlast
  refine ⟨span, hcover, ?_, ?_⟩
  · rw [hfirst, hstart]
    rfl
  · rw [hlast, hstop]
    rfl

theorem payload_movedAll {f : Token → Token} (hf : Moves f) (image : Option String)
    (ps : List Piece) : payload image (movedAll f ps) = payload image ps := by
  induction ps generalizing image with
  | nil => rfl
  | cons p ps ih =>
    cases p with
    | node k parts => exact ih image
    | token t inImage =>
      cases inImage with
      | false => exact ih image
      | true =>
        rw [movedAll, moved, payload, payload, hf.text]
        exact ih _

section

variable {f : Token → Token} {ts : List Token} {stop stop' : Nat}

mutual

theorem allMatch_branch (hf : Moves f) (hts : InOrder 0 stop ts)
    (hus : InOrder 0 stop' (ts.map f)) : ∀ (p : Piece) {before after : List Token} {gap gap' : Nat},
    ts = before ++ (p.tokens ++ after) → SameSpot ts (ts.map f) gap gap' →
    Branch.AllMatch (SameRun ts (ts.map f)) (p.branch gap) ((p.moved f).branch gap')
  | .token _ _, _, _, _, _, _, _ => trivial
  | .node k parts, before, after, gap, gap', hall, hgap => by
    have himage := (payload_movedAll hf none parts).symm
    by_cases hn : tokensOfAll parts = []
    · have hc := cover_eq_none.mpr hn
      have hc' : cover (movedAll f parts) = none :=
        cover_eq_none.mpr (by rw [tokensOfAll_movedAll, hn, List.map_nil])
      rw [moved, branch, branch, hc, hc']
      exact ⟨⟨rfl, himage, .inr ⟨gap, gap', rfl, rfl, hgap⟩,
        allMatch_branches hf hts hus parts hall hgap⟩, trivial⟩
    · have hall' : ts.map f =
          before.map f ++ (tokensOfAll (movedAll f parts) ++ after.map f) := by
        rw [tokensOfAll_movedAll, ← List.map_append, ← List.map_append]
        exact congrArg (List.map f) hall
      have hn' : tokensOfAll (movedAll f parts) ≠ [] := by
        rw [tokensOfAll_movedAll]
        exact fun h => hn (List.map_eq_nil_iff.mp h)
      obtain ⟨span, hc, hruns⟩ := runs_cover hts hall hn
      obtain ⟨span', hc', hruns'⟩ := runs_cover hus hall' hn'
      rw [tokensOfAll_movedAll, List.length_map, List.length_map] at hruns'
      rw [moved, branch, branch, hc, hc']
      exact ⟨⟨rfl, himage, .inl ⟨_, _, Nat.le_add_right _ _, hruns, hruns'⟩,
        allMatch_branches hf hts hus parts hall (hruns.sameSpot hruns')⟩, trivial⟩

theorem allMatch_branches (hf : Moves f) (hts : InOrder 0 stop ts)
    (hus : InOrder 0 stop' (ts.map f)) : ∀ (ps : List Piece) {before after : List Token}
    {gap gap' : Nat}, ts = before ++ (tokensOfAll ps ++ after) → SameSpot ts (ts.map f) gap gap' →
    Branch.AllMatch (SameRun ts (ts.map f)) (branches gap ps) (branches gap' (movedAll f ps))
  | [], _, _, _, _, _, _ => trivial
  | p :: ps, before, after, gap, gap', hall, hgap => by
    rw [tokensOfAll, List.append_assoc] at hall
    have hnext : SameSpot ts (ts.map f) ((firstStart (tokensOfAll ps)).getD gap)
        ((firstStart (tokensOfAll (movedAll f ps))).getD gap') := by
      rw [tokensOfAll_movedAll]
      cases hps : tokensOfAll ps with
      | nil => exact hgap
      | cons t rest =>
        have hget : ts[(before ++ p.tokens).length]? = some t := by
          rw [hall, hps, ← List.append_assoc, List.getElem?_append_right (Nat.le_refl _), Nat.sub_self]
          rfl
        exact .start hget (by rw [List.getElem?_map, hget, Option.map_some])
    rw [branches, movedAll, branches]
    refine (allMatch_branch hf hts hus p hall hnext).append ?_
    have hrest : ts = before ++ p.tokens ++ (tokensOfAll ps ++ after) := by
      rw [hall, List.append_assoc]
    exact allMatch_branches hf hts hus ps hrest hgap

end

/-- The trees of a whole text and of its tokens moved. -/
theorem matches_tree (hf : Moves f) (hts : InOrder 0 stop ts) (hus : InOrder 0 stop' (ts.map f))
    (k : Kind) {parts : List Piece} (hall : tokensOfAll parts = ts) :
    (tree k parts).Matches (SameRun ts (ts.map f)) (tree k (movedAll f parts)) := by
  have hsplit : ts = [] ++ ((Piece.node k parts).tokens ++ []) := by
    rw [List.append_nil]
    exact hall.symm
  exact (allMatch_branch hf hts hus (.node k parts) hsplit .origin).1

end

end Piece

/-- The same error at the same token, where the end of the input counts as one. -/
structure Diagnostic.Alike (a b : String) (e e' : Diagnostic) : Prop where
  message : e.message = e'.message
  span : ∃ (i : Nat) (t u : Token), (tokenize a)[i]? = some t ∧ (tokenize b)[i]? = some u ∧
    e.span = t.span ∧ e'.span = u.span

/-- Trees with the same shape, kinds and payloads, nodes around the same tokens, and the same errors at the
same tokens in the same order. -/
structure Parse.Alike (a b : String) (p q : Parse) : Prop where
  tree : p.tree.root.Matches (SameRun (significantTokens a) (significantTokens b)) q.tree.root
  errors : List.Forall₂ (Diagnostic.Alike a b) p.errors q.errors

section

variable {a b : String} {f : Token → Token}

theorem diagnostic_alike (hmap : significantTokens b = (significantTokens a).map f) {p : Problem}
    (hp : ∀ t, p.found = some t → t ∈ significantTokens a) :
    (Problem.diagnostic a p).Alike a b (Problem.diagnostic b (p.moved f)) := by
  refine ⟨rfl, ?_⟩
  rw [tokenize_eq_append, tokenize_eq_append, Problem.diagnostic, Problem.diagnostic, Problem.moved]
  cases hfound : p.found with
  | none =>
    refine ⟨(significantTokens a).length, .endOfInput a.utf8ByteSize, .endOfInput b.utf8ByteSize,
      List.getElem?_concat_length, ?_, rfl, rfl⟩
    rw [← List.length_map f, ← hmap]
    exact List.getElem?_concat_length
  | some t =>
    obtain ⟨i, hi, hget⟩ := List.getElem_of_mem (hp t hfound)
    have hi' : i < (significantTokens b).length := by
      rw [hmap, List.length_map]
      exact hi
    refine ⟨i, t, f t, ?_, ?_, rfl, rfl⟩
    · rw [List.getElem?_append_left hi, List.getElem?_eq_getElem hi, hget]
    · rw [List.getElem?_append_left hi', hmap, List.getElem?_map, List.getElem?_eq_getElem hi, hget,
        Option.map_some]

/-- What goes along with the tokens of another text is made of these as of its own. -/
theorem alike_of_along (hf : Moves f) (hmap : significantTokens b = (significantTokens a).map f)
    {s : Step (significantTokens a)} {s' : Step (significantTokens b)} (hs : s.Along f [] [] s')
    (hread : s.Reads false [] []) {k : Kind} (hall : tokensOfAll s.parts = significantTokens a) :
    Parse.Alike a b
      ⟨.ofBranch a (tree k s.parts).disambiguated, s.problems.map (Problem.diagnostic a)⟩
      ⟨.ofBranch b (tree k s'.parts).disambiguated, s'.problems.map (Problem.diagnostic b)⟩ := by
  have hin := (significantTokens_covers b).inOrder
  rw [hmap] at hin
  have hmatches := matches_tree hf (significantTokens_covers a).inOrder hin k hall
  rw [← hmap, ← hs.parts] at hmatches
  refine ⟨hmatches.disambiguated, ?_⟩
  dsimp only
  rw [hs.problems, List.map_map, List.forall₂_map_left_iff, List.forall₂_map_right_iff,
    List.forall₂_same]
  exact fun p hp => diagnostic_alike hmap fun t ht => hread.mem_of_found hp ht

end

/-- The pieces of a single expression and of what follows it. -/
def expressionAndRest (ts : List Token) : Step ts :=
  (expr ts).toStep.andThen (unexpectedRest (expr ts).rest)

theorem along_expressionAndRest {f : Token → Token} (hf : KeepsKinds f) (ts : List Token) :
    (expressionAndRest ts).Along f [] [] (expressionAndRest (ts.map f)) := by
  have value := (local_expr (ends_nil hf) (alongside_map f ts) (.inl ⟨rfl, rfl⟩)).toAlong
  have more := along_unexpectedRest f (expr ts).rest
  rw [← value.rest.eq_map] at more
  exact value.andThen more

/-- Texts whose tokens are the same one by one, with anything between them that is no token, are parsed
alike, as files and as expressions. -/
theorem parse_alike {a b : String}
    (h : (tokenize a).map Token.word = (tokenize b).map Token.word) :
    (∃ p q, parse a = .ok p ∧ parse b = .ok q ∧ p.Alike a b q) ∧
      ∃ p q, parseExpression a = .ok p ∧ parseExpression b = .ok q ∧ p.Alike a b q := by
  have hwords : (significantTokens a).map Token.word = (significantTokens b).map Token.word := by
    rw [significantTokens, significantTokens, List.map_dropLast, List.map_dropLast, h]
  have hlength : (significantTokens a).length = (significantTokens b).length := by
    rw [← List.length_map Token.word, hwords, List.length_map]
  have hf := moves_counterpart hwords
  have hmap := (map_counterpart (nodup_significantTokens a) hlength).symm
  refine ⟨⟨_, _, parse_eq a, parse_eq b, ?_⟩, _, _, parseExpression_eq a, parseExpression_eq b, ?_⟩
  · have along := along_classDeclarations hf.toKeepsKinds (significantTokens a)
    rw [← hmap] at along
    exact alike_of_along hf hmap along (reads_classDeclarations _) (holds_fileParts a).tokens
  · have along := along_expressionAndRest hf.toKeepsKinds (significantTokens a)
    rw [← hmap] at along
    have reads := (reads_expr (significantTokens a)).toReads.andThen (reads_unexpectedRest _)
    exact alike_of_along hf hmap along reads (holds_expressionParts a).tokens

/-- A class in a row, and with comments and an error in it. -/
theorem parse_alike_comments :
    let a := "class A\x7bint x=;\x7d"
    let b := "/* a */ class A \x7b\n  int x = // nothing\n;\n\x7d"
    (tokenize a).map Token.word = (tokenize b).map Token.word ∧
      ∃ p q, parse a = .ok p ∧ parse b = .ok q ∧ p.Alike a b q := by
  intro a b
  have h : (tokenize a).map Token.word = (tokenize b).map Token.word := by decide +kernel
  exact ⟨h, (parse_alike h).1⟩

end JavaSyntax
