import JavaSyntax.Proofs.Expression.Operators
import JavaSyntax.Proofs.Parse.Made

namespace JavaSyntax

open Piece Content Computability

namespace Content

variable {l m : Language Symbol} {P : Kind → Bool}

/-- No word of the language is made of nodes only. -/
def Marked (l : Language Symbol) : Prop := ∀ w ∈ l, ∃ k i, Symbol.token k i ∈ w

theorem marked_zero : Marked 0 := by
  rintro w ⟨⟩

theorem marked_mark (k : Kind) : Marked (mark k) := by
  rintro _ rfl
  exact ⟨k, false, List.mem_singleton_self _⟩

theorem marked_word (k : Kind) : Marked (word k) := by
  rintro _ rfl
  exact ⟨k, true, List.mem_singleton_self _⟩

theorem marked_wordOf : Marked (wordOf P) := by
  rintro _ ⟨k, -, rfl⟩
  exact ⟨k, true, List.mem_singleton_self _⟩

theorem marked_add (hl : Marked l) (hm : Marked m) : Marked (l + m) := by
  rintro w (hw | hw)
  · exact hl w hw
  · exact hm w hw

theorem marked_left (hl : Marked l) (m : Language Symbol) : Marked (l * m) := by
  rintro _ ⟨v, hv, w, -, rfl⟩
  obtain ⟨k, i, hmem⟩ := hl v hv
  exact ⟨k, i, List.mem_append_left w hmem⟩

theorem marked_right (l : Language Symbol) (hm : Marked m) : Marked (l * m) := by
  rintro _ ⟨v, -, w, hw, rfl⟩
  obtain ⟨k, i, hmem⟩ := hm w hw
  exact ⟨k, i, List.mem_append_right v hmem⟩

theorem marked_dotted : Marked dotted := marked_left (marked_word _) _

/-- Every expression has a token of its own. -/
theorem marked_expression {k : Kind} (h : isValue true k = true) : Marked (content true k) := by
  have hk : k ∈ Category.exprKinds := by simpa [isValue, Category.contains] using h
  simp only [Category.exprKinds, List.mem_cons, List.not_mem_nil, or_false] at hk
  rcases hk with rfl | rfl | rfl | rfl | rfl | rfl | rfl | rfl | rfl | rfl | rfl | rfl | rfl
  · exact marked_left (marked_right _ marked_wordOf) _
  · exact marked_left (marked_right _ marked_wordOf) _
  · exact marked_left marked_wordOf _
  · exact marked_left (marked_left (marked_mark _) _) _
  · exact marked_wordOf
  · exact marked_dotted
  · exact marked_right _ (marked_word _)
  · exact marked_left (marked_right _ (marked_word _)) _
  · exact marked_left (marked_left (marked_mark _) _) _
  · exact marked_left (marked_left (marked_right _ (marked_mark _)) _) _
  · exact marked_zero
  · exact marked_right _ (marked_mark _)
  · exact marked_add (marked_mark _) (marked_right _ (marked_mark _))

theorem marked_simpleType {k : Kind} (h : k = .primitiveType ∨ k = .classType) :
    Marked (content true k) := by
  rcases h with rfl | rfl
  · exact marked_wordOf
  · exact marked_left marked_dotted _

end Content

/-- The tokens of items with a separator behind each of them, for as long as there are both. -/
def separated : List (List Token) → List Token → List Token
  | item :: items, comma :: commas => item ++ comma :: separated items commas
  | items, [] => items.flatten
  | [], commas => commas

/-- The brackets around the nodes of this kind, if they are lists. -/
def Kind.brackets? : Kind → Option (Kind × Kind)
  | .argumentList => some (.leftParen, .rightParen)
  | .typeArguments => some (.lt, .gt)
  | _ => none

namespace Piece

variable {ps : List Piece} {l : Language Symbol} {P : Kind → Bool} {k o c : Kind}

theorem tokens_ne_nil_of_marked (hl : Marked l) (h : symbols ps ∈ l) : tokensOfAll ps ≠ [] := by
  obtain ⟨k, i, hmem⟩ := hl _ h
  obtain ⟨p, hp, hsymbol⟩ := List.mem_map.mp hmem
  cases p with
  | node j qs => cases hsymbol
  | token t i =>
    obtain ⟨before, after, rfl⟩ := List.append_of_mem hp
    rw [tokensOfAll_append, tokensOfAll_token]
    exact List.append_ne_nil_of_right_ne_nil _ (List.cons_ne_nil _ _)

/-- What stands in a list takes up room. -/
theorem tokens_ne_nil_of_formed (hf : (Piece.node k ps).Formed true)
    (hk : isValue true k = true ∨ k.isType = true) : tokensOfAll ps ≠ [] := by
  obtain ⟨⟨hcontent, -⟩, hparts⟩ := hf
  rcases hk with hk | hk
  · exact tokens_ne_nil_of_marked (marked_expression hk) hcontent
  · unfold Kind.isType at hk
    split at hk
    · exact tokens_ne_nil_of_marked (marked_simpleType (.inl rfl)) hcontent
    · exact tokens_ne_nil_of_marked (marked_simpleType (.inr rfl)) hcontent
    · -- an array type is made of nodes only, but the first of them is a type with a token of its own
      obtain ⟨_, hfirst, _, rfl, hs⟩ := hcontent
      obtain ⟨j, hj, rfl⟩ : ∃ j, (j = .primitiveType ∨ j = .classType) ∧ _ = [Symbol.node j] :=
        hfirst.elim (fun h => ⟨_, .inl rfl, h⟩) fun h => ⟨_, .inr rfl, h⟩
      obtain ⟨qs, rest, rfl, -⟩ := of_symbols_node hs.symm
      have hne := tokens_ne_nil_of_marked (marked_simpleType hj) hparts.1.1.1
      exact List.append_ne_nil_of_left_ne_nil hne _
    · cases hk

/-- Nodes with a comma behind each but perhaps the last one. -/
inductive Listed (P : Kind → Bool) : List Piece → Prop
  | nil : Listed P []
  | last {k : Kind} (hk : P k = true) (qs : List Piece) : Listed P [.node k qs]
  | more {k : Kind} (hk : P k = true) (qs : List Piece) {t : Token} (ht : t.kind = .comma)
    {items : List Piece} (more : Listed P items) :
    Listed P (.node k qs :: .token t false :: items)

theorem listed_of_mem (h : symbols ps ∈ listed (nodeOf P)) : Listed P ps := by
  obtain ⟨_, hv, w, hw, hs⟩ := h
  obtain ⟨parts, rfl, hparts⟩ := Language.mem_kstar.mp hv
  clear hv
  induction parts generalizing ps with
  | nil =>
    rcases hw with rfl | ⟨k, hk, rfl⟩
    · rw [of_symbols_nil hs.symm]
      exact .nil
    · obtain ⟨qs, _, rfl, hnone⟩ := of_symbols_node hs.symm
      rw [of_symbols_nil hnone]
      exact .last hk qs
  | cons part parts ih =>
    obtain ⟨⟨_, ⟨k, hk, rfl⟩, _, rfl, rfl⟩, hmore⟩ := List.forall_mem_cons.mp hparts
    obtain ⟨qs, _, rfl, h₁⟩ := of_symbols_node hs.symm
    obtain ⟨t, items, rfl, ht, h₂⟩ := of_symbols_token h₁
    exact .more hk qs ht (ih hmore h₂.symm)

/-- The last of the pieces is a comma. -/
def IsTrailing (ps : List Piece) : Prop := ∃ front t, ps = front ++ [.token t false] ∧ t.kind = .comma

theorem not_isTrailing_of_node (front : List Piece) (k : Kind) (qs : List Piece) :
    ¬ IsTrailing (front ++ [.node k qs]) := by
  rintro ⟨before, t, hps, -⟩
  cases (List.append_inj' hps rfl).2

/-- A list ends in a comma, and then it has as many of them as nodes, or it has one less. -/
theorem Listed.ends (h : Listed P ps) :
    (IsTrailing ps ∧ heads ps ≠ [] ∧ (direct ps).length = (heads ps).length) ∨
    (¬ IsTrailing ps ∧ (direct ps).length = (heads ps).length - 1 ∧
      (ps = [] ∨ ∃ front k qs, ps = front ++ [.node k qs] ∧ P k = true)) := by
  induction h with
  | nil => exact .inr ⟨by simp [IsTrailing], rfl, .inl rfl⟩
  | @last k hk qs => exact .inr ⟨not_isTrailing_of_node [] k qs, rfl, .inr ⟨[], k, qs, rfl, hk⟩⟩
  | @more k hk qs t ht items _ ih =>
    rcases ih with ⟨⟨front, u, rfl, hu⟩, -, hcount⟩ | ⟨-, hcount, rfl | ⟨front, j, rs, rfl, hj⟩⟩
    · exact .inl ⟨⟨.node k qs :: .token t false :: front, u, rfl, hu⟩, List.cons_ne_nil _ _,
        congrArg (· + 1) hcount⟩
    · exact .inl ⟨⟨[.node k qs], t, rfl, ht⟩, List.cons_ne_nil _ _, rfl⟩
    · refine .inr ⟨not_isTrailing_of_node (.node k qs :: .token t false :: front) j rs, ?_,
        .inr ⟨.node k qs :: .token t false :: front, j, rs, rfl, hj⟩⟩
      have hone : 0 < (heads (front ++ [.node j rs])).length := by
        rw [heads_append, List.length_append]
        exact Nat.succ_pos _
      change (direct (front ++ [.node j rs])).length + 1 =
        (heads (front ++ [.node j rs])).length + 1 - 1
      omega

theorem Listed.tokens_eq (h : Listed P ps) :
    tokensOfAll ps = separated (childTokens ps) ((direct ps).map Prod.fst) := by
  induction h with
  | nil => rfl
  | last hk qs => rfl
  | more hk qs ht _ ih =>
    rw [tokensOfAll_node, tokensOfAll_token, ih]
    rfl

theorem Listed.kind_of_direct (h : Listed P ps) : ∀ t ∈ (direct ps).map Prod.fst, t.kind = .comma := by
  induction h with
  | nil => simp [direct]
  | last hk qs => simp [direct]
  | more hk qs ht _ ih => exact List.forall_mem_cons.mpr ⟨ht, ih⟩

/-- What a list in brackets consists of. -/
theorem exists_listed (hk : k.brackets? = some (o, c)) (h : symbols ps ∈ content true k) :
    ∃ P bra items ket, ps = .token bra false :: (items ++ [.token ket false]) ∧ bra.kind = o ∧
      ket.kind = c ∧ Listed P items ∧ ∀ j, P j = true → isValue true j = true ∨ j.isType = true := by
  have hlist {P : Kind → Bool} (h : symbols ps ∈ mark o * listed (nodeOf P) * mark c) :
      ∃ bra items ket, ps = .token bra false :: (items ++ [.token ket false]) ∧ bra.kind = o ∧
        ket.kind = c ∧ Listed P items := by
    obtain ⟨_, ⟨_, rfl, v, hv, rfl⟩, _, rfl, hs⟩ := h
    obtain ⟨bra, more, rfl, hbra, hmore⟩ := of_symbols_token hs.symm
    obtain ⟨items, last, rfl, hitems, hlast⟩ := List.map_eq_append_iff.mp hmore
    obtain ⟨ket, _, rfl, hket, hnone⟩ := of_symbols_token hlast
    rw [of_symbols_nil hnone]
    have hitems : symbols items = v := hitems
    exact ⟨bra, items, ket, rfl, hbra, hket, listed_of_mem (hitems ▸ hv)⟩
  unfold Kind.brackets? at hk
  split at hk
  · cases hk
    rw [content, value, due_true, due_true, junk_true, add_zero, mul_one] at h
    obtain ⟨bra, items, ket, hps, hbra, hket, hitems⟩ := hlist h
    exact ⟨_, bra, items, ket, hps, hbra, hket, hitems, fun _ => .inl⟩
  · cases hk
    rw [content, typed, due_true, due_true] at h
    obtain ⟨bra, items, ket, hps, hbra, hket, hitems⟩ := hlist h
    exact ⟨_, bra, items, ket, hps, hbra, hket, hitems, fun _ => .inr⟩
  · cases hk

end Piece

namespace Tree

/-- The commas that stand in a node itself. -/
def commas (text : String) (t : Tree) (n : NodeId) : List Token :=
  (t.ownTokens text n).filter fun u => u.kind = .comma

/-- The last token of the node but one is a comma that stands in the node itself. -/
def EndsInComma (text : String) (t : Tree) (n : NodeId) : Prop :=
  ∃ front u last, tokensIn text (t.span n) = front ++ [u, last] ∧ u ∈ t.ownTokens text n ∧
    u.kind = .comma

/-- Brackets with the children of the node between them, a comma behind each but the last one, and perhaps
one behind that. -/
structure Delimited (text : String) (t : Tree) (n : NodeId) (o c : Kind) : Prop where
  written : ∃ bra ket, bra.kind = o ∧ ket.kind = c ∧
    t.ownTokens text n = bra :: (t.commas text n ++ [ket]) ∧
    tokensIn text (t.span n) = bra :: (separated ((t.children n).map fun d => tokensIn text (t.span d))
      (t.commas text n) ++ [ket])
  length_commas_iff :
    (t.commas text n).length = (t.children n).length - 1 ↔ ¬ t.EndsInComma text n
  length_commas : t.EndsInComma text n → (t.commas text n).length = (t.children n).length

namespace Made

variable {text : String} {t : Tree} {n : NodeId} {items : List Piece} {bra ket : Token}
  {P : Kind → Bool}

section

variable (h : t.Made true text n (.token bra false :: (items ++ [.token ket false])))

include h

theorem ownTokens_list : t.ownTokens text n = bra :: ((direct items).map Prod.fst ++ [ket]) := by
  rw [h.ownTokens_eq, direct, direct_append, List.map_cons, List.map_append]
  rfl

theorem tokensIn_list : tokensIn text (t.span n) = bra :: (tokensOfAll items ++ [ket]) := by
  rw [h.tokensIn_eq, tokensOfAll_token, tokensOfAll_append]
  rfl

theorem childTokens_list :
    (t.children n).map (fun d => tokensIn text (t.span d)) = childTokens items := by
  rw [h.childTokens_eq, childTokens, childTokens_append]
  exact List.append_nil _

theorem length_children_list : (t.children n).length = (Piece.heads items).length := by
  have hlength := congrArg List.length h.kinds_eq
  rw [List.length_map, List.length_map, Piece.heads, heads_append] at hlength
  rw [hlength]
  exact congrArg List.length (List.append_nil _)

variable (hitems : Listed P items) (hbra : bra.kind ≠ .comma)

include hitems hbra

theorem commas_list (hket : ket.kind ≠ .comma) :
    t.commas text n = (direct items).map Prod.fst := by
  have hall : ((direct items).map Prod.fst).filter (fun u => u.kind = .comma) =
      (direct items).map Prod.fst :=
    List.filter_eq_self.mpr fun u hu => by simpa using hitems.kind_of_direct u hu
  rw [commas, h.ownTokens_list, List.filter_cons_of_neg (by simpa using hbra), List.filter_append,
    hall, List.filter_cons_of_neg (by simpa using hket)]
  exact List.append_nil _

theorem endsInComma_iff (hP : ∀ j, P j = true → isValue true j = true ∨ j.isType = true) :
    t.EndsInComma text n ↔ IsTrailing items := by
  constructor
  · rintro ⟨front, u, last, htokens, hown, hu⟩
    rw [h.tokensIn_list, ← List.cons_append, List.append_cons front u] at htokens
    have hfront : bra :: tokensOfAll items = front ++ [u] := (List.append_inj' htokens rfl).1
    rcases hitems.ends with ⟨htrailing, -, -⟩ | ⟨-, -, rfl | ⟨before, k, qs, rfl, hk⟩⟩
    · exact htrailing
    · have hsingle : [] ++ [bra] = front ++ [u] := hfront
      obtain rfl : bra = u := List.singleton_inj.mp (List.append_inj' hsingle rfl).2
      exact absurd hu hbra
    · -- the last token of the last item is none of the list itself
      have hformed : (Piece.node k qs).Formed true := by
        have hparts := (allFormed_append.mp (allFormed_append.mp h.formed.2.2).1).2
        exact hparts.1
      have hne := tokens_ne_nil_of_formed hformed (hP k hk)
      have hsplit : (bra :: tokensOfAll before) ++ tokensOfAll qs = front ++ [u] := by
        rw [← hfront, tokensOfAll_append, tokensOfAll_last]
        rfl
      have hmem : u ∈ tokensOfAll qs := by
        have hlast := congrArg List.getLast? hsplit
        rw [List.getLast?_append_of_ne_nil _ hne, List.getLast?_concat] at hlast
        exact List.mem_of_getLast? hlast
      refine absurd ?_ (h.not_mem_childTokens hown)
      rw [← h.childTokens_eq, h.childTokens_list, childTokens_append]
      simp [childTokens, hmem]
  · rintro ⟨front, u, rfl, hu⟩
    refine ⟨bra :: tokensOfAll front, u, ket, ?_, ?_, hu⟩
    · rw [h.tokensIn_list, tokensOfAll_append, tokensOfAll_token]
      simp [tokensOfAll]
    · rw [h.ownTokens_list, direct_append]
      simp [direct]

theorem delimited (hket : ket.kind ≠ .comma)
    (hP : ∀ j, P j = true → isValue true j = true ∨ j.isType = true) :
    t.Delimited text n bra.kind ket.kind := by
  have hcommas := h.commas_list hitems hbra hket
  have hends := h.endsInComma_iff hitems hbra hP
  have hlength : (t.commas text n).length = (direct items).length := by
    rw [hcommas, List.length_map]
  refine ⟨⟨bra, ket, rfl, rfl, hcommas ▸ h.ownTokens_list, ?_⟩, ?_, ?_⟩
  · rw [h.childTokens_list, hcommas, ← hitems.tokens_eq]
    exact h.tokensIn_list
  · rw [hlength, h.length_children_list, hends]
    rcases hitems.ends with ⟨htrailing, hne, hcount⟩ | ⟨hnot, hcount, -⟩
    · have hpos := List.length_pos_of_ne_nil hne
      exact iff_of_false (by omega) (not_not_intro htrailing)
    · exact iff_of_true hcount hnot
  · intro hcomma
    rw [hlength, h.length_children_list]
    rcases hitems.ends with ⟨-, -, hcount⟩ | ⟨hnot, -, -⟩
    · exact hcount
    · exact absurd (hends.mp hcomma) hnot

end

end Made

end Tree

theorem Kind.of_brackets? {k o c : Kind} (h : k.brackets? = some (o, c)) :
    k.isNode = true ∧ k.isPlain = true ∧ o ≠ .comma ∧ c ≠ .comma := by
  unfold Kind.brackets? at h
  split at h
  all_goals cases h
  · decide
  · decide

/-- In a text without errors every list in brackets is made of items with commas between them. It has one
comma less than items, unless a comma stands directly in front of the closing bracket; then it has as many
of them as items. -/
theorem parse_delimited {text : String} {p : Parse}
    (hp : parse text = .ok p ∨ parseExpression text = .ok p) (he : p.errors = []) {n : NodeId}
    {o c : Kind} (hk : (p.tree.kind n).brackets? = some (o, c)) : p.tree.Delimited text n o c := by
  obtain ⟨hnode, hplain, ho, hc⟩ := Kind.of_brackets? hk
  obtain ⟨ps, hmade⟩ :=
    exists_made hp (fun _ : true = true => he) (Tree.lt_size_of_isNode hnode) hplain
  obtain ⟨P, bra, items, ket, rfl, rfl, rfl, hitems, hP⟩ := exists_listed hk hmade.formed.1.1
  exact hmade.delimited hitems ho hc hP

/-- A list of two types, the first of which has a list of its own that ends in a comma. -/
theorem parse_delimited_nested :
    let text := "class A \x7b void m() \x7b f(a, g(b,), new T<A<B,>, C>()); \x7d \x7d"
    ∃ p, parse text = .ok p ∧ p.errors = [] ∧ (p.tree.kind 18).brackets? = some (.lt, .gt) ∧
      p.tree.Delimited text 18 .lt .gt := by
  intro text
  have hp := parse_eq_of_no_problems text (by decide +kernel)
  let t : Tree := .ofBranch text (Piece.tree .compilationUnit (fileParts text)).disambiguated
  have hk : (t.kind 18).brackets? = some (.lt, .gt) := by decide +kernel
  exact ⟨_, hp, rfl, hk, parse_delimited (.inl hp) rfl hk⟩

/-- The arguments are one node and one comma, which stands in front of the closing bracket. -/
theorem commas_of_call :
    let text := "class A \x7b void m() \x7b f(a,); \x7d \x7d"
    ∃ p, parse text = .ok p ∧ p.errors = [] ∧ p.tree.kind 11 = .argumentList ∧
      (p.tree.commas text 11).length ≠ (p.tree.children 11).length - 1 ∧
        p.tree.EndsInComma text 11 := by
  intro text
  have hp := parse_eq_of_no_problems text (by decide +kernel)
  let t : Tree := .ofBranch text (Piece.tree .compilationUnit (fileParts text)).disambiguated
  have hk : t.kind 11 = .argumentList := by decide +kernel
  have hcount : (t.commas text 11).length ≠ (t.children 11).length - 1 := by decide +kernel
  have hends : t.EndsInComma text 11 :=
    ⟨[⟨.leftParen, "(", 22⟩, ⟨.ident, "a", 23⟩], ⟨.comma, ",", 24⟩, ⟨.rightParen, ")", 25⟩,
      by decide +kernel, by decide +kernel, rfl⟩
  exact ⟨_, hp, rfl, hk, hcount, hends⟩

end JavaSyntax
