import JavaSyntax.Proofs.Parse.Total

namespace JavaSyntax

namespace Branch

/-- Branches between two offsets, none of which starts before the one in front of it stops. -/
def Within (start stop : Nat) : List Branch → Prop
  | [] => start ≤ stop
  | b :: bs => start ≤ b.span.start ∧ Within b.span.stop stop bs

theorem Within.mono {bs : List Branch} {start start' stop : Nat} (h : Within start stop bs)
    (hs : start' ≤ start) : Within start' stop bs := by
  cases bs with
  | nil => exact Nat.le_trans hs h
  | cons b bs => exact ⟨Nat.le_trans hs h.1, h.2⟩

theorem Within.le {bs : List Branch} {start stop : Nat} (h : Within start stop bs) :
    start ≤ stop := by
  induction bs generalizing start with
  | nil => exact h
  | cons b bs ih =>
    have := b.span.start_le_stop
    have := ih h.2
    have := h.1
    omega

theorem Within.bounds {bs : List Branch} {start stop : Nat} (h : Within start stop bs) :
    ∀ b ∈ bs, start ≤ b.span.start ∧ b.span.stop ≤ stop := by
  induction bs generalizing start with
  | nil =>
    intro b hb
    cases hb
  | cons c cs ih =>
    intro b hb
    rcases List.mem_cons.mp hb with rfl | hb
    · exact ⟨h.1, h.2.le⟩
    · have := c.span.start_le_stop
      have := h.1
      obtain ⟨hs, he⟩ := ih h.2 b hb
      exact ⟨by omega, he⟩

theorem Within.consecutive {pre post : List Branch} {b c : Branch} {start stop : Nat}
    (h : Within start stop (pre ++ b :: c :: post)) : b.span.stop ≤ c.span.start := by
  induction pre generalizing start with
  | nil => exact h.2.1
  | cons a pre ih => exact ih h.2

theorem within_of_spans {bs cs : List Branch} (h : bs.map span = cs.map span) {start stop : Nat}
    (hb : Within start stop bs) : Within start stop cs := by
  induction bs generalizing cs start with
  | nil =>
    cases cs with
    | nil => exact hb
    | cons c cs => cases h
  | cons b bs ih =>
    cases cs with
    | nil => cases h
    | cons c cs =>
      simp only [List.map_cons, List.cons.injEq] at h
      obtain ⟨hs, hrest⟩ := h
      exact ⟨hs ▸ hb.1, hs ▸ ih hrest hb.2⟩

/-- A span covers tokens, or it is empty at an offset where something empty may stand. -/
def Bounded (ts : List Token) (anchor : Nat → Prop) (s : Span) : Prop :=
  (s.start < s.stop ∧ (∃ t ∈ ts, t.start = s.start) ∧ ∃ t ∈ ts, t.stop = s.stop) ∨
    (s.start = s.stop ∧ anchor s.start)

/-- The children of a node stand in it, one after the other, and it starts and stops with tokens
or is empty. -/
structure Fitted (ts : List Token) (anchor : Nat → Prop) (b : Branch) : Prop where
  children : Within b.span.start b.span.stop b.children
  bounded : Bounded ts anchor b.span

theorem lasting_fitted (ts : List Token) (anchor : Nat → Prop) : Lasting (Fitted ts anchor) := by
  refine ⟨?_, ?_, ?_⟩
  · rintro k image span cs ds hspans ⟨hc, hb⟩
    exact ⟨within_of_spans hspans hc, hb⟩
  · rintro b ⟨_, hb⟩
    exact ⟨b.span.start_le_stop, hb⟩
  · rintro b ⟨_, hb⟩
    exact ⟨⟨Nat.le_refl _, Nat.le_refl _⟩, hb⟩

end Branch

/-- Tokens in order cover what is between the start of the first and the stop of the last. -/
theorem hull_of_inOrder {start stop : Nat} {t : Token} {ts : List Token}
    (h : InOrder start stop (t :: ts)) : ∃ span, Draft.hull ((t :: ts).map Token.span) = some span ∧
      span.start = t.start ∧ InOrder span.start span.stop (t :: ts) ∧
      (∃ u ∈ t :: ts, u.stop = span.stop) ∧ span.stop ≤ stop := by
  have hfold : ∀ (ts : List Token) (s : Span), InOrder s.stop stop ts →
      ((ts.map Token.span).foldl Span.cover s).start = s.start ∧
        InOrder s.stop ((ts.map Token.span).foldl Span.cover s).stop ts ∧
        (((ts.map Token.span).foldl Span.cover s).stop = s.stop ∨
          ∃ u ∈ ts, u.stop = ((ts.map Token.span).foldl Span.cover s).stop) ∧
        ((ts.map Token.span).foldl Span.cover s).stop ≤ stop := by
    intro ts
    induction ts with
    | nil => exact fun s hs => ⟨rfl, Nat.le_refl _, .inl rfl, hs⟩
    | cons u us ih =>
      rintro s ⟨hsu, hu, hus⟩
      have hstart : (s.cover u.span).start = s.start := by
        have := s.start_le_stop
        change min s.start u.start = s.start
        omega
      have hstop : (s.cover u.span).stop = u.stop := by
        change max s.stop u.stop = u.stop
        omega
      obtain ⟨h₁, h₂, h₃, h₄⟩ := ih (s.cover u.span) (hstop ▸ hus)
      rw [hstart] at h₁
      rw [hstop] at h₂ h₃
      refine ⟨h₁, ⟨hsu, hu, h₂⟩, .inr ?_, h₄⟩
      rcases h₃ with h₃ | ⟨v, hv, h₃⟩
      · exact ⟨u, List.mem_cons_self, h₃.symm⟩
      · exact ⟨v, List.mem_cons_of_mem _ hv, h₃⟩
  obtain ⟨hst, ht, hts⟩ := h
  obtain ⟨h₁, h₂, h₃, h₄⟩ := hfold ts t.span hts
  refine ⟨_, rfl, h₁, ?_, ?_, h₄⟩
  · exact ⟨Nat.le_of_eq h₁, ht, h₂⟩
  · rcases h₃ with h₃ | ⟨u, hu, h₃⟩
    · exact ⟨t, List.mem_cons_self, h₃.symm⟩
    · exact ⟨u, List.mem_cons_of_mem _ hu, h₃⟩

namespace Piece

open Branch

/-- What a node covers, and where the gap in it is. -/
theorem cover_inOrder {start stop : Nat} {parts : List Piece}
    (h : InOrder start stop (tokensOfAll parts)) (hn : tokensOfAll parts ≠ []) :
    ∃ span, cover parts = some span ∧ start ≤ span.start ∧ span.start < span.stop ∧
      span.stop ≤ stop ∧ InOrder span.start span.stop (tokensOfAll parts) ∧
      (∃ t ∈ tokensOfAll parts, t.start = span.start) ∧
      ∃ t ∈ tokensOfAll parts, t.stop = span.stop := by
  rw [cover]
  cases ht : tokensOfAll parts with
  | nil => exact absurd ht hn
  | cons t ts =>
    rw [ht] at h
    obtain ⟨span, hspan, hstart, hin, hstop, hle⟩ := hull_of_inOrder h
    have hlt : span.start < span.stop := by
      obtain ⟨_, htt, hrest⟩ := hin
      have := hrest.le
      omega
    exact ⟨span, hspan, hstart ▸ h.1, hlt, hle, hin, ⟨t, List.mem_cons_self, hstart.symm⟩, hstop⟩

/-- What a node covers starts with its first token and stops with its last one. -/
theorem cover_ends {start stop : Nat} {parts : List Piece} {t u : Token}
    (h : InOrder start stop (tokensOfAll parts)) (ht : (tokensOfAll parts).head? = some t)
    (hu : (tokensOfAll parts).getLast? = some u) :
    ∃ span, cover parts = some span ∧ span.start = t.start ∧ span.stop = u.stop := by
  rw [cover]
  obtain ⟨ts, hts⟩ := List.head?_eq_some_iff.mp ht
  rw [hts] at h hu ⊢
  obtain ⟨span, hspan, hstart, hin, ⟨v, hv, hstop⟩, _⟩ := hull_of_inOrder h
  obtain ⟨front, hfront⟩ := List.getLast?_eq_some_iff.mp hu
  rw [hfront] at hin hv
  obtain ⟨mid, hmid, hlast⟩ := inOrder_append.mp hin
  have hbounds := hlast.bounds u List.mem_cons_self
  have hle : v.stop ≤ u.stop := by
    rcases List.mem_append.mp hv with hv | hv
    · have := hmid.bounds v hv
      omega
    · exact Nat.le_of_eq (congrArg Token.stop (List.mem_singleton.mp hv))
  exact ⟨span, hspan, hstart, by omega⟩

/-- The first token after a piece is not before the gap in front of it. -/
theorem inOrder_firstStart {start gap : Nat} {ts : List Token} (h : InOrder start gap ts) :
    start ≤ (firstStart ts).getD gap ∧ InOrder ((firstStart ts).getD gap) gap ts := by
  cases ts with
  | nil => exact ⟨h, Nat.le_refl _⟩
  | cons t ts => exact ⟨h.1, Nat.le_refl _, h.2⟩

/-- The nodes of pieces stand between the offsets between which their tokens stand. -/
theorem within_branches (ps : List Piece) : ∀ {start gap : Nat},
    InOrder start gap (tokensOfAll ps) → Within start gap (branches gap ps) := by
  induction ps with
  | nil => exact fun h => h
  | cons p ps ih =>
    intro start gap h
    obtain ⟨mid, hp, hps⟩ := inOrder_append.mp h
    cases p with
    | token t i =>
      have hle : start ≤ mid := hp.le
      exact (ih hps).mono hle
    | node k parts =>
      change InOrder start mid (tokensOfAll parts) at hp
      simp only [branches, branch, List.cons_append, List.nil_append]
      by_cases hn : tokensOfAll parts = []
      · have hc := cover_eq_none.mpr hn
        obtain ⟨hle, hin⟩ := inOrder_firstStart hps
        simp only [hc, Option.getD_none]
        exact ⟨Nat.le_trans hp.le hle, ih hin⟩
      · obtain ⟨span, hc, hs, _, he, _⟩ := cover_inOrder hp hn
        simp only [hc, Option.getD_some]
        exact ⟨hs, (ih hps).mono he⟩

mutual

/-- Every node fits if its gap is at an anchor. -/
theorem fitted_branch {all : List Token} {anchor : Nat → Prop}
    (hall : ∀ t ∈ all, anchor t.start ∧ anchor t.stop) : ∀ (p : Piece) {start stop gap : Nat},
    (∀ t ∈ p.tokens, t ∈ all) → anchor gap → InOrder start stop p.tokens →
    ∀ b ∈ subtreesOfAll (p.branch gap), Fitted all anchor b
  | .token _ _, _, _, _, _, _, _, b, hb => by cases hb
  | .node k parts, start, stop, gap, hsub, hgap, hin, b, hb => by
    rw [branch, subtreesOfAll, subtreesOfAll, List.append_nil] at hb
    change InOrder start stop (tokensOfAll parts) at hin
    by_cases hn : tokensOfAll parts = []
    · have hc := cover_eq_none.mpr hn
      have hnil : InOrder gap gap (tokensOfAll parts) := by
        rw [hn]
        exact Nat.le_refl gap
      simp only [hc, Option.getD_none, Option.elim_none] at hb
      rcases List.mem_cons.mp hb with rfl | hb
      · exact ⟨within_branches parts hnil, .inr ⟨rfl, hgap⟩⟩
      · exact fitted_branches hall parts hsub hgap hnil b hb
    · obtain ⟨span, hc, _, hlt, _, hin', hstart, t, ht, hstop⟩ := cover_inOrder hin hn
      have hanchor : anchor span.stop := hstop ▸ (hall t (hsub t ht)).2
      simp only [hc, Option.getD_some, Option.elim_some] at hb
      rcases List.mem_cons.mp hb with rfl | hb
      · obtain ⟨u, hu, hus⟩ := hstart
        exact ⟨within_branches parts hin',
          .inl ⟨hlt, ⟨u, hsub u hu, hus⟩, t, hsub t ht, hstop⟩⟩
      · exact fitted_branches hall parts hsub hanchor hin' b hb

theorem fitted_branches {all : List Token} {anchor : Nat → Prop}
    (hall : ∀ t ∈ all, anchor t.start ∧ anchor t.stop) : ∀ (ps : List Piece) {start stop gap : Nat},
    (∀ t ∈ tokensOfAll ps, t ∈ all) → anchor gap → InOrder start stop (tokensOfAll ps) →
    ∀ b ∈ subtreesOfAll (branches gap ps), Fitted all anchor b
  | [], _, _, _, _, _, _, b, hb => by cases hb
  | p :: ps, start, stop, gap, hsub, hgap, hin, b, hb => by
    obtain ⟨mid, hp, hps⟩ := inOrder_append.mp hin
    rw [branches, subtreesOfAll_append] at hb
    have hafter : ∀ t ∈ tokensOfAll ps, t ∈ all := fun t ht => hsub t (List.mem_append_right _ ht)
    rcases List.mem_append.mp hb with hb | hb
    · refine fitted_branch hall p (fun t ht => hsub t (List.mem_append_left _ ht)) ?_ hp b hb
      cases hts : tokensOfAll ps with
      | nil => exact hgap
      | cons t ts => exact (hall t (hafter t (by simp [hts]))).1
    · exact fitted_branches hall ps hafter hgap hps b hb

end

end Piece

/-- Where something empty may stand: at a token, or at 0 in a text without any. -/
def Anchor (text : String) (o : Nat) : Prop :=
  (∃ t ∈ significantTokens text, o = t.start ∨ o = t.stop) ∨ (significantTokens text = [] ∧ o = 0)

theorem Anchor.cuts {text : String} {o : Nat} (h : Anchor text o) : Text.Cuts 0 text.toList o := by
  rcases h with ⟨t, ht, rfl | rfl⟩ | ⟨_, rfl⟩
  · exact ((significantTokens_covers text).cuts t ht).1
  · exact ((significantTokens_covers text).cuts t ht).2
  · exact Text.cuts_start 0 _

/-- A node stands where a text can be cut, its children are in it, one after the other, and it starts
and stops with tokens unless it is empty. -/
structure Branch.Placed (text : String) (b : Branch) : Prop where
  inside : ∀ c ∈ b.children, b.span.start ≤ c.span.start ∧ c.span.stop ≤ b.span.stop
  ordered : ∀ pre c d post, b.children = pre ++ c :: d :: post → c.span.stop ≤ d.span.start
  bounds : b.span.start < b.span.stop →
    (∃ t ∈ significantTokens text, t.start = b.span.start) ∧
      ∃ t ∈ significantTokens text, t.stop = b.span.stop
  anchored : b.span.start = b.span.stop → Anchor text b.span.start
  sliced : (Text.slice? text b.span).isSome = true

theorem Branch.Fitted.placed {text : String} {b : Branch}
    (h : Fitted (significantTokens text) (Anchor text) b) : b.Placed text := by
  obtain ⟨hc, hb⟩ := h
  refine ⟨hc.bounds, ?_, ?_, ?_, ?_⟩
  · intro pre c d post he
    exact Within.consecutive (he ▸ hc)
  · intro hlt
    rcases hb with ⟨_, hs, he⟩ | ⟨he, _⟩
    · exact ⟨hs, he⟩
    · omega
  · intro heq
    rcases hb with ⟨hlt, _⟩ | ⟨_, ha⟩
    · omega
    · exact ha
  · rcases hb with ⟨_, ⟨t, ht, hs⟩, u, hu, he⟩ | ⟨he, ha⟩
    · exact Text.slice?_isSome (hs ▸ ((significantTokens_covers text).cuts t ht).1)
        (he ▸ ((significantTokens_covers text).cuts u hu).2)
    · exact Text.slice?_isSome ha.cuts (he ▸ ha.cuts)

/-- Every node of the tree that the parts of a whole text stand for is placed. -/
theorem Piece.Holds.placed {text : String} {k : Kind} {parts : List Piece}
    (h : Piece.Holds text k parts) :
    (Piece.tree k parts).disambiguated.span =
        (Draft.hull ((significantTokens text).map Token.span)).getD (.empty 0) ∧
      ∀ b ∈ (Piece.tree k parts).disambiguated.subtrees, b.Placed text := by
  have hcov := significantTokens_covers text
  have hall : ∀ t ∈ significantTokens text, Anchor text t.start ∧ Anchor text t.stop :=
    fun t ht => ⟨.inl ⟨t, ht, .inl rfl⟩, .inl ⟨t, ht, .inr rfl⟩⟩
  -- with a token at hand the gap of the root does not matter, so it may be at an anchor
  have hgap : ∃ gap, Anchor text gap ∧
      (Piece.node k parts).branch gap = [Piece.tree k parts] := by
    cases hts : significantTokens text with
    | nil => exact ⟨0, .inr ⟨hts, rfl⟩, rfl⟩
    | cons t ts =>
      have hne : Piece.tokensOfAll parts ≠ [] := by simp [h.tokens, hts]
      cases hc : Piece.cover parts with
      | none => exact absurd (Piece.cover_eq_none.mp hc) hne
      | some span =>
        refine ⟨t.start, (hall t (by simp [hts])).1, ?_⟩
        simp [Piece.branch, Piece.tree, hc]
  obtain ⟨gap, ha, hbranch⟩ := hgap
  refine ⟨?_, fun b hb => Branch.Fitted.placed ?_⟩
  · rw [Branch.span_disambiguated, Piece.tree, Piece.cover, h.tokens]
  · refine (Branch.lasting_fitted _ _).disambiguated _ (fun c hc => ?_) b hb
    have hin : InOrder 0 (0 + Text.utf8Length text.toList) (Piece.node k parts).tokens := by
      rw [Piece.tokens, h.tokens]
      exact hcov.inOrder
    refine Piece.fitted_branch hall (.node k parts) (fun t ht => h.tokens ▸ ht) ha hin c ?_
    rw [hbranch]
    exact List.mem_append_left _ hc

/-- In the tree of a file and in that of an expression every node is placed, and the root covers all
tokens. -/
theorem parse_spans (text : String) :
    (∃ p, parse text = .ok p ∧
      p.tree.root.span = (Draft.hull ((significantTokens text).map Token.span)).getD (.empty 0) ∧
      ∀ b ∈ p.tree.root.subtrees, b.Placed text) ∧
    ∃ p, parseExpression text = .ok p ∧
      p.tree.root.span = (Draft.hull ((significantTokens text).map Token.span)).getD (.empty 0) ∧
      ∀ b ∈ p.tree.root.subtrees, b.Placed text :=
  ⟨⟨_, parse_eq text, (holds_fileParts text).placed⟩,
    ⟨_, parseExpression_eq text, (holds_expressionParts text).placed⟩⟩

end JavaSyntax
