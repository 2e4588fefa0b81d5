import JavaSyntax.Proofs.Event.Replay

namespace JavaSyntax

namespace Piece

/-- What the tokens of the pieces cover. -/
def cover (ps : List Piece) : Option Span := Draft.hull ((tokensOfAll ps).map Token.span)

/-- The payload after some more pieces are read in the same node. -/
def payload (image : Option String) : List Piece → Option String
  | [] => image
  | .token t true :: ps => payload (some (image.getD "" ++ t.text)) ps
  | .token _ false :: ps => payload image ps
  | .node _ _ :: ps => payload image ps

/-- Where the first of the tokens starts. -/
def firstStart (ts : List Token) : Option Nat := ts.head?.map Token.start

mutual

/-- The finished nodes of a piece: one for a node, none for a token. What covers no token and has no
token after it stands at `gap`. -/
def branch (gap : Nat) : Piece → List Branch
  | .token _ _ => []
  | .node k parts =>
    [⟨k, payload none parts, (cover parts).getD (.empty gap),
      branches ((cover parts).elim gap Span.stop) parts⟩]

def branches (gap : Nat) : List Piece → List Branch
  | [] => []
  | p :: ps => p.branch ((firstStart (tokensOfAll ps)).getD gap) ++ branches gap ps

end

mutual

/-- The same with a finalizer, as long as it may be open where the gap is. -/
def sprout (g : Sprout → Sprout) (gap : Option Nat) : Piece → List Sprout
  | .token _ _ => []
  | .node k parts =>
    [g ⟨k, payload none parts, (cover parts).or (gap.map .empty),
      sprouts g ((cover parts).elim gap (some ·.stop)) parts⟩]

def sprouts (g : Sprout → Sprout) (gap : Option Nat) : List Piece → List Sprout
  | [] => []
  | p :: ps => p.sprout g ((firstStart (tokensOfAll ps)).or gap) ++ sprouts g gap ps

end

theorem cover_eq_none {ps : List Piece} : cover ps = none ↔ tokensOfAll ps = [] := by
  rw [cover]
  cases tokensOfAll ps <;> simp [Draft.hull]

end Piece

/-- A finalizer that changes the children of qualified nodes only, when their first child has a span.
On finished nodes it does what `G` does. -/
structure Sprout.Local (g : Sprout → Sprout) (G : Branch → Branch) : Prop where
  span : ∀ s, (g s).span = s.span
  fixes : ∀ s, Piece.isQualified s.kind = false ∨ s.children = [] → g s = s
  fill : ∀ s c cs o, s.children = c :: cs → c.span.isSome = true → (g s).fill o = g (s.fill o)
  toBranch : ∀ s, (g s).toBranch = G s.toBranch

namespace Piece

variable {g : Sprout → Sprout} {G : Branch → Branch}

mutual

/-- What is promised of a proper piece is enough for a local finalizer. -/
theorem Proper.suits (hg : Sprout.Local g G) : ∀ {p : Piece}, p.Proper → p.Suits g
  | .token _ _, _ => trivial
  | .node k _, ⟨hk, hp⟩ => by
    refine ⟨hk.node, ?_, AllProper.suit hg hp⟩
    cases hq : isQualified k with
    | false => exact .inl fun s hs => hg.fixes s (.inl (hs ▸ hq))
    | true => exact .inr (hk.qualified hq)

theorem AllProper.suit (hg : Sprout.Local g G) : ∀ {ps : List Piece}, AllProper ps → AllSuit g ps
  | [], _ => trivial
  | _ :: _, ⟨hp, hps⟩ => ⟨hp.suits hg, AllProper.suit hg hps⟩

end

/-- The first child of a node is made of its first part that is no token. -/
theorem sprouts_first (hg : Sprout.Local g G) (gap : Option Nat) (parts : List Piece) :
    (parts.find? isNode = none → sprouts g gap parts = []) ∧
      (∀ p, parts.find? isNode = some p → p.tokens ≠ [] →
        ∃ c cs, sprouts g gap parts = c :: cs ∧ c.span.isSome = true) := by
  induction parts with
  | nil =>
    refine ⟨fun _ => rfl, ?_⟩
    intro p hp
    cases hp
  | cons p ps ih =>
    cases p with
    | token t i =>
      simp only [List.find?_cons, isNode, sprouts, sprout, List.nil_append]
      exact ih
    | node k parts =>
      refine ⟨fun h => by simp [isNode] at h, ?_⟩
      intro p hp hne
      simp only [List.find?_cons, isNode] at hp
      cases hp
      refine ⟨_, _, rfl, ?_⟩
      rw [hg.span]
      cases hc : cover parts with
      | none => exact absurd (cover_eq_none.mp hc) hne
      | some span => rfl

/-- A node without any token whose first child would cover one has no children. -/
theorem sprouts_eq_nil (hg : Sprout.Local g G) {parts : List Piece}
    (hfirst : ∀ p, parts.find? isNode = some p → p.tokens ≠ []) (hn : tokensOfAll parts = [])
    (gap : Option Nat) : sprouts g gap parts = [] := by
  have hnil : ∀ (ps : List Piece), tokensOfAll ps = [] → ∀ p ∈ ps, p.tokens = [] := by
    intro ps
    induction ps with
    | nil =>
      intro _ p hp
      cases hp
    | cons q qs ih =>
      intro h p hp
      obtain ⟨hq, hqs⟩ := List.append_eq_nil_iff.mp h
      rcases List.mem_cons.mp hp with rfl | hp
      · exact hq
      · exact ih hqs p hp
  cases hf : parts.find? isNode with
  | none => exact (sprouts_first hg gap parts).1 hf
  | some p =>
    exact absurd (hnil parts hn p (List.mem_of_find?_eq_some hf)) (hfirst p hf)

mutual

/-- Placing a piece fills its gap, if it has one. -/
theorem fill_sprout (hg : Sprout.Local g G) (o : Nat) : ∀ (p : Piece) (gap : Option Nat), p.Suits g →
    Sprout.fillAll o (p.sprout g gap) = p.sprout g (gap.or (some o))
  | .token _ _, _, _ => rfl
  | .node k parts, gap, ⟨_, hk, hp⟩ => by
    have ih := fill_sprouts hg o parts ((cover parts).elim gap (some ·.stop)) hp
    have hinner : Sprout.fill o ⟨k, payload none parts, (cover parts).or (gap.map .empty),
          sprouts g ((cover parts).elim gap (some ·.stop)) parts⟩ =
        ⟨k, payload none parts, (cover parts).or ((gap.or (some o)).map .empty),
          sprouts g ((cover parts).elim (gap.or (some o)) (some ·.stop)) parts⟩ := by
      rw [Sprout.fill, ih]
      cases cover parts <;> cases gap <;> rfl
    simp only [sprout, Sprout.fillAll]
    rw [← hinner]
    rcases hk with hfix | hfirst
    · rw [hfix _ rfl, hfix _ rfl]
    · cases hf : parts.find? isNode with
      | none =>
        have hnil := (sprouts_first hg ((cover parts).elim gap (some ·.stop)) parts).1 hf
        rw [hg.fixes _ (.inr hnil), hg.fixes _ (.inr (by simp [Sprout.fill, hnil, Sprout.fillAll]))]
      | some p =>
        obtain ⟨c, cs, hcs, hc⟩ :=
          (sprouts_first hg ((cover parts).elim gap (some ·.stop)) parts).2 p hf (hfirst p hf)
        rw [hg.fill _ c cs o hcs hc]

theorem fill_sprouts (hg : Sprout.Local g G) (o : Nat) : ∀ (ps : List Piece) (gap : Option Nat),
    AllSuit g ps → Sprout.fillAll o (sprouts g gap ps) = sprouts g (gap.or (some o)) ps
  | [], _, _ => rfl
  | p :: ps, gap, ⟨hp, hps⟩ => by
    rw [sprouts, Sprout.fillAll_append, fill_sprout hg o p _ hp, fill_sprouts hg o ps gap hps,
      Option.or_assoc]
    rfl

end

theorem settle_of_isSome {s : Sprout} (h : s.span.isSome = true) (o : Nat) : s.settle o = s := by
  obtain ⟨k, i, span, cs⟩ := s
  cases span with
  | none => cases h
  | some span => rfl

mutual

/-- Where a node stops, what covers no token at its end is placed. -/
theorem settle_sprout (hg : Sprout.Local g G) (o : Nat) : ∀ (p : Piece) (gap : Option Nat),
    p.Suits g → Sprout.settleAll o (p.sprout g gap) = p.sprout g (gap.or (some o))
  | .token _ _, _, _ => rfl
  | .node k parts, gap, ⟨_, hk, hp⟩ => by
    simp only [sprout, Sprout.settleAll]
    cases hc : cover parts with
    | some span => rw [settle_of_isSome (by rw [hg.span]; rfl)]; rfl
    | none =>
      cases gap with
      | some a => rw [settle_of_isSome (by rw [hg.span]; rfl)]; rfl
      | none =>
        have hfix : ∀ gap' span', g ⟨k, payload none parts, span', sprouts g gap' parts⟩ =
            ⟨k, payload none parts, span', sprouts g gap' parts⟩ := by
          intro gap' span'
          rcases hk with hfix | hfirst
          · exact hfix _ rfl
          · exact hg.fixes _ (.inr (sprouts_eq_nil hg hfirst (cover_eq_none.mp hc) gap'))
        have ih := settle_sprouts hg o parts none hp
        simp only [Option.elim_none, Option.map_none, Option.or_none, hfix, Sprout.settle, ih]
        rfl

theorem settle_sprouts (hg : Sprout.Local g G) (o : Nat) : ∀ (ps : List Piece) (gap : Option Nat),
    AllSuit g ps → Sprout.settleAll o (sprouts g gap ps) = sprouts g (gap.or (some o)) ps
  | [], _, _ => rfl
  | p :: ps, gap, ⟨hp, hps⟩ => by
    rw [sprouts, Sprout.settleAll_append, settle_sprout hg o p _ hp, settle_sprouts hg o ps gap hps,
      Option.or_assoc]
    rfl

end

theorem spans_sprouts (hg : Sprout.Local g G) : ∀ {ps : List Piece}, tokensOfAll ps = [] →
    (sprouts g none ps).filterMap Sprout.span = [] := by
  intro ps
  induction ps with
  | nil => exact fun _ => rfl
  | cons p ps ih =>
    intro h
    obtain ⟨hp, hps⟩ := List.append_eq_nil_iff.mp h
    cases p with
    | token t i => cases hp
    | node k parts =>
      have hc : cover parts = none := cover_eq_none.mpr hp
      simp [sprouts, sprout, hps, firstStart, hc, hg.span, ih hps]

end Piece

end JavaSyntax
