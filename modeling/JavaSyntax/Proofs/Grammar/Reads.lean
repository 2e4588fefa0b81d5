import JavaSyntax.Proofs.Grammar.Sound

namespace JavaSyntax.Grammar

open Piece

/-- From the tokens `ts` to the tokens `rest` behind them: on the way each of those found is the next one,
one after the other. -/
def Along (rest : List Token) : (ts : List Token) → (found : List (Option Token)) → Prop
  | ts, [] => rest <:+ ts
  | ts, t :: found => ∃ us, us <:+ ts ∧ us.head? = t ∧ Along rest us found

section

variable {rest ts us : List Token} {found more : List (Option Token)}

theorem Along.earlier (h : Along rest us found) (hus : us <:+ ts) : Along rest ts found := by
  cases found with
  | nil => exact h.trans hus
  | cons t found =>
    obtain ⟨vs, hvs, hmore⟩ := h
    exact ⟨vs, hvs.trans hus, hmore⟩

theorem Along.append (h : Along us ts found) (hmore : Along rest us more) :
    Along rest ts (found ++ more) := by
  induction found generalizing ts with
  | nil => exact hmore.earlier h
  | cons t found ih =>
    obtain ⟨vs, hvs, hhead, hfound⟩ := h
    exact ⟨vs, hvs, hhead, ih hfound⟩

theorem Along.suffix_of_mem (h : Along rest ts found) {t : Option Token} (ht : t ∈ found) :
    ∃ us, us <:+ ts ∧ us.head? = t := by
  induction found generalizing ts with
  | nil => cases ht
  | cons u found ih =>
    obtain ⟨us, hus, hhead, hmore⟩ := h
    rcases List.mem_cons.mp ht with rfl | ht
    · exact ⟨us, hus, hhead⟩
    · obtain ⟨vs, hvs, ht⟩ := ih hmore ht
      exact ⟨vs, hvs.trans hus, ht⟩

end

/-- The tokens that problems were found at, and none for the end of the input. -/
def Step.found {ts : List Token} (s : Step ts) : List (Option Token) := s.problems.map Problem.found

/-- A rule goes on from the pieces `operand`, which it makes part of its own, and from the tokens
`before`, which the rule around it has read last. It reads its tokens into its parts and loses none. What it
makes of them is sound where the operand was, and it reports problems on its way through the tokens. A rule
that reads blocks as a whole leaves the braces around it to those who opened them. -/
structure Step.Reads {ts : List Token} (s : Step ts) (whole : Bool) (operand : List Piece)
    (before : List Token) : Prop where
  tokens : tokensOfAll s.parts ++ s.rest = tokensOfAll operand ++ (before ++ ts)
  sound : ∀ {earlier}, AllSound earlier (before ++ ts) operand →
    AllSound (earlier ++ s.found) s.rest s.parts
  along : Along s.rest (before ++ ts) s.found
  braces : whole = true → ∀ d, closing? d (before ++ ts) = closing? d s.rest

/-- Around the bodies of methods the braces need not match. -/
theorem outside {p : Prop} (h : false = true) : p := Bool.noConfusion h

/-- Every piece that a rule makes has a token. -/
def Step.Fills {ts : List Token} (s : Step ts) : Prop := ∀ p ∈ s.parts, p.tokens ≠ []

/-- A rule reads what is left of a block, up to its `}` or else to the end. -/
structure Step.Shuts {ts : List Token} (s : Step ts) : Prop extends s.Reads false [] [] where
  fills : s.Fills
  outer : ∀ d, closing? (d + 1) ts = closing? d s.rest
  inner : (∃ u, closing? 0 ts = some u ∧ (tokensOfAll s.parts).getLast? = some u) ∨
    (closing? 0 ts = none ∧ s.rest = [])

namespace Step

variable {ts r before : List Token} {whole : Bool} {operand : List Piece} {k : Kind} {t : Token}

theorem reads_idle (ts : List Token) : (idle ts).Reads whole [] [] :=
  ⟨rfl, fun _ => trivial, List.suffix_rfl, fun _ _ => rfl⟩

theorem reads_report (e : SyntaxError) (ts : List Token) : (report e ts).Reads whole [] [] :=
  ⟨rfl, fun _ => trivial, ⟨ts, List.suffix_rfl, rfl, List.suffix_rfl⟩, fun _ _ => rfl⟩

theorem Reads.tokens_eq {s : Step ts} (h : s.Reads false [] before) :
    tokensOfAll s.parts ++ s.rest = before ++ ts := h.tokens

/-- A rule that starts with nothing read makes sound pieces. -/
theorem Reads.parts_sound {s : Step ts} (h : s.Reads false [] before) :
    AllSound s.found s.rest s.parts := by
  have hsound := @Reads.sound _ _ _ _ _ h [] trivial
  rwa [List.nil_append] at hsound

theorem Reads.lead {s : Step r} (h : s.Reads whole [] before) (i : Bool)
    (ht : whole = true → t.kind.isBrace = false) : (s.lead i t).Reads whole [] (t :: before) where
  tokens := congrArg (t :: ·) h.tokens
  sound := fun _ => ⟨trivial, h.sound trivial⟩
  along := h.along.earlier (List.suffix_cons t _)
  braces := fun hw d => (closing?_of_not_isBrace (ht hw) d).trans (h.braces hw d)

theorem Reads.lift {s : Step r} {b : List Token} (h : s.Reads whole operand (b ++ [t])) :
    (s.lift t).Reads whole operand b := by
  have hlist : b ++ [t] ++ r = b ++ t :: r := by simp
  obtain ⟨htokens, hsound, halong, hbraces⟩ := h
  rw [hlist] at htokens hsound halong hbraces
  exact ⟨htokens, hsound, halong, hbraces⟩

theorem Reads.within {a : List Token} {s : Step (a ++ r)} (h : s.Reads whole operand before)
    (hl : s.rest.length ≤ r.length) : (s.within r hl).Reads whole operand (before ++ a) := by
  have hlist : before ++ (a ++ r) = before ++ a ++ r := (List.append_assoc ..).symm
  obtain ⟨htokens, hsound, halong, hbraces⟩ := h
  rw [hlist] at htokens hsound halong hbraces
  exact ⟨htokens, hsound, halong, hbraces⟩

theorem reads_bump (i : Bool) (ht : whole = true → t.kind.isBrace = false) (r : List Token) :
    (bump i t r).Reads whole [] [] :=
  ((reads_idle r).lead i ht).lift (b := [])

/-- The second rule has made the pieces of the first one part of its own. -/
theorem Reads.goOn {a : Step ts} {b : Step a.rest} (ha : a.Reads whole operand before)
    (hb : b.Reads whole a.parts []) :
    Step.Reads { a.andThen b with parts := b.parts } whole operand before where
  tokens := hb.tokens.trans ha.tokens
  sound := fun {earlier} ho => by
    have hfound : earlier ++ (a.andThen b).found = earlier ++ a.found ++ b.found := by
      rw [List.append_assoc]
      exact congrArg (earlier ++ ·) List.map_append
    change AllSound (earlier ++ (a.andThen b).found) b.rest b.parts
    rw [hfound]
    exact hb.sound (ha.sound ho)
  along := by
    change Along b.rest (before ++ ts) (a.andThen b).found
    rw [show (a.andThen b).found = a.found ++ b.found from List.map_append]
    exact ha.along.append hb.along
  braces := fun hw d => (ha.braces hw d).trans (hb.braces hw d)

/-- A rule that goes on from nothing can have anything in front of it. -/
theorem Reads.behind {s : Step ts} (h : s.Reads whole [] before) (operand : List Piece) :
    Step.Reads { s with parts := operand ++ s.parts } whole operand before where
  tokens := by
    change tokensOfAll (operand ++ s.parts) ++ s.rest = tokensOfAll operand ++ (before ++ ts)
    rw [tokensOfAll_append, List.append_assoc, h.tokens]
    rfl
  sound := fun ho => by
    refine allSound_append.mpr ⟨?_, h.sound trivial⟩
    rw [h.tokens]
    exact ho.mono (List.subset_append_left _ _)
  along := h.along
  braces := h.braces

theorem Reads.andThen {a : Step ts} {b : Step a.rest} (ha : a.Reads whole operand before)
    (hb : b.Reads whole [] []) : (a.andThen b).Reads whole operand before :=
  ha.goOn (hb.behind a.parts)

/-- A node around what was read, the operand included. -/
theorem Reads.node {s : Step ts} (h : s.Reads whole operand before)
    (hk : ∀ {earlier}, Stands (earlier ++ s.found) k s.parts s.rest) :
    (s.node k).Reads whole operand before where
  tokens := by
    rw [← h.tokens, Step.node]
    simp only [tokensOfAll, Piece.tokens, List.append_nil]
  sound := fun ho => ⟨⟨hk, h.sound ho⟩, trivial⟩
  along := h.along
  braces := h.braces

theorem Reads.free {s : Step ts} (h : s.Reads whole operand before) (hk : isFree k = true) :
    (s.node k).Reads whole operand before :=
  h.node (.of_isFree hk _ _)

/-- A node that starts with the token that its rule was called for. -/
theorem Reads.opened {s : Step r} (h : s.Reads whole [] before) (i : Bool) {o : Kind} (ht : t.kind = o)
    (hk : startsWith k o = true) (ho : whole = true → o.isBrace = false) :
    ((s.lead i t).node k).Reads whole [] (t :: before) :=
  (h.lead i fun hw => ht ▸ ho hw).node (.of_startsWith hk ht _ _ _)

theorem reads_skip (e : SyntaxError) (ht : whole = true → t.kind.isBrace = false) (r : List Token) :
    (skip e t r).Reads whole [] [t] where
  tokens := rfl
  sound := fun {earlier} _ => by
    have hfound : some t ∈ earlier ++ (skip e t r).found :=
      List.mem_append_right _ List.mem_cons_self
    refine ⟨⟨⟨⟨rfl, by decide, nofun, nofun, nofun⟩, nofun, trivial, fun _ => ?_, nofun, nofun⟩,
      trivial, trivial⟩, trivial⟩
    exact ⟨t, false, [], rfl, hfound⟩
  along := ⟨t :: r, List.suffix_rfl, rfl, List.suffix_cons t r⟩
  braces := fun hw d => closing?_of_not_isBrace (ht hw) d

theorem reads_expect (hk : whole = true → k.isBrace = false) (ts : List Token) :
    (expect k ts).Reads whole [] [] := by
  cases ts with
  | nil => exact reads_report _ _
  | cons t r =>
    rw [expect]
    split
    · next ht => exact reads_bump false (fun hw => ht ▸ hk hw) r
    · exact reads_report _ _

/-- The tokens `before` belong to what was read when the rest of the input does not. -/
theorem Reads.tokens_ne_nil {s : Step ts} (h : s.Reads whole [] before)
    (hr : s.rest.length < before.length + ts.length) : tokensOfAll s.parts ≠ [] := by
  intro hn
  have := congrArg List.length h.tokens
  simp only [hn, tokensOfAll, List.nil_append, List.length_append] at this
  omega

theorem fills_report (e : SyntaxError) (ts : List Token) : (report e ts).Fills := List.forall_mem_nil _

theorem fills_expect (k : Kind) (ts : List Token) : (expect k ts).Fills := by
  cases ts with
  | nil => exact fills_report _ _
  | cons t r =>
    rw [expect]
    split
    · exact List.forall_mem_singleton.mpr (List.cons_ne_nil t [])
    · exact fills_report _ _

theorem Fills.lead {s : Step r} (h : s.Fills) (i : Bool) (t : Token) : (s.lead i t).Fills := by
  intro p hp
  rcases List.mem_cons.mp hp with rfl | hp
  · exact List.cons_ne_nil t []
  · exact h p hp

theorem Fills.andThen {a : Step ts} {b : Step a.rest} (ha : a.Fills) (hb : b.Fills) : (a.andThen b).Fills :=
  fun p hp => (List.mem_append.mp hp).elim (ha p) (hb p)

/-- A rule that makes one piece of the token that it was called for and of what follows. -/
theorem Reads.fills {s : Step r} (h : s.Reads whole [] [t]) (hs : ∃ p, s.parts = [p]) : s.Fills := by
  obtain ⟨p, hs⟩ := hs
  have htokens : tokensOfAll s.parts ≠ [] := by
    refine h.tokens_ne_nil ?_
    have := s.length_rest_le
    simp only [List.length_singleton]
    omega
  intro q hq
  rw [hs] at hq htokens
  cases List.mem_singleton.mp hq
  rwa [tokensOfAll, tokensOfAll, List.append_nil] at htokens

theorem Reads.shuts {a : Step ts} {b : Step a.rest} (ha : a.Reads true [] []) (hfills : a.Fills) (hb : b.Shuts) :
    (a.andThen b).Shuts := by
  have hbraces (d : Nat) : closing? d ts = closing? d a.rest := ha.braces rfl d
  refine ⟨?_, hfills.andThen hb.fills, fun d => (hbraces (d + 1)).trans (hb.outer d), ?_⟩
  · exact Reads.andThen ⟨ha.tokens, ha.sound, ha.along, outside⟩ hb.toReads
  · rcases hb.inner with ⟨u, hu, hlast⟩ | ⟨hnone, hrest⟩
    · refine .inl ⟨u, (hbraces 0).trans hu, ?_⟩
      rw [Step.andThen, tokensOfAll_append, List.getLast?_append, hlast, Option.some_or]
    · exact .inr ⟨(hbraces 0).trans hnone, hrest⟩

theorem shuts_expect (ts : List Token) (h : ∀ t ∈ ts.head?, t.kind = .rightBrace) :
    (expect .rightBrace ts).Shuts := by
  have hreads : (expect .rightBrace ts).Reads false [] [] := reads_expect outside ts
  cases ts with
  | nil => exact ⟨hreads, fills_expect _ _, fun _ => rfl, .inr ⟨rfl, rfl⟩⟩
  | cons t r =>
    have ht : t.kind = .rightBrace := h t rfl
    have hclosing := @closing?_rightBrace t r ht
    have hfills := fills_expect .rightBrace (t :: r)
    rw [expect, if_pos ht] at hreads hfills ⊢
    exact ⟨hreads, hfills, hclosing.2, .inl ⟨t, hclosing.1, rfl⟩⟩

/-- A block is what shuts it, after its `{`. -/
theorem Shuts.block {s : Step r} (h : s.Shuts) (i : Bool) (ht : t.kind = .leftBrace) :
    ((s.lead i t).node .block).Reads whole [] [t] := by
  have hread : tokensOfAll s.parts ++ s.rest = r := h.tokens
  have hbraced : Braced (s.lead i t).parts s.rest := by
    refine ⟨t, tokensOfAll s.parts, rfl, ht, ?_⟩
    rw [hread]
    exact h.inner
  have hopened : ∀ o, opener? .block = some o →
      ((direct (s.lead i t).parts).head?.map fun t => t.1.kind) = some o := by
    intro o ho
    cases ho
    exact congrArg some ht
  have hnode := (h.toReads.lead i outside).node (k := .block)
    ⟨⟨rfl, by decide, hopened, nofun, nofun⟩, fun _ => hbraced, trivial, nofun, nofun, fun _ => h.fills.lead i t⟩
  refine ⟨hnode.tokens, hnode.sound, hnode.along, fun _ d => ?_⟩
  exact (closing?_leftBrace ht d).trans (h.outer d)

end Step

/-- An operand is read whole, and where one was found it comes first. -/
structure Operand.Reads {ts : List Token} (s : Operand ts) (whole : Bool) (operand : List Piece)
    (before : List Token) : Prop extends s.toStep.Reads whole operand before where
  led : ∀ k, s.lead = some k → Led k s.parts

namespace Operand

variable {ts r before : List Token} {whole : Bool} {operand : List Piece} {k k' : Kind} {t : Token}

theorem reads_missing {s : Step ts} (h : s.Reads whole operand before) :
    (missing s).Reads whole operand before :=
  ⟨h, nofun⟩

theorem reads_found {s : Step ts} (h : (s.node k).Reads whole operand before)
    (hn : tokensOfAll s.parts ≠ []) : (found s k).Reads whole operand before := by
  refine ⟨h, ?_⟩
  intro k' he
  cases he
  exact ⟨s.parts, [], rfl, hn, rfl⟩

theorem reads_done (h : Led k operand) (ts : List Token) : (done k operand ts).Reads whole operand [] := by
  have hidle : (Step.idle ts).Reads whole [] [] := Step.reads_idle ts
  have hdone := hidle.behind operand
  rw [show operand ++ (Step.idle ts).parts = operand from List.append_nil operand] at hdone
  refine ⟨hdone, ?_⟩
  intro k' he
  cases he
  exact h

theorem reads_around (ho : Led k' operand) {s : Step ts} (h : s.Reads whole [] before)
    (hk : ∀ {found}, Stands found k (operand ++ s.parts) s.rest) :
    (around operand s k).Reads whole operand before := by
  refine ⟨(h.behind operand).node hk, ?_⟩
  intro k'' he
  cases he
  refine ⟨operand ++ s.parts, [], rfl, ?_, rfl⟩
  rw [tokensOfAll_append]
  exact fun hn => ho.tokens_ne_nil (List.append_eq_nil_iff.mp hn).1

theorem Reads.resume {a : Operand ts} {b : Operand a.rest} (ha : a.Reads whole operand before)
    (hb : b.Reads whole a.parts []) : (a.resume b).Reads whole operand before :=
  ⟨ha.toReads.goOn hb.toReads, hb.led⟩

theorem Reads.lift {s : Operand r} {b : List Token} (h : s.Reads whole operand (b ++ [t])) :
    (s.lift t).Reads whole operand b :=
  ⟨h.toReads.lift, h.led⟩

end Operand

end JavaSyntax.Grammar
