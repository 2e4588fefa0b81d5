import JavaSyntax.Proofs.Tree.Disambiguated

namespace JavaSyntax.Branch

variable {S : Span → Span → Prop}

mutual

/-- The trees have the same shape, with the same kinds and payloads, and spans as `S` has it. -/
def Matches (S : Span → Span → Prop) : Branch → Branch → Prop
  | ⟨k, image, span, children⟩, ⟨k', image', span', children'⟩ =>
    k = k' ∧ image = image' ∧ S span span' ∧ AllMatch S children children'

def AllMatch (S : Span → Span → Prop) : List Branch → List Branch → Prop
  | [], [] => True
  | b :: bs, c :: cs => b.Matches S c ∧ AllMatch S bs cs
  | _, _ => False

end

theorem matches_iff {b c : Branch} : b.Matches S c ↔
    b.kind = c.kind ∧ b.image = c.image ∧ S b.span c.span ∧ AllMatch S b.children c.children := by
  cases b
  cases c
  exact Iff.rfl

theorem AllMatch.append {bs cs bs' cs' : List Branch} (h : AllMatch S bs bs')
    (h' : AllMatch S cs cs') : AllMatch S (bs ++ cs) (bs' ++ cs') := by
  induction bs generalizing bs' with
  | nil =>
    cases bs' with
    | nil => exact h'
    | cons => cases h
  | cons b bs ih =>
    cases bs' with
    | nil => cases h
    | cons b' bs' => exact ⟨h.1, ih h.2⟩

theorem Matches.wrapped {b c : Branch} (h : b.Matches S c) : b.wrapped.Matches S c.wrapped :=
  ⟨rfl, rfl, (matches_iff.mp h).2.2.1, h, trivial⟩

theorem Matches.named {b c : Branch} (h : b.Matches S c) : b.named.Matches S c.named :=
  ⟨rfl, (matches_iff.mp h).2.1, (matches_iff.mp h).2.2.1, trivial⟩

theorem Matches.read {b c : Branch} (h : b.Matches S c) (r : Reading) :
    (b.read r).Matches S (c.read r) := by
  cases r with
  | kept => exact h
  | wrapped => exact h.wrapped
  | named => exact h.named
  | namedAndWrapped => exact h.named.wrapped

theorem Matches.settleFirst {b c : Branch} (h : b.Matches S c) :
    b.settleFirst.Matches S c.settleFirst := by
  obtain ⟨k, image, span, bs⟩ := b
  obtain ⟨k', image', span', cs⟩ := c
  obtain ⟨rfl, rfl, hspan, hchildren⟩ := h
  cases bs with
  | nil =>
    cases cs with
    | nil => exact ⟨rfl, rfl, hspan, trivial⟩
    | cons => cases hchildren
  | cons b bs =>
    cases cs with
    | nil => cases hchildren
    | cons c cs =>
      refine ⟨rfl, rfl, hspan, ?_, hchildren.2⟩
      rw [(matches_iff.mp hchildren.1).1]
      exact hchildren.1.read _

mutual

theorem Matches.disambiguated : ∀ {b c : Branch}, b.Matches S c →
    b.disambiguated.Matches S c.disambiguated
  | ⟨_, _, _, _⟩, ⟨_, _, _, _⟩, ⟨hkind, himage, hspan, hchildren⟩ =>
    Matches.settleFirst ⟨hkind, himage, hspan, AllMatch.rebuiltAll hchildren⟩

theorem AllMatch.rebuiltAll : ∀ {bs cs : List Branch}, AllMatch S bs cs →
    AllMatch S (rebuiltAll settleFirst bs) (rebuiltAll settleFirst cs)
  | [], [], _ => trivial
  | _ :: _, _ :: _, ⟨h, hs⟩ => ⟨Matches.disambiguated h, AllMatch.rebuiltAll hs⟩

end

end JavaSyntax.Branch
