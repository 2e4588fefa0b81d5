import JavaSyntax.Proofs.Grammar.Content

namespace JavaSyntax

open Piece Content Computability

namespace Content

variable {clean : Bool} {l m : Language Symbol} {w : List Symbol}

theorem mem_of_eq (h : l = m) : ∀ w ∈ l, w ∈ m := fun _ hw => h ▸ hw

theorem mem_broken : w ∈ broken clean l ↔ clean = false ∧ w ∈ l := by
  cases clean <;> simp [broken]

theorem mem_due : w ∈ due clean l ↔ w ∈ l ∨ clean = false ∧ w = [] := by
  rw [due, Language.mem_add, mem_broken, Language.mem_one]

theorem mem_due_of_mem (h : w ∈ l) : w ∈ due clean l := mem_due.mpr (.inl h)

theorem mem_due_of_broken (h : w ∈ broken clean 1) : w ∈ due clean l := .inr h

theorem due_true (l : Language Symbol) : due true l = l := by
  rw [due, broken, if_pos rfl, add_zero]

theorem junk_true : junk true = 0 := rfl

theorem broken_false (l : Language Symbol) : broken false l = l := rfl

theorem due_false (l : Language Symbol) : due false l = l + 1 := rfl

theorem junk_false : junk false = one .error := rfl

theorem mem_kstar_cons (h : w ∈ l * l∗) : w ∈ l∗ := by
  rw [← Language.one_add_self_mul_kstar_eq_kstar]
  exact .inr h

theorem mem_kstar_mul (h : w ∈ l * l∗ * m) : w ∈ l∗ * m := by
  obtain ⟨a, ha, b, hb, rfl⟩ := Language.mem_mul.mp h
  exact Language.append_mem_mul (mem_kstar_cons ha) hb

theorem mem_kstar_mul_of_mem (h : w ∈ m) : w ∈ l∗ * m :=
  Language.mem_mul.mpr ⟨[], Language.nil_mem_kstar _, w, h, rfl⟩

theorem mem_kstar_single (h : w ∈ l) : w ∈ l∗ := by
  apply mem_kstar_cons
  exact Language.mem_mul.mpr ⟨w, h, [], Language.nil_mem_kstar l, List.append_nil w⟩

/-- More than nothing of many is one and then many. -/
theorem mem_mul_kstar (h : w ∈ l∗) (hne : w ≠ []) : w ∈ l * l∗ := by
  rw [← Language.one_add_self_mul_kstar_eq_kstar] at h
  rcases h with h | h
  · exact absurd ((Language.mem_one w).mp h) hne
  · exact h

theorem mem_listed_nil (h : w ∈ m) : w ∈ listed l * m :=
  Language.mem_mul.mpr ⟨[], mem_kstar_mul_of_mem (.inl rfl), w, h, rfl⟩

theorem mem_listed_last (h : w ∈ l * m) : w ∈ listed l * m := by
  obtain ⟨a, ha, b, hb, rfl⟩ := Language.mem_mul.mp h
  have hlisted : a ∈ listed l := mem_kstar_mul_of_mem (.inr ha)
  exact Language.append_mem_mul hlisted hb

/-- An item, and behind it a comma and more of the list, or its end. -/
theorem mem_listed_more (h : w ∈ l * (mark .comma * (listed l * m) + m)) : w ∈ listed l * m := by
  have hmove : l * (mark .comma * (listed l * m) + m) =
      l * mark .comma * (l * mark .comma)∗ * ((1 + l) * m) + l * m := by
    rw [mul_add]
    simp only [listed, mul_assoc]
  rw [hmove] at h
  rcases h with h | h
  · rw [listed, mul_assoc]
    obtain ⟨a, ha, b, hb, rfl⟩ := Language.mem_mul.mp h
    exact Language.append_mem_mul (mem_kstar_cons ha) hb
  · exact mem_listed_last h

end Content

namespace Grammar

open Step

variable {ts r : List Token} {clean : Bool} {l m : Language Symbol}

def Step.Forms (clean : Bool) (l : Language Symbol) (s : Step ts) : Prop :=
  (clean = true → s.problems = []) → AllFormed clean s.parts ∧ symbols s.parts ∈ l

namespace Step

theorem Forms.mono {s : Step ts} (h : s.Forms clean l) (hl : ∀ w ∈ l, w ∈ m) : s.Forms clean m :=
  fun hp => ⟨(h hp).1, hl _ (h hp).2⟩

theorem Forms.of_eq {s : Step ts} (h : s.Forms clean l) (hl : l = m) : s.Forms clean m := hl ▸ h

theorem forms_idle (ts : List Token) : (idle ts).Forms clean 1 := fun _ => ⟨trivial, rfl⟩

theorem forms_report (e : SyntaxError) (ts : List Token) :
    (report e ts).Forms clean (broken clean 1) := by
  intro hp
  cases clean with
  | true => cases hp rfl
  | false => exact ⟨trivial, rfl⟩

theorem Forms.lead {s : Step r} (h : s.Forms clean l) (i : Bool) {t : Token} {k : Kind}
    (hk : t.kind = k) : (s.lead i t).Forms clean ({[.token k i]} * l) := by
  intro hp
  obtain ⟨hf, hs⟩ := h hp
  refine ⟨⟨trivial, hf⟩, Language.mem_mul.mpr ⟨[.token t.kind i], ?_, _, hs, rfl⟩⟩
  rw [hk]
  rfl

/-- A token of which only its group is known. -/
theorem Forms.leadOf {s : Step r} (h : s.Forms clean l) {t : Token} {P : Kind → Bool}
    (hk : P t.kind = true) : (s.lead true t).Forms clean (wordOf P * l) := by
  intro hp
  obtain ⟨hf, hs⟩ := h hp
  exact ⟨⟨trivial, hf⟩, Language.mem_mul.mpr ⟨[.token t.kind true], ⟨_, hk, rfl⟩, _, hs, rfl⟩⟩

theorem Forms.lift {s : Step r} (h : s.Forms clean l) (t : Token) : (s.lift t).Forms clean l := h

theorem Forms.within {s : Step ts} (h : s.Forms clean l) (hl : s.rest.length ≤ r.length) :
    (s.within r hl).Forms clean l := h

theorem forms_bump (i : Bool) {t : Token} {k : Kind} (hk : t.kind = k) (r : List Token) :
    (bump i t r).Forms clean {[.token k i]} := by
  have h : (bump i t r).Forms clean ({[.token k i]} * 1) := ((forms_idle r).lead i hk).lift t
  rwa [mul_one] at h

/-- A token that stands alone. -/
theorem forms_lone {t : Token} {k : Kind} (hk : t.kind = k) (r : List Token) :
    ((idle r).lead false t).Forms clean (mark k) := by
  have h : ((idle r).lead false t).Forms clean (mark k * 1) := (forms_idle r).lead false hk
  rwa [mul_one] at h

theorem forms_bumpOf {t : Token} {P : Kind → Bool} (hk : P t.kind = true) (r : List Token) :
    (bump true t r).Forms clean (wordOf P) := by
  have h : (bump true t r).Forms clean (wordOf P * 1) := ((forms_idle r).leadOf hk).lift t
  rwa [mul_one] at h

theorem Forms.andThen {a : Step ts} {b : Step a.rest} (ha : a.Forms clean l)
    (hb : b.Forms clean m) : (a.andThen b).Forms clean (l * m) := by
  intro hp
  have hnil : clean = true → a.problems = [] ∧ b.problems = [] := fun hc =>
    List.append_eq_nil_iff.mp (hp hc)
  obtain ⟨hfa, hsa⟩ := ha fun hc => (hnil hc).1
  obtain ⟨hfb, hsb⟩ := hb fun hc => (hnil hc).2
  refine ⟨allFormed_append.mpr ⟨hfa, hfb⟩, ?_⟩
  rw [Step.andThen, symbols_append]
  exact Language.append_mem_mul hsa hsb

/-- One more in front of many. -/
theorem Forms.many {a : Step ts} {b : Step a.rest} (ha : a.Forms clean l)
    (hb : b.Forms clean l∗) : (a.andThen b).Forms clean l∗ :=
  (ha.andThen hb).mono fun _ => mem_kstar_cons

theorem forms_none (ts : List Token) : (idle ts).Forms clean l∗ :=
  (forms_idle ts).mono fun _ hw => (Language.mem_one _).mp hw ▸ Language.nil_mem_kstar l

/-- A node of a kind that is promised nothing about its operands. -/
theorem Forms.node {s : Step ts} {k : Kind} (h : s.Forms clean (content clean k))
    (hr : ∀ ps, Ranked k ps) : (s.node k).Forms clean (one k) :=
  fun hp => ⟨⟨⟨⟨(h hp).2, fun _ => hr _⟩, (h hp).1⟩, trivial⟩, rfl⟩

theorem forms_skip (e : SyntaxError) (t : Token) (r : List Token) :
    (skip e t r).Forms clean (junk clean) := by
  intro hp
  cases clean with
  | true => cases hp rfl
  | false =>
    have hmarks : [.token t.kind false] ∈ marks := by
      intro s hs
      exact ⟨t.kind, List.mem_singleton.mp hs⟩
    exact ⟨⟨⟨⟨hmarks, fun _ => trivial⟩, trivial, trivial⟩, trivial⟩, rfl⟩

theorem forms_expect (k : Kind) (ts : List Token) :
    (expect k ts).Forms clean (due clean (mark k)) := by
  cases ts with
  | nil => exact (forms_report _ _).mono fun _ => mem_due_of_broken
  | cons t r =>
    rw [expect]
    split
    · next hk => exact (forms_bump false hk r).mono fun _ => mem_due_of_mem
    · exact (forms_report _ _).mono fun _ => mem_due_of_broken

end Step

/-- What was read is one node of certain kinds. -/
def Operand.IsOne (P : Kind → Prop) (s : Operand ts) : Prop :=
  ∃ k qs, s.lead = some k ∧ P k ∧ s.parts = [.node k qs]

/-- A rule for one node of certain kinds. -/
def Operand.FormsOne (clean : Bool) (P : Kind → Prop) (s : Operand ts) : Prop :=
  (clean = true → s.problems = []) → AllFormed clean s.parts ∧ s.IsOne P

/-- The same for a node that a text with errors can lack. -/
def Operand.FormsDue (clean : Bool) (P : Kind → Prop) (s : Operand ts) : Prop :=
  (clean = true → s.problems = []) → AllFormed clean s.parts ∧
    (s.IsOne P ∨ s.lead = none ∧ clean = false ∧ s.parts = [])

namespace Operand

variable {P Q : Kind → Prop}

theorem IsOne.mono {s : Operand ts} (h : s.IsOne P) (hP : ∀ k, P k → Q k) : s.IsOne Q := by
  obtain ⟨k, qs, hlead, hk, hparts⟩ := h
  exact ⟨k, qs, hlead, hP k hk, hparts⟩

theorem FormsOne.mono {s : Operand ts} (h : s.FormsOne clean P) (hP : ∀ k, P k → Q k) :
    s.FormsOne clean Q := fun hp => ⟨(h hp).1, (h hp).2.mono hP⟩

theorem FormsOne.due {s : Operand ts} (h : s.FormsOne clean P) : s.FormsDue clean P :=
  fun hp => ⟨(h hp).1, .inl (h hp).2⟩

theorem formsDue_missing (e : SyntaxError) (ts : List Token) :
    (missing (report e ts)).FormsDue clean P := by
  intro hp
  cases clean with
  | true => cases hp rfl
  | false => exact ⟨trivial, .inr ⟨rfl, rfl, rfl⟩⟩

theorem formsOne_found {s : Step ts} {k : Kind} (h : s.Forms clean (content clean k))
    (hr : ∀ ps, Ranked k ps) (hk : P k) : (found s k).FormsOne clean P :=
  fun hp => ⟨(h.node hr hp).1, k, s.parts, rfl, hk, rfl⟩

theorem FormsOne.lift {s : Operand r} (h : s.FormsOne clean P) (t : Token) :
    (s.lift t).FormsOne clean P := h

theorem FormsOne.toStep {s : Operand ts} (h : s.FormsOne clean P)
    (hP : ∀ k, P k → [.node k] ∈ l) : s.toStep.Forms clean l := by
  intro hp
  obtain ⟨hf, k, qs, _, hk, hparts⟩ := h hp
  refine ⟨hf, ?_⟩
  rw [hparts]
  exact hP k hk

theorem FormsDue.toStep {s : Operand ts} (h : s.FormsDue clean P)
    (hP : ∀ k, P k → [.node k] ∈ l) : s.toStep.Forms clean (due clean l) := by
  intro hp
  obtain ⟨hf, ⟨k, qs, _, hk, hparts⟩ | ⟨_, hc, hparts⟩⟩ := h hp
  · refine ⟨hf, mem_due_of_mem ?_⟩
    rw [hparts]
    exact hP k hk
  · refine ⟨hf, mem_due.mpr (.inr ⟨hc, ?_⟩)⟩
    rw [hparts]
    rfl

end Operand

end Grammar

end JavaSyntax
