import JavaSyntax.Proofs.Recording.Performing

namespace JavaSyntax

theorem Grammar.Step.andThen_idle {ts : List Token} (s : Step ts) : s.andThen (idle s.rest) = s := by
  simp only [Step.andThen, Step.idle, List.append_nil]

theorem Grammar.Step.andThen_assoc {ts : List Token} (a : Step ts) (b : Step a.rest) (c : Step b.rest) :
    (a.andThen b).andThen c = a.andThen (b.andThen c) := by
  simp only [Step.andThen, List.append_assoc]

namespace Recording

open Grammar Recorder

/-- The completed marker is that of the node that starts what was read, and nothing was put in front of it. -/
inductive Leads : Option CompletedMarker → List Part → Option Kind → Prop
  | missing {ps : List Part} : Leads none ps none
  | found {position : Nat} {kind : Kind} {inside after : List Part} :
    Leads (some ⟨UInt32.ofNat position, kind⟩) (.node position kind false inside :: after) (some kind)

/-- A rule reads what the step says, without a fault. -/
def Makes (x : Nat → Recording Unit) {ts : List Token} (s : Step ts) : Prop :=
  ∀ n : Nest, n.Faces ts → Reaches x n fun _ n' => ∃ ps, n.Reads ps s n'

/-- A loop reads what the step says, up to the end that is left to the rule around it. -/
def Loops (x : Nat → Recording Unit) (last : (ts : List Token) → Step ts) {ts : List Token} (s : Step ts) : Prop :=
  ∃ e : Step ts, Makes x e ∧ s = e.andThen (last e.rest)

/-- A rule for an operand reads what the step says and returns the marker of its node. -/
def Finds (x : Nat → Recording (Option CompletedMarker)) {ts : List Token} (s : Operand ts) : Prop :=
  ∀ n : Nest, n.Faces ts → Reaches x n fun c n' => ∃ ps, n.Reads ps s.toStep n' ∧ Leads c ps s.lead

/-- The same for a rule that never misses its operand. -/
def Yields (x : Nat → Recording CompletedMarker) {ts : List Token} (s : Operand ts) : Prop :=
  ∀ n : Nest, n.Faces ts →
    Reaches x n fun c n' => ∃ ps, n.Reads ps s.toStep n' ∧ Leads (some c) ps s.lead

/-- A rule goes on from an operand as the step says. -/
def Continues (x : Nat → CompletedMarker → Recording CompletedMarker) (k : Kind) (pieces : List Piece)
    {ts : List Token} (s : Operand ts) : Prop :=
  ∀ (n : Nest) (c : CompletedMarker) (operand : List Part), n.Faces ts →
    (∃ before, n.parts = before ++ operand) → Leads (some c) operand (some k) →
    Part.pieces operand = pieces →
    Reaches (fun d => x d c) n fun c' n' => ∃ ps, n.Resumes operand ps s.toStep n' ∧ Leads (some c') ps s.lead

variable {x y : Nat → Recording Unit} {f g : Nat → CompletedMarker → Recording CompletedMarker} {ts r : List Token}
  {t : Token} {k k' kind : Kind} {pieces : List Piece} {operand ps : List Part}

theorem Leads.kind_eq {c : CompletedMarker} (h : Leads (some c) operand (some k)) : c.kind = k := by
  cases h
  rfl

theorem Leads.append {c : Option CompletedMarker} {lead : Option Kind} (h : Leads c operand lead)
    (ps : List Part) : Leads c (operand ++ ps) lead := by
  cases h with
  | missing => exact .missing
  | found => exact .found

theorem Leads.isSome_eq {c : Option CompletedMarker} {lead : Option Kind} (h : Leads c operand lead) :
    c.isSome = lead.isSome := by
  cases h <;> rfl

section

variable {s : Operand ts}

theorem Makes.deeper {s : Step ts} (hx : ∀ d, x (d + 1) = y d) (hy : Makes y s) : Makes x s :=
  fun n h => .deeper hx (hy n h)

theorem Loops.deeper {last : (ts : List Token) → Step ts} {s : Step ts} (hx : ∀ d, x (d + 1) = y d)
    (hy : Loops y last s) : Loops x last s := by
  obtain ⟨e, he, hs⟩ := hy
  exact ⟨e, .deeper hx he, hs⟩

theorem Finds.deeper {x y : Nat → Recording (Option CompletedMarker)} (hx : ∀ d, x (d + 1) = y d)
    (hy : Finds y s) : Finds x s :=
  fun n h => .deeper hx (hy n h)

theorem Yields.deeper {x y : Nat → Recording CompletedMarker} (hx : ∀ d, x (d + 1) = y d)
    (hy : Yields y s) : Yields x s :=
  fun n h => .deeper hx (hy n h)

theorem Continues.deeper (hf : ∀ c d, f (d + 1) c = g d c) (hg : Continues g k pieces s) :
    Continues f k pieces s :=
  fun n c operand h hbehind hlead hpieces => .deeper (hf c) (hg n c operand h hbehind hlead hpieces)

end

theorem makes_idle (ts : List Token) : Makes (fun _ => pure ()) (Step.idle ts) :=
  fun _ h => ⟨(), _, .pure, [], h.idle⟩

theorem makes_report (e : SyntaxError) (ts : List Token) : Makes (fun _ => report e) (Step.report e ts) :=
  fun _ h => ⟨(), _, performs_report _ e, [], h.report e⟩

theorem makes_bump (inImage : Bool) (t : Token) (r : List Token) :
    Makes (fun _ => bump inImage) (Step.bump inImage t r) :=
  fun _ h => ⟨(), _, performs_bump _ inImage, _, .bump h inImage⟩

/-- The error is at the token that is skipped. -/
theorem makes_skip (e : SyntaxError) (t : Token) (r : List Token) :
    Makes (fun _ => skip e) ((Step.skip e t r).lift t) := by
  intro n h
  have hbump := (h.start.error e.message).bump_eq false
  have hskip : n.perform (.errorAndBump e.message) = some
      (((n.start.error e.message).bump false).closing n.recorded n.parts n.around .error) := by
    rw [Nest.perform, hbump]
    exact if_pos ⟨rfl, rfl, by decide⟩
  refine ⟨(), _, performs_use (Nest.grows_perform hskip).recorded fun hfits r' hr => ?_,
    [.node n.recorded .error false [.token t false]], ?_⟩
  · obtain ⟨r'', hrun, h'⟩ := hr.perform hskip hfits
    exact ⟨r'', by rw [show r'.errorAndBump e.message = .ok r'' from hrun]; rfl, h'⟩
  · rw [hbump]
    refine ⟨rfl, rfl, ?_, ⟨n.parts, by simp, rfl⟩, rfl, rfl, fun u hu =>
      h.plain u (List.mem_cons_of_mem _ hu)⟩
    simp only [Nest.closing, Nest.error, Nest.start, h.ahead]
    rfl

theorem Makes.lead {s : Step r} (hx : Makes x s) (inImage : Bool) (t : Token) :
    Makes (fun d => bump inImage >>= fun _ => x d) ((s.lead inImage t).lift t) := by
  intro n h
  obtain ⟨_, n', hrun, ps, hps⟩ := hx _ (h.bump inImage)
  exact ⟨(), n', (performs_bump n inImage).bind hrun, _, (Nest.Resumes.lead h hps).lift⟩

theorem Makes.andThen {a : Step ts} {b : Step a.rest} (hx : Makes x a) (hy : Makes y b) :
    Makes (fun d => x d >>= fun _ => y d) (a.andThen b) := by
  intro n h
  obtain ⟨_, n₁, hrun, ps, hps⟩ := hx n h
  obtain ⟨_, n', hrun', qs, hqs⟩ := hy _ hps.faces
  exact ⟨(), n', hrun.bind hrun', _, hps.andThen hqs⟩

theorem Makes.node {s : Step ts} (hx : Makes x s) (kind : Kind)
    (hkind : kind.isNode = true ∧ kind ≠ .tombstone) :
    Makes (fun d => start >>= fun m => x d >>= fun _ => complete m kind >>= fun _ => pure ()) (s.node kind) := by
  intro n h
  obtain ⟨_, n₁, hrun, ps, hps⟩ := hx _ h.start
  obtain ⟨n', hcomplete, hnode⟩ := exists_node hps kind hkind
  exact ⟨(), n', (performs_start n).bind (hrun.bind (hcomplete.bind .pure)), _, hnode⟩

theorem Makes.found {s : Step ts} (hx : Makes x s) (kind : Kind)
    (hkind : kind.isNode = true ∧ kind ≠ .tombstone) :
    Yields (fun d => start >>= fun m => x d >>= fun _ => complete m kind) (.found s kind) := by
  intro n h
  obtain ⟨_, n₁, hrun, ps, hps⟩ := hx _ h.start
  obtain ⟨n', hcomplete, hnode⟩ := exists_node hps kind hkind
  exact ⟨_, n', (performs_start n).bind (hrun.bind hcomplete), _, hnode, .found⟩

theorem Makes.missing {s : Step ts} (hx : Makes x s) : Finds (fun d => x d >>= fun _ => pure none) (.missing s) := by
  intro n h
  obtain ⟨_, n', hrun, ps, hps⟩ := hx n h
  exact ⟨none, n', hrun.bind .pure, ps, hps, .missing⟩

theorem Yields.finds {x : Nat → Recording CompletedMarker} {s : Operand ts} (hx : Yields x s) :
    Finds (fun d => x d >>= fun c => pure (some c)) s := by
  intro n h
  obtain ⟨c, n', hrun, hps⟩ := hx n h
  exact ⟨some c, n', hrun.bind .pure, hps⟩

theorem Finds.makes {x : Nat → Recording (Option CompletedMarker)} {s : Operand ts} (hx : Finds x s) :
    Makes (fun d => x d >>= fun _ => pure ()) s.toStep := by
  intro n h
  obtain ⟨c, n', hrun, ps, hps, -⟩ := hx n h
  exact ⟨(), n', hrun.bind .pure, ps, hps⟩

theorem Yields.makes {x : Nat → Recording CompletedMarker} {s : Operand ts} (hx : Yields x s) :
    Makes (fun d => x d >>= fun _ => pure ()) s.toStep := by
  intro n h
  obtain ⟨c, n', hrun, ps, hps, -⟩ := hx n h
  exact ⟨(), n', hrun.bind .pure, ps, hps⟩

theorem Yields.resume {x : Nat → Recording CompletedMarker} {a : Operand ts} {b : Operand a.rest}
    (hx : Yields x a) (ha : a.lead = some k) (hf : Continues f k a.parts b) :
    Yields (fun d => x d >>= f d) (a.resume b) := by
  intro n h
  obtain ⟨c, n₁, hrun, ps, hps, hlead⟩ := hx n h
  obtain ⟨before, -, hbehind⟩ := hps.behind
  obtain ⟨c', n', hrun', qs, hqs, hlead'⟩ := hf _ _ _ hps.faces ⟨before, hbehind⟩ (ha ▸ hlead) hps.pieces
  exact ⟨c', n', hrun.bind hrun', qs, hps.resume hqs, hlead'⟩

/-- What goes on from an operand does so only if there is one. -/
theorem Finds.resume {x : Nat → Recording (Option CompletedMarker)} {a : Operand ts}
    {tail : Kind → Operand a.rest} (hx : Finds x a)
    (hf : ∀ k, a.lead = some k → Continues f k a.parts (tail k)) :
    Finds (fun d => do
      let some c ← x d | return none
      return some (← f d c))
      (match a.lead with
        | none => a
        | some k => a.resume (tail k)) := by
  intro n h
  obtain ⟨c, n₁, hrun, ps, hps, hlead⟩ := hx n h
  cases hk : a.lead with
  | none =>
    rw [hk] at hlead
    cases hlead with
    | missing =>
      refine ⟨none, n₁, hrun.bind .pure, ps, hps, ?_⟩
      rw [hk]
      exact .missing
  | some k =>
    rw [hk] at hlead
    cases c with
    | none => cases hlead
    | some c =>
      obtain ⟨before, -, hbehind⟩ := hps.behind
      obtain ⟨c', n', hrun', qs, hqs, hlead'⟩ := hf k hk _ _ _ hps.faces ⟨before, hbehind⟩ hlead hps.pieces
      exact ⟨some c', n', hrun.bind (hrun'.bind .pure), qs, hps.resume hqs, hlead'⟩

theorem continues_done (k : Kind) (pieces : List Piece) (ts : List Token) :
    Continues (fun _ => pure) k pieces (Operand.done k pieces ts) :=
  fun _ _ _ h hbehind hlead hpieces => ⟨_, _, .pure, _, h.done k hpieces hbehind, hlead⟩

theorem Makes.around {s : Step ts} (hx : Makes x s) (pieces : List Piece) (kind : Kind)
    (hkind : kind.isNode = true ∧ kind ≠ .tombstone) :
    Continues (fun d c => precede c >>= fun m => x d >>= fun _ => complete m kind) k pieces
      (Operand.around pieces s kind) := by
  intro n c operand h hbehind hlead hpieces
  obtain ⟨before, hbehind⟩ := hbehind
  cases hlead with
  | found =>
    obtain ⟨_, n₁, hrun, ps, hps⟩ := hx (n.fronting before _ _ _ _) ⟨h.ahead, h.plain⟩
    obtain ⟨n', inside, hcomplete, hresumes⟩ := exists_around hbehind hpieces hps kind hkind
    exact ⟨_, n', (performs_precede hbehind).bind (hrun.bind hcomplete), _, hresumes, .found⟩

/-- What stands beside an operand is no part of its node. -/
theorem Makes.beside {s : Step ts} (hx : Makes x s) :
    Continues (fun d c => x d >>= fun _ => pure c) k pieces
      { s with parts := pieces ++ s.parts, lead := some k } := by
  intro n c operand h ⟨before, hbehind⟩ hlead hpieces
  obtain ⟨_, n', hrun, ps, hps⟩ := hx n h
  have hdone := h.done k hpieces ⟨before, hbehind⟩
  exact ⟨c, n', hrun.bind .pure, _, hdone.andThen hps, hlead.append ps⟩

theorem Finds.beside {x : Nat → Recording (Option CompletedMarker)} {a : Operand ts} {b : Step a.rest}
    (hx : Finds x a) (hy : Makes y b) :
    Finds (fun d => x d >>= fun c => y d >>= fun _ => pure c) { a.toStep.andThen b with lead := a.lead } := by
  intro n h
  obtain ⟨c, n₁, hrun, ps, hps, hlead⟩ := hx n h
  obtain ⟨_, n', hrun', qs, hqs⟩ := hy n₁ hps.faces
  exact ⟨c, n', hrun.bind (hrun'.bind .pure), _, hps.andThen hqs, hlead.append qs⟩

/-- Only the kind of the operand tells how a rule goes on. -/
theorem Continues.congr {s : Operand ts} (hg : Continues g k pieces s)
    (hf : ∀ d (c : CompletedMarker), c.kind = k → f d c = g d c) : Continues f k pieces s := by
  intro n c operand h hbehind hlead hpieces
  simp only [hf _ c hlead.kind_eq]
  exact hg n c operand h hbehind hlead hpieces

theorem Continues.resume {a : Operand ts} {b : Operand a.rest} (hf : Continues f k pieces a)
    (ha : a.lead = some k') (hg : Continues g k' a.parts b) :
    Continues (fun d c => f d c >>= g d) k pieces (a.resume b) := by
  intro n c operand h hbehind hlead hpieces
  obtain ⟨c₁, n₁, hrun, ps, hps, hlead₁⟩ := hf n c operand h hbehind hlead hpieces
  obtain ⟨before, -, hbehind₁⟩ := hps.behind
  obtain ⟨c', n', hrun', qs, hqs, hlead'⟩ := hg _ _ _ hps.faces ⟨before, hbehind₁⟩ (ha ▸ hlead₁) hps.pieces
  exact ⟨c', n', hrun.bind hrun', qs, hps.resume hqs, hlead'⟩

/-- A node around an operand, which the rule goes on from. -/
theorem Makes.surround {s : Step ts} {b : Operand s.rest} (hx : Makes x s) (pieces : List Piece) (kind : Kind)
    (hkind : kind.isNode = true ∧ kind ≠ .tombstone)
    (hg : Continues g kind (Operand.around pieces s kind).parts b) :
    Continues (fun d c => precede c >>= fun m => x d >>= fun _ => complete m kind >>= g d) k pieces
      ((Operand.around pieces s kind).resume b) := by
  have h := (hx.around (k := k) pieces kind hkind).resume rfl hg
  simp only [bind_assoc] at h
  exact h

section

variable {α : Type} {u : Nat → Recording α} {a : α}

theorem Looks.makes {f : Nat → α → Recording Unit} {s : Step ts} (hu : Looks u ts a)
    (hf : Makes (fun d => f d a) s) : Makes (fun d => u d >>= f d) s :=
  fun n h => (hu n h).reaches (hf n h)

theorem Looks.finds {f : Nat → α → Recording (Option CompletedMarker)} {s : Operand ts} (hu : Looks u ts a)
    (hf : Finds (fun d => f d a) s) : Finds (fun d => u d >>= f d) s :=
  fun n h => (hu n h).reaches (hf n h)

theorem Looks.continues {f : Nat → CompletedMarker → α → Recording CompletedMarker} {s : Operand ts}
    (hu : Looks u ts a) (hf : Continues (fun d c => f d c a) k pieces s) :
    Continues (fun d c => u d >>= f d c) k pieces s :=
  fun n c operand h hbehind hlead hpieces => (hu n h).reaches (hf n c operand h hbehind hlead hpieces)

theorem Looks.loops {f : Nat → α → Recording Unit} {last : (ts : List Token) → Step ts} {s : Step ts}
    (hu : Looks u ts a) (hf : Loops (fun d => f d a) last s) : Loops (fun d => u d >>= f d) last s := by
  obtain ⟨e, he, hs⟩ := hf
  exact ⟨e, hu.makes he, hs⟩

end

section

variable {p q : Prop} [Decidable p] [Decidable q]

theorem Makes.ite {a b : Step ts} (hpq : p ↔ q) (hx : q → Makes x a) (hy : ¬q → Makes y b) :
    Makes (fun d => if p then x d else y d) (if q then a else b) := by
  by_cases h : q
  · rw [fun_if_pos (hpq.mpr h), if_pos h]
    exact hx h
  · rw [fun_if_neg (hpq.not.mpr h), if_neg h]
    exact hy h

theorem Finds.ite {x y : Nat → Recording (Option CompletedMarker)} {a b : Operand ts} (hpq : p ↔ q)
    (hx : q → Finds x a) (hy : ¬q → Finds y b) :
    Finds (fun d => if p then x d else y d) (if q then a else b) := by
  by_cases h : q
  · rw [fun_if_pos (hpq.mpr h), if_pos h]
    exact hx h
  · rw [fun_if_neg (hpq.not.mpr h), if_neg h]
    exact hy h

theorem Continues.ite {p : CompletedMarker → Prop} [DecidablePred p] {a b : Operand ts}
    (hpq : ∀ c, c.kind = k → (p c ↔ q)) (hf : q → Continues f k pieces a) (hg : ¬q → Continues g k pieces b) :
    Continues (fun d c => if p c then f d c else g d c) k pieces (if q then a else b) := by
  by_cases h : q
  · rw [if_pos h]
    exact (hf h).congr fun _ c hc => if_pos ((hpq c hc).mpr h)
  · rw [if_neg h]
    exact (hg h).congr fun _ c hc => if_neg ((hpq c hc).not.mpr h)

end

/-- The token that was asked for is eaten, and the rule goes on behind it. -/
theorem Makes.eat {f : Nat → Bool → Recording Unit} {s : Step r} (hf : Makes (fun d => f d true) s)
    (ht : t.kind = k) : Makes (fun d => eat k >>= f d) ((s.lead false t).lift t) := by
  intro n h
  have hfound := looks_isAt (t :: r) k
  rw [show (ahead (t :: r) == k) = true from beq_iff_eq.mpr ht] at hfound
  obtain ⟨_, n', hrun, ps, hps⟩ := hf _ (h.bump false)
  have heat : Performs (fun _ => Recording.eat k) n true (n.bump false) :=
    (hfound n h).bind ((performs_bump n false).bind .pure)
  exact ⟨(), n', heat.bind hrun, _, (Nest.Resumes.lead h hps).lift⟩

theorem makes_expect (hk : k ≠ .eof) (ts : List Token) : Makes (fun _ => expect k) (Step.expect k ts) := by
  have hmissing (hne : ahead ts ≠ k) : Makes (fun _ => expect k) (Step.report (.token k) ts) :=
    (looks_eat hne).makes (makes_report (.token k) ts)
  cases ts with
  | nil => exact hmissing hk.symm
  | cons t r =>
    rw [Step.expect]
    split
    · case isTrue ht => exact (makes_idle r).eat ht
    · case isFalse ht => exact hmissing ht

section

variable {last : (ts : List Token) → Step ts}

theorem loops_done (last : (ts : List Token) → Step ts) (ts : List Token) : Loops (fun _ => pure ()) last (last ts) :=
  ⟨_, makes_idle ts, rfl⟩

theorem Makes.loops {a : Step ts} {b : Step a.rest} (hx : Makes x a) (hy : Loops y last b) :
    Loops (fun d => x d >>= fun _ => y d) last (a.andThen b) := by
  obtain ⟨e, he, rfl⟩ := hy
  exact ⟨a.andThen e, hx.andThen he, (Step.andThen_assoc ..).symm⟩

theorem Loops.eat {f : Nat → Bool → Recording Unit} {s : Step r} (hf : Loops (fun d => f d true) last s)
    (ht : t.kind = k) : Loops (fun d => eat k >>= f d) last ((s.lead false t).lift t) := by
  obtain ⟨e, he, rfl⟩ := hf
  exact ⟨_, he.eat ht, rfl⟩

/-- A loop that ends at a closing bracket and at the end of the text. -/
theorem loops_until {s : Step ts} (hclosed : ts = [] ∨ ahead ts = k → s = last ts)
    (hopen : ts ≠ [] → ahead ts ≠ k → Loops x last s) :
    Loops (fun d => do if !(← isAt k) && !(← isAt .eof) then x d) last s := by
  refine (looks_isAt ts k).loops ((looks_atEnd ts).loops ?_)
  by_cases h : ts = [] ∨ ahead ts = k
  · rw [fun_if_neg (by simpa [imp_iff_or_not, or_comm] using h), hclosed h]
    exact loops_done last ts
  · obtain ⟨hts, hk⟩ := not_or.mp h
    rw [fun_if_pos (by simp [hts, hk])]
    exact hopen hts hk

theorem Loops.makes {s : Step ts} (hx : Loops x last s) (hy : ∀ us, Makes y (last us)) :
    Makes (fun d => x d >>= fun _ => y d) s := by
  obtain ⟨e, he, rfl⟩ := hx
  exact he.andThen (hy e.rest)

end

end Recording

end JavaSyntax
