import JavaSyntax.Proofs.Event.Markers
import JavaSyntax.Recording

namespace JavaSyntax

open Grammar Recorder

namespace Nest

/-- What is left of the text, with the token for its end. -/
structure Faces (n : Nest) (ts : List Token) : Prop where
  ahead : n.ahead = ts ++ [.endOfInput n.text.utf8ByteSize]
  plain : ∀ t ∈ ts, t.kind ≠ .eof

/-- The session is where a rule stopped. In the innermost open node these parts stand for what it made, in place
of the operand that it went on from. -/
structure Resumes (n : Nest) (operand parts : List Part) {ts : List Token} (s : Step ts) (n' : Nest) :
    Prop where
  text : n'.text = n.text
  around : n'.around = n.around
  errors : n'.errors = n.errors ++ s.problems.map (Problem.diagnostic n.text)
  behind : ∃ before, n.parts = before ++ operand ∧ n'.parts = before ++ parts
  pieces : Part.pieces parts = s.parts
  faces : n'.Faces s.rest

/-- The session is where a rule stopped that goes on from nothing. -/
abbrev Reads (n : Nest) (parts : List Part) {ts : List Token} (s : Step ts) (n' : Nest) : Prop :=
  n.Resumes [] parts s n'

variable {n n₁ n' : Nest} {ts : List Token} {t : Token} {r : List Token} {operand ps qs : List Part}

namespace Faces

theorem drop (h : n.Faces ts) (i : Nat) : Grammar.ahead (n.ahead.drop i) = Grammar.ahead (ts.drop i) := by
  rw [h.ahead, List.drop_append]
  cases hts : ts.drop i with
  | cons t r => rfl
  | nil =>
    rw [List.nil_append]
    cases i - ts.length with
    | zero => rfl
    | succ j => rw [List.drop_succ_cons, List.drop_nil]

theorem ahead_ne_eof (h : n.Faces (t :: r)) : t.kind ≠ .eof := h.plain t List.mem_cons_self

theorem start (h : n.Faces ts) : n.start.Faces ts := ⟨h.ahead, h.plain⟩

theorem error (h : n.Faces ts) (message : String) : (n.error message).Faces ts := ⟨h.ahead, h.plain⟩

theorem bump_eq (h : n.Faces (t :: r)) (inImage : Bool) : n.bump inImage =
    { n with ahead := r ++ [.endOfInput n.text.utf8ByteSize], parts := n.parts ++ [.token t inImage] } := by
  rw [Nest.bump, h.ahead]
  exact if_neg h.ahead_ne_eof

theorem bump (h : n.Faces (t :: r)) (inImage : Bool) : (n.bump inImage).Faces r := by
  rw [h.bump_eq]
  exact ⟨rfl, fun u hu => h.plain u (List.mem_cons_of_mem _ hu)⟩

theorem idle (h : n.Faces ts) : n.Reads [] (Step.idle ts) n :=
  ⟨rfl, rfl, (List.append_nil _).symm, ⟨n.parts, by simp, by simp⟩, rfl, h⟩

theorem done (h : n.Faces ts) (kind : Kind) {pieces : List Piece}
    (hpieces : Part.pieces operand = pieces) (hbehind : ∃ before, n.parts = before ++ operand) :
    n.Resumes operand operand (Operand.done kind pieces ts).toStep n :=
  ⟨rfl, rfl, (List.append_nil _).symm, hbehind.imp fun _ h => ⟨h, h⟩, hpieces, h⟩

theorem report (h : n.Faces ts) (error : SyntaxError) :
    n.Reads [] (Step.report error ts) (n.error error.message) := by
  refine ⟨rfl, rfl, ?_, ⟨n.parts, by simp, by simp [Nest.error]⟩, rfl, h.error _⟩
  rw [Nest.error, h.ahead]
  cases ts <;> rfl

end Faces

namespace Resumes

/-- The token in front of what is read. -/
theorem lead {s : Step r} {inImage : Bool} (h : n.Faces (t :: r)) (hs : (n.bump inImage).Reads ps s n') :
    n.Reads (.token t inImage :: ps) (s.lead inImage t) n' := by
  have hbump := h.bump_eq inImage
  obtain ⟨before, hbefore, hparts⟩ := hs.behind
  have hpieces : Part.pieces (.token t inImage :: ps) = (s.lead inImage t).parts := by
    rw [Part.pieces, hs.pieces]
    rfl
  rw [hbump] at hs hbefore
  refine ⟨hs.text, hs.around, hs.errors, ⟨n.parts, by simp, ?_⟩, hpieces, hs.faces⟩
  rw [hparts, ← List.append_nil before, ← hbefore, List.append_assoc, List.singleton_append]

/-- The same, seen from one token earlier. -/
theorem lift {s : Step r} (h : n.Resumes operand ps s n') : n.Resumes operand ps (s.lift t) n' :=
  ⟨h.text, h.around, h.errors, h.behind, h.pieces, h.faces⟩

theorem bump (h : n.Faces (t :: r)) (inImage : Bool) :
    n.Reads [.token t inImage] (Step.bump inImage t r) (n.bump inImage) :=
  (lead h (h.bump inImage).idle).lift

theorem pieces_append (ps qs : List Part) : Part.pieces (ps ++ qs) = Part.pieces ps ++ Part.pieces qs := by
  induction ps with
  | nil => rfl
  | cons p ps ih => rw [List.cons_append, Part.pieces, Part.pieces, ih, List.cons_append]

theorem andThen {a : Step ts} {b : Step a.rest} (ha : n.Resumes operand ps a n₁) (hb : n₁.Reads qs b n') :
    n.Resumes operand (ps ++ qs) (a.andThen b) n' := by
  obtain ⟨before, hbefore, hparts⟩ := ha.behind
  obtain ⟨before', hbefore', hparts'⟩ := hb.behind
  refine ⟨hb.text.trans ha.text, hb.around.trans ha.around, ?_, ⟨before, hbefore, ?_⟩, ?_, hb.faces⟩
  · rw [hb.errors, ha.errors, ha.text, List.append_assoc, ← List.map_append]
    rfl
  · rw [hparts', ← List.append_assoc, ← hparts, hbefore', List.append_nil]
  · rw [pieces_append, ha.pieces, hb.pieces]
    rfl

/-- What goes on from an operand takes the parts of that operand into its own. -/
theorem resume {a : Operand ts} {b : Operand a.rest} (ha : n.Resumes operand ps a.toStep n₁)
    (hb : n₁.Resumes ps qs b.toStep n') : n.Resumes operand qs (a.resume b).toStep n' := by
  obtain ⟨before, hbefore, hparts⟩ := ha.behind
  obtain ⟨before', hbefore', hparts'⟩ := hb.behind
  obtain rfl : before = before' := List.append_cancel_right (hparts.symm.trans hbefore')
  refine ⟨hb.text.trans ha.text, hb.around.trans ha.around, ?_, ⟨before, hbefore, hparts'⟩, hb.pieces,
    hb.faces⟩
  rw [hb.errors, ha.errors, ha.text, List.append_assoc, ← List.map_append]
  rfl

end Resumes

end Nest

namespace Recording

variable {α β : Type} {x y : Nat → Recording α} {f : Nat → α → Recording β} {a : α} {b : β} {n n₁ n' : Nest}
  {ts : List Token} {operand ps : List Part} {position : Nat} {kind : Kind}

/-- From any record that follows the one session, the rule makes one that follows the other, if markers can tell
all its entries and calls may go deep enough. -/
structure Performs (x : Nat → Recording α) (n : Nest) (a : α) (n' : Nest) : Prop where
  recorded_le : n.recorded ≤ n'.recorded
  runs : n'.recorded ≤ UInt32.size → ∀ r, Follows r n →
    ∃ r', (∃ depth, ∀ d ≥ depth, ((x d).run r).run = some (.ok (a, r'))) ∧ Follows r' n'

theorem Performs.pure : Performs (fun _ => Pure.pure a) n a n :=
  ⟨Nat.le_refl _, fun _ r h => ⟨r, ⟨0, fun _ _ => rfl⟩, h⟩⟩

theorem run_bind {x : Recording α} {f : α → Recording β} {r r' : Recorder} (h : (x.run r).run = some (.ok (a, r'))) :
    ((x >>= f).run r).run = ((f a).run r').run := by
  have hx : x.run r = ExceptT.mk (some (.ok (a, r'))) := h
  rw [StateT.run_bind, hx]
  rfl

theorem Performs.bind (hx : Performs x n a n₁) (hf : Performs (fun d => f d a) n₁ b n') :
    Performs (fun d => x d >>= f d) n b n' := by
  refine ⟨hx.recorded_le.trans hf.recorded_le, fun hfits r h => ?_⟩
  obtain ⟨r₁, ⟨depth₁, hrun₁⟩, h₁⟩ := hx.runs (hf.recorded_le.trans hfits) r h
  obtain ⟨r', ⟨depth, hrun⟩, h'⟩ := hf.runs hfits r₁ h₁
  refine ⟨r', ⟨max depth₁ depth, fun d hd => ?_⟩, h'⟩
  exact (run_bind (hrun₁ d (le_of_max_le_left hd))).trans (hrun d (le_of_max_le_right hd))

/-- A rule that goes one call deeper. -/
theorem Performs.deeper (hx : ∀ d, x (d + 1) = y d) (hy : Performs y n a n') : Performs x n a n' := by
  refine ⟨hy.recorded_le, fun hfits r h => ?_⟩
  obtain ⟨r', ⟨depth, hrun⟩, h'⟩ := hy.runs hfits r h
  refine ⟨r', ⟨depth + 1, fun d hd => ?_⟩, h'⟩
  obtain ⟨d, rfl⟩ := Nat.exists_eq_add_of_le' (Nat.one_le_of_lt hd)
  rw [hx]
  exact hrun d (Nat.le_of_succ_le_succ hd)

section

variable {p : Prop} [Decidable p]

theorem fun_if_pos (h : p) : (fun d => if p then x d else y d) = x := funext fun _ => if_pos h

theorem fun_if_neg (h : ¬p) : (fun d => if p then x d else y d) = y := funext fun _ => if_neg h

end

theorem performs_use {use' : Recorder → Except Fault (α × Recorder)} (hle : n.recorded ≤ n'.recorded)
    (h : n'.recorded ≤ UInt32.size → ∀ r, Follows r n → ∃ r', use' r = .ok (a, r') ∧ Follows r' n') :
    Performs (fun _ => use use') n a n' := by
  refine ⟨hle, fun hfits r hr => ?_⟩
  obtain ⟨r', huse, h'⟩ := h hfits r hr
  exact ⟨r', ⟨0, fun _ _ => congrArg some huse⟩, h'⟩

/-- From this session the rule comes to another, with an outcome of which `Q` holds. -/
def Reaches (x : Nat → Recording α) (n : Nest) (Q : α → Nest → Prop) : Prop :=
  ∃ a n', Performs x n a n' ∧ Q a n'

theorem Performs.reaches {Q : β → Nest → Prop} (hx : Performs x n a n₁)
    (hf : Reaches (fun d => f d a) n₁ Q) : Reaches (fun d => x d >>= f d) n Q := by
  obtain ⟨b, n', hb, hq⟩ := hf
  exact ⟨b, n', hx.bind hb, hq⟩

theorem Reaches.deeper {Q : α → Nest → Prop} (hx : ∀ d, x (d + 1) = y d) (hy : Reaches y n Q) :
    Reaches x n Q := by
  obtain ⟨a, n', ha, hq⟩ := hy
  exact ⟨a, n', .deeper hx ha, hq⟩

/-- A rule that only looks at the text, with the outcome that it gives in front of these tokens. -/
def Looks (x : Nat → Recording α) (ts : List Token) (a : α) : Prop :=
  ∀ n : Nest, n.Faces ts → Performs x n a n

theorem Looks.pure : Looks (fun _ => Pure.pure a) ts a := fun _ _ => .pure

theorem Looks.bind (hx : Looks x ts a) (hf : Looks (fun d => f d a) ts b) :
    Looks (fun d => x d >>= f d) ts b :=
  fun n h => (hx n h).bind (hf n h)

theorem Looks.deeper (hx : ∀ d, x (d + 1) = y d) (hy : Looks y ts a) : Looks x ts a :=
  fun n h => .deeper hx (hy n h)

theorem exists_looks_deeper {P : α → Prop} (hx : ∀ d, x (d + 1) = y d) (hy : ∃ a, Looks y ts a ∧ P a) :
    ∃ a, Looks x ts a ∧ P a := by
  obtain ⟨a, hlooks, ha⟩ := hy
  exact ⟨a, .deeper hx hlooks, ha⟩

theorem looks_kindAt (ts : List Token) (i : Nat) : Looks (fun _ => kindAt i) ts (ahead (ts.drop i)) :=
  fun _ h => performs_use (Nat.le_refl _) fun _ r hr => ⟨r, by rw [hr.ahead, h.drop], hr⟩

theorem looks_next (ts : List Token) : Looks (fun _ => kindAt 0) ts (ahead ts) := looks_kindAt ts 0

theorem looks_isAt (ts : List Token) (k : Kind) : Looks (fun _ => isAt k) ts (ahead ts == k) :=
  (looks_next ts).bind .pure

theorem looks_isAtAny (ts : List Token) (ks : KindSet) : Looks (fun _ => isAtAny ks) ts (ks.contains (ahead ts)) :=
  (looks_next ts).bind .pure

/-- No token of the text is the one for its end. -/
theorem looks_atEnd (ts : List Token) : Looks (fun _ => isAt .eof) ts ts.isEmpty := by
  intro n h
  cases ts with
  | nil => exact looks_isAt [] .eof n h
  | cons t r =>
    have hfound := looks_isAt (t :: r) .eof n h
    rwa [beq_eq_false_iff_ne.mpr (show Grammar.ahead (t :: r) ≠ .eof from h.ahead_ne_eof)] at hfound

theorem looks_assertAt {i : Nat} {k : Kind} (hk : ahead (ts.drop i) = k) : Looks (fun _ => assertAt i k) ts () :=
  fun _ h => performs_use (Nat.le_refl _) fun _ r hr =>
    ⟨r, by rw [hr.ahead, h.drop]; exact if_pos hk, hr⟩

theorem looks_assert {t : Token} {k : Kind} (ht : t.kind = k) (r : List Token) :
    Looks (fun _ => assertAt 0 k) (t :: r) () :=
  looks_assertAt ht

theorem looks_eat {k : Kind} (hk : ahead ts ≠ k) : Looks (fun _ => eat k) ts false := by
  have hfound := looks_isAt ts k
  rw [beq_eq_false_iff_ne.mpr hk] at hfound
  exact hfound.bind .pure

theorem performs_bump (n : Nest) (inImage : Bool) : Performs (fun _ => bump inImage) n () (n.bump inImage) :=
  performs_use (n.grows_bump inImage).recorded fun _ _ hr => ⟨_, rfl, hr.bump inImage⟩

theorem performs_report (n : Nest) (e : SyntaxError) : Performs (fun _ => report e) n () (n.error e.message) :=
  performs_use (n.grows_error _).recorded fun _ _ hr => ⟨_, rfl, hr.error _⟩

theorem performs_start (n : Nest) : Performs (fun _ => start) n ⟨UInt32.ofNat n.recorded⟩ n.start :=
  performs_use n.grows_start.recorded fun _ _ hr => ⟨_, by rw [← hr.start.1], hr.start.2⟩

theorem performs_complete {before : List Part} {around : List (Nat × List Part)}
    (haround : n.around = (position, before) :: around) (hkind : kind.isNode = true ∧ kind ≠ .tombstone) :
    Performs (fun _ => complete ⟨UInt32.ofNat position⟩ kind) n ⟨UInt32.ofNat position, kind⟩
      (n.closing position before around kind) := by
  have hrecorded := Nest.recorded_closing haround kind
  refine performs_use (by omega) fun hfits r hr => ?_
  exact hr.complete haround hkind.1 hkind.2 (by omega)

theorem performs_precede {before inside after : List Part}
    (hparts : n.parts = before ++ .node position kind false inside :: after) :
    Performs (fun _ => precede ⟨UInt32.ofNat position, kind⟩) n ⟨UInt32.ofNat n.recorded⟩
      (n.fronting before position kind inside after) := by
  have hrecorded := Nest.recorded_fronting hparts
  refine performs_use (by omega) fun hfits r hr => ?_
  exact hr.precede hparts (by omega)

/-- The end of a node around what was read since its start. -/
theorem exists_node {s : Step ts} (h : n.start.Reads ps s n₁) (kind : Kind)
    (hkind : kind.isNode = true ∧ kind ≠ .tombstone) : ∃ n',
    Performs (fun _ => complete ⟨UInt32.ofNat n.recorded⟩ kind) n₁ ⟨UInt32.ofNat n.recorded, kind⟩ n' ∧
      n.Reads [.node n.recorded kind false ps] (s.node kind) n' := by
  obtain ⟨before, hbefore, hparts⟩ := h.behind
  obtain rfl : before = [] := by simpa [Nest.start] using hbefore.symm
  refine ⟨_, performs_complete h.around hkind, h.text, rfl, h.errors, ⟨n.parts, by simp, ?_⟩, ?_,
    h.faces.ahead, h.faces.plain⟩
  · rw [Nest.closing, hparts]
    rfl
  · rw [Part.pieces, Part.piece, Part.pieces, h.pieces]
    rfl

/-- The end of a node around an operand and what was read since. -/
theorem exists_around {s : Step ts} {before inside after : List Part} {pieces : List Piece}
    (hparts : n.parts = before ++ .node position kind false inside :: after)
    (hpieces : Part.pieces (.node position kind false inside :: after) = pieces)
    (h : (n.fronting before position kind inside after).Reads ps s n₁) (k : Kind)
    (hk : k.isNode = true ∧ k ≠ .tombstone) : ∃ n' operand,
    Performs (fun _ => complete ⟨UInt32.ofNat n.recorded⟩ k) n₁ ⟨UInt32.ofNat n.recorded, k⟩ n' ∧
      n.Resumes (.node position kind false inside :: after) [.node n.recorded k false operand]
        (Operand.around pieces s k).toStep n' := by
  obtain ⟨before', hbefore, hparts'⟩ := h.behind
  rw [List.append_nil] at hbefore
  refine ⟨_, _, performs_complete h.around hk, h.text, rfl, h.errors, ⟨before, hparts, rfl⟩, ?_,
    h.faces.ahead, h.faces.plain⟩
  rw [hparts', ← hbefore, Part.pieces, Part.piece, Part.pieces, Nest.Resumes.pieces_append, h.pieces]
  rw [← hpieces]
  rfl

end Recording

end JavaSyntax
