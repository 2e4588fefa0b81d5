import JavaSyntax.Proofs.Draft.Disambiguation

namespace JavaSyntax.Branch

/-- The name of a class type with the payload and the span of a name. -/
def named (b : Branch) : Branch := ⟨.classType, b.image, b.span, []⟩

/-- A type expression that covers what it is around. -/
def wrapped (b : Branch) : Branch := ⟨.typeExpression, none, b.span, [b]⟩

def read (b : Branch) : Reading → Branch
  | .kept => b
  | .wrapped => b.wrapped
  | .named => b.named
  | .namedAndWrapped => b.named.wrapped

/-- Settles the first child and leaves the rest of the node as it is. -/
def settleFirst (b : Branch) : Branch :=
  match b.children with
  | [] => b
  | c :: cs => { b with children := c.read (.ofNode b.kind b.image c.kind) :: cs }

mutual

/-- Applies a change to every node, children first. -/
def rebuilt (G : Branch → Branch) : Branch → Branch
  | ⟨kind, image, span, children⟩ => G ⟨kind, image, span, rebuiltAll G children⟩

def rebuiltAll (G : Branch → Branch) : List Branch → List Branch
  | [] => []
  | b :: bs => b.rebuilt G :: rebuiltAll G bs

end

/-- The tree with its names settled. -/
def disambiguated : Branch → Branch := rebuilt settleFirst

theorem rebuiltAll_append (G : Branch → Branch) (bs cs : List Branch) :
    rebuiltAll G (bs ++ cs) = rebuiltAll G bs ++ rebuiltAll G cs := by
  induction bs with
  | nil => rfl
  | cons b bs ih => simp only [List.cons_append, rebuiltAll, ih]

mutual

theorem rebuilt_id : ∀ b : Branch, b.rebuilt id = b
  | ⟨_, _, _, children⟩ => by rw [rebuilt, rebuiltAll_id children]; rfl

theorem rebuiltAll_id : ∀ bs : List Branch, rebuiltAll id bs = bs
  | [] => rfl
  | b :: bs => by rw [rebuiltAll, rebuilt_id b, rebuiltAll_id bs]

end

mutual

/-- The branch and all nodes below it, in document order. -/
def subtrees : Branch → List Branch
  | ⟨kind, image, span, children⟩ => ⟨kind, image, span, children⟩ :: subtreesOfAll children

def subtreesOfAll : List Branch → List Branch
  | [] => []
  | b :: bs => b.subtrees ++ subtreesOfAll bs

end

theorem mem_subtrees_self (b : Branch) : b ∈ b.subtrees := by
  cases b
  exact List.mem_cons_self

theorem subtreesOfAll_append (bs cs : List Branch) :
    subtreesOfAll (bs ++ cs) = subtreesOfAll bs ++ subtreesOfAll cs := by
  induction bs with
  | nil => rfl
  | cons b bs ih => simp only [List.cons_append, subtreesOfAll, ih, List.append_assoc]

@[simp] theorem span_settleFirst (b : Branch) : b.settleFirst.span = b.span := by
  unfold settleFirst
  split <;> rfl

theorem span_read (b : Branch) (r : Reading) : (b.read r).span = b.span := by
  cases r <;> rfl

theorem span_disambiguated : ∀ b : Branch, b.disambiguated.span = b.span
  | ⟨_, _, _, _⟩ => span_settleFirst _

theorem reading_typeExpression (k : Kind) (image : Option String) :
    Reading.ofNode k image .typeExpression = .kept := by
  unfold Reading.ofNode
  split <;> simp [Kind.isType]

/-- A first child that was settled is not settled again. -/
theorem reading_read (k : Kind) (image : Option String) (c : Branch) :
    Reading.ofNode k image (c.read (.ofNode k image c.kind)).kind = .kept := by
  cases hr : Reading.ofNode k image c.kind with
  | kept => exact hr
  | wrapped => exact reading_typeExpression k image
  | namedAndWrapped => exact reading_typeExpression k image
  | named =>
    change Reading.ofNode k image .classType = .kept
    unfold Reading.ofNode at hr
    split at hr
    · split at hr
      · cases hr
      · split at hr <;> cases hr
    · rfl
    · split at hr <;> cases hr
    · cases hr

theorem disambiguated_read {c : Branch} (hc : c.disambiguated = c) (r : Reading) :
    (c.read r).disambiguated = c.read r := by
  have hwrapped : ∀ {b : Branch}, b.disambiguated = b → b.wrapped.disambiguated = b.wrapped := by
    intro b hb
    change settleFirst ⟨.typeExpression, none, b.span, [b.disambiguated]⟩ = _
    rw [hb]
    rfl
  cases r with
  | kept => exact hc
  | wrapped => exact hwrapped hc
  | named => rfl
  | namedAndWrapped => exact hwrapped rfl

theorem disambiguated_settleFirst (k : Kind) (image : Option String) (span : Span)
    {cs : List Branch} (hcs : rebuiltAll settleFirst cs = cs) :
    (settleFirst ⟨k, image, span, cs⟩).disambiguated = settleFirst ⟨k, image, span, cs⟩ := by
  cases cs with
  | nil => rfl
  | cons c cs =>
    obtain ⟨hc, hcs⟩ := List.cons.inj hcs
    have hread := disambiguated_read hc (.ofNode k image c.kind)
    simp only [settleFirst, disambiguated, rebuilt, rebuiltAll] at hread ⊢
    rw [hread, hcs, reading_read]
    rfl

mutual

/-- Settling the names of a tree again changes nothing. -/
theorem disambiguated_idem : ∀ b : Branch, b.disambiguated.disambiguated = b.disambiguated
  | ⟨k, image, span, children⟩ =>
    disambiguated_settleFirst k image span (rebuiltAll_settleFirst_idem children)

theorem rebuiltAll_settleFirst_idem : ∀ bs : List Branch,
    rebuiltAll settleFirst (rebuiltAll settleFirst bs) = rebuiltAll settleFirst bs
  | [] => rfl
  | b :: bs => by
    have hb := disambiguated_idem b
    rw [disambiguated] at hb
    rw [rebuiltAll, rebuiltAll, hb, rebuiltAll_settleFirst_idem bs]

end

/-- What is said of a node and does not depend on more of its children than their spans, and holds of
the new nodes if it holds of the nodes they replace. -/
structure Lasting (P : Branch → Prop) : Prop where
  children : ∀ k image span (cs ds : List Branch), cs.map Branch.span = ds.map Branch.span →
    P ⟨k, image, span, cs⟩ → P ⟨k, image, span, ds⟩
  named : ∀ b, P b → P b.named
  wrapped : ∀ b, P b → P b.wrapped

theorem spans_rebuiltAll (bs : List Branch) :
    (rebuiltAll settleFirst bs).map Branch.span = bs.map Branch.span := by
  induction bs with
  | nil => rfl
  | cons b bs ih =>
    rw [rebuiltAll, List.map_cons, List.map_cons, ih]
    congr 1
    exact span_disambiguated b

variable {P : Branch → Prop}

theorem Lasting.read (hP : Lasting P) {b : Branch} (h : ∀ c ∈ b.subtrees, P c) (r : Reading) :
    ∀ c ∈ (b.read r).subtrees, P c := by
  have hb := h b b.mem_subtrees_self
  have hnamed : ∀ c ∈ b.named.subtrees, P c := by
    intro c hc
    rw [List.mem_singleton.mp hc]
    exact hP.named b hb
  have hwrapped : ∀ {b : Branch}, (∀ c ∈ b.subtrees, P c) → ∀ c ∈ b.wrapped.subtrees, P c := by
    intro b hb c hc
    rcases List.mem_cons.mp hc with rfl | hc
    · exact hP.wrapped b (hb b b.mem_subtrees_self)
    · rw [subtreesOfAll, subtreesOfAll, List.append_nil] at hc
      exact hb c hc
  cases r with
  | kept => exact h
  | wrapped => exact hwrapped h
  | named => exact hnamed
  | namedAndWrapped => exact hwrapped hnamed

mutual

/-- What lasts and holds of all nodes of a tree holds of them once their names are settled. -/
theorem Lasting.disambiguated (hP : Lasting P) : ∀ b : Branch, (∀ c ∈ b.subtrees, P c) →
    ∀ c ∈ b.disambiguated.subtrees, P c
  | ⟨k, image, span, children⟩, h => by
    have hbelow := hP.rebuiltAll children fun c hc => h c (List.mem_cons_of_mem _ hc)
    have hspans : (Branch.rebuiltAll settleFirst children).map Branch.span = children.map Branch.span :=
      spans_rebuiltAll children
    have hself := h _ (mem_subtrees_self _)
    change ∀ c ∈ (settleFirst ⟨k, image, span, Branch.rebuiltAll settleFirst children⟩).subtrees, P c
    cases hcs : Branch.rebuiltAll settleFirst children with
    | nil =>
      rw [hcs] at hspans
      intro c hc
      rw [List.mem_singleton.mp hc]
      exact hP.children _ _ _ _ _ hspans.symm hself
    | cons d ds =>
      rw [hcs] at hspans hbelow
      intro c hc
      rcases List.mem_cons.mp hc with rfl | hc
      · refine hP.children _ _ _ _ _ (hspans.symm.trans ?_) hself
        rw [List.map_cons, List.map_cons, span_read]
      · rcases List.mem_append.mp hc with hc | hc
        · exact hP.read (fun e he => hbelow e (List.mem_append_left _ he)) _ c hc
        · exact hbelow c (List.mem_append_right _ hc)

theorem Lasting.rebuiltAll (hP : Lasting P) : ∀ bs : List Branch, (∀ c ∈ subtreesOfAll bs, P c) →
    ∀ c ∈ subtreesOfAll (Branch.rebuiltAll settleFirst bs), P c
  | [], _, c, hc => by cases hc
  | b :: bs, h, c, hc => by
    rcases List.mem_append.mp hc with hc | hc
    · exact hP.disambiguated b (fun d hd => h d (List.mem_append_left _ hd)) c hc
    · exact hP.rebuiltAll bs (fun d hd => h d (List.mem_append_right _ hd)) c hc

end

end JavaSyntax.Branch
