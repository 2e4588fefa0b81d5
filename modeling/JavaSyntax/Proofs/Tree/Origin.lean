import JavaSyntax.Proofs.Tree.Heads

namespace JavaSyntax.Branch

/-- What a node of the settled tree was in the tree `b`, if it is not a new type expression. -/
inductive Origin (b : Branch) (c : Branch) : Prop where
  | node (d : Branch) : d ∈ b.subtrees → c = d.disambiguated → Origin b c
  | name (d : Branch) : d ∈ b.subtrees → d.kind = .ambiguousName → c = d.named → Origin b c
  | expression : c.kind = .typeExpression → Origin b c

theorem Origin.mono {a b c : Branch} (h : Origin a c) (ha : ∀ d ∈ a.subtrees, d ∈ b.subtrees) :
    Origin b c := by
  cases h with
  | node d hd hc => exact .node d (ha d hd) hc
  | name d hd hk hc => exact .name d (ha d hd) hk hc
  | expression hk => exact .expression hk

theorem kind_eq_of_named {k : Kind} {image : Option String} {child : Kind}
    (h : Reading.ofNode k image child = .named ∨ Reading.ofNode k image child = .namedAndWrapped) :
    child = .ambiguousName := by
  unfold Reading.ofNode at h
  split at h
  · split at h
    · next hname => exact hname.1
    · split at h <;> rcases h with h | h <;> cases h
  · split at h
    · next hname => exact hname
    · rcases h with h | h <;> cases h
  · split at h
    · next hname => exact hname
    · rcases h with h | h <;> cases h
  · rcases h with h | h <;> cases h

theorem named_disambiguated (b : Branch) : b.disambiguated.named = b.named := by
  have hhead := head_disambiguated b
  rw [named, named, span_disambiguated, show b.disambiguated.image = b.image from congrArg Head.image hhead]

/-- The settled first child of a node, given where the nodes of the child come from. -/
theorem origin_read {b : Branch} (h : ∀ c ∈ b.disambiguated.subtrees, Origin b c) (k : Kind)
    (image : Option String) :
    ∀ c ∈ (b.disambiguated.read (.ofNode k image b.disambiguated.kind)).subtrees, Origin b c := by
  have hkind : b.disambiguated.kind = b.kind := congrArg Head.kind (head_disambiguated b)
  have hnamed : b.kind = .ambiguousName → ∀ c ∈ b.disambiguated.named.subtrees, Origin b c := by
    intro hk c hc
    rw [List.mem_singleton.mp hc]
    exact .name b b.mem_subtrees_self hk (named_disambiguated b)
  have hwrapped : ∀ {d : Branch}, (∀ c ∈ d.subtrees, Origin b c) → ∀ c ∈ d.wrapped.subtrees, Origin b c := by
    intro d hd c hc
    rcases List.mem_cons.mp hc with rfl | hc
    · exact .expression rfl
    · rw [subtreesOfAll, subtreesOfAll, List.append_nil] at hc
      exact hd c hc
  rw [hkind]
  cases hr : Reading.ofNode k image b.kind with
  | kept => exact h
  | wrapped => exact hwrapped h
  | named => exact hnamed (kind_eq_of_named (.inl hr))
  | namedAndWrapped => exact hwrapped (hnamed (kind_eq_of_named (.inr hr)))

mutual

theorem origin_of_mem : ∀ b : Branch, ∀ c ∈ b.disambiguated.subtrees, Origin b c
  | ⟨k, image, span, children⟩, c, hc => by
    have hself : Origin ⟨k, image, span, children⟩ (disambiguated ⟨k, image, span, children⟩) :=
      .node _ (mem_subtrees_self _) rfl
    have hbelow : ∀ b ∈ children, ∀ d ∈ b.subtrees, d ∈ subtrees ⟨k, image, span, children⟩ :=
      fun b hb => subtrees_subset (mem_subtrees_of_child hb)
    change c ∈ (settleFirst ⟨k, image, span, Branch.rebuiltAll settleFirst children⟩).subtrees at hc
    cases children with
    | nil =>
      rw [List.mem_singleton.mp hc]
      exact hself
    | cons d ds =>
      -- Only the first child can have been put in another's place.
      rcases List.mem_cons.mp hc with rfl | hc
      · exact hself
      · rcases List.mem_append.mp hc with hc | hc
        · exact (origin_read (origin_of_mem d) k image c hc).mono (hbelow d List.mem_cons_self)
        · obtain ⟨e, he, ho⟩ := origin_of_mem_all ds c hc
          exact ho.mono (hbelow e (List.mem_cons_of_mem _ he))

theorem origin_of_mem_all : ∀ bs : List Branch, ∀ c ∈ subtreesOfAll (rebuiltAll settleFirst bs),
    ∃ b ∈ bs, Origin b c
  | [], c, hc => by cases hc
  | b :: bs, c, hc => by
    rcases List.mem_append.mp hc with hc | hc
    · exact ⟨b, List.mem_cons_self, origin_of_mem b c hc⟩
    · obtain ⟨d, hd, ho⟩ := origin_of_mem_all bs c hc
      exact ⟨d, List.mem_cons_of_mem _ hd, ho⟩

end

end JavaSyntax.Branch
